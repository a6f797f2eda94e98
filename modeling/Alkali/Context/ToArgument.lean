import Alkali.Dependency.Events
import Alkali.Linearize.Walks

/-!
# Context fields as arguments

`ContextBufferizationAnalysis` collects the fields of the context for each component of
the handler graph. `ContextToArgumentPass` gives every handler the fields of its
component as arguments and every event the values of these fields as operands, in place
of the context. The events and the handlers are rewritten independently of each other. The
loads that pass the fields are then promoted by `mem2reg`, of which only the documented
behaviour is used.
-/

namespace Alkali

open Fallible HandlerDependencyAnalysis List

/-- The fields of a context with their types. -/
abbrev ContextTable := List (String × Ty)

/-- `try_emplace`: a field without a type gets that of the next reference. Another type
than that of the table is reported and ignored. -/
def ContextTable.add (table : ContextTable) (ref : String × Ty) : ContextTable :=
  match table.lookup ref.1 with
  | none => table ++ [ref]
  | some .any => table.map fun e => if e.1 = ref.1 then ref else e
  | some _ => table

namespace FuncOp

variable (f : FuncOp)

/-- The fields that the `ContextRefOp`s of a function refer to. -/
def contextRefs : List (String × Ty) :=
  f.walk.filterMap fun o =>
    match o with
    | .plain ⟨_, .contextRef field, _, [(_, .contextRef ty)]⟩ => some (field, ty)
    | _ => none

def isContext (v : Value) : Bool := f.typeOf v = some .context

/-- The types of what a function stores to a field and loads from it. -/
def fieldTypes (field : String) : List (Option Ty) :=
  f.walk.filterMap fun o =>
    match o with
    | .plain ⟨_, .store name, operands, _⟩ =>
      if name = field then some (operands[1]?.bind f.typeOf) else none
    | .plain ⟨_, .load name, _, results⟩ =>
      if name = field then some (results.head?.map Prod.snd) else none
    | _ => none

/-- The instructions in front of an operation, on a walk. -/
def Before (op : PlainOp) (code : List Instr) : Prop :=
  ∃ w rest, f.Walk 0 w ∧ f.code w = code ++ .op (.plain op) :: rest

end FuncOp

namespace ContextToArgument

/-! ## Promotion -/

/-- The definitions of a field that can reach the end of an instruction. A guarded store does
not hide those before it. -/
def define (field : String) (defs : List (Option PlainOp)) : Instr → List (Option PlainOp)
  | .op (.plain op) => if op.kind = .store field then [some op] else defs
  | .op (.guard _ _ _ op) => if op.kind = .store field then some op :: defs else defs
  | _ => defs

/-- The definitions that can reach the end of some instructions: stores, or none for what the
field is at first. -/
def reaching (field : String) (code : List Instr) : List (Option PlainOp) :=
  code.foldl (define field) [none]

/-- A store is the only definition of a field that reaches an operation. -/
def OnlyStore (f : FuncOp) (op : PlainOp) (field : String) (store : PlainOp) : Prop :=
  ∀ code, f.Before op code → ∀ d ∈ reaching field code, d = some store

/-- All that a function stores to the fields of a table and loads from them has the types of
the fields. -/
def FieldsFit (f : FuncOp) (table : ContextTable) : Prop :=
  ∀ e ∈ table, ∀ ty ∈ f.fieldTypes e.1, ty = some e.2
  deriving Decidable

/-- The pipeline on a function whose references are to the fields of a table: whether it
succeeds, and the stored value that replaces the load of a field in front of an event. A
load that no stored value replaces becomes an argument or an initial value. -/
structure Mem2Reg where
  succeeds : FuncOp → ContextTable → Bool
  loads : FuncOp → PlainOp → String → Option Value

/-- What is documented: where more than one definition reaches a load there is a block
argument, which has the type of the slot, and blocks are left with arguments of other types
only if the function has values of other types. -/
structure Mem2Reg.Documented (M : Mem2Reg) : Prop where
  loads : ∀ f op field v, (∃ code, f.Before op code) → (M.loads f op field = some v ↔
    ∃ store, OnlyStore f op field store ∧ store.operands[1]? = some v)
  succeeds : ∀ f table, FieldsFit f table → M.succeeds f table

/-- An operand of an event: a value of the function before the pass, or an argument or an
initial value for a field of the context. -/
inductive EventOperand
  | value (v : Value)
  | slot (ty : Ty)
  deriving DecidableEq, Repr

/-- What replaces the load of a field in front of an event. -/
def Mem2Reg.loaded (M : Mem2Reg) (f : FuncOp) (op : PlainOp) (e : String × Ty) : EventOperand :=
  ((M.loads f op e.1).map .value).getD (.slot e.2)

/-! ## Rewriting -/

/-- The operands of an event, or the arguments of a function, each with its name: that of
the field of the context or none. -/
def unnamed {α β : Type} (f : α → β) (l : List α) : List (String × β) := l.map fun a => ("", f a)

/-- A function after the pass: its arguments and the operands of its events. -/
structure ArgumentFunc where
  origin : ModuleFunc
  args : List (String × Ty)
  inits : List (PlainOp × List (String × EventOperand))

variable (moduleOp : List ModuleFunc)

/-- The context of a component: the references in its functions, in their order. -/
def contextTable (order : List FuncId) : ContextTable :=
  (order.flatMap fun i => ((moduleOp.find? (·.id = i)).map (·.func.contextRefs)).getD []).foldl
    .add []

/-- `getContextTable`: the code asserts that the function is in a component. -/
def getContextTable (orders : List (List FuncId)) (i : FuncId) : Option ContextTable :=
  (orders.find? (i ∈ ·)).map (contextTable moduleOp)

variable (M : Mem2Reg) (f : FuncOp)

/-- `insertContextToArguments` and `removeContextArgument`. -/
def rewriteArguments (table : Option ContextTable) (inserts : Bool) : Option (List (String × Ty)) :=
  if f.args.any (·.2 = .context) then
    table.map fun t =>
      unnamed Prod.snd (f.args.eraseP (·.2 = .context)) ++ if inserts then t else []
  else some (unnamed Prod.snd f.args)

def rewriteEventInit (table : Option ContextTable) (noContext : Bool) (op : PlainOp) :
    Option (List (String × EventOperand)) :=
  if op.operands.any f.isContext then
    table.map fun t =>
      unnamed .value (op.operands.eraseP f.isContext) ++
        (if noContext then [] else t).map fun e => (e.1, M.loaded f op e)
  else some (unnamed .value op.operands)

section Pass

variable (keepLastContext : Bool) (moduleOp : List ModuleFunc) (d : Dependencies)
  (orders : List (List FuncId))

/-- The events of a function. The handler of an event is dereferenced before the event is
rewritten. -/
def rewriteInit (f : ModuleFunc) (op : PlainOp) :
    Option (PlainOp × List (String × EventOperand)) := do
  let nextHandler ← lookupInit moduleOp f.func op
  let noContext := !keepLastContext && nextHandler.isExtern && !(nextHandler.id ∈ d.externForward)
  let operands ← rewriteEventInit M f.func (getContextTable moduleOp orders f.id) noContext op
  some (op, operands)

/-- Externs are left as they are. Where the pipeline fails the pass does. -/
def runOnFunction (f : ModuleFunc) : Option ArgumentFunc :=
  if f.isExtern then
    some ⟨f, unnamed Prod.snd f.func.args,
      f.func.eventInits.map fun op => (op, unnamed .value op.operands)⟩
  else do
    let args ← rewriteArguments f.func (getContextTable moduleOp orders f.id)
      (hasPredecessor d f || f.id ∈ d.externForward)
    let inits ← f.func.eventInits.mapM (rewriteInit M keepLastContext moduleOp d orders f)
    if M.succeeds f.func ((getContextTable moduleOp orders f.id).getD []) then
      some ⟨f, args, inits⟩
    else none

end Pass

/-- The pass, with fuel for the search of the components. -/
def contextToArgument (keepLastContext : Bool) (fuel : Nat) (moduleOp : List ModuleFunc) :
    Option (List ArgumentFunc) := do
  let d ← (HandlerDependencyAnalysis.analyze moduleOp).toOption
  let (_, orders) ← HandlerGraph.getConnectedComponents d.graph fuel
  moduleOp.mapM (runOnFunction M keepLastContext moduleOp d orders)

/-! ## What the events pass -/

def EventOperand.typeIn : EventOperand → Option Ty
  | value v => f.typeOf v
  | slot ty => some ty

/-- The operands of an event without its atom. -/
def dropAtom : List (String × EventOperand) → List (String × EventOperand)
  | (name, .value v) :: rest =>
    if f.typeOf v = some .atom then rest else (name, .value v) :: rest
  | operands => operands

/-- A handler returns an event, which a walk reaches, for a handler that is no extern. -/
structure Emits (f : ModuleFunc) (op : PlainOp) (g : ModuleFunc) : Prop where
  handler : f ∈ handlersOf moduleOp
  returned : f.func.Returned op
  target : lookupInit moduleOp f.func op = some g
  inner : ¬ g.isExtern
  reached : ∃ code, f.func.Before op code

/-- The operands of every event are the arguments of its handler: their order, their names
and their types. -/
def Corresponds (out : List ArgumentFunc) : Prop :=
  ∀ a ∈ out, ∀ op operands, (op, operands) ∈ a.inits → ∀ b ∈ out,
    Emits moduleOp a.origin op b.origin →
      (dropAtom a.origin.func operands).map (fun e => (e.1, e.2.typeIn a.origin.func)) =
        b.args.map fun e => (e.1, some e.2)

/-- Every handler takes one context, every event has one, and the fields have names. -/
structure PassesContext : Prop where
  handlers : ∀ g ∈ handlersOf moduleOp, ¬ g.isExtern → g.func.args.countP (·.2 = .context) = 1
  events : ∀ f op g, Emits moduleOp f op g → ∃ a vs, op.operands = a :: vs ∧
    f.func.typeOf a = some .atom ∧ vs.any f.func.isContext
  fields : ∀ f ∈ moduleOp, ∀ ref ∈ f.func.contextRefs, ref.1 ≠ ""

/-- The types of what an event passes in addition to the context. -/
def passed (op : PlainOp) : List (Option Ty) :=
  ((f.mapped op.operands).eraseP f.isContext).map f.typeOf

/-- The types of what a handler takes in addition to the context. -/
def taken (g : FuncOp) : List (Option Ty) :=
  (g.args.eraseP (·.2 = .context)).map fun a => some a.2

/-- The table of the component of a function. -/
def TableOf (f : ModuleFunc) (table : ContextTable) : Prop :=
  ∃ d n subGraphs orders, HandlerDependencyAnalysis.analyze moduleOp = .ok d ∧
    HandlerGraph.getConnectedComponents d.graph n = some (subGraphs, orders) ∧
    getContextTable moduleOp orders f.id = some table

/-- What the pass needs where the pipeline succeeds. -/
structure Handled : Prop where
  /-- Every event that a function makes has a handler. -/
  handled : ∀ f ∈ moduleOp, ¬ f.isExtern → ∀ op ∈ f.func.eventInits,
    (lookupInit moduleOp f.func op).isSome
  /-- Only handlers have a context. -/
  contexts : ∀ f ∈ moduleOp, ¬ f.isExtern → f.type ≠ .handler →
    (∀ a ∈ f.func.args, a.2 ≠ .context) ∧
      ∀ op ∈ f.func.eventInits, ∀ v ∈ op.operands, ¬ f.func.isContext v

/-- What the pass needs to succeed. -/
structure Accepted : Prop extends Handled moduleOp where
  /-- Fields are stored and loaded with their types. -/
  fields : ∀ f ∈ moduleOp, ¬ f.isExtern → ∀ table, TableOf moduleOp f table →
    FieldsFit f.func table

/-- What the events need to be right. -/
structure Sound : Prop where
  /-- Externs return no event to another handler. -/
  externs : ∀ f op g, Emits moduleOp f op g → ¬ f.isExtern
  /-- The other operands of an event are those of its handler. -/
  others : ∀ f op g, Emits moduleOp f op g → passed f.func op = taken g.func
  /-- A store that alone reaches an event stores a value of the type of the field. -/
  stores : ∀ f op g, Emits moduleOp f op g → ∀ table, TableOf moduleOp f table →
    ∀ e ∈ table, ∀ store v, OnlyStore f.func op e.1 store → store.operands[1]? = some v →
      f.func.typeOf v = some e.2

/-! ## Tables -/

variable {table : ContextTable}
variable {ref e : String × Ty} {refs : List (String × Ty)} {field : String}

theorem ContextTable.mem_add (h : e ∈ table.add ref) : e ∈ table ∨ e = ref := by
  rw [ContextTable.add] at h
  split at h
  · simpa using h
  · obtain ⟨e', he', rfl⟩ := mem_map.mp h
    split_ifs
    · exact Or.inr rfl
    · exact Or.inl he'
  · exact Or.inl h

theorem mem_foldl_add (h : e ∈ refs.foldl .add table) : e ∈ table ∨ e ∈ refs := by
  induction refs generalizing table with
  | nil => exact Or.inl h
  | cons ref refs ih =>
    rcases ih h with h | h
    · rcases ContextTable.mem_add h with h | rfl
      · exact Or.inl h
      · exact Or.inr mem_cons_self
    · exact Or.inr (mem_cons_of_mem _ h)

theorem ContextTable.mem_names_add :
    field ∈ (table.add ref).map Prod.fst ↔ field ∈ table.map Prod.fst ∨ field = ref.1 := by
  have hold : ∀ {ty}, table.lookup ref.1 = some ty → ref.1 ∈ table.map Prod.fst := by
    intro ty hlk
    by_contra hnot
    rw [lookup_eq_none_iff.mpr fun e he => by
      simpa using fun heq => hnot (mem_map.mpr ⟨e, he, heq.symm⟩)] at hlk
    cases hlk
  rw [ContextTable.add]
  split
  · simp
  · rename_i hlk
    have hnms : (table.map fun e => if e.1 = ref.1 then ref else e).map Prod.fst =
        table.map Prod.fst := by
      rw [map_map]
      refine map_congr_left fun e _ => ?_
      rw [Function.comp_apply]
      split_ifs with heq
      · exact heq.symm
      · rfl
    rw [hnms]
    exact ⟨Or.inl, fun h => h.elim id fun heq => heq ▸ hold hlk⟩
  · rename_i hlk
    exact ⟨Or.inl, fun h => h.elim id fun heq => heq ▸ hold hlk⟩

theorem mem_names_foldl_add : field ∈ (refs.foldl .add table).map Prod.fst ↔
      field ∈ table.map Prod.fst ∨ field ∈ refs.map Prod.fst := by
  induction refs generalizing table with
  | nil => simp
  | cons ref refs ih =>
    rw [foldl_cons, ih, ContextTable.mem_names_add, map_cons, mem_cons, or_assoc]

section Module

variable {moduleOp : List ModuleFunc} {orders : List (List FuncId)}
variable {f g : ModuleFunc} {i : FuncId} {op : PlainOp}

/-- The table of a function has all fields that the function refers to. -/
theorem mem_names_of_getContextTable (hids : (moduleOp.map ModuleFunc.id).Nodup)
    (hf : f ∈ moduleOp) {table : ContextTable}
    (h : getContextTable moduleOp orders f.id = some table) {ref : String × Ty}
    (href : ref ∈ f.func.contextRefs) : ref.1 ∈ table.map Prod.fst := by
  obtain ⟨order, hord, rfl⟩ := Option.map_eq_some_iff.mp h
  have hmem : f.id ∈ order := by simpa using find?_some hord
  refine mem_names_foldl_add.mpr (Or.inr (mem_map_of_mem
    (mem_flatMap.mpr ⟨f.id, hmem, ?_⟩)))
  rw [ModuleFunc.find?_id hids hf]
  exact href

/-- The fields of a table are those that some function refers to. -/
theorem exists_ref_of_getContextTable {table : ContextTable}
    (h : getContextTable moduleOp orders i = some table) {e : String × Ty} (he : e ∈ table) :
    ∃ f ∈ moduleOp, e ∈ f.func.contextRefs := by
  obtain ⟨order, -, rfl⟩ := Option.map_eq_some_iff.mp h
  rcases mem_foldl_add he with he | he
  · cases he
  · obtain ⟨j, -, he⟩ := mem_flatMap.mp he
    cases hfind : moduleOp.find? (·.id = j) with
    | none => simp [hfind] at he
    | some f =>
      rw [hfind] at he
      exact ⟨f, mem_of_find?_eq_some hfind, he⟩

theorem exists_getContextTable_iff :
    (∃ table, getContextTable moduleOp orders i = some table) ↔ ∃ order ∈ orders, i ∈ order := by
  simp [getContextTable, ← Option.isSome_iff_exists]

/-- Handlers that an edge joins have the same table. -/
theorem getContextTable_eq_of_linked {graph : OrderedMap FuncId (List FuncId)}
    (hgroups : HandlerGraph.Groups graph orders) {j : FuncId} (h : HandlerGraph.Linked graph i j) :
    getContextTable moduleOp orders i = getContextTable moduleOp orders j := by
  rw [getContextTable, getContextTable]
  congr 1
  exact find?_congr fun order hord => by simp [hgroups.closed order hord i j h]

/-! ## Events and edges -/

theorem Emits.mem_eventInits (h : Emits moduleOp f op g) : op ∈ f.func.eventInits := by
  obtain ⟨tys, event, name, hkind, -, -⟩ := exists_kind_of_lookupInit h.target
  exact mem_eventInits_of_returned h.returned hkind

/-- A returned event is an edge. -/
theorem Emits.sends (hnms : NamesDefined moduleOp) (h : Emits moduleOp f op g) :
    Sends moduleOp f g :=
  sends_of_returned hnms h.handler h.returned h.target

theorem Emits.target_mem (h : Emits moduleOp f op g) : g ∈ handlersOf moduleOp :=
  mem_of_lookupInit h.target

end Module

end ContextToArgument

end Alkali
