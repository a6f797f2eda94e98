import Alkali.Lowering.Backend

/-!
# Partitioned globals

`ArchMappingPass` gives a global the instances of the handlers in its scope, one handler after
the other. `LowerLLVMPass` clones the global for its instances and a handler for its own, and
renames the globals in the clones of the handler.
-/

namespace Alkali

open List

def HandlerFullName.join (n : HandlerFullName) : String :=
  n.event ++ if n.atom = "" then "" else ":" ++ n.atom

namespace GlobalPartition

/-- A global; its scope is a list of handlers. -/
structure GlobalOp where
  name : String
  scope : Option (List String)
  deriving DecidableEq, Repr

/-- A function with the attribute `instances` and the globals whose address it takes. -/
structure Func where
  fullName : HandlerFullName
  instances : Option (List String)
  addresses : List String
  deriving DecidableEq, Repr

structure Module where
  globals : List GlobalOp
  funcs : List Func
  deriving DecidableEq, Repr

/-- The loop over the handlers of a scope, for one function. -/
def forScope {α : Type} (set : List String → α → α) (f : Func) (g : GlobalOp) (a : α) : α :=
  match g.scope with
  | none => a
  | some handlers => handlers.foldl (fun a h =>
    if f.fullName.join ≠ h then a
    else match f.instances with
      | none => a
      | some attr => set attr a) a

variable (funcs : List Func) (g : GlobalOp)

/-- The attribute `instances` of a global after the loop over the functions. -/
def globalInstances : Option (List String) :=
  funcs.foldl (fun a f => forScope (fun attr _ => some attr) f g a) none

variable (globals : List GlobalOp)

/-- The attributes `instances_` of a function after the walk over the globals. -/
def partitions (f : Func) : String → Option (List String) :=
  globals.foldl (fun a g => forScope (fun attr a => Function.update a g.name (some attr)) f g a)
    fun _ => none

/-- The name of the global for an instance. -/
def instanceName (name i : String) : String := name ++ "_" ++ i

namespace Module

variable (m : Module)

/-- The globals after the lowering. -/
def globalNames : List String :=
  (m.globals.flatMap fun g =>
      ((globalInstances m.funcs g).getD []).map (instanceName g.name)) ++
    m.globals.map GlobalOp.name

/-- The global that replaces another one in a clone of a function. -/
def renamed (f : Func) (index : Nat) (name : String) : Option String :=
  match partitions m.globals f name with
  | none => some name
  | some vec => if vec = [] then some name else (vec[index]?).map (instanceName name)

/-- Each address of a partitioned global in a clone is that of a global. -/
def Resolved : Prop :=
  ∀ f ∈ m.funcs, ∀ instances, f.instances = some instances → ∀ index < instances.length,
    ∀ name ∈ f.addresses, partitions m.globals f name ≠ none →
      ∃ n ∈ m.globalNames, m.renamed f index name = some n

end Module

/-! ## The attributes -/

/-- A function in the scope of a global. -/
def GlobalOp.inScope (f : Func) : Bool :=
  g.scope.any fun handlers => handlers.contains f.fullName.join

/-- The last handler in the scope of a global that has instances. -/
def lastInstances : Option (List String) :=
  (funcs.filter g.inScope).filterMap Func.instances |>.getLast?

/-- A global of the lowered module has its name from the source, or from the last handler in the
scope of a global. -/
def Module.Named (m : Module) (n : String) : Prop :=
  ∃ g ∈ m.globals, n = g.name ∨ ∃ i ∈ (lastInstances m.funcs g).getD [], n = instanceName g.name i

section Attributes

variable {α : Type} {set : List String → α → α} (f : Func) (g : GlobalOp) (a : α)

theorem forScope_of_none (h : f.instances = none) : forScope set f g a = a := by
  rw [forScope]
  split
  · rfl
  · simp only [h, ite_self]
    exact foldl_fixed _

/-- To set an attribute again changes nothing. -/
theorem forScope_of_some {attr : List String} (h : f.instances = some attr)
    (hset : ∀ a, set attr (set attr a) = set attr a) :
    forScope set f g a = if g.inScope f then set attr a else a := by
  rw [forScope, GlobalOp.inScope]
  cases g.scope with
  | none => rfl
  | some handlers =>
    simp only [h, Option.any_some, contains_iff_mem]
    induction handlers generalizing a with
    | nil => rfl
    | cons x handlers ih =>
      rw [foldl_cons, ih]
      by_cases hx : f.fullName.join = x
      · simp [hx, hset]
      · simp [hx]

end Attributes

theorem globalInstances_eq : globalInstances funcs g = lastInstances funcs g := by
  induction funcs using List.reverseRecOn with
  | nil => rfl
  | append_singleton funcs f ih =>
    rw [globalInstances] at ih ⊢
    rw [foldl_append, ih, foldl_cons, foldl_nil, lastInstances, lastInstances,
      filter_append, filterMap_append, getLast?_append]
    cases h : f.instances with
    | none =>
      rw [forScope_of_none f g _ h]
      cases hscope : g.inScope f <;> simp [hscope, h]
    | some attr =>
      rw [forScope_of_some f g _ h fun _ => rfl]
      cases hscope : g.inScope f <;> simp [hscope, h]

/-- A function has its own instances for every global that it is in the scope of. -/
theorem partitions_eq (f : Func) (name : String) : partitions globals f name =
      if ∃ g ∈ globals, g.name = name ∧ g.inScope f then f.instances else none := by
  induction globals using List.reverseRecOn with
  | nil => simp [partitions]
  | append_singleton globals g ih =>
    rw [partitions] at ih ⊢
    rw [foldl_append, foldl_cons, foldl_nil]
    cases h : f.instances with
    | none => simpa [forScope_of_none f g _ h, h] using ih
    | some attr =>
      rw [forScope_of_some f g _ h fun a => Function.update_idem _ _ a]
      rw [h] at ih
      by_cases hname : g.name = name
      · subst hname
        cases hscope : g.inScope f <;> simp [hscope, ih, or_and_right, exists_or]
      · cases hscope : g.inScope f <;>
          simp [hscope, hname, Ne.symm hname, ih, or_and_right, exists_or]

namespace Module

variable {m : Module}

theorem mem_globalNames {n : String} : n ∈ m.globalNames ↔ m.Named n := by
  simp only [globalNames, globalInstances_eq, Named, mem_append, mem_flatMap, mem_map]
  constructor
  · rintro (⟨g, hg, i, hi, rfl⟩ | ⟨g, hg, rfl⟩)
    · exact ⟨g, hg, Or.inr ⟨i, hi, rfl⟩⟩
    · exact ⟨g, hg, Or.inl rfl⟩
  · rintro ⟨g, hg, rfl | ⟨i, hi, rfl⟩⟩
    · exact Or.inr ⟨g, hg, rfl⟩
    · exact Or.inl ⟨g, hg, i, hi, rfl⟩

/-- In a clone of a handler in its scope a global is renamed for the instance of the clone. -/
theorem renamed_of_inScope {f : Func} {g : GlobalOp} (hg : g ∈ m.globals) (hscope : g.inScope f)
    {instances : List String} (hf : f.instances = some instances) {index : Nat}
    (hidx : index < instances.length) :
    partitions m.globals f g.name = some instances ∧
      m.renamed f index g.name = some (instanceName g.name instances[index]) := by
  have hpart : partitions m.globals f g.name = some instances := by
    rw [partitions_eq, if_pos ⟨g, hg, rfl, hscope⟩, hf]
  refine ⟨hpart, ?_⟩
  simp only [renamed, hpart]
  rw [if_neg (ne_nil_of_length_pos (Nat.zero_lt_of_lt hidx)),
    getElem?_eq_getElem hidx, Option.map_some]

/-- All addresses resolve if and only if each instance of each handler in the scope of a global
names a global, most of all an instance of the last handler in the scope. -/
theorem resolved_iff : m.Resolved ↔
    ∀ g ∈ m.globals, ∀ f ∈ m.funcs, g.inScope f → g.name ∈ f.addresses →
      ∀ i ∈ f.instances.getD [], m.Named (instanceName g.name i) := by
  constructor
  · intro h g hg f hf hscope haddress i hi
    cases hinst : f.instances with
    | none => simp [hinst] at hi
    | some instances =>
      rw [hinst, Option.getD_some] at hi
      obtain ⟨index, hidx, rfl⟩ := getElem_of_mem hi
      obtain ⟨hpart, hren⟩ := renamed_of_inScope hg hscope hinst hidx
      obtain ⟨n, hn, heq⟩ := h f hf instances hinst index hidx g.name haddress
        (by simp [hpart])
      rw [hren] at heq
      exact Option.some.inj heq ▸ mem_globalNames.mp hn
  · intro h f hf instances hinst index hidx name haddress hpart
    rw [partitions_eq] at hpart
    split at hpart
    · next hscope =>
        obtain ⟨g, hg, rfl, hscope⟩ := hscope
        refine ⟨_, mem_globalNames.mpr (h g hg f hf hscope haddress instances[index] ?_),
          (renamed_of_inScope hg hscope hinst hidx).2⟩
        rw [hinst, Option.getD_some]
        exact getElem_mem hidx
    · exact absurd rfl hpart

end Module

/-- A table in the scope of two handlers that are mapped to different units. -/
def twoHandlers : Module where
  globals := [⟨"flows", some ["NET_RECV:recv", "ACK:ack"]⟩]
  funcs := [⟨⟨"NET_RECV", "recv"⟩, some ["cu1", "cu2"], ["flows"]⟩,
    ⟨⟨"ACK", "ack"⟩, some ["cu3"], ["flows"]⟩]

/-- The clone of the first handler on `cu1` takes the address of `flows_cu1`. -/
theorem twoHandlers_not_resolved : ¬ twoHandlers.Resolved := by
  intro h
  obtain ⟨n, hn, heq⟩ := h _ mem_cons_self _ rfl 0 (by decide) "flows" mem_cons_self
    (by decide)
  cases heq
  revert hn
  decide

end GlobalPartition

end Alkali
