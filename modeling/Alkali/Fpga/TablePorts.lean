import Alkali.Dialect.Ops
import Alkali.Fpga.AtomCamRuns

/-!
# The ports of global tables

`emitGlobalTableInit` gives every global table one wire for lookups and one for updates, and
`emitFuncHeader` assigns them to the users of each `GlobalImportOp`, one user for each wire. The
instances of a handler, and all handlers that import the table, get the same wires.
-/

namespace Alkali

open Synchronous List

/-- The kinds of ports of a table. -/
inductive Role
  | lookup
  | update
  deriving DecidableEq, Repr

namespace OpKind

/-- The port that an access to a table needs. -/
def role? : OpKind → Option Role
  | lookup _ => some .lookup
  | update _ | updateAtomic _ _ => some .update
  | _ => none

def isAtomic : OpKind → Bool
  | updateAtomic _ _ => true
  | _ => false

/-- The assertion of `emitUpdateAtomic`. -/
def emittable : OpKind → Bool
  | updateAtomic _ opValue => opValue == 1
  | _ => true

end OpKind

namespace Fpga

/-- A `GlobalOp` with a table. -/
structure GlobalTable where
  name : String
  keySize : Nat
  valueSize : Nat

/-- A handler that is not external, and the size of its attribute `instances`. -/
structure TableHandler where
  func : FuncOp
  instances : Nat

structure TableModule where
  tables : List GlobalTable
  handlers : List TableHandler

/-- `lookup_p_0` or `update_p_0` of a table. -/
structure TablePort where
  table : String
  role : Role
  index : Nat
  deriving DecidableEq, Repr

/-- An operation in an instance of a handler. -/
structure OpInstance where
  handler : Nat
  replica : Nat
  op : PlainOp

/-! ## The emitter -/

variable (f : FuncOp)

/-- The operations without regions that `walk` finds. -/
def plainOps : List PlainOp :=
  f.walk.filterMap fun o =>
    match o with
    | .plain op => some op
    | .guard _ _ _ _ => none

/-- The values of the `GlobalImportOp`s and the names of their tables. -/
def imports : List (Value × String) :=
  (plainOps f).flatMap fun op =>
    match op.kind with
    | .globalImport name => op.results.map fun r => (r.1, name)
    | _ => []

/-- `getUsers`. The order is that of the use list. -/
def users (v : Value) : List PlainOp := (plainOps f).filter fun op => v ∈ op.operands

/-- The operations for which `emitOp` and `emitGuard` emit something: a lookup inside of a guard is
not among them. -/
def emittedOps : List PlainOp :=
  f.operations.filterMap fun o =>
    match o with
    | .plain op => some op
    | .guard _ _ _ body => if body.kind.role? = some .lookup then none else some body

namespace TableModule

variable (m : TableModule) (uses : Nat → Value → List PlainOp)

/-- `lookup_wires` and `update_wires` of a table, one each. -/
def wires (role : Role) (name : String) : List TablePort :=
  if name ∈ m.tables.map GlobalTable.name then (List.range 1).map fun i => ⟨name, role, i⟩ else []

/-- `tableops_to_portwire` after `emitFuncHeader`. -/
def tableopsToPortwire (f : FuncOp) (uses : Value → List PlainOp) : List (PlainOp × TablePort) :=
  (imports f).flatMap fun x =>
    [Role.lookup, Role.update].flatMap fun role =>
      ((uses x.1).filter fun op => op.kind.role? = some role).zip (m.wires role x.2)

/-- The wire that an operation is connected to. A later assignment replaces an earlier one. -/
def portwire (f : FuncOp) (uses : Value → List PlainOp) (op : PlainOp) : Option TablePort :=
  if op ∈ emittedOps f then
    ((m.tableopsToPortwire f uses).reverse.find? fun x => x.1 = op).map Prod.snd
  else none

/-- The port of an operation in an instance of a handler. All instances have the same wires. -/
def portOf (x : OpInstance) : Option TablePort :=
  (m.handlers[x.handler]?).bind fun h => m.portwire h.func (uses x.handler) x.op

/-- The pass fails if an atomic update has an opcode other than one. -/
def emit : Option (OpInstance → Option TablePort) :=
  if m.handlers.all fun h => (emittedOps h.func).all fun op => op.kind.emittable then
    some (m.portOf uses)
  else none

/-! ## What it is for -/

/-- The accesses to a table, over all handlers and their instances. -/
structure IsInstance (role : Role) (name : String) (x : OpInstance) : Prop where
  handler : ∃ h, m.handlers[x.handler]? = some h ∧ x.replica < h.instances ∧ x.op ∈ plainOps h.func
  table : x.op.kind.table? = some name
  role : x.op.kind.role? = some role

/-- Every access to a table has a port of its own, and every port belongs to an access. -/
structure Connected (port : OpInstance → Option TablePort) (name : String) : Prop where
  total : ∀ role x, m.IsInstance role name x → ∃ p, port x = some p ∧ p.table = name ∧ p.role = role
  distinct : ∀ role role' x y, m.IsInstance role name x → m.IsInstance role' name y →
    port x = port y → x = y
  used : ∀ role, ∀ p ∈ m.wires role name, ∃ x, m.IsInstance role name x ∧ port x = some p

/-- There is one lookup of the table and one update, and the lookup is not inside of a guard. -/
structure OneEach (name : String) : Prop where
  unique : ∀ role, ∃ x, ∀ y, m.IsInstance role name y ↔ y = x
  plain : ∀ x h, m.IsInstance .lookup name x → m.handlers[x.handler]? = some h →
    .plain x.op ∈ h.func.operations

/-- The accesses to global tables use the values of the imports, and `uses` are the use lists. -/
structure WellFormed : Prop where
  imported : ∀ h ∈ m.handlers, ∀ op ∈ plainOps h.func, ∀ t ∈ m.tables,
    op.kind.table? = some t.name → ∃ v, (v, t.name) ∈ imports h.func ∧ v ∈ op.operands
  typed : ∀ h ∈ m.handlers, ∀ x ∈ imports h.func, ∀ op ∈ plainOps h.func, ∀ name,
    x.1 ∈ op.operands → op.kind.table? = some name → name = x.2
  useLists : ∀ (a : Nat) h v, m.handlers[a]? = some h → (uses a v).Perm (users h.func v)

variable {m uses}

/-! ## Ports -/

variable {role : Role} {p : TablePort} {f : FuncOp} {op : PlainOp}
variable {name : String} {t : GlobalTable} {x : OpInstance}

theorem mem_wires : p ∈ m.wires role name ↔
    name ∈ m.tables.map GlobalTable.name ∧ p = ⟨name, role, 0⟩ := by
  rw [wires]
  split <;> rename_i h <;> simp [h]

/-- What is assigned to an operation is a wire of a table that it uses. -/
theorem mem_tableopsToPortwire {uses : Value → List PlainOp}
    (h : (op, p) ∈ m.tableopsToPortwire f uses) :
    ∃ x ∈ imports f, op ∈ uses x.1 ∧ op.kind.role? = some p.role ∧ p ∈ m.wires p.role x.2 := by
  rw [tableopsToPortwire, mem_flatMap] at h
  obtain ⟨x, hx, h⟩ := h
  obtain ⟨role, -, h⟩ := mem_flatMap.mp h
  obtain ⟨hop, hp⟩ := of_mem_zip h
  obtain ⟨huse, hrole⟩ := mem_filter.mp hop
  have hport := (mem_wires.mp hp).2
  subst hport
  exact ⟨x, hx, huse, by simpa using hrole, hp⟩

/-- If all users of an import for a port are the same operation, it gets the port. -/
theorem exists_tableopsToPortwire {uses : Value → List PlainOp} {v : Value}
    (hname : name ∈ m.tables.map GlobalTable.name) (himport : (v, name) ∈ imports f)
    (huse : op ∈ uses v) (hrole : op.kind.role? = some role)
    (hsame : ∀ op' ∈ uses v, op'.kind.role? = some role → op' = op) :
    (op, (⟨name, role, 0⟩ : TablePort)) ∈ m.tableopsToPortwire f uses := by
  refine mem_flatMap.mpr ⟨(v, name), himport, mem_flatMap.mpr ⟨role, ?_, ?_⟩⟩
  · cases role <;> simp
  · have hwires : m.wires role name = [⟨name, role, 0⟩] := if_pos hname
    cases hlist : (uses v).filter fun op => op.kind.role? = some role with
    | nil => exact absurd (by simpa using hrole) (filter_eq_nil_iff.mp hlist op huse)
    | cons op' rest =>
      obtain ⟨huse', hrole'⟩ := mem_filter.mp (hlist ▸ mem_cons_self : op' ∈ _)
      rw [hwires, hsame op' huse' (by simpa using hrole'), zip_cons_cons]
      exact mem_cons_self

theorem mem_plainOps : op ∈ plainOps f ↔
    .plain op ∈ f.operations ∨ ∃ id preds attrs, .guard id preds attrs op ∈ f.operations := by
  have hplain : op ∈ plainOps f ↔ .plain op ∈ f.walk := by
    rw [plainOps, mem_filterMap]
    constructor
    · rintro ⟨o, ho, heq⟩
      cases o with
      | plain op' => exact (Option.some.inj heq) ▸ ho
      | guard => cases heq
    · exact fun h => ⟨_, h, rfl⟩
  rw [hplain, FuncOp.mem_walk]
  refine or_congr_right ⟨?_, ?_⟩
  · rintro ⟨o, ho, body, hbody, heq⟩
    cases o with
    | plain => cases hbody
    | guard id preds attrs body' =>
      obtain rfl : body = body' := mem_singleton.mp hbody
      exact ⟨id, preds, attrs, Operation.plain.inj heq ▸ ho⟩
  · rintro ⟨id, preds, attrs, ho⟩
    exact ⟨_, ho, op, mem_singleton_self op, rfl⟩

theorem mem_emittedOps : op ∈ emittedOps f ↔ .plain op ∈ f.operations ∨
      op.kind.role? ≠ some .lookup ∧ ∃ id preds attrs, .guard id preds attrs op ∈ f.operations := by
  rw [emittedOps, mem_filterMap]
  constructor
  · rintro ⟨o, ho, heq⟩
    cases o with
    | plain op' => exact Or.inl ((Option.some.inj heq) ▸ ho)
    | guard id preds attrs body =>
      change (if body.kind.role? = some .lookup then none else some body) = some op at heq
      split at heq
      · cases heq
      · rename_i hrole
        obtain rfl : body = op := Option.some.inj heq
        exact Or.inr ⟨hrole, id, preds, attrs, ho⟩
  · rintro (ho | ⟨hrole, id, preds, attrs, ho⟩)
    · exact ⟨_, ho, rfl⟩
    · exact ⟨_, ho, if_neg hrole⟩

/-- An operation gets the port of its table if it is the only one that needs it. -/
theorem portOf_of_unique (hwf : m.WellFormed uses) (ht : t ∈ m.tables)
    (hx : m.IsInstance role t.name x) (hunique : ∀ y, m.IsInstance role t.name y → y = x)
    {h : TableHandler} (hh : m.handlers[x.handler]? = some h)
    (hemitted : x.op ∈ emittedOps h.func) : m.portOf uses x = some ⟨t.name, role, 0⟩ := by
  have hmem : h ∈ m.handlers := mem_of_getElem? hh
  obtain ⟨h', hh', hreplica, hop⟩ := hx.handler
  obtain rfl : h' = h := Option.some.inj (hh'.symm.trans hh)
  have hlist : ∀ v op, op ∈ uses x.handler v ↔ op ∈ plainOps h'.func ∧ v ∈ op.operands := by
    intro v op
    rw [(hwf.useLists x.handler h' v hh).mem_iff, users, mem_filter, decide_eq_true_iff]
  obtain ⟨v, himport, hv⟩ := hwf.imported h' hmem x.op hop t ht hx.table
  have hassigned : (x.op, (⟨t.name, role, 0⟩ : TablePort)) ∈
      m.tableopsToPortwire h'.func (uses x.handler) := by
    refine exists_tableopsToPortwire (mem_map_of_mem ht) himport ((hlist v x.op).mpr ⟨hop, hv⟩)
      hx.role fun op' huse hrole => ?_
    obtain ⟨hop', hv'⟩ := (hlist v op').mp huse
    obtain ⟨name, hname⟩ : ∃ name, op'.kind.table? = some name := by
      cases hkind : op'.kind <;> simp_all [OpKind.role?, OpKind.table?]
    have htab := hwf.typed h' hmem _ himport op' hop' name hv' hname
    have hinst : m.IsInstance role t.name ⟨x.handler, x.replica, op'⟩ :=
      ⟨⟨h', hh, hreplica, hop'⟩, hname.trans (congrArg some htab), hrole⟩
    exact congrArg OpInstance.op (hunique _ hinst)
  rw [portOf, hh]
  change m.portwire h'.func (uses x.handler) x.op = _
  rw [portwire, if_pos hemitted]
  cases hfind : (m.tableopsToPortwire h'.func (uses x.handler)).reverse.find?
      (fun y => y.1 = x.op) with
  | none =>
    rw [find?_eq_none] at hfind
    exact absurd (by simp) (hfind _ (mem_reverse.mpr hassigned))
  | some y =>
    obtain ⟨op, p⟩ := y
    obtain rfl : op = x.op := by simpa using find?_some hfind
    have hassigned' := mem_reverse.mp (mem_of_find?_eq_some hfind)
    obtain ⟨z, hz, huse, hrole, hwire⟩ := mem_tableopsToPortwire hassigned'
    obtain ⟨hop', hv'⟩ := (hlist z.1 x.op).mp huse
    have hname := hwf.typed h' hmem z hz x.op hop' t.name hv' hx.table
    have hsame : p.role = role := Option.some.inj (hrole.symm.trans hx.role)
    rw [Option.map_some, (mem_wires.mp hwire).2, hsame, ← hname]

/-- A port belongs to the table and has the number zero. -/
theorem eq_of_portOf (h : m.portOf uses x = some p) :
    p = ⟨p.table, p.role, 0⟩ ∧ ∃ h, m.handlers[x.handler]? = some h ∧ x.op ∈ emittedOps h.func := by
  obtain ⟨handler, hh, hport⟩ := Option.bind_eq_some_iff.mp h
  rw [portwire] at hport
  split at hport
  · rename_i hemitted
    obtain ⟨⟨op, p'⟩, hfind, rfl⟩ := Option.map_eq_some_iff.mp hport
    obtain ⟨y, -, -, -, hwire⟩ :=
      mem_tableopsToPortwire (mem_reverse.mp (mem_of_find?_eq_some hfind))
    have hp := (mem_wires.mp hwire).2
    exact ⟨by rw [hp], handler, hh, hemitted⟩
  · cases hport

/-- Every access has its own port exactly if there is one lookup and one update. -/
theorem connected_iff (hwf : m.WellFormed uses) (ht : t ∈ m.tables) :
    m.Connected (m.portOf uses) t.name ↔ m.OneEach t.name := by
  have hwire : ∀ role, (⟨t.name, role, 0⟩ : TablePort) ∈ m.wires role t.name := fun role =>
    mem_wires.mpr ⟨mem_map_of_mem ht, rfl⟩
  constructor
  · intro hconn
    refine ⟨fun role => ?_, fun x h hx hh => ?_⟩
    · obtain ⟨x, hx, hport⟩ := hconn.used role _ (hwire role)
      refine ⟨x, fun y => ⟨fun hy => ?_, fun heq => heq ▸ hx⟩⟩
      obtain ⟨p, hp, htab, hrole⟩ := hconn.total role y hy
      refine hconn.distinct role role y x hy hx ?_
      rw [hp, hport, (eq_of_portOf hp).1, htab, hrole]
    · obtain ⟨p, hp, -, -⟩ := hconn.total .lookup x hx
      obtain ⟨-, h', hh', hemitted⟩ := eq_of_portOf hp
      obtain rfl : h' = h := Option.some.inj (hh'.symm.trans hh)
      exact (mem_emittedOps.mp hemitted).resolve_right fun hg => hg.1 hx.role
  · intro hone
    have hport : ∀ role x, m.IsInstance role t.name x →
        m.portOf uses x = some ⟨t.name, role, 0⟩ := by
      intro role x hx
      obtain ⟨x', hx'⟩ := hone.unique role
      obtain ⟨h, hh, -, hop⟩ := hx.handler
      refine portOf_of_unique hwf ht hx (fun y hy => ?_) hh ?_
      · rw [(hx' y).mp hy, (hx' x).mp hx]
      · cases role with
        | lookup => exact mem_emittedOps.mpr (Or.inl (hone.plain x h hx hh))
        | update =>
          refine mem_emittedOps.mpr ((mem_plainOps.mp hop).imp_right fun hg => ⟨?_, hg⟩)
          rw [hx.role]
          simp
    refine ⟨fun role x hx => ⟨_, hport role x hx, rfl, rfl⟩, fun role role' x y hx hy heq => ?_,
      fun role p hp => ?_⟩
    · rw [hport role x hx, hport role' y hy, Option.some_inj, TablePort.mk.injEq] at heq
      obtain rfl : role = role' := heq.2.1
      obtain ⟨z, hz⟩ := hone.unique role
      rw [(hz x).mp hx, (hz y).mp hy]
    · obtain ⟨x, hx⟩ := hone.unique role
      have hinst := (hx x).mpr rfl
      exact ⟨x, hinst, by rw [hport role x hinst, (mem_wires.mp hp).2]⟩

theorem emit_eq_some {port : OpInstance → Option TablePort} : m.emit uses = some port ↔
    (∀ h ∈ m.handlers, ∀ op ∈ emittedOps h.func, op.kind.emittable) ∧ m.portOf uses = port := by
  rw [emit]
  split <;> rename_i hall <;> simp only [all_eq_true] at hall
  · rw [Option.some_inj, and_iff_right hall]
  · exact iff_of_false (by simp) fun h => hall h.1

/-- A table of the module and a run of its hardware. The pass succeeds and connects every access
to a port of its own, the ports carry the keys and the values, and the hardware gives the access
its meaning, exactly if all opcodes are one, there is one lookup and one update of the table, its
keys have at most 8 and its values at most 32 bits, and every step of the run is sound. -/
theorem table_implements_ops (hwf : m.WellFormed uses) {t : GlobalTable} (ht : t ∈ m.tables)
    (inputs : List (AtomCam.Inputs t.keySize t.valueSize)) :
    (∃ port, m.emit uses = some port ∧ m.Connected port t.name ∧
        AtomCam.Carries t.keySize t.valueSize ∧ ∀ x, m.IsInstance .update t.name x →
          AtomCam.Meaning t.keySize t.valueSize x.op.kind.isAtomic inputs) ↔
      (∀ h ∈ m.handlers, ∀ op ∈ emittedOps h.func, op.kind.emittable) ∧ m.OneEach t.name ∧
        (t.keySize ≤ 8 ∧ t.valueSize ≤ 32) ∧ ∀ x, m.IsInstance .update t.name x →
          (AtomCam.atomCam t.keySize t.valueSize).Along
            (AtomCam.Sound x.op.kind.isAtomic) inputs := by
  constructor
  · rintro ⟨port, hemit, hconn, hcarries, hmeaning⟩
    obtain ⟨hall, rfl⟩ := emit_eq_some.mp hemit
    have hwidth := AtomCam.carries_iff.mp hcarries
    refine ⟨hall, (connected_iff hwf ht).mp hconn, hwidth, fun x hx => ?_⟩
    exact (AtomCam.meaning_iff hwidth.1 hwidth.2 inputs).mp (hmeaning x hx)
  · rintro ⟨hall, hone, hwidth, hsound⟩
    refine ⟨m.portOf uses, emit_eq_some.mpr ⟨hall, rfl⟩, (connected_iff hwf ht).mpr hone,
      AtomCam.carries_iff.mpr hwidth, fun x hx => ?_⟩
    exact (AtomCam.meaning_iff hwidth.1 hwidth.2 inputs).mpr (hsound x hx)

end TableModule

/-! ## A handler that counts -/

namespace TableModule

variable (atomic : Bool)

/-- Look up a flow and update it, inside of a guard. -/
def flowHandler : FuncOp :=
  ⟨"handler", [⟨[(0, .int 8), (1, .int 32)],
    [.plain ⟨10, .globalImport "flows", [], [(2, .table (.int 8) (.int 32) 16)]⟩,
      .plain ⟨11, .lookup "flows", [2, 0], [(3, .int 32)]⟩,
      .guard 12 [3] [true]
        ⟨13, if atomic then .updateAtomic "flows" 1 else .update "flows", [2, 0, 1], []⟩],
    14, .terminate⟩]⟩

def flowModule : TableModule := ⟨[⟨"flows", 8, 32⟩], [⟨flowHandler atomic, 1⟩]⟩

def flowUses (_ : Nat) : Value → List PlainOp := users (flowHandler atomic)

theorem mem_flowHandler {atomic : Bool} {role : Role} {x : OpInstance}
    (hx : (flowModule atomic).IsInstance role "flows" x) :
    x.op ∈ plainOps (flowHandler atomic) := by
  obtain ⟨h, hh, -, hop⟩ := hx.handler
  obtain rfl := mem_singleton.mp (mem_of_getElem? hh)
  exact hop

theorem flowModule_wellFormed : (flowModule atomic).WellFormed (flowUses atomic) := by
  refine ⟨?_, ?_, ?_⟩
  · intro h hh op hop t ht htab
    obtain rfl := mem_singleton.mp hh
    obtain rfl := mem_singleton.mp ht
    refine ⟨2, by cases atomic <;> decide, ?_⟩
    revert htab
    revert op
    cases atomic <;> decide
  · intro h hh x hx op hop name hv hname
    obtain rfl := mem_singleton.mp hh
    have himports : imports (flowHandler atomic) = [(2, "flows")] := by cases atomic <;> rfl
    obtain rfl : x = (2, "flows") := mem_singleton.mp (himports ▸ hx)
    have htabs : ∀ op ∈ plainOps (flowHandler atomic),
        op.kind.table? = none ∨ op.kind.table? = some "flows" := by cases atomic <;> decide
    have hop := htabs op hop
    rw [hname] at hop
    simpa using hop
  · intro a h v hh
    have hmem := mem_of_getElem? hh
    obtain rfl := mem_singleton.mp hmem
    exact List.Perm.refl _

theorem flowModule_oneEach : (flowModule atomic).OneEach "flows" := by
  have hhandler : ∀ {a : Nat} {h}, (flowModule atomic).handlers[a]? = some h →
      a = 0 ∧ h = ⟨flowHandler atomic, 1⟩ := by
    intro a h hh
    cases a with
    | zero => exact ⟨rfl, (Option.some.inj hh).symm⟩
    | succ a => cases hh
  have hops : ∀ role, ∃ op ∈ plainOps (flowHandler atomic), op.kind.table? = some "flows" ∧
      op.kind.role? = some role ∧
      ∀ op' ∈ plainOps (flowHandler atomic), op'.kind.role? = some role → op' = op := by
    intro role
    cases atomic <;> cases role <;> decide
  refine ⟨fun role => ?_, fun x h hx hh => ?_⟩
  · obtain ⟨op, hop, htab, hrole, hunique⟩ := hops role
    refine ⟨⟨0, 0, op⟩, fun y => ⟨fun hy => ?_, ?_⟩⟩
    · obtain ⟨h, hh, hreplica, hop'⟩ := hy.handler
      obtain ⟨hzero, rfl⟩ := hhandler hh
      obtain ⟨handler, replica, op'⟩ := y
      obtain rfl : handler = 0 := hzero
      obtain rfl : replica = 0 := Nat.lt_one_iff.mp hreplica
      rw [hunique op' hop' hy.role]
    · rintro rfl
      exact ⟨⟨_, rfl, Nat.one_pos, hop⟩, htab, hrole⟩
  · obtain ⟨-, rfl⟩ := hhandler hh
    have hplain : ∀ op ∈ plainOps (flowHandler atomic), op.kind.role? = some .lookup →
        .plain op ∈ (flowHandler atomic).operations := by cases atomic <;> decide
    exact hplain x.op (mem_flowHandler hx) hx.role

/-- The wires carry a key and a value, which are accepted if they are valid. -/
def flowWires (valid : Bool) (key : BitVec 8) (value : BitVec 32) : AtomCam.Inputs 8 32 :=
  ⟨⟨valid, key, true, true⟩, ⟨valid, value, true, true⟩, true, true, ⟨false, 0, true, true⟩, true⟩

/-- A key is looked up, and the wires have nothing to update. -/
def lookupWires (valid : Bool) (key : BitVec 8) : AtomCam.Inputs 8 32 :=
  { flowWires false key 0 with lookupIndex := ⟨valid, key, true, true⟩ }

/-- Five is added to the entry of the key zero, which is then looked up. -/
def addThenLookup : List (AtomCam.Inputs 8 32) :=
  [flowWires true 0 5, flowWires false 0 5, lookupWires true 0, lookupWires false 0]

theorem sound_addThenLookup :
    (AtomCam.atomCam 8 32).Along (AtomCam.Sound true) addThenLookup := by
  have hidle : ∀ (s : Cam) (i : AtomCam.Inputs 8 32), s.written (AtomCam.toCam i) = none →
      AtomCam.Sound true s i := by
    intro s i hnone
    exact ⟨fun key value hwr => by simp [hnone] at hwr, fun hwr => by simp [hnone] at hwr⟩
  have hrun : addThenLookup = [] ++ [flowWires true 0 5] ++ [flowWires false 0 5] ++
      [lookupWires true 0] ++ [lookupWires false 0] := rfl
  simp only [hrun, Circuit.along_concat]
  refine ⟨⟨⟨⟨Circuit.along_nil _, hidle _ _ rfl⟩, ?_, ?_⟩, hidle _ _ rfl⟩, hidle _ _ rfl⟩
  · intro key value hwr
    have hfive : some ((0 : BitVec 8), (5 : BitVec 32)) = some (key, value) := hwr
    obtain ⟨rfl, rfl⟩ := Prod.mk.inj (Option.some.inj hfive)
    exact ⟨rfl, Or.inr ⟨rfl, Or.inl rfl⟩⟩
  · intro _ x hx
    cases hx

theorem table_implements_one_addition :
    Circuit.transfers (fun _ o => o.response)
        ((AtomCam.atomCam 8 32).trace addThenLookup) = [(0, 5)] ∧
      ∃ port, (flowModule true).emit (flowUses true) = some port ∧
        (flowModule true).Connected port "flows" ∧ AtomCam.Carries 8 32 ∧
        ∀ x, (flowModule true).IsInstance .update "flows" x →
          AtomCam.Meaning 8 32 x.op.kind.isAtomic addThenLookup := by
  refine ⟨by decide +kernel, (table_implements_ops (flowModule_wellFormed true)
    (mem_singleton_self (⟨"flows", 8, 32⟩ : GlobalTable)) addThenLookup).mpr
    ⟨by decide, flowModule_oneEach true, by decide, fun x hx => ?_⟩⟩
  have hatomic : ∀ op ∈ plainOps (flowHandler true), op.kind.role? = some .update →
      op.kind.isAtomic = true := by decide
  rw [hatomic x.op (mem_flowHandler hx) hx.role]
  exact sound_addThenLookup

/-- Five and seven are written to the entry of the key zero, which is twelve then. -/
theorem update_adds_to_entry : ∃ inputs : List (AtomCam.Inputs 8 32), let c := AtomCam.atomCam 8 32
    (flowModule false).OneEach "flows" ∧
      (∀ x, (flowModule false).IsInstance .update "flows" x → x.op.kind = .update "flows") ∧
      AtomCam.writes (c.trace inputs) = [(0, 5), (0, 7)] ∧
      AtomCam.entry (c.run inputs) (0 : BitVec 8) = (12 : BitVec 32) ∧
      ¬ ∃ port, (flowModule false).emit (flowUses false) = some port ∧
        (flowModule false).Connected port "flows" ∧ AtomCam.Carries 8 32 ∧
        ∀ x, (flowModule false).IsInstance .update "flows" x →
          AtomCam.Meaning 8 32 x.op.kind.isAtomic inputs := by
  have hkind : ∀ x, (flowModule false).IsInstance .update "flows" x →
      x.op.kind = .update "flows" := by
    intro x hx
    have hall : ∀ op ∈ plainOps (flowHandler false), op.kind.role? = some .update →
        op.kind = .update "flows" := by decide
    exact hall x.op (mem_flowHandler hx) hx.role
  refine ⟨[flowWires true 0 5, flowWires false 0 5, flowWires true 0 7, flowWires false 0 7],
    flowModule_oneEach false, hkind, rfl, rfl, ?_⟩
  rintro ⟨port, -, -, -, hmeaning⟩
  obtain ⟨x, hx⟩ := (flowModule_oneEach false).unique .update
  have hinst := (hx x).mpr rfl
  have hent := (hmeaning x hinst).2.1 _ prefix_rfl 0
  rw [hkind x hinst] at hent
  revert hent
  decide

end TableModule

end Fpga

end Alkali
