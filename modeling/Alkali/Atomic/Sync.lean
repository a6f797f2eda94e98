import Alkali.Atomic.Run

/-!
# `tryRemoveSync`

After the replacements the pass decides whether a handler keeps its scope
attribute. The attribute stands for the synchronisation of the handler and may
go once all accesses to imported tables are atomic.
-/

namespace Alkali

open FuncOp

/-- `ScopeAttr`: the accessing handlers and the partition key. -/
structure ScopeAttr where
  handlers : List String
  partitionKey : Option String
  deriving DecidableEq, Repr

/-- A handler with its scope attribute. -/
structure ScopedFunc where
  func : FuncOp
  scope : Option ScopeAttr
  deriving DecidableEq, Repr

/-- `isa<LookupOp, UpdateOp>`. -/
def Operation.isLookupOrUpdate (o : Operation) : Bool :=
  match o.kind? with
  | some (.lookup _) | some (.update _) => true
  | _ => false

namespace FuncOp

variable (f : FuncOp)

/-- The scan of `tryRemoveSync` over the users of all imports. -/
def hasNonAtomicUse : Bool :=
  f.walk.any fun o => o.isImport && o.defs.any fun v => (f.users v).any Operation.isLookupOrUpdate

/-- The handler contains a lookup or an update on an imported table. -/
def NonAtomicAccess : Prop :=
  ∃ o ∈ f.walk, o.isLookupOrUpdate ∧ ∃ table ∈ o.operands.head?, ∃ i ∈ f.walk,
    i.isImport ∧ table ∈ i.defs

variable {f}

theorem hasNonAtomicUse_of_access (h : f.NonAtomicAccess) : f.hasNonAtomicUse = true := by
  obtain ⟨o, ho, hkind, table, htab, i, hi, himport, hdef⟩ := h
  rw [hasNonAtomicUse, List.any_eq_true]
  refine ⟨i, hi, ?_⟩
  rw [himport, Bool.true_and, List.any_eq_true]
  refine ⟨table, hdef, List.any_eq_true.mpr ⟨o, ?_, hkind⟩⟩
  exact mem_users.mpr ⟨ho, List.mem_of_mem_head? htab⟩

/-- A run of the driver on a handler. -/
inductive Steps : FuncOp → FuncOp → Prop
  | done {f : FuncOp} : Steps f f
  | replace {f g : FuncOp} {load : PlainOp} {m : AtomicMatch} (hload : .plain load ∈ f.walk)
      (hm : f.matchLoad load = some m) (hrest : Steps (f.replaceMatch m) g) : Steps f g
  | erase {f g : FuncOp} {op : PlainOp} (hdead : f.isTriviallyDead op = true)
      (hrest : Steps (f.eraseDead op) g) : Steps f g

end FuncOp

namespace ScopedFunc

/-- The attribute goes if there are accesses that are not atomic. -/
def tryRemoveSync (h : ScopedFunc) : ScopedFunc :=
  if h.func.hasNonAtomicUse then { h with scope := none } else h

/-- The pass on a handler: the handler before it, what the driver makes of its
function, and the handler after it. -/
inductive Runs : ScopedFunc → FuncOp → ScopedFunc → Prop
  | skip {h : ScopedFunc} (hscope : h.scope = none) : Runs h h.func h
  | run {h : ScopedFunc} {g : FuncOp} (hscope : h.scope ≠ none) (hsteps : h.func.Steps g) :
      Runs h g (tryRemoveSync { h with func := g })

/-- A handler with a scope keeps it as long as it accesses an imported table
without an atomic update, and loses it only if it does not. -/
def KeepsSync (h h' : ScopedFunc) : Prop :=
  h.scope ≠ none →
    (h'.func.NonAtomicAccess → h'.scope = h.scope) ∧ (h'.scope = none → ¬ h'.func.NonAtomicAccess)

/-- The decision for one handler. -/
theorem Runs.keepsSync_iff {h h' : ScopedFunc} {g : FuncOp} (hrun : Runs h g h') :
    KeepsSync h h' ↔ h.scope = none ∨ ¬ g.NonAtomicAccess := by
  cases hrun with
  | skip hscope => exact iff_of_true (fun hne => absurd hscope hne) (Or.inl hscope)
  | run hscope _ =>
    rw [tryRemoveSync]
    constructor
    · intro hkeeps
      refine Or.inr fun haccess => ?_
      obtain ⟨hkept, _⟩ := hkeeps hscope
      rw [if_pos (hasNonAtomicUse_of_access haccess)] at hkept
      exact hscope (hkept haccess).symm
    · rintro (hnone | hno) _
      · exact absurd hnone hscope
      · split
        · exact ⟨fun haccess => absurd haccess hno, fun _ => hno⟩
        · exact ⟨fun _ => rfl, fun _ => hno⟩

/-- The decisions for a module are right exactly if every handler has no scope, or
no access left that is not atomic when it is decided. -/
theorem keepsSync_module_iff (runs : List (ScopedFunc × FuncOp × ScopedFunc))
    (hruns : ∀ r ∈ runs, Runs r.1 r.2.1 r.2.2) :
    (∀ r ∈ runs, KeepsSync r.1 r.2.2) ↔ ∀ r ∈ runs, r.1.scope = none ∨ ¬ r.2.1.NonAtomicAccess :=
  forall₂_congr fun r hr => (hruns r hr).keepsSync_iff

def counterScope : ScopeAttr := ⟨["NET_RECV:count"], none⟩

/-- What the driver makes of the handler that adds to an entry. -/
def counterAfter : FuncOp :=
  ((counterHandler "add").replaceMatch (counterMatch "add")).eraseDead
    ⟨11, .lookup "flows", [2, 0], [(3, .int 64)]⟩

/-- A handler with atomic accesses only, and one without a scope. -/
theorem keepsSync_module_iff_counter :
    KeepsSync ⟨counterHandler "add", some counterScope⟩ ⟨counterAfter, some counterScope⟩ ∧
      KeepsSync ⟨counterHandler "mul", none⟩ ⟨counterHandler "mul", none⟩ := by
  have hload : .plain ⟨11, .lookup "flows", [2, 0], [(3, .int 64)]⟩ ∈
      (counterHandler "add").walk := by decide
  have hsteps : (counterHandler "add").Steps counterAfter :=
    .replace hload (by decide : matchLoad _ _ = some (counterMatch "add"))
      (.erase (by decide) .done)
  have hrun : Runs ⟨counterHandler "add", some counterScope⟩ counterAfter
      ⟨counterAfter, some counterScope⟩ := .run (by simp) hsteps
  have hskip : Runs ⟨counterHandler "mul", none⟩ (counterHandler "mul")
      ⟨counterHandler "mul", none⟩ := .skip rfl
  have hatomic : ¬ counterAfter.NonAtomicAccess := fun haccess =>
    absurd (hasNonAtomicUse_of_access haccess) (by decide)
  have hmod := (keepsSync_module_iff
    [(⟨counterHandler "add", some counterScope⟩, counterAfter, ⟨counterAfter, some counterScope⟩),
      (⟨counterHandler "mul", none⟩, counterHandler "mul",
        ⟨counterHandler "mul", none⟩)] (by simp [hrun, hskip])).mpr (by simp [hatomic])
  simpa using hmod

/-- A handler that multiplies an entry still looks it up and updates it after the
pass, and loses its scope because of that. -/
theorem tryRemoveSync_drops_scope :
    Runs ⟨counterHandler "mul", some counterScope⟩ (counterHandler "mul")
        ⟨counterHandler "mul", none⟩ ∧
      (∀ op, .plain op ∈ (counterHandler "mul").walk → (counterHandler "mul").matchLoad op = none ∧
        (counterHandler "mul").isTriviallyDead op = false) ∧
      (counterHandler "mul").NonAtomicAccess ∧
      ¬ KeepsSync ⟨counterHandler "mul", some counterScope⟩
        ⟨counterHandler "mul", none⟩ := by
  have haccess : (counterHandler "mul").NonAtomicAccess :=
    ⟨.plain ⟨11, .lookup "flows", [2, 0], [(3, .int 64)]⟩, by decide, rfl, 2, rfl,
      .plain ⟨10, .globalImport "flows", [], [(2, .table (.int 64) (.int 64) 16)]⟩, by decide,
      rfl, by decide⟩
  refine ⟨.run (by simp) .done, ?_, haccess, ?_⟩
  · intro op hop
    have hall : ∀ o ∈ (counterHandler "mul").walk, (counterHandler "mul").matchLoad o.inner = none ∧
        (counterHandler "mul").isTriviallyDead o.inner = false := by decide
    exact hall _ hop
  · intro hkeeps
    exact absurd ((hkeeps (by simp)).1 haccess) (by simp)

end ScopedFunc

end Alkali
