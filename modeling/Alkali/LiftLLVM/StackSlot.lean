import Alkali.Library.Chain
import Alkali.Dialect.Ops

/-!
# `StackSlotValue` and the transfer function of `StackVariableAnalysis`

The update table forwards slots and values to other values; an entry that maps
to itself ends its chain. The loops of `lookup` and `update` follow a chain and
get fuel here, and a failing assertion is told apart from running out of it.
-/

namespace Alkali

/-- `StackSlotValue::updateTable`. -/
structure StackSlotValue where
  updateTable : Value → Option Value

open StackSlotValue

/-- How a computation with loops and assertions ends. -/
inductive Outcome (α : Type)
  | ok (a : α)
  | assertion
  | outOfFuel
  deriving DecidableEq, Repr

def Outcome.bind {α β : Type} (x : Outcome α) (f : α → Outcome β) : Outcome β :=
  match x with
  | ok a => f a
  | assertion => assertion
  | outOfFuel => outOfFuel

theorem Outcome.bind_eq_ok {α β : Type} {x : Outcome α} {f : α → Outcome β} {b : β} :
    x.bind f = ok b ↔ ∃ a, x = ok a ∧ f a = ok b := by
  cases x <;> simp [bind]

namespace StackSlotValue

/-- The table of an unvisited program point. -/
def empty : StackSlotValue := ⟨fun _ => none⟩

/-- `try_emplace`. -/
def tryEmplace (t : Value → Option Value) (k w : Value) : Value → Option Value :=
  if t k = none then Function.update t k (some w) else t

/-- The entries of `rhs` are added where there is none. -/
def join (s rhs : StackSlotValue) : StackSlotValue :=
  ⟨fun v => (s.updateTable v).or (rhs.updateTable v)⟩

variable (s : StackSlotValue)

/-- The value that `lookup` goes on with. -/
def next (v : Value) : Option Value :=
  (s.updateTable v).filter fun w => w ≠ v

def lookup (fuel : Nat) (v : Value) : Option Value :=
  Chain.follow s.next fuel v

def init (value source : Value) : Outcome StackSlotValue :=
  if s.updateTable value = none then
    .ok ⟨Function.update s.updateTable value (some source)⟩
  else .assertion

/-- Redirect the end of the chain of `value`, if it is an entry of the table. -/
def update (fuel : Nat) (value newValue : Value) : Outcome StackSlotValue :=
  match s.lookup fuel value with
  | none => .outOfFuel
  | some tail =>
    if s.updateTable tail = some tail then
      .ok ⟨tryEmplace (Function.update s.updateTable tail (some newValue)) newValue newValue⟩
    else .ok s

end StackSlotValue

/-- The operations that the analysis tells apart. -/
inductive SlotOp
  | alloca (result : Value)
  | init (result : Value)
  | store (value addr : Value)
  | assign (lhs rhs : Value)
  | load (result addr : Value)
  | cast (result source : Value)
  | other (operands results : List Value)
  deriving DecidableEq, Repr

namespace SlotOp

def operands : SlotOp → List Value
  | alloca _ | init _ => []
  | store value addr => [value, addr]
  | assign lhs rhs => [lhs, rhs]
  | load _ addr => [addr]
  | cast _ source => [source]
  | other operands _ => operands

def results : SlotOp → List Value
  | alloca r | init r | load r _ | cast r _ => [r]
  | store _ _ | assign _ _ => []
  | other _ results => results

/-- The entry that the operation initializes, with its source. -/
def initialized : SlotOp → Option (Value × Value)
  | alloca r | init r => some (r, r)
  | load r addr => some (r, addr)
  | cast r source => some (r, source)
  | _ => none

/-- The address that the operation writes to, with the value. -/
def written : SlotOp → Option (Value × Value)
  | store value addr => some (addr, value)
  | assign lhs rhs => some (lhs, rhs)
  | _ => none

/-- The keys that the operation may add to the table. -/
def keys (op : SlotOp) : List Value :=
  (op.initialized.map Prod.fst).toList ++ (op.written.map Prod.snd).toList

/-- What `visitOperation` does to `after` once `before` is joined. -/
def transfer (fuel : Nat) (op : SlotOp) (s : StackSlotValue) : Outcome StackSlotValue :=
  match op with
  | alloca r | init r => s.init r r
  | store value addr => s.update fuel addr value
  | assign lhs rhs => s.update fuel lhs rhs
  | load r addr => s.init r addr
  | cast r source => s.init r source
  | other _ _ => .ok s

/-- `visitOperation`. -/
def visit (fuel : Nat) (op : SlotOp) (before after : StackSlotValue) : Outcome StackSlotValue :=
  op.transfer fuel (after.join before)

end SlotOp

/-- The analysis of a straight-line program: every operation is visited once. -/
def analyze (fuel : Nat) : List SlotOp → StackSlotValue → Outcome StackSlotValue
  | [], s => .ok s
  | op :: ops, s => (op.visit fuel s .empty).bind (analyze fuel ops)

namespace StackSlotValue

open Chain

variable {s : StackSlotValue} {v w : Value}

@[simp] theorem empty_updateTable : empty.updateTable v = none := rfl

theorem next_eq_some : s.next v = some w ↔ s.updateTable v = some w ∧ w ≠ v := by
  simp [next, Option.filter_eq_some_iff]

theorem next_eq_none : s.next v = none ↔ ∀ w, s.updateTable v = some w → w = v := by
  simp [next, Option.filter_eq_none_iff]

theorem next_of_none (h : s.updateTable v = none) : s.next v = none := by
  simp [next, h]

theorem lookup_iff {r : Value} : (∃ fuel, s.lookup fuel v = some r) ↔ Ends s.next v r :=
  ⟨fun ⟨_, h⟩ => ends_of_follow h, fun h => h.exists_follow⟩

variable {t : Value → Option Value}

theorem tryEmplace_eq_some {k w v u : Value} (h : tryEmplace t k w v = some u) :
    t v = some u ∨ (v = k ∧ u = w) := by
  rw [tryEmplace] at h
  split_ifs at h
  · by_cases hv : v = k
    · subst hv
      simp only [Function.update_self, Option.some.injEq] at h
      exact Or.inr ⟨rfl, h.symm⟩
    · exact Or.inl (by simpa [Function.update_of_ne hv] using h)
  · exact Or.inl h

theorem tryEmplace_self_ne_none (t : Value → Option Value) (k w : Value) :
    tryEmplace t k w k ≠ none := by
  rw [tryEmplace]
  split_ifs with h
  · simp
  · exact h

/-- Adding an entry that maps to itself changes no chain. -/
theorem next_tryEmplace_self (t : Value → Option Value) (k : Value) :
    (⟨tryEmplace t k k⟩ : StackSlotValue).next = (⟨t⟩ : StackSlotValue).next := by
  funext v
  rw [tryEmplace]
  split_ifs with h
  · by_cases hv : v = k
    · subst hv
      simp [next, h]
    · simp [next, Function.update_of_ne hv]
  · rfl

theorem next_update {a b : Value} (hab : b ≠ a) :
    (⟨Function.update t a (some b)⟩ : StackSlotValue).next =
      link (⟨t⟩ : StackSlotValue).next a b := by
  funext v
  by_cases hv : v = a
  · subst hv
    simp [next, link, hab]
  · simp [next, link, Function.update_of_ne hv]

variable {s' : StackSlotValue}

theorem init_eq_ok {r source : Value} (h : s.init r source = .ok s') :
    s.updateTable r = none ∧ s' = ⟨Function.update s.updateTable r (some source)⟩ := by
  rw [init] at h
  split_ifs at h with hr
  cases h
  exact ⟨hr, rfl⟩

/-- The chains after an entry is initialized. -/
theorem next_init {r source : Value} (h : s.init r source = .ok s') :
    s'.next = if source = r then s.next else link s.next r source := by
  obtain ⟨hr, rfl⟩ := init_eq_ok h
  split_ifs with heq
  · subst heq
    funext v
    by_cases hv : v = source
    · subst hv
      simp [next, hr]
    · simp [next, Function.update_of_ne hv]
  · exact next_update heq

/-- The cases of an update whose chain ends. -/
theorem update_eq_ok {fuel : Nat} {addr value : Value} (h : s.update fuel addr value = .ok s') :
    ∃ tail, Ends s.next addr tail ∧ ((s.updateTable tail ≠ some tail ∧ s' = s) ∨
        (s.updateTable tail = some tail ∧
          s' = ⟨tryEmplace (Function.update s.updateTable tail (some value)) value value⟩)) := by
  rw [update] at h
  split at h
  · cases h
  · next tail htail =>
      refine ⟨tail, ends_of_follow htail, ?_⟩
      split_ifs at h with hself
      · cases h
        exact Or.inr ⟨hself, rfl⟩
      · cases h
        exact Or.inl ⟨hself, rfl⟩

/-- The chains after an update of an entry. -/
theorem next_redirect (tail value : Value) (htail : s.updateTable tail = some tail) :
    (⟨tryEmplace (Function.update s.updateTable tail (some value)) value value⟩ :
      StackSlotValue).next = if value = tail then s.next else link s.next tail value := by
  rw [next_tryEmplace_self]
  split_ifs with heq
  · subst heq
    rw [Function.update_eq_self_iff.mpr htail.symm]
  · exact next_update heq

theorem empty_join : empty.join s = s := by
  simp [empty, join]

theorem update_mono {n m : Nat} {value newValue : Value} (h : s.update n value newValue = .ok s')
    (hle : n ≤ m) : s.update m value newValue = .ok s' := by
  rw [update] at h ⊢
  split at h
  · cases h
  · next tail htail => rwa [show s.lookup m value = some tail from follow_mono htail hle]

end StackSlotValue

/-- Every operation initializes an entry, writes to an address or does nothing. -/
theorem SlotOp.transfer_cases (op : SlotOp) : (∃ r source, op.initialized = some (r, source) ∧
      ∀ fuel s, op.transfer fuel s = s.init r source) ∨
    (∃ addr value, op.written = some (addr, value) ∧
      ∀ fuel s, op.transfer fuel s = s.update fuel addr value) ∨
    (op.initialized = none ∧ op.written = none ∧ ∀ fuel s, op.transfer fuel s = .ok s) := by
  cases op with
  | alloca r | init r => exact Or.inl ⟨r, r, rfl, fun _ _ => rfl⟩
  | load r a | cast r a => exact Or.inl ⟨r, a, rfl, fun _ _ => rfl⟩
  | store v a => exact Or.inr (Or.inl ⟨a, v, rfl, fun _ _ => rfl⟩)
  | assign a v => exact Or.inr (Or.inl ⟨a, v, rfl, fun _ _ => rfl⟩)
  | other => exact Or.inr (Or.inr ⟨rfl, rfl, fun _ _ => rfl⟩)

variable {op : SlotOp} {s s' : StackSlotValue} {ops : List SlotOp}
variable {fuel : Nat} {t : StackSlotValue}

theorem SlotOp.transfer_ne_assertion (h : ∀ p ∈ op.initialized, s.updateTable p.1 = none) :
    op.transfer fuel s ≠ .assertion := by
  obtain ⟨r, source, hinit, htr⟩ | ⟨addr, value, _, htr⟩ | ⟨_, _, htr⟩ := op.transfer_cases
  · rw [htr, StackSlotValue.init, if_pos (h _ hinit)]
    exact nofun
  · rw [htr, update]
    split
    · exact nofun
    · split_ifs <;> exact nofun
  · rw [htr]
    exact nofun

/-- The entries that an operation adds or changes. -/
theorem SlotOp.entry_of_transfer (hstep : op.transfer fuel s = .ok s') {k w : Value}
    (hkw : s'.updateTable k = some w) :
    s.updateTable k = some w ∨ op.initialized = some (k, w) ∨
      ∃ addr, op.written = some (addr, w) ∧ (s.updateTable k = some k ∨ k = w) ∧
        s'.updateTable w ≠ none := by
  obtain ⟨r, source, hinit, htr⟩ | ⟨addr, value, hwr, htr⟩ | ⟨_, _, htr⟩ := op.transfer_cases
  · rw [htr] at hstep
    obtain ⟨_, rfl⟩ := init_eq_ok hstep
    by_cases hk : k = r
    · subst hk
      simp only [Function.update_self, Option.some.injEq] at hkw
      exact Or.inr (Or.inl (hkw ▸ hinit))
    · exact Or.inl (by simpa [Function.update_of_ne hk] using hkw)
  · rw [htr] at hstep
    obtain ⟨tail, _, ⟨_, rfl⟩ | ⟨hself, rfl⟩⟩ := update_eq_ok hstep
    · exact Or.inl hkw
    · have hvalue := tryEmplace_self_ne_none
        (Function.update s.updateTable tail (some value)) value value
      rcases tryEmplace_eq_some hkw with hold | ⟨rfl, rfl⟩
      · by_cases hk : k = tail
        · subst hk
          simp only [Function.update_self, Option.some.injEq] at hold
          subst hold
          exact Or.inr (Or.inr ⟨addr, hwr, Or.inl hself, hvalue⟩)
        · exact Or.inl (by simpa [Function.update_of_ne hk] using hold)
      · exact Or.inr (Or.inr ⟨addr, hwr, Or.inr rfl, hvalue⟩)
  · rw [htr] at hstep
    cases hstep
    exact Or.inl hkw

theorem SlotOp.transfer_mono {n m : Nat} (h : op.transfer n s = .ok s') (hle : n ≤ m) :
    op.transfer m s = .ok s' := by
  cases op with
  | store value addr => exact update_mono h hle
  | assign lhs rhs => exact update_mono h hle
  | alloca | init | load | cast | other => exact h

theorem SlotOp.visit_empty (fuel : Nat) (op : SlotOp) (s : StackSlotValue) :
    op.visit fuel s .empty = op.transfer fuel s := by
  rw [visit, empty_join]

theorem analyze_append (fuel : Nat) (ops ops' : List SlotOp) (s : StackSlotValue) :
    analyze fuel (ops ++ ops') s = (analyze fuel ops s).bind (analyze fuel ops') := by
  induction ops generalizing s with
  | nil => rfl
  | cons op ops ih =>
    simp only [List.cons_append, analyze]
    cases op.visit fuel s .empty with
    | ok t => exact ih t
    | assertion | outOfFuel => rfl

theorem analyze_mono {n m : Nat} (h : analyze n ops s = .ok t) (hle : n ≤ m) :
    analyze m ops s = .ok t := by
  induction ops generalizing s with
  | nil => exact h
  | cons op ops ih =>
    obtain ⟨u, hu, hrest⟩ := Outcome.bind_eq_ok.mp h
    exact Outcome.bind_eq_ok.mpr ⟨u, SlotOp.transfer_mono hu hle, ih hrest⟩

/-- The state that the analysis reaches after the operations of a list. -/
def Analyzed (ops : List SlotOp) (s : StackSlotValue) : Prop :=
  ∃ fuel, analyze fuel ops .empty = .ok s

theorem Analyzed.nil : Analyzed [] .empty := ⟨0, rfl⟩

theorem Analyzed.unique (hs : Analyzed ops s) (ht : Analyzed ops t) : s = t := by
  obtain ⟨n, hn⟩ := hs
  obtain ⟨m, hm⟩ := ht
  have h := analyze_mono hn (Nat.le_max_left n m)
  rw [analyze_mono hm (Nat.le_max_right n m)] at h
  cases h
  rfl

theorem analyzed_snoc : Analyzed (ops ++ [op]) s' ↔
      ∃ s, Analyzed ops s ∧ ∃ fuel, op.transfer fuel s = .ok s' := by
  have hone : ∀ fuel s, analyze fuel [op] s = op.transfer fuel s := by
    intro fuel s
    rw [analyze, SlotOp.visit_empty]
    cases op.transfer fuel s <;> rfl
  constructor
  · rintro ⟨fuel, h⟩
    rw [analyze_append] at h
    obtain ⟨s, hs, hop⟩ := Outcome.bind_eq_ok.mp h
    exact ⟨s, ⟨fuel, hs⟩, fuel, by rwa [hone] at hop⟩
  · rintro ⟨s, ⟨n, hn⟩, m, hm⟩
    refine ⟨max n m, ?_⟩
    rw [analyze_append]
    refine Outcome.bind_eq_ok.mpr ⟨s, analyze_mono hn (Nat.le_max_left n m), ?_⟩
    rw [← hone] at hm
    exact analyze_mono hm (Nat.le_max_right n m)

end Alkali
