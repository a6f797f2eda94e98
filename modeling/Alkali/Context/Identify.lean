import Alkali.Library.Decimal
import Alkali.Lowering.Backend

/-!
# Arguments that become context

`contextIdentification` decides for the stages of a pipeline which arguments go through
the context of a packet, and under which names. Structs go there, and every argument
once the arguments of a stage are large. An argument that a stage passes on with an
event keeps its name in the next stage. The map of the names of a stage has been started
by the stage before.
-/

namespace Alkali.ContextIdentification

open Option

/-- The names of the arguments of a stage, by their position. -/
abbrev Names := Nat → Option String

def contextName (n : Nat) : String := "context" ++ toString n

theorem contextName_inj {n m : Nat} (h : contextName n = contextName m) : n = m :=
  Decimal.toString_inj.mp ((String.append_right_inj _).mp h)

theorem contextName_ne_empty (n : Nat) : contextName n ≠ "" := by
  intro h
  have := congrArg String.length h
  simp [contextName] at this

/-- `try_emplace`: a name that is there is kept. -/
def tryEmplace (names : Names) (p : Nat) (name : String) : Names :=
  if (names p).isSome then names else Function.update names p (some name)

/-- The state of the loop over the arguments of a stage. -/
structure Naming where
  contextIdx : Nat
  names : Names
  next : Names
  totalParamSize : Nat

/-- The operand numbers at which a value is in events of the function. -/
def eventUses (f : FuncOp) (v : Value) : List Nat :=
  (f.operations.filter Operation.isEventInit).flatMap fun o =>
    o.operands.zipIdx.filterMap fun u => if u.1 = v then some u.2 else none

/-- Name an argument that is passed on, and the arguments of the next stage that it is
passed to. The number of an operand counts the atom; without an atom the first operand
belongs to no argument. -/
def nameUses (j : Nat) : List Nat → Naming → Naming
  | [], st => st
  | k :: ks, st =>
    let st := if (st.names j).isSome then st else
      { st with
        contextIdx := st.contextIdx + 1
        names := Function.update st.names j (some (contextName st.contextIdx)) }
    nameUses j ks { st with
      next := if k = 0 then st.next else tryEmplace st.next (k - 1) ((st.names j).getD "") }

def Ty.isStruct : Ty → Bool
  | .struct _ _ _ => true
  | _ => false

/-- The bytes of an argument that stays a parameter. -/
def paramSize : Ty → Nat
  | .int width => width / 8
  | _ => 0

/-- A struct gets a name, and any argument once there are 40 bytes of parameters. -/
def nameLarge (j : Nat) (ty : Ty) (st : Naming) : Naming :=
  if Ty.isStruct ty || 40 ≤ st.totalParamSize then
    { st with
      contextIdx := st.contextIdx + 1
      names := tryEmplace st.names j (contextName st.contextIdx) }
  else st

def addParam (j : Nat) (ty : Ty) (st : Naming) : Naming :=
  if (st.names j).isSome then st
  else { st with totalParamSize := st.totalParamSize + paramSize ty }

/-- One iteration for the argument at position `j`. -/
def nameArg (f : FuncOp) (hasNext : Bool) (j : Nat) (arg : Value × Ty) (st : Naming) : Naming :=
  if arg.2 = .buffer then st
  else
    let st := nameLarge j arg.2 st
    addParam j arg.2 (if hasNext then nameUses j (eventUses f arg.1) st else st)

def nameArgs (f : FuncOp) (hasNext : Bool) : List (Value × Ty) → Nat → Naming → Naming
  | [], _, st => st
  | arg :: args, j, st => nameArgs f hasNext args (j + 1) (nameArg f hasNext j arg st)

/-- The names of the stages, the first of them with the names that the stage before has
passed on. -/
def identify : List FuncOp → Nat → Names → List Names
  | [], _, _ => []
  | f :: rest, contextIdx, names =>
    let st := nameArgs f (!rest.isEmpty) f.args 0 ⟨contextIdx, names, fun _ => none, 0⟩
    st.names :: identify rest st.contextIdx st.next

/-- `funcContextNames`: the first stage has no names. -/
def funcContextNames : List FuncOp → List Names
  | [] => []
  | _ :: rest => (fun _ => none) :: identify rest 0 fun _ => none

/-- The operation initialises an event for the next stage. -/
def targets (f next : FuncOp) (op : PlainOp) : Bool :=
  match op.kind with
  | .init (.struct true _ event) =>
    (f.fullName event op.operands).map HandlerFullName.mangle == some next.name
  | _ => false

/-- The attribute `context_names` of an event for the next stage: a name, or nothing,
for each operand. -/
def initNames (f next : FuncOp) (names : Names) (op : PlainOp) : Option (List String) :=
  if targets f next op then
    some ("" :: (List.range (op.operands.length - 1)).map fun p => (names p).getD "")
  else none

/-! ## One argument -/

/-- All names are older than the next one. -/
def Older (n : Nat) (names : Names) : Prop := ∀ p a, names p = some a → ∃ k < n, a = contextName k

/-- The first `n` arguments have different names. -/
def Distinct (n : Nat) (names : Names) : Prop :=
  ∀ p < n, ∀ q < n, ∀ a, names p = some a → names q = some a → p = q

/-- What naming the argument at position `j` can do. -/
structure NamesArg (j : Nat) (st st' : Naming) : Prop where
  le : st.contextIdx ≤ st'.contextIdx
  others : ∀ q, q ≠ j → st'.names q = st.names q
  own : st'.names j = st.names j ∨ st.names j = none ∧ ∃ k, st.contextIdx ≤ k ∧ k < st'.contextIdx ∧
      st'.names j = some (contextName k)

theorem NamesArg.refl (j : Nat) (st : Naming) : NamesArg j st st :=
  ⟨le_rfl, fun _ _ => rfl, Or.inl rfl⟩

variable {j : Nat} {st : Naming} {f : FuncOp} {hasNext : Bool} {args : List (Value × Ty)}

theorem NamesArg.trans {st₁ st₂ st₃ : Naming} (h : NamesArg j st₁ st₂) (h' : NamesArg j st₂ st₃) :
    NamesArg j st₁ st₃ := by
  refine ⟨h.le.trans h'.le, fun q hq => (h'.others q hq).trans (h.others q hq), ?_⟩
  rcases h.own with heq | ⟨hnone, k, hle, hlt, heq⟩
  · rcases h'.own with heq' | ⟨hnone', k, hle, hlt, heq'⟩
    · exact Or.inl (heq'.trans heq)
    · exact Or.inr ⟨heq ▸ hnone', k, h.le.trans hle, hlt, heq'⟩
  · rcases h'.own with heq' | ⟨hnone', -⟩
    · exact Or.inr ⟨hnone, k, hle, hlt.trans_le h'.le, heq'.trans heq⟩
    · rw [heq] at hnone'
      cases hnone'

section

variable {st' : Naming} {p : Nat} {a : String} (h : NamesArg j st st')
include h

/-- A name that is there stays. -/
theorem NamesArg.keeps (hp : st.names p = some a) : st'.names p = some a := by
  by_cases hpj : p = j
  · subst hpj
    rcases h.own with hown | ⟨hnone, -⟩
    · exact hown.trans hp
    · cases hp.symm.trans hnone
  · exact (h.others p hpj).trans hp

theorem NamesArg.cases (hp : st'.names p = some a) : st.names p = some a ∨
    p = j ∧ ∃ k, st.contextIdx ≤ k ∧ k < st'.contextIdx ∧ a = contextName k := by
  by_cases hpj : p = j
  · subst hpj
    rcases h.own with heq | ⟨-, k, hle, hlt, heq⟩
    · exact Or.inl (heq ▸ hp)
    · exact Or.inr ⟨rfl, k, hle, hlt, some.inj (hp.symm.trans heq)⟩
  · exact Or.inl (h.others p hpj ▸ hp)

theorem NamesArg.older (hst : Older st.contextIdx st.names) : Older st'.contextIdx st'.names := by
  intro p a hp
  rcases h.cases hp with hold | ⟨-, k, -, hlt, rfl⟩
  · obtain ⟨k, hk, rfl⟩ := hst p a hold
    exact ⟨k, hk.trans_le h.le, rfl⟩
  · exact ⟨k, hlt, rfl⟩

/-- A new name is different from all others. -/
theorem NamesArg.distinct {n : Nat} (hst : Older st.contextIdx st.names)
    (hdist : Distinct n st.names) : Distinct n st'.names := by
  have hnew : ∀ p k, st.contextIdx ≤ k → st.names p ≠ some (contextName k) := by
    intro p k hle hp
    obtain ⟨k', hk', heq⟩ := hst p _ hp
    have := contextName_inj heq
    omega
  intro p hp q hq a hpa hqa
  rcases h.cases hpa with hpa | ⟨rfl, k, hle, -, rfl⟩
  · rcases h.cases hqa with hqa | ⟨-, k, hle, -, rfl⟩
    · exact hdist p hp q hq a hpa hqa
    · exact absurd hpa (hnew p k hle)
  · rcases h.cases hqa with hqa | ⟨rfl, -⟩
    · exact absurd hqa (hnew q k hle)
    · rfl

theorem NamesArg.addParam (ty : Ty) : NamesArg j st (addParam j ty st') := by
  rw [ContextIdentification.addParam]
  split_ifs
  · exact h
  · exact ⟨h.le, h.others, h.own⟩

end

theorem NamesArg.emplace (j : Nat) (st : Naming) : NamesArg j st { st with
    contextIdx := st.contextIdx + 1
    names := tryEmplace st.names j (contextName st.contextIdx) } := by
  refine ⟨Nat.le_succ _, fun q hq => ?_, ?_⟩
  · simp only [tryEmplace]
    split_ifs
    · rfl
    · exact Function.update_of_ne hq _ _
  · simp only [tryEmplace]
    split_ifs with hsome
    · exact Or.inl rfl
    · exact Or.inr ⟨by simpa using hsome, st.contextIdx, le_rfl, Nat.lt_succ_self _, by simp⟩

theorem NamesArg.nameLarge (j : Nat) (ty : Ty) (st : Naming) :
    NamesArg j st (nameLarge j ty st) := by
  rw [ContextIdentification.nameLarge]
  split_ifs
  · exact .emplace j st
  · exact .refl j st

@[simp] theorem next_nameLarge (j : Nat) (ty : Ty) (st : Naming) :
    (nameLarge j ty st).next = st.next := by
  rw [nameLarge]
  split_ifs <;> rfl

@[simp] theorem next_addParam (j : Nat) (ty : Ty) (st : Naming) :
    (addParam j ty st).next = st.next := by
  rw [addParam]
  split_ifs <;> rfl

@[simp] theorem names_addParam (j : Nat) (ty : Ty) (st : Naming) :
    (addParam j ty st).names = st.names := by
  rw [addParam]
  split_ifs <;> rfl

theorem tryEmplace_apply (names : Names) (p q : Nat) (a : String) :
    tryEmplace names p a q = (names q).or (if q = p then some a else none) := by
  rw [tryEmplace]
  split_ifs with hsome hq hq
  · subst hq
    obtain ⟨b, hb⟩ := isSome_iff_exists.mp hsome
    simp [hb]
  · simp
  · subst hq
    have hnone : names q = none := by simpa using hsome
    simp [hnone]
  · simp [Function.update_of_ne hq]

theorem nameUses_cons (j k : Nat) (ks : List Nat) (st : Naming) :
    ∃ st' a, NamesArg j st st' ∧ st'.names j = some a ∧
      (∀ p, st'.next p = (st.next p).or (if p + 1 = k then some a else none)) ∧
      nameUses j (k :: ks) st = nameUses j ks st' := by
  have hnext : ∀ a p, (if k = 0 then st.next else tryEmplace st.next (k - 1) a) p =
      (st.next p).or (if p + 1 = k then some a else none) := by
    intro a p
    split_ifs with hk hp hp
    · omega
    · rw [or_none]
    · rw [tryEmplace_apply, if_pos (by omega)]
    · rw [tryEmplace_apply, if_neg (by omega)]
  cases hj : st.names j with
  | some a =>
    exact ⟨{ st with next := if k = 0 then st.next else tryEmplace st.next (k - 1) a }, a,
      ⟨le_rfl, fun _ _ => rfl, Or.inl rfl⟩, hj, hnext a, by simp [nameUses, hj]⟩
  | none =>
    have hnew := NamesArg.emplace j st
    exact ⟨⟨_, _, if k = 0 then st.next else tryEmplace st.next (k - 1)
      (contextName st.contextIdx), st.totalParamSize⟩, contextName st.contextIdx,
      ⟨hnew.le, hnew.others, hnew.own⟩, by simp [tryEmplace, hj], hnext _,
      by simp [nameUses, tryEmplace, hj]⟩

/-- The positions of the uses get the name of the argument unless they have one. -/
theorem nameUses_spec (j : Nat) (ks : List Nat) (st : Naming) :
    NamesArg j st (nameUses j ks st) ∧ (ks ≠ [] → ((nameUses j ks st).names j).isSome) ∧
      ∀ p, (nameUses j ks st).next p =
        (st.next p).or (if p + 1 ∈ ks then (nameUses j ks st).names j else none) := by
  induction ks generalizing st with
  | nil => exact ⟨.refl j st, fun h => absurd rfl h, fun p => by simp [nameUses]⟩
  | cons k ks ih =>
    obtain ⟨st', a, hst', ha, hnext, heq⟩ := nameUses_cons j k ks st
    obtain ⟨hrest, -, hspec⟩ := ih st'
    have hname := hrest.keeps ha
    rw [heq]
    refine ⟨hst'.trans hrest, fun _ => by rw [hname]; rfl, fun p => ?_⟩
    rw [hspec p, hname, hnext]
    simp only [List.mem_cons]
    by_cases hp : p + 1 = k
    · simp only [hp, true_or, if_true]
      cases st.next p <;> simp
    · simp only [hp, false_or, if_false, or_none]

/-- The argument at a position is passed on with an event at an operand number. -/
def IsPassed (f : FuncOp) (arg : Value × Ty) (p : Nat) : Prop :=
  arg.2 ≠ .buffer ∧ p + 1 ∈ eventUses f arg.1

instance (f : FuncOp) (arg : Value × Ty) (p : Nat) : Decidable (IsPassed f arg p) :=
  inferInstanceAs (Decidable (_ ∧ _))

theorem nameArg_spec (f : FuncOp) (hasNext : Bool) (j : Nat) (arg : Value × Ty) (st : Naming) :
    NamesArg j st (nameArg f hasNext j arg st) ∧
      (hasNext → ∀ p, (nameArg f hasNext j arg st).next p = (st.next p).or
        (if IsPassed f arg p then (nameArg f hasNext j arg st).names j else none)) ∧
      (hasNext → ∀ p, IsPassed f arg p → ((nameArg f hasNext j arg st).names j).isSome) := by
  by_cases hbuffer : arg.2 = .buffer
  · rw [nameArg, if_pos hbuffer]
    refine ⟨.refl j st, fun _ p => ?_, fun _ p hp => absurd hbuffer hp.1⟩
    rw [if_neg fun hp => hp.1 hbuffer, or_none]
  have hlarge := NamesArg.nameLarge j arg.2 st
  rw [nameArg, if_neg hbuffer]
  cases hasNext with
  | false => exact ⟨hlarge.addParam _, nofun, nofun⟩
  | true =>
    obtain ⟨huses, hsome, hnext⟩ := nameUses_spec j (eventUses f arg.1) (nameLarge j arg.2 st)
    have hall := (hlarge.trans huses).addParam arg.2
    simp only [if_true, names_addParam, next_addParam]
    refine ⟨hall, fun _ p => ?_, fun _ p hp => hsome (List.ne_nil_of_mem hp.2)⟩
    have hpass : IsPassed f arg p ↔ p + 1 ∈ eventUses f arg.1 := and_iff_right hbuffer
    simp only [hpass, hnext, next_nameLarge]

/-! ## The arguments of a stage -/

/-- The first argument that is passed to a position of the next stage. -/
def firstUserFrom (f : FuncOp) : List (Value × Ty) → Nat → Nat → Option Nat
  | [], _, _ => none
  | arg :: args, j, p => if IsPassed f arg p then some j else firstUserFrom f args (j + 1) p

def firstUser (f : FuncOp) (p : Nat) : Option Nat := firstUserFrom f f.args 0 p

variable {q p : Nat}

theorem nameArgs_names (hq : q < j) (st : Naming) :
    (nameArgs f hasNext args j st).names q = st.names q := by
  induction args generalizing j st with
  | nil => rfl
  | cons arg args ih =>
    rw [nameArgs, ih (hq.trans (Nat.lt_succ_self j)),
      (nameArg_spec f hasNext j arg st).1.others q (Nat.ne_of_lt hq)]

/-- A name that the stage before has passed on stays. -/
theorem nameArgs_of_some {a : String} (h : st.names p = some a) :
    (nameArgs f hasNext args j st).names p = some a := by
  induction args generalizing j st with
  | nil => exact h
  | cons arg args ih => exact ih ((nameArg_spec f hasNext j arg st).1.keeps h)

theorem nameArgs_invariant {n : Nat} (hst : Older st.contextIdx st.names) :
    let st' := nameArgs f hasNext args j st
    st.contextIdx ≤ st'.contextIdx ∧ Older st'.contextIdx st'.names ∧
      (Distinct n st.names → Distinct n st'.names) := by
  induction args generalizing j st with
  | nil => exact ⟨le_rfl, hst, id⟩
  | cons arg args ih =>
    have harg := (nameArg_spec f hasNext j arg st).1
    obtain ⟨hle, holder, hdist⟩ := ih (j := j + 1) (harg.older hst)
    exact ⟨harg.le.trans hle, holder, fun h => hdist (harg.distinct hst h)⟩

/-- A position of the next stage gets the name of the first argument passed to it. -/
theorem nameArgs_next (p : Nat) : (nameArgs f true args j st).next p =
      (st.next p).or ((firstUserFrom f args j p).bind (nameArgs f true args j st).names) := by
  induction args generalizing j st with
  | nil => simp [nameArgs, firstUserFrom]
  | cons arg args ih =>
    obtain ⟨-, hnext, hsome⟩ := nameArg_spec f true j arg st
    rw [nameArgs, ih, hnext rfl, firstUserFrom]
    by_cases hpass : IsPassed f arg p
    · obtain ⟨a, ha⟩ := isSome_iff_exists.mp (hsome rfl p hpass)
      rw [if_pos hpass, if_pos hpass, bind_some, nameArgs_names (Nat.lt_succ_self j), ha]
      cases st.next p <;> simp
    · rw [if_neg hpass, if_neg hpass, or_none]

theorem nameArgs_isSome (h : firstUserFrom f args j p = some q) :
    ((nameArgs f true args j st).names q).isSome := by
  induction args generalizing j st with
  | nil => cases h
  | cons arg args ih =>
    rw [firstUserFrom] at h
    split_ifs at h with hpass
    · obtain rfl := some.inj h
      rw [nameArgs, nameArgs_names (Nat.lt_succ_self j)]
      exact (nameArg_spec f true j arg st).2.2 rfl p hpass
    · exact ih h

theorem firstUserFrom_lt (h : firstUserFrom f args j p = some q) : q < j + args.length := by
  induction args generalizing j with
  | nil => cases h
  | cons arg args ih =>
    rw [firstUserFrom] at h
    rw [List.length_cons]
    split_ifs at h
    · obtain rfl := some.inj h
      omega
    · have := ih h
      omega

/-! ## The stages of a pipeline -/

/-- No argument is the first one at two positions of the next stage. -/
def PassesOnce (f next : FuncOp) : Prop :=
  ∀ p < next.args.length, ∀ q < next.args.length, ∀ j,
    firstUser f p = some j → firstUser f q = some j → p = q

/-- The condition for all stages but the last. -/
def PassOnce : List FuncOp → Prop
  | [] => True
  | [_] => True
  | f :: g :: rest => PassesOnce f g ∧ PassOnce (g :: rest)

theorem older_next (hst : Older st.contextIdx st.names) (hnext : st.next = fun _ => none) :
    Older (nameArgs f true f.args 0 st).contextIdx (nameArgs f true f.args 0 st).next := by
  intro p a hp
  rw [nameArgs_next, hnext, none_or, bind_eq_some_iff] at hp
  obtain ⟨j, -, hj⟩ := hp
  exact (nameArgs_invariant (n := 0) hst).2.1 j a hj

/-- If the names of a stage are distinct, those it passes on are distinct exactly if no
argument is passed on twice. -/
theorem distinct_next_iff {g : FuncOp} (hst : Older st.contextIdx st.names)
    (hnext : st.next = fun _ => none) (hdist : Distinct f.args.length st.names) :
    Distinct g.args.length (nameArgs f true f.args 0 st).next ↔ PassesOnce f g := by
  have hnms : Distinct f.args.length (nameArgs f true f.args 0 st).names :=
    (nameArgs_invariant hst).2.2 hdist
  have hlk : ∀ p, (nameArgs f true f.args 0 st).next p =
      (firstUser f p).bind (nameArgs f true f.args 0 st).names := by
    intro p
    rw [nameArgs_next, hnext, none_or, firstUser]
  constructor
  · intro h p hp q hq j hj hj'
    have hsome : ((nameArgs f true f.args 0 st).names j).isSome := nameArgs_isSome hj
    obtain ⟨a, ha⟩ := isSome_iff_exists.mp hsome
    exact h p hp q hq a (by rw [hlk, hj, bind_some, ha])
      (by rw [hlk, hj', bind_some, ha])
  · intro h p hp q hq a hpa hqa
    rw [hlk, bind_eq_some_iff] at hpa hqa
    obtain ⟨j, hj, hja⟩ := hpa
    obtain ⟨j', hj', hja'⟩ := hqa
    have hjj : j = j' := hnms j (by simpa using firstUserFrom_lt hj) j'
      (by simpa using firstUserFrom_lt hj') a hja hja'
    exact h p hp q hq j hj (hjj ▸ hj')

/-- The names of all stages are distinct exactly if no stage passes an argument on
twice. -/
theorem identify_distinct_iff {rest : List FuncOp} {contextIdx : Nat} {names : Names}
    (holder : Older contextIdx names) (hdist : Distinct f.args.length names) :
    List.Forall₂ (fun (g : FuncOp) names => Distinct g.args.length names) (f :: rest)
        (identify (f :: rest) contextIdx names) ↔ PassOnce (f :: rest) := by
  induction rest generalizing f contextIdx names with
  | nil =>
    refine iff_of_true (.cons ?_ .nil) trivial
    exact (nameArgs_invariant holder).2.2 hdist
  | cons g rest ih =>
    have hst : Older (Naming.mk contextIdx names (fun _ => none) 0).contextIdx
      (Naming.mk contextIdx names (fun _ => none) 0).names := holder
    have hown : Distinct f.args.length (nameArgs f true f.args 0
        ⟨contextIdx, names, fun _ => none, 0⟩).names := (nameArgs_invariant hst).2.2 hdist
    have hnext := distinct_next_iff (f := f) (g := g) hst rfl hdist
    have holder' := older_next (f := f) hst rfl
    rw [identify, List.forall₂_cons, PassOnce, ← hnext]
    refine ⟨fun ⟨_, h⟩ => ?_, fun ⟨hg, h⟩ => ⟨hown, (ih holder' hg).mpr h⟩⟩
    have hg : Distinct g.args.length (nameArgs f true f.args 0
        ⟨contextIdx, names, fun _ => none, 0⟩).next := by
      rw [identify, List.forall₂_cons] at h
      exact fun p hp q hq a hpa hqa =>
        h.1 p hp q hq a (nameArgs_of_some hpa) (nameArgs_of_some hqa)
    exact ⟨hg, (ih holder' hg).mp h⟩

end Alkali.ContextIdentification
