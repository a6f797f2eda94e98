import Alkali.Purity.Heap
import Alkali.Linearize.Rename

/-!
# Merging equal operations

Common subexpression elimination takes an operation that the dialect declares
pure to be determined by its operands and attributes. Replacing a later operation
by an earlier one is right exactly if it creates no object and the entry it reads
is the same at both.
-/

namespace Alkali

variable {Val : Type} [Inhabited Val]

namespace RefKind

variable {I : RefInterp Val} {k : RefKind} {args : List (RefVal Val)} (s : HeapState Val)
  (e : Value → RefVal Val)

/-- What an operation produces depends on the values through its operands only. -/
theorem value_env : k.value I args (s.withEnv e) = k.value I args s := by
  cases k with
  | base k => cases k <;> rfl
  | extract => rfl
  | emit => rfl

/-- A pure operation that creates no object is determined by its operands and by
the entry that it reads. -/
theorem value_eq_of_reads (hpure : k.isPure) (hcreates : k.creates = false)
    {s t : HeapState Val} (h : k.reads I args s = k.reads I args t) :
    k.value I args s = k.value I args t := by
  cases k with
  | base k =>
    cases k with
    | lookup | bufferPoolFetch | load => exact congrArg (fun r => r.toList.map Atom.data) h
    | init ty =>
      have hty : ¬ ty.isObject := by simpa [creates] using hcreates
      exact (if_neg hty).trans (if_neg hty).symm
    | compute | constant | globalImport | contextRef => rfl
    | update | updateAtomic | bufferPoolCommit | store | sink | ret | branch | terminate =>
      cases hpure
  | extract | emit => cases hpure

/-- An entry that is read is seen in the value. -/
theorem shown_value_of_reads {s t : HeapState Val} {v : Val} (h : k.reads I args s = some v) :
    t.shown (k.value I args s) = [.data v] := by
  cases k with
  | base k =>
    cases k with
    | lookup | bufferPoolFetch | load => simp [value, h, HeapState.shown]
    | _ => cases h
  | extract | emit => cases h

theorem reads_eq_none_or (k : RefKind) : (∀ args (s : HeapState Val), k.reads I args s = none) ∨
      ∀ args (s : HeapState Val), (k.reads I args s).isSome := by
  cases k with
  | base k =>
    cases k with
    | lookup | bufferPoolFetch | load => exact Or.inr fun _ _ => rfl
    | _ => exact Or.inl fun _ _ => rfl
  | extract => exact Or.inl fun _ _ => rfl
  | emit => exact Or.inl fun _ _ => rfl

theorem creates_iff : k.creates ↔ ∃ ty, k = .base (.init ty) ∧ ty.isObject := by
  constructor
  · intro h
    cases k with
    | base k =>
      cases k with
      | init ty => exact ⟨ty, rfl, h⟩
      | _ => cases h
    | extract | emit => cases h
  · rintro ⟨ty, rfl, h⟩
    exact h

theorem value_of_creates (h : k.creates) (s : HeapState Val) :
    k.value I args s = [.addr s.next] := by
  obtain ⟨ty, rfl, hty⟩ := creates_iff.mp h
  exact if_pos hty

variable [DecidableEq Val]

theorem effect_env : k.effect I args (s.withEnv e) = (k.effect I args s).withEnv e := by
  cases k with
  | base k =>
    cases k with
    | update | updateAtomic => exact s.setEntry_env e _ _ _
    | init ty =>
      simp only [effect]
      split <;> rfl
    | _ => rfl
  | extract => exact s.setBuffer_env e _ _
  | emit => exact s.setBuffer_env e _ _

theorem next_le_effect : s.next ≤ (k.effect I args s).next := by
  cases k with
  | base k =>
    cases k with
    | update | updateAtomic => exact (s.setEntry_next _ _ _).ge
    | init ty =>
      simp only [effect]
      split
      · exact Nat.le_succ _
      · exact le_rfl
    | _ => exact le_rfl
  | extract => exact (s.setBuffer_next _ _).ge
  | emit => exact (s.setBuffer_next _ _).ge

/-- A pure operation that creates no object has no effect. -/
theorem effect_of_isPure (hpure : k.isPure) (hcreates : k.creates = false) (s : HeapState Val) :
    k.effect I args s = s := by
  cases k with
  | base k =>
    cases k with
    | init ty => exact if_neg (by simpa [creates] using hcreates)
    | compute | constant | globalImport | contextRef | lookup | bufferPoolFetch | load => rfl
    | update | updateAtomic | bufferPoolCommit | store | sink | ret | branch | terminate =>
      cases hpure
  | extract | emit => cases hpure

theorem effect_of_creates (h : k.creates) (s : HeapState Val) : k.effect I args s = s.alloc := by
  obtain ⟨ty, rfl, hty⟩ := creates_iff.mp h
  exact if_pos hty

theorem trace_effect_of_isPure (hpure : k.isPure) (s : HeapState Val) :
    (k.effect I args s).trace = s.trace := by
  cases hcreates : k.creates with
  | false => rw [effect_of_isPure hpure hcreates]
  | true =>
    rw [effect_of_creates hcreates]
    rfl

end RefKind

namespace RefOp

/-- The operations use only values that are available before them. -/
def From (avail : List Value) : List RefOp → Prop
  | [] => True
  | o :: ops => (∀ v ∈ o.uses, v ∈ avail) ∧ From (avail ++ o.binds) ops

/-- A block in which every value is bound once, before its uses. -/
structure BlockSsa (args : List Value) (ops : List RefOp) : Prop where
  uses : From args ops
  nodup : (args ++ ops.flatMap binds).Nodup

/-- The later operation `p` with the result `y` computes the same expression as the
earlier operation `o` with the result `x`. -/
structure SameExpression (o p : RefOp) (x y : Value) : Prop where
  isPure : p.kind.isPure
  kind : o.kind = p.kind
  operands : o.operands = p.operands
  results : ∃ ty, o.results = [(x, ty)] ∧ p.results = [(y, ty)]
  always : o.preds = [] ∧ p.preds = []

/-- Replace values in the uses of an operation. -/
def rename (σ : Value → Value) (o : RefOp) : RefOp :=
  { o with operands := o.operands.map σ, preds := o.preds.map fun p => (σ p.1, p.2) }

/-- The operations after `p` when `p` is erased and `x` takes the place of its result. -/
def mergeInto (x y : Value) (back : List RefOp) : List RefOp :=
  back.map (rename (replaceValue [y] [x]))

theorem From.append {avail : List Value} {ops ops' : List RefOp} :
    From avail (ops ++ ops') ↔ From avail ops ∧ From (avail ++ ops.flatMap binds) ops' := by
  induction ops generalizing avail with
  | nil => simp [From]
  | cons o ops ih => simp [From, ih, and_assoc]

variable {I : RefInterp Val} [DecidableEq Val]

theorem run_append (ops ops' : List RefOp) (s : HeapState Val) :
    run I (ops ++ ops') s = run I ops' (run I ops s) := by
  induction ops generalizing s with
  | nil => rfl
  | cons o ops ih => exact ih _

theorem step_of_preds_nil {o : RefOp} (h : o.preds = []) (s : HeapState Val) :
    o.step I s = (o.kind.effect I (o.args s) s).withEnv
      (setResults o.binds [o.kind.value I (o.args s) s] s.env) :=
  if_pos (by simp [enabled, h])

section Frame

variable {ops : List RefOp} {v : Value}

theorem step_env_of_not_mem {o : RefOp} (h : v ∉ o.binds) (s : HeapState Val) :
    (o.step I s).env v = s.env v := by
  rw [step]
  split
  · exact setResults_of_not_mem h
  · rfl

theorem run_env_of_not_mem (h : v ∉ ops.flatMap binds) (s : HeapState Val) :
    (run I ops s).env v = s.env v := by
  induction ops generalizing s with
  | nil => rfl
  | cons o ops ih =>
    rw [List.flatMap_cons, List.mem_append, not_or] at h
    exact (ih h.2 _).trans (step_env_of_not_mem h.1 s)

theorem next_le_step (o : RefOp) (s : HeapState Val) : s.next ≤ (o.step I s).next := by
  rw [step]
  split
  · exact RefKind.next_le_effect s
  · exact le_rfl

/-- Objects are never given back. -/
theorem next_le_run (ops : List RefOp) (s : HeapState Val) : s.next ≤ (run I ops s).next := by
  induction ops generalizing s with
  | nil => exact le_rfl
  | cons o ops ih => exact (next_le_step o s).trans (ih _)

end Frame

section Rename

variable {σ : Value → Value}
variable {s : HeapState Val} {e : Value → RefVal Val}

/-- Operations with replaced values do the same, step by step. -/
theorem step_rename (h : ∀ v, e (σ v) = s.env v) {o : RefOp} (ho : Untouched σ o.binds) :
    ∃ e', (o.rename σ).step I (s.withEnv e) = (o.step I s).withEnv e' ∧
      ∀ v, e' (σ v) = (o.step I s).env v := by
  have hargs : (o.rename σ).args (s.withEnv e) = o.args s := by
    rw [args, rename, List.map_map]
    exact List.map_congr_left fun v _ => h v
  have hen : (o.rename σ).enabled I (s.withEnv e) = o.enabled I s := by
    simp only [enabled, rename, List.all_map]
    exact List.all_congr rfl fun p => by simp [HeapState.withEnv, h]
  have hkind : (o.rename σ).kind = o.kind := rfl
  have hbinds : (o.rename σ).binds = o.binds := rfl
  simp only [step, hargs, hen, hkind, hbinds, RefKind.value_env, RefKind.effect_env]
  split
  · exact ⟨_, rfl, fun v => setResults_rename (h v) (fun r hr => ho r hr v) _⟩
  · exact ⟨e, rfl, h⟩

theorem run_rename {ops : List RefOp} (hops : ∀ o ∈ ops, Untouched σ o.binds)
    (h : ∀ v, e (σ v) = s.env v) :
    ∃ e', run I (ops.map (rename σ)) (s.withEnv e) = (run I ops s).withEnv e' := by
  induction ops generalizing s e with
  | nil => exact ⟨e, rfl⟩
  | cons o ops ih =>
    obtain ⟨e', hstep, hnext⟩ := step_rename (I := I) h (hops o (by simp))
    rw [List.map_cons, run, hstep]
    exact ih (fun o' ho' => hops o' (by simp [ho'])) hnext

end Rename

end RefOp

end Alkali
