import Alkali.Purity.Distinguish

/-!
# When equal operations may be merged

The block runs to the later operation in the same way with and without it. If the
later operation creates no object and reads what the earlier one read, the values
of the two are equal and the rest of the block does the same. Otherwise there are
operations after it that tell the difference.
-/

namespace Alkali.RefOp

open List RefKind

variable {Val : Type} [Inhabited Val] [DecidableEq Val] {I : RefInterp Val}

/-- The state before the earlier operation. -/
def atFirst (I : RefInterp Val) (front : List RefOp) (s : HeapState Val) : HeapState Val :=
  run I front s

/-- The state before the later operation. -/
def atSecond (I : RefInterp Val) (front : List RefOp) (o : RefOp) (mid : List RefOp)
    (s : HeapState Val) : HeapState Val :=
  run I (o :: mid) (atFirst I front s)

/-- The entry that the operation reads holds the same at both places. -/
def ReadsSame (I : RefInterp Val) (front : List RefOp) (o : RefOp) (mid : List RefOp) (p : RefOp)
    (s : HeapState Val) : Prop :=
  p.kind.reads I (p.args (atSecond I front o mid s)) (atSecond I front o mid s) =
    o.kind.reads I (o.args (atFirst I front s)) (atFirst I front s)

section Site

variable {args : List Value} {front mid back : List RefOp} {o p : RefOp} {x y : Value}

theorem SameExpression.binds_left (h : SameExpression o p x y) : o.binds = [x] := by
  obtain ⟨ty, ho, -⟩ := h.results
  rw [binds, ho]
  rfl

theorem SameExpression.binds_right (h : SameExpression o p x y) : p.binds = [y] := by
  obtain ⟨ty, -, hp⟩ := h.results
  rw [binds, hp]
  rfl

section

variable (hsame : SameExpression o p x y) (hssa : BlockSsa args (front ++ o :: (mid ++ p :: back)))
include hsame hssa

/-- The results of the two operations and the values bound elsewhere are distinct. -/
theorem BlockSsa.results_ne :
    x ≠ y ∧ x ∉ mid.flatMap binds ∧ ∀ q ∈ back, x ∉ q.binds ∧ y ∉ q.binds := by
  have hnd := hssa.nodup
  simp only [flatMap_append, flatMap_cons, hsame.binds_left, hsame.binds_right,
    nodup_append, nodup_cons, cons_append, nil_append, mem_append,
    mem_cons, not_or] at hnd
  obtain ⟨-, ⟨-, ⟨⟨hmid, hxy, hback⟩, -, ⟨hy, -⟩, -⟩, -⟩, -⟩ := hnd
  refine ⟨hxy, hmid, fun q hq => ⟨fun hx => hback ?_, fun hy' => hy ?_⟩⟩
  · exact mem_flatMap.mpr ⟨q, hq, hx⟩
  · exact mem_flatMap.mpr ⟨q, hq, hy'⟩

/-- The operands of the two operations have the same values. -/
theorem BlockSsa.args_eq (s : HeapState Val) :
    p.args (atSecond I front o mid s) = o.args (atFirst I front s) := by
  have huses := (From.append.mp hssa.uses).2.1
  have hnd := hssa.nodup
  rw [flatMap_append, ← append_assoc, nodup_append] at hnd
  rw [RefOp.args, RefOp.args, ← hsame.operands]
  refine map_congr_left fun v hv => ?_
  have havail := huses v (mem_append_right _ hv)
  refine run_env_of_not_mem (fun hmem => hnd.2.2 v havail v ?_ rfl) _
  rw [flatMap_cons] at hmem ⊢
  rw [flatMap_append]
  exact (mem_append.mp hmem).elim (mem_append_left _) fun h =>
    mem_append_right _ (mem_append_left _ h)

/-- The result of the earlier operation when the later one is reached. -/
theorem BlockSsa.env_first (s : HeapState Val) : (atSecond I front o mid s).env x =
      o.kind.value I (o.args (atFirst I front s)) (atFirst I front s) := by
  obtain ⟨-, hmid, -⟩ := hssa.results_ne hsame
  rw [atSecond, run, run_env_of_not_mem hmid, step_of_preds_nil hsame.always.1, hsame.binds_left]
  simp [HeapState.withEnv, setResults]

end

theorem SameExpression.env_second (h : SameExpression o p x y) (u : HeapState Val) :
    (p.step I u).env y = p.kind.value I (p.args u) u := by
  rw [step_of_preds_nil h.always.2, h.binds_right]
  simp [HeapState.withEnv, setResults]

theorem SameExpression.env_second_of_ne (h : SameExpression o p x y) (hxy : x ≠ y)
    (u : HeapState Val) : (p.step I u).env x = u.env x :=
  step_env_of_not_mem (by simp [h.binds_right, hxy]) u

theorem SameExpression.trace_second (h : SameExpression o p x y) (u : HeapState Val) :
    (p.step I u).trace = u.trace := by
  rw [step_of_preds_nil h.always.2]
  exact trace_effect_of_isPure h.isPure u

theorem run_split (ops : List RefOp) (s : HeapState Val) :
    run I (front ++ o :: (mid ++ ops)) s = run I ops (atSecond I front o mid s) := by
  rw [run_append, atSecond, atFirst, ← cons_append, run_append]

section

variable (hsame : SameExpression o p x y) (hssa : BlockSsa args (front ++ o :: (mid ++ p :: back)))
  (hcreates : p.kind.creates = false)
include hsame hssa hcreates

/-- Erasing an operation without effect whose value the block already has changes
nothing but the values. -/
theorem BlockSsa.run_mergeInto {s : HeapState Val}
    (hvalue : p.kind.value I (p.args (atSecond I front o mid s)) (atSecond I front o mid s) =
      (atSecond I front o mid s).env x) :
    ∃ e, run I (front ++ o :: (mid ++ mergeInto x y back)) s =
      (run I (front ++ o :: (mid ++ p :: back)) s).withEnv e := by
  obtain ⟨-, -, hback⟩ := hssa.results_ne hsame
  rw [run_split, run_split, run, step_of_preds_nil hsame.always.2,
    effect_of_isPure hsame.isPure hcreates, hvalue, hsame.binds_right]
  have huntouched : ∀ q ∈ back, Untouched (replaceValue [y] [x]) q.binds := fun q hq v hv w => by
    have hx : x ≠ v := fun h => (hback q hq).1 (h ▸ hv)
    have hy : y ≠ v := fun h => (hback q hq).2 (h ▸ hv)
    by_cases hw : w = y
    · simp [replaceValue, hw, hx, hy]
    · simp [replaceValue, hw]
  generalize atSecond I front o mid s = u
  change ∃ e, run I (mergeInto x y back)
    ((u.withEnv (setResults [y] [u.env x] u.env)).withEnv u.env) = _
  refine run_rename huntouched fun v => ?_
  by_cases hv : v = y
  · simp [replaceValue, setResults, HeapState.withEnv, hv]
  · simp [replaceValue, setResults, HeapState.withEnv, hv]

/-- A later operation that creates no object and reads what the earlier one read
may be replaced by it. -/
theorem BlockSsa.observe_mergeInto {s : HeapState Val} (hreads : ReadsSame I front o mid p s)
    (given : Nat) :
    (run I (front ++ o :: (mid ++ mergeInto x y back)) s).observe given =
      (run I (front ++ o :: (mid ++ p :: back)) s).observe given := by
  have hargs := hssa.args_eq (I := I) hsame s
  rw [ReadsSame, hsame.kind, hargs] at hreads
  have hvalue : p.kind.value I (p.args (atSecond I front o mid s)) (atSecond I front o mid s) =
      (atSecond I front o mid s).env x := by
    rw [hssa.env_first hsame, hargs, hsame.kind]
    exact value_eq_of_reads hsame.isPure hcreates hreads
  obtain ⟨e, he⟩ := hssa.run_mergeInto hsame hcreates hvalue
  rw [he]
  rfl

end

end Site

section Necessity

variable {args : List Value} {front mid back : List RefOp} {o p : RefOp} {x y : Value}

/-- The block may go on with operations that use its values and bind new ones. -/
theorem BlockSsa.continue (h : BlockSsa args (front ++ o :: (mid ++ [p])))
    (huses : From (args ++ (front ++ o :: (mid ++ [p])).flatMap binds) back)
    (hnd : (args ++ (front ++ o :: (mid ++ [p])).flatMap binds ++ back.flatMap binds).Nodup) :
    BlockSsa args (front ++ o :: (mid ++ p :: back)) := by
  have hsplit : front ++ o :: (mid ++ p :: back) = front ++ o :: (mid ++ [p]) ++ back := by simp
  rw [hsplit]
  exact ⟨From.append.mpr ⟨h.uses, huses⟩, by simpa [flatMap_append] using hnd⟩

/-- The merged block emits the same events for every continuation. -/
def EmitsSame (I : RefInterp Val) (args : List Value) (front : List RefOp) (o : RefOp)
    (mid : List RefOp) (p : RefOp) (x y : Value) (s : HeapState Val) : Prop :=
  ∀ back, BlockSsa args (front ++ o :: (mid ++ p :: back)) →
    (run I (mergeInto x y back) (atSecond I front o mid s)).trace =
      (run I back (p.step I (atSecond I front o mid s))).trace

omit [Inhabited Val] [DecidableEq Val] in
/-- There are always two more values. -/
theorem exists_two_notMem (vs : List Value) : ∃ z z', z ≠ z' ∧ z ∉ vs ∧ z' ∉ vs := by
  obtain ⟨z, hz⟩ := Infinite.exists_notMem_finset vs.toFinset
  obtain ⟨z', hz'⟩ := Infinite.exists_notMem_finset (z :: vs).toFinset
  rw [mem_toFinset] at hz hz'
  rw [mem_cons, not_or] at hz'
  exact ⟨z, z', Ne.symm hz'.1, hz, hz'.2⟩

variable {s : HeapState Val} (h : EmitsSame I args front o mid p x y s)
  (hsame : SameExpression o p x y) (hssa : BlockSsa args (front ++ o :: (mid ++ [p])))

include h hsame hssa

/-- An entry that has changed is seen when the result is returned. -/
theorem EmitsSame.readsSame : ReadsSame I front o mid p s := by
  have hret := h [returned y] (hssa.continue (by simp [From, hsame.binds_right])
    (by simpa using hssa.nodup))
  have hren : mergeInto x y [returned y] = [returned x] := by
    simp [mergeInto, rename, returned, replaceValue]
  rw [hren, run, run, run, run, trace_returned, trace_returned, hsame.trace_second,
    hsame.env_second, hssa.env_first hsame, hssa.args_eq hsame, hsame.kind] at hret
  rw [ReadsSame, hssa.args_eq hsame, hsame.kind]
  rcases reads_eq_none_or (I := I) p.kind with hnone | hsome
  · rw [hnone, hnone]
  · obtain ⟨a, ha⟩ := Option.isSome_iff_exists.mp (hsome (o.args (atFirst I front s))
      (atSecond I front o mid s))
    obtain ⟨b, hb⟩ := Option.isSome_iff_exists.mp (hsome (o.args (atFirst I front s))
      (atFirst I front s))
    rw [shown_value_of_reads ha, shown_value_of_reads hb] at hret
    have hab : b = a := by simpa using hret
    rw [ha, hb, hab]

omit h in
/-- Two operations that create objects create two objects. -/
theorem BlockSsa.objects_ne (hcreates : p.kind.creates) :
    ∃ m n, m ≠ n ∧ (atSecond I front o mid s).env x = [.addr m] ∧
      (p.step I (atSecond I front o mid s)).env x = [.addr m] ∧
      (p.step I (atSecond I front o mid s)).env y = [.addr n] ∧
      (p.step I (atSecond I front o mid s)).buffers m = (atSecond I front o mid s).buffers m := by
  have hx : (atSecond I front o mid s).env x = [.addr (atFirst I front s).next] := by
    rw [hssa.env_first hsame, hsame.kind, value_of_creates hcreates]
  have hlt : (atFirst I front s).next < (atSecond I front o mid s).next := by
    have hstep : (o.step I (atFirst I front s)).next = (atFirst I front s).next + 1 := by
      rw [step_of_preds_nil hsame.always.1, hsame.kind, effect_of_creates hcreates]
      rfl
    exact Nat.lt_of_succ_le (hstep.ge.trans (next_le_run mid _))
  refine ⟨_, _, hlt.ne, hx, (hsame.env_second_of_ne (hssa.results_ne hsame).1 _).trans hx,
    (hsame.env_second _).trans (value_of_creates hcreates _), ?_⟩
  rw [step_of_preds_nil hsame.always.2, effect_of_creates hcreates]
  exact Function.update_of_ne hlt.ne _ _

/-- Something that is emitted to a buffer is not seen in the other one. -/
theorem EmitsSame.ne_buffer : p.kind ≠ .base (.init .buffer) := by
  intro hkind
  obtain ⟨m, n, hne, hu, hx, hy, hbuffers⟩ :=
    hssa.objects_ne (I := I) (s := s) hsame (by rw [hkind]; rfl)
  have hemit := h [emitted y y, returned x] (hssa.continue
    (by simp [From, hsame.binds_left, hsame.binds_right])
    (by simpa using hssa.nodup))
  have hren : mergeInto x y [emitted y y, returned x] = [emitted x x, returned x] := by
    simp [mergeInto, rename, emitted, returned, replaceValue, (hssa.results_ne hsame).1]
  obtain ⟨c, hmerged⟩ := trace_emitted (I := I) hu hu
  obtain ⟨d, hkept⟩ := trace_emitted (I := I) hx hy
  rw [hren, hmerged, hkept, hsame.trace_second, if_pos rfl, if_neg hne, hbuffers] at hemit
  simp at hemit

/-- Entries of two tables for one key are independent. -/
theorem EmitsSame.ne_table (hI : Distinguishes I) {k v : Ty} {size : Nat} :
    p.kind ≠ .base (.init (.table k v size)) := by
  intro hkind
  obtain ⟨m, n, hne, hu, hx, hy, -⟩ :=
    hssa.objects_ne (I := I) (s := s) hsame (by rw [hkind]; rfl)
  obtain ⟨c, d, a, b, hc, hd, hab⟩ := hI
  obtain ⟨z, z', hzz, hz, hz'⟩ := exists_two_notMem
    (args ++ (front ++ o :: (mid ++ [p])).flatMap binds)
  have hxz : x ≠ z ∧ x ≠ z' := ⟨fun e => hz (by simp [← e, hsame.binds_left]),
    fun e => hz' (by simp [← e, hsame.binds_left])⟩
  have hyz : y ≠ z ∧ y ≠ z' := ⟨fun e => hz (by simp [← e, hsame.binds_right]),
    fun e => hz' (by simp [← e, hsame.binds_right])⟩
  have hupd := h [constantOf c z, constantOf d z', updated y z z, updated x z z', returned y]
    (hssa.continue
      (by simp [From, hsame.binds_left, hsame.binds_right])
      (nodup_append.mpr ⟨hssa.nodup, by simp [hzz], by
        rintro v hv w hw rfl
        rcases (by simpa using hw : v = z ∨ v = z') with rfl | rfl
        · exact hz hv
        · exact hz' hv⟩))
  have hren : mergeInto x y [constantOf c z, constantOf d z', updated y z z, updated x z z',
      returned y] = [constantOf c z, constantOf d z', updated x z z, updated x z z',
      returned x] := by
    simp [mergeInto, rename, constantOf, updated, returned, replaceValue,
      (hssa.results_ne hsame).1, hyz.1.symm, hyz.2.symm]
  obtain ⟨T, hmerged, hT⟩ := trace_updated hc hd hzz hxz hxz hu hu
  obtain ⟨T', hkept, hT'⟩ := trace_updated hc hd hzz hxz hyz hx hy
  have htabs : T = T' := by
    simp_all
  rw [if_pos rfl] at hT
  rw [if_neg hne, ← htabs, hT] at hT'
  exact hab hT'.symm

/-- Objects are told apart by changing one of them. -/
theorem EmitsSame.creates_eq_false (hI : Distinguishes I) : p.kind.creates = false := by
  rw [← Bool.not_eq_true]
  intro hcreates
  obtain ⟨ty, hkind, hty⟩ := creates_iff.mp hcreates
  cases ty with
  | buffer => exact h.ne_buffer hsame hssa hkind
  | table k v size => exact h.ne_table hsame hssa hI hkind
  | _ => cases hty

end Necessity

section Merge

variable {args : List Value} {front mid : List RefOp} {o p : RefOp} {x y : Value}

end Merge

/-- Integers as data. -/
def intHeap : RefInterp Int where
  eval k args := match k with
    | .constant "1" => [.data 1]
    | .constant _ => [.data 0]
    | _ => args.flatten
  pack parts := match parts with
    | .data v :: _ => v
    | _ => 0
  truth v := v != [.data 0]
  atomic _ old new := old + new

/-- `ep2.lookup` of the global table of the value `0` with the key `1`. -/
def lookupOf (v : Value) : RefOp :=
  { kind := .base (.lookup "t"), operands := [0, 1], results := [(v, .int 32)], preds := [] }

/-- `ep2.update` of the same entry with the value `2`. -/
def updateOf : RefOp :=
  { kind := .base (.update "t"), operands := [0, 1, 2], results := [], preds := [] }

/-- All entries are 0. -/
def emptyTables (key new : Int) : HeapState Int where
  env v := match v with
    | 0 => [.global "t"]
    | 1 => [.data key]
    | 2 => [.data new]
    | _ => []
  cells _ _ := 0
  tables _ _ := 0
  buffers _ := []
  next := 0
  trace := []

theorem distinguishes_intHeap : Distinguishes intHeap := ⟨"0", "1", 0, 1, rfl, rfl, by decide⟩

theorem sameExpression_lookupOf (x y : Value) : SameExpression (lookupOf x) (lookupOf y) x y :=
  ⟨rfl, rfl, rfl, ⟨.int 32, rfl, rfl⟩, rfl, rfl⟩

end Alkali.RefOp
