import Alkali.Lowering.TypeSizes

/-!
# Splitting a struct at its dead fields

`DeadFieldEliminatePass` makes a struct of every run of used fields. The split map says where the
run starts in the original struct, and where its fields are now.
-/

namespace Alkali.DeadField

open List Function TypeSizes

/-- A field of the struct with its size and its bits of the two bitmaps. -/
structure Field where
  type : Ty
  size : Nat
  sized : getEP2TypeSize type = some size
  used : Bool
  writed : Bool

def bits (fs : List Field) : Nat := (fs.map Field.size).sum

structure StructMap where
  type : Ty
  offset : Nat
  write : Bool

structure SplitMap where
  fieldToIndex : Nat → Option Nat
  indexToNewIndex : Nat → Option Nat
  newTypes : List StructMap

/-- `try_emplace` keeps what is there. -/
def tryEmplace (m : Nat → Option Nat) (k v : Nat) : Nat → Option Nat :=
  if (m k).isSome then m else update m k (some v)

/-- The struct of a segment that ends at an offset. -/
def subStruct (name : String) (index offset : Nat) (fields : List Field) (write : Bool) :
    StructMap :=
  ⟨.struct false (fields.map Field.type) (name ++ "_sub_" ++ toString index),
    offset - bits fields, write⟩

/-- The variables of the loop: the map, the offset, and the state of the segment. -/
structure Loop extends SplitMap where
  offset : Nat
  fields : List Field
  write : Bool

namespace Loop

variable (name : String) (l : Loop)

/-- `finalize`, at a field that is not used and at the end. -/
def finalize : Loop :=
  if l.fields.isEmpty then l
  else { l with
    newTypes := l.newTypes ++ [subStruct name l.newTypes.length l.offset l.fields l.write]
    fields := []
    write := false }

def collect (f : Field) (i : Nat) : Loop := { l with
  fieldToIndex := tryEmplace l.fieldToIndex i l.newTypes.length
  indexToNewIndex := tryEmplace l.indexToNewIndex i l.fields.length
  fields := l.fields ++ [f]
  write := l.write || f.writed }

def step (x : Field × Nat) : Loop :=
  let l := if x.1.used then l.collect x.1 x.2 else l.finalize name
  { l with offset := l.offset + x.1.size }

end Loop

variable (name : String) (fs : List Field)

def splitMap : SplitMap :=
  ((fs.zipIdx.foldl (Loop.step name) ⟨⟨fun _ => none, fun _ => none, []⟩, 0, [], false⟩).finalize
    name).toSplitMap

/-! ## Runs of used fields -/

/-- The used fields right before a position. -/
def run (p : Nat) : List Field := ((fs.take p).reverse.takeWhile Field.used).reverse

/-- A maximal run of used fields ends before the position. -/
def stop (p : Nat) : Bool := !(run fs p).isEmpty && fs[p]?.all fun f => !f.used

def stopsBelow (p : Nat) : List Nat := (range p).filter (stop fs)

/-- The struct of the run that ends before a position. -/
def structOf (j p : Nat) : StructMap :=
  subStruct name j (bits (fs.take p)) (run fs p) ((run fs p).any Field.writed)

variable {name fs} {i p : Nat} {f : Field}

theorem bits_append (xs ys : List Field) : bits (xs ++ ys) = bits xs + bits ys := by
  simp [bits]

theorem take_succ_of (h : fs[i]? = some f) : fs.take (i + 1) = fs.take i ++ [f] := by
  rw [take_add_one, h]
  rfl

theorem run_succ (h : fs[i]? = some f) :
    run fs (i + 1) = if f.used then run fs i ++ [f] else [] := by
  rw [run, take_succ_of h]
  cases hf : f.used <;> simp [run, hf]

theorem bits_run_le (fs : List Field) (p : Nat) : bits (run fs p) ≤ bits (fs.take p) := by
  obtain ⟨xs, hxs⟩ : run fs p <:+ fs.take p := by
    rw [← reverse_reverse (fs.take p)]
    exact reverse_suffix.mpr ( takeWhile_prefix _)
  rw [← hxs, bits_append]
  exact Nat.le_add_left _ _

theorem stopsBelow_succ :
    stopsBelow fs (p + 1) = stopsBelow fs p ++ if stop fs p then [p] else [] := by
  rw [stopsBelow, range_succ, filter_append, filter_singleton, Bool.cond_eq_ite]
  rfl

theorem stopsBelow_succ_of_used (h : fs[i]? = some f) (hf : f.used) :
    stopsBelow fs (i + 1) = stopsBelow fs i := by
  simp [stopsBelow_succ, stop, h, hf]

theorem getElem?_stopsBelow {n : Nat} (hp : stop fs p) (hn : p < n) :
    (stopsBelow fs n)[(stopsBelow fs p).length]? = some p := by
  induction n with
  | zero => cases hn
  | succ n ih =>
    rw [stopsBelow_succ]
    rcases Nat.lt_succ_iff_lt_or_eq.mp hn with hlt | rfl
    · rw [getElem?_append_left (List.getElem?_eq_some_iff.mp (ih hlt)).1, ih hlt]
    · simp [hp]

/-- The run of a used field ends behind it. -/
theorem exists_stop {i : Nat} {f : Field} (h : fs[i]? = some f) (hf : f.used) :
    ∃ p t, stop fs p ∧ p ≤ fs.length ∧ stopsBelow fs p = stopsBelow fs i ∧
      fs.take p = fs.take i ++ f :: t ∧ run fs p = run fs i ++ f :: t := by
  have hlt : i < fs.length := (List.getElem?_eq_some_iff.mp h).1
  have hrun : run fs (i + 1) = run fs i ++ [f] := by rw [run_succ h, if_pos hf]
  by_cases hnext : ∃ g, fs[i + 1]? = some g ∧ g.used
  · obtain ⟨g, hg, hused⟩ := hnext
    obtain ⟨p, t, hstop, hle, hstops, htake, hrun'⟩ := exists_stop hg hused
    refine ⟨p, g :: t, hstop, hle, hstops.trans (stopsBelow_succ_of_used h hf), ?_, ?_⟩
    · rw [htake, take_succ_of h, append_assoc, singleton_append]
    · rw [hrun', hrun, append_assoc, singleton_append]
  · refine ⟨i + 1, [], ?_, hlt, stopsBelow_succ_of_used h hf, take_succ_of h, hrun⟩
    cases hg : fs[i + 1]? with
    | none => simp [stop, hrun, hg]
    | some g => simpa [stop, hrun, hg] using fun hused => hnext ⟨g, hg, hused⟩
termination_by fs.length - i

/-! ## The loop -/

/-- A map of the used fields before a position. -/
def usedBelow (fs : List Field) (i : Nat) (g : Nat → Nat) (k : Nat) : Option Nat :=
  if k < i ∧ fs[k]?.any Field.used then some (g k) else none

theorem usedBelow_succ {g : Nat → Nat} (h : fs[i]? = some f) : usedBelow fs (i + 1) g =
    if f.used then tryEmplace (usedBelow fs i g) i (g i) else usedBelow fs i g := by
  funext k
  rcases eq_or_ne k i with rfl | hk
  · cases hf : f.used <;> simp [usedBelow, tryEmplace, h, hf]
  · have hlt : k < i + 1 ↔ k < i := by omega
    cases f.used <;> simp [usedBelow, tryEmplace, hk, hlt]

/-- The variables after the first `i` fields. -/
def loopAt (name : String) (fs : List Field) (i : Nat) : Loop where
  fieldToIndex := usedBelow fs i fun k => (stopsBelow fs k).length
  indexToNewIndex := usedBelow fs i fun k => (run fs k).length
  newTypes := (stopsBelow fs i).mapIdx (structOf name fs)
  offset := bits (fs.take i)
  fields := run fs i
  write := (run fs i).any Field.writed

theorem finalize_loopAt (h : fs[i]?.all fun f => !f.used) :
    (loopAt name fs i).finalize name = { loopAt name fs i with
      newTypes := (stopsBelow fs (i + 1)).mapIdx (structOf name fs)
      fields := []
      write := false } := by
  rw [Loop.finalize, stopsBelow_succ, stop, h]
  cases hrun : run fs i with
  | nil => simp [loopAt, hrun]
  | cons g t => simp [loopAt, hrun, structOf]

theorem step_loopAt (h : fs[i]? = some f) :
    (loopAt name fs i).step name (f, i) = loopAt name fs (i + 1) := by
  have hbits : bits (fs.take (i + 1)) = bits (fs.take i) + f.size := by
    rw [take_succ_of h, bits_append]
    simp [bits]
  cases hf : f.used with
  | true =>
    simp [Loop.step, Loop.collect, loopAt, hf, hbits, run_succ h, usedBelow_succ h,
      stopsBelow_succ_of_used h hf]
  | false =>
    rw [Loop.step, if_neg (by simp [hf]), finalize_loopAt (by simp [h, hf])]
    simp [loopAt, hf, hbits, run_succ h, usedBelow_succ h]

theorem foldl_eq_loopAt (name : String) (hi : i ≤ fs.length) :
    (fs.zipIdx.take i).foldl (Loop.step name) ⟨⟨fun _ => none, fun _ => none, []⟩, 0, [], false⟩ =
      loopAt name fs i := by
  induction i with
  | zero => rfl
  | succ i ih =>
    have h : fs[i]? = some fs[i] := getElem?_eq_getElem hi
    rw [take_add_one, getElem?_zipIdx, h, foldl_append, ih (Nat.le_of_lt hi)]
    simpa using step_loopAt h

/-- The new structs are the maximal runs in order, and every used field is found in one of them, at
the same bit as in the original struct. -/
theorem splitMap_eq (name : String) (fs : List Field) :
    (splitMap name fs).newTypes = (stopsBelow fs (fs.length + 1)).mapIdx (structOf name fs) ∧
      ∀ i f, fs[i]? = some f → f.used → ∃ j p k, (splitMap name fs).fieldToIndex i = some j ∧
        (stopsBelow fs (fs.length + 1))[j]? = some p ∧
        (splitMap name fs).indexToNewIndex i = some k ∧ (run fs p)[k]? = some f ∧
        (structOf name fs j p).offset + bits ((run fs p).take k) = bits (fs.take i) := by
  have hmap : splitMap name fs = { loopAt name fs fs.length with
      newTypes := (stopsBelow fs (fs.length + 1)).mapIdx (structOf name fs) } := by
    have hloop := foldl_eq_loopAt name (le_refl fs.length)
    rw [take_of_length_le (by simp)] at hloop
    rw [splitMap, hloop, finalize_loopAt (by simp)]
  rw [hmap]
  refine ⟨rfl, fun i f h hf => ?_⟩
  obtain ⟨p, t, hstop, hle, hstops, htake, hrun⟩ := exists_stop h hf
  have hused : i < fs.length ∧ fs[i]?.any Field.used :=
    ⟨(List.getElem?_eq_some_iff.mp h).1, by simp [h, hf]⟩
  have hget := getElem?_stopsBelow hstop (Nat.lt_succ_of_le hle)
  rw [hstops] at hget
  refine ⟨_, p, _, if_pos hused, hget, if_pos hused, by simp [hrun], ?_⟩
  have hle := bits_run_le fs i
  simp only [structOf, subStruct, htake, hrun, bits_append, take_left']
  omega

/-- A struct with a dead field in the middle. -/
def deadMiddle : List Field := [⟨.int 8, 8, rfl, true, false⟩, ⟨.int 16, 16, rfl, false, false⟩,
  ⟨.int 32, 32, rfl, true, true⟩]

theorem splitMap_deadMiddle :
    (splitMap "hdr" deadMiddle).newTypes =
        [⟨.struct false [.int 8] "hdr_sub_0", 0, false⟩,
          ⟨.struct false [.int 32] "hdr_sub_1", 24, true⟩] ∧
      ∃ j, (splitMap "hdr" deadMiddle).fieldToIndex 2 = some j := by
  refine ⟨rfl, ?_⟩
  obtain ⟨j, _, _, hj, _⟩ := (splitMap_eq "hdr" deadMiddle).2 2 _ rfl rfl
  exact ⟨j, hj⟩

end Alkali.DeadField
