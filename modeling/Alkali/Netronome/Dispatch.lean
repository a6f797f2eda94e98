import Mathlib.Data.BitVec

/-!
# The dispatch functions of `EmitNetronomePass`

A handler enqueues its events through `__ep2_intrin_enq_work` calls, each with a list of output
queues. For a list with at least two queues the pass generates a function that chooses the queue
by a counter, which all functions of the handler share, or by the hash of a context field.
-/

namespace Alkali.Netronome

open List

/-! ## Queue lists -/

/-- The value of a number as an `int`, which wraps. -/
def toInt (x : Int) : Int := x.bmod (2 ^ 32)

theorem toInt_of_lt {n : Nat} (h : n < 2 ^ 31) : toInt n = n :=
  Int.bmod_eq_of_le (by omega) (by omega)

/-- The number that a run of digits stands for, added up in an `int`. -/
def digitsValue (cs : List Char) : Int :=
  cs.foldl (fun v c => toInt (toInt (v * 10) + (c.toNat - '0'.toNat : Nat))) 0

/-- The loop of `parseDescription`. -/
def parseLoop : Nat → List Char → List Int
  | 0, _ => []
  | _, [] => []
  | fuel + 1, cs =>
    digitsValue (cs.takeWhile Char.isDigit) ::
      parseLoop fuel ((cs.dropWhile Char.isDigit).dropWhile fun c => !c.isDigit)

/-- `parseDescription`: each round consumes a character. -/
def parseDescription (info : String) : List Int := parseLoop info.toList.length info.toList

variable (queues : List Nat)

/-- `outputQStr` of the lowering to EmitC. -/
def outputQStr : String :=
  String.ofList (queues.flatMap fun q => (Nat.toDigits 10 q) ++ [' '])

/-- Digits of a number that is an `int` add up without a wrap. -/
theorem digitsValue_of_lt {cs : List Char} (h : Nat.ofDigitChars 10 cs 0 < 2 ^ 31) :
    digitsValue cs = Nat.ofDigitChars 10 cs 0 := by
  induction cs using List.reverseRecOn with
  | nil => rfl
  | append_singleton cs c ih =>
    have hvalue : Nat.ofDigitChars 10 (cs ++ [c]) 0 =
        Nat.ofDigitChars 10 cs 0 * 10 + (c.toNat - '0'.toNat) := by
      rw [Nat.ofDigitChars, foldl_append, Nat.mul_comm]
      rfl
    rw [hvalue] at h ⊢
    have hten := toInt_of_lt (n := Nat.ofDigitChars 10 cs 0 * 10) (by omega)
    rw [digitsValue, foldl_append, foldl_cons, foldl_nil, ← digitsValue, ih (by omega),
      ← toInt_of_lt h, Int.natCast_add, ← hten, Int.natCast_mul]
    rfl

theorem digitsValue_toDigits {q : Nat} (hq : q < 2 ^ 31) :
    digitsValue (Nat.toDigits 10 q) = q := by
  have h := Nat.ofDigitChars_toDigits (b := 10) (n := q) (by decide) (by decide)
  rw [digitsValue_of_lt (h.symm ▸ hq), h]

/-- Printed queues start with a digit. -/
theorem dropWhile_flatMap :
    (queues.flatMap fun q => (Nat.toDigits 10 q) ++ [' ']).dropWhile (fun c => !c.isDigit) =
      queues.flatMap fun q => (Nat.toDigits 10 q) ++ [' '] := by
  cases queues with
  | nil => rfl
  | cons q queues =>
    obtain ⟨c, cs, hcs⟩ := exists_cons_of_ne_nil (Nat.toDigits_ne_nil (n := q) (b := 10))
    have hdigit : c.isDigit = true :=
      Nat.isDigit_of_mem_toDigits (b := 10) (n := q) (by decide) (by decide)
        (hcs ▸ mem_cons_self)
    simp [flatMap_cons, hcs, hdigit]

variable {queues} in
theorem parseLoop_flatMap {fuel : Nat} (hfuel : queues.length ≤ fuel)
    (hqueues : ∀ q ∈ queues, q < 2 ^ 31) :
    parseLoop fuel (queues.flatMap fun q => (Nat.toDigits 10 q) ++ [' ']) =
      queues.map Nat.cast := by
  induction queues generalizing fuel with
  | nil => cases fuel <;> rfl
  | cons q queues ih =>
    obtain ⟨fuel, rfl⟩ : ∃ n, fuel = n + 1 := ⟨fuel - 1, by simp at hfuel; omega⟩
    have hdigits : ∀ c ∈ Nat.toDigits 10 q, c.isDigit = true := fun c hc =>
      Nat.isDigit_of_mem_toDigits (by decide) (by decide) hc
    have hspace : ' '.isDigit = false := by decide
    rw [flatMap_cons, append_assoc]
    obtain ⟨c, cs, hcs⟩ := exists_cons_of_ne_nil (Nat.toDigits_ne_nil (n := q) (b := 10))
    have hunfold : ∀ rest, parseLoop (fuel + 1) (Nat.toDigits 10 q ++ rest) =
        digitsValue ((Nat.toDigits 10 q ++ rest).takeWhile Char.isDigit) ::
          parseLoop fuel (((Nat.toDigits 10 q ++ rest).dropWhile Char.isDigit).dropWhile
            fun c => !c.isDigit) := by
      intro rest
      rw [hcs]
      rfl
    rw [hunfold, takeWhile_append_of_pos hdigits, dropWhile_append_of_pos hdigits]
    have hlen : queues.length ≤ fuel := Nat.le_of_succ_le_succ hfuel
    obtain ⟨hq, hrest⟩ := forall_mem_cons.mp hqueues
    simp [hspace, dropWhile_flatMap, digitsValue_toDigits hq, ih hlen hrest]

/-- The queues that the lowering prints are those that the pass reads, if each is an `int`. -/
theorem parseDescription_outputQStr (hqueues : ∀ q ∈ queues, q < 2 ^ 31) :
    parseDescription (outputQStr queues) = queues.map Nat.cast := by
  rw [parseDescription, outputQStr, String.toList_ofList]
  refine parseLoop_flatMap ?_ hqueues
  clear hqueues
  induction queues with
  | nil => exact Nat.zero_le _
  | cons q queues ih =>
    rw [flatMap_cons, length_append, length_append, length_cons]
    simp only [length_singleton]
    omega

theorem parseDescription_outputQStr_three :
    parseDescription (outputQStr [12, 3, 2147483647]) = [12, 3, 2147483647] :=
  parseDescription_outputQStr [12, 3, 2147483647] (by decide)

/-! ## The generated functions -/

/-- `__ep2_intrin_enq_work` with its arguments. -/
structure EnqWork where
  event : String
  queueList : String
  field : String

/-- A generated function, which has at least two cases. -/
structure Dispatcher where
  event : String
  queues : List Int
  field : String
  two_le : 2 ≤ queues.length
  size_lt : queues.length < 2 ^ 32

/-- The function for a call, if it has one. A `SmallVector` holds less than 2^32 entries. -/
def dispatcher? (call : EnqWork) : Option Dispatcher :=
  let queues := parseDescription call.queueList
  if h : 2 ≤ queues.length ∧ queues.length < 2 ^ 32 then
    some ⟨call.event, queues, call.field, h.1, h.2⟩
  else none

/-- The functions of a handler. -/
def dispatchers (calls : List EnqWork) : List Dispatcher := calls.filterMap dispatcher?

/-- `isPow2` on 32 bits. -/
def isPow2 (x : Nat) : Bool :=
  let u := x % 2 ^ 32
  u &&& ((2 ^ 32 - u) % 2 ^ 32) == u

/-- The assignment to `rr_ctr` in a function with `n` cases. -/
def rrNext (n rrCtr : Nat) : Nat :=
  if isPow2 n then (rrCtr + 1) &&& (n - 1) else if rrCtr = n - 1 then 0 else rrCtr + 1

/-- The generated `hash`. Its parameter is an `int`, whatever the type of the field. -/
def hash (x : Int) : Int := toInt x

namespace Dispatcher

variable (d : Dispatcher)

/-- The operand of the `switch`. The remainder has the sign of the key. -/
def operand (rrCtr : Nat) (key : Int) : Int :=
  if d.field = "-1" then rrCtr else (hash key).tmod d.queues.length

/-- The case of the `switch`. -/
def enqueued (rrCtr : Nat) (key : Int) : Option (String × Int) :=
  ((range d.queues.length).find? fun i : Nat => (i : Int) = d.operand rrCtr key).map
    fun i : Nat => (d.event, (i : Int) + 1)

end Dispatcher

/-- A call of a generated function, with the key that it would hash. -/
structure Call where
  function : Nat
  key : Int

/-- What the calls enqueue. -/
def run (ds : List Dispatcher) : Nat → List Call → List (Call × Option (String × Int))
  | _, [] => []
  | rrCtr, call :: calls =>
    match ds[call.function]? with
    | none => run ds rrCtr calls
    | some d => (call, d.enqueued rrCtr call.key) :: run ds (rrNext d.queues.length rrCtr) calls

/-! ## What they are for -/

/-- The queues of the calls of a function. -/
def queuesOf (function : Nat) (outs : List (Call × Option (String × Int))) : List Int :=
  outs.filterMap fun x => if x.1.function = function then x.2.map Prod.snd else none

variable (ds : List Dispatcher)

/-- Each call enqueues on one queue of its list, calls of a function in round-robin mode visit
every queue of the list once per round, and calls with equal keys use the same queue. -/
structure Dispatches (outs : List (Call × Option (String × Int))) : Prop where
  member : ∀ x ∈ outs, ∀ d, ds[x.1.function]? = some d → ∃ q ∈ d.queues, x.2 = some (d.event, q)
  rounds : ∀ a d, ds[a]? = some d → d.field = "-1" →
    ∀ k, (k + 1) * d.queues.length ≤ (queuesOf a outs).length → ∀ q ∈ d.queues,
      (((queuesOf a outs).drop (k * d.queues.length)).take d.queues.length).count q = 1
  partition : ∀ x ∈ outs, ∀ y ∈ outs, ∀ d, ds[x.1.function]? = some d → d.field ≠ "-1" →
    x.1.function = y.1.function → x.1.key = y.1.key → x.2 = y.2

/-- The call is of a generated function, and its key is among the possible ones. -/
def Allowed (keys : Set Int) (call : Call) : Prop :=
  ∃ d, ds[call.function]? = some d ∧ (d.field ≠ "-1" → call.key ∈ keys)

/-- A function in round-robin mode is the only one, and its list has the queues from one on. A
function in partition mode has only keys that are no negative `int` with a remainder, and the
list has the queues that they lead to. -/
structure Safe (keys : Set Int) : Prop where
  alone : ∀ d ∈ ds, d.field = "-1" → ds = [d] ∧ ∀ i < d.queues.length, (i : Int) + 1 ∈ d.queues
  hashed : ∀ d ∈ ds, d.field ≠ "-1" → ∀ key ∈ keys,
    (0 ≤ toInt key ∨ (d.queues.length : Int) ∣ toInt key) ∧
      (toInt key).tmod d.queues.length + 1 ∈ d.queues

/-! ## The counter -/

theorem isPow2_iff {n : Nat} (hpos : 0 < n) (hlt : n < 2 ^ 32) :
    isPow2 n = true ↔ n.isPowerOfTwo := by
  have hbits : ∀ i, (2 ^ 32 - n).testBit i = (decide (i < 32) && !(n - 1).testBit i) := by
    intro i
    have hsub := Nat.testBit_two_pow_sub_succ (x := n - 1) (n := 32) (by omega) i
    rwa [Nat.sub_add_cancel hpos] at hsub
  have hhigh : ∀ i, n.testBit i = true → i < 32 := by
    intro i hi
    by_contra hge
    rw [Nat.testBit_lt_two_pow (Nat.lt_of_lt_of_le hlt (Nat.pow_le_pow_right (by decide)
      (Nat.not_lt.mp hge)))] at hi
    cases hi
  have heq : isPow2 n = (n &&& (2 ^ 32 - n) == n) := by
    rw [isPow2, Nat.mod_eq_of_lt hlt, Nat.mod_eq_of_lt (by omega)]
  rw [heq, beq_iff_eq, ← Nat.and_sub_one_eq_zero_iff_isPowerOfTwo (by omega), Nat.eq_iff_testBit_eq,
    Nat.eq_iff_testBit_eq]
  refine forall_congr' fun i => ?_
  rw [Nat.testBit_and, Nat.testBit_and, hbits, Nat.zero_testBit]
  cases hn : n.testBit i with
  | false => simp
  | true => simp [hhigh i hn]

/-- Below the number of cases the counter goes around. -/
theorem rrNext_of_lt {n c : Nat} (hn : n < 2 ^ 32) (hc : c < n) : rrNext n c = (c + 1) % n := by
  have hpos : 0 < n := by omega
  rw [rrNext]
  split
  · rename_i hpow
    obtain ⟨k, rfl⟩ := (isPow2_iff hpos hn).mp hpow
    exact Nat.and_two_pow_sub_one_eq_mod _ _
  · split
    · rename_i heq
      rw [heq, Nat.sub_add_cancel hpos, Nat.mod_self]
    · rw [Nat.mod_eq_of_lt (by omega)]

/-! ## The cases -/

section Cases

variable {d : Dispatcher} {rrCtr i : Nat} {key : Int}

theorem enqueued_of_operand (h : d.operand rrCtr key = i) (hi : i < d.queues.length) :
    d.enqueued rrCtr key = some (d.event, (i : Int) + 1) := by
  have hfind : (range d.queues.length).find? (fun j : Nat => (j : Int) = d.operand rrCtr key) =
      some i := by
    rw [find?_range_eq_some]
    refine ⟨by simp [h], mem_range.mpr hi, fun j hj => ?_⟩
    simp only [Bool.not_eq_true', decide_eq_false_iff_not]
    omega
  rw [Dispatcher.enqueued, hfind]
  rfl

theorem operand_of_enqueued {event : String} {q : Int}
    (h : d.enqueued rrCtr key = some (event, q)) : d.operand rrCtr key + 1 = q ∧ 0 < q := by
  obtain ⟨i, hfind, heq⟩ := Option.map_eq_some_iff.mp h
  obtain ⟨-, rfl⟩ := Prod.mk.inj heq
  have hop := find?_some hfind
  rw [decide_eq_true_iff] at hop
  exact ⟨congrArg (· + 1) hop.symm, Int.lt_add_one_of_le (Int.natCast_nonneg i)⟩

theorem enqueued_roundRobin (hfield : d.field = "-1") (hc : rrCtr < d.queues.length) :
    d.enqueued rrCtr key = some (d.event, (rrCtr : Int) + 1) :=
  enqueued_of_operand (if_pos hfield) hc

variable (hfield : d.field ≠ "-1")
include hfield

theorem operand_partition : d.operand rrCtr key = (toInt key).tmod d.queues.length :=
  if_neg hfield

/-- In partition mode only the key counts. -/
theorem enqueued_partition (rrCtr' : Nat) : d.enqueued rrCtr key = d.enqueued rrCtr' key := by
  rw [Dispatcher.enqueued, Dispatcher.enqueued, operand_partition hfield, operand_partition hfield]

/-- A key has a queue of the list if and only if its remainder is not negative and leads to
one. -/
theorem enqueued_partition_iff : (∃ q ∈ d.queues, d.enqueued rrCtr key = some (d.event, q)) ↔
      (0 ≤ toInt key ∨ (d.queues.length : Int) ∣ toInt key) ∧
        (toInt key).tmod d.queues.length + 1 ∈ d.queues := by
  have hpos : (0 : Int) < d.queues.length := by
    have := d.two_le
    omega
  have hsign : 0 ≤ (toInt key).tmod d.queues.length ↔
      0 ≤ toInt key ∨ (d.queues.length : Int) ∣ toInt key := by
    constructor
    · intro h
      by_contra hcon
      rw [not_or, Int.not_le] at hcon
      have hneg : (toInt key).tmod d.queues.length ≤ 0 := by
        have := Int.tmod_nonneg d.queues.length (a := -toInt key) (by omega)
        rw [Int.neg_tmod] at this
        omega
      exact hcon.2 (Int.dvd_of_tmod_eq_zero (by omega))
    · rintro (h | h)
      · exact Int.tmod_nonneg _ h
      · exact Int.le_of_eq (Int.tmod_eq_zero_of_dvd h).symm
  rw [← hsign]
  constructor
  · rintro ⟨q, hq, henq⟩
    obtain ⟨hop, hqpos⟩ := operand_of_enqueued henq
    rw [operand_partition hfield] at hop
    exact ⟨by omega, hop ▸ hq⟩
  · rintro ⟨hnonneg, hmem⟩
    have hlt := Int.tmod_lt_of_pos (toInt key) hpos
    obtain ⟨i, hi⟩ := Int.eq_ofNat_of_zero_le hnonneg
    rw [hi] at hlt hmem
    exact ⟨_, hmem, enqueued_of_operand ((operand_partition hfield).trans hi) (by omega)⟩

end Cases

/-! ## Calls -/

section Calls

variable {ds : List Dispatcher}

/-- The counter after some calls. -/
def counter (ds : List Dispatcher) : Nat → List Call → Nat
  | rrCtr, [] => rrCtr
  | rrCtr, call :: calls =>
    match ds[call.function]? with
    | none => counter ds rrCtr calls
    | some d => counter ds (rrNext d.queues.length rrCtr) calls

theorem run_append (rrCtr : Nat) (xs ys : List Call) :
    run ds rrCtr (xs ++ ys) = run ds rrCtr xs ++ run ds (counter ds rrCtr xs) ys := by
  induction xs generalizing rrCtr with
  | nil => rfl
  | cons call xs ih =>
    rw [cons_append, run, run, counter]
    cases ds[call.function]? with
    | none => exact ih rrCtr
    | some d => exact congrArg _ (ih _)

variable {calls : List Call} {d : Dispatcher} {c : Nat}
variable {x : Call × Option (String × Int)}

/-- A result of a run is that of a call with some counter. -/
theorem mem_run {rrCtr : Nat} (h : x ∈ run ds rrCtr calls) :
    x.1 ∈ calls ∧ ∃ d c, ds[x.1.function]? = some d ∧ x.2 = d.enqueued c x.1.key := by
  induction calls generalizing rrCtr with
  | nil => cases h
  | cons call calls ih =>
    rw [run] at h
    cases hd : ds[call.function]? with
    | none =>
      rw [hd] at h
      obtain ⟨hmem, hrest⟩ := ih h
      exact ⟨mem_cons_of_mem _ hmem, hrest⟩
    | some d =>
      rw [hd] at h
      rcases mem_cons.mp h with rfl | h
      · exact ⟨mem_cons_self, d, rrCtr, hd, rfl⟩
      · obtain ⟨hmem, hrest⟩ := ih h
        exact ⟨mem_cons_of_mem _ hmem, hrest⟩

/-- Calls of one function turn the counter around. -/
theorem counter_replicate {b : Nat} (hd : ds[b]? = some d) (key : Int) (j : Nat)
    (hc : c < d.queues.length) :
    counter ds c (replicate j ⟨b, key⟩) = (c + j) % d.queues.length := by
  induction j generalizing c with
  | zero => exact (Nat.mod_eq_of_lt hc).symm
  | succ j ih =>
    have hnext : (c + 1) % d.queues.length < d.queues.length := Nat.mod_lt _ (by omega)
    rw [replicate_succ, counter]
    simp only [hd]
    rw [rrNext_of_lt d.size_lt hc, ih hnext, Nat.mod_add_mod]
    congr 1
    omega

theorem queuesOf_append (a : Nat) (xs ys : List (Call × Option (String × Int))) :
    queuesOf a (xs ++ ys) = queuesOf a xs ++ queuesOf a ys := filterMap_append

theorem queuesOf_replicate {a b : Nat} (hne : b ≠ a) (key : Int) (j c : Nat) :
    queuesOf a (run ds c (replicate j ⟨b, key⟩)) = [] := by
  rw [queuesOf, filterMap_eq_nil_iff]
  intro x hx
  have hfunction := eq_of_mem_replicate (mem_run hx).1
  rw [hfunction]
  exact if_neg hne

/-- A function in round-robin mode and another one: if the other one turns the counter around
in between, every call uses the first queue. -/
theorem queuesOf_disturbed {a b : Nat} {e : Dispatcher} (hd : ds[a]? = some d)
    (hfield : d.field = "-1") (he : ds[b]? = some e) (hne : b ≠ a) (key : Int) (k : Nat) :
    let block := ⟨a, 0⟩ :: replicate (e.queues.length - 1) ⟨b, key⟩
    queuesOf a (run ds 0 (replicate k block).flatten) = replicate k 1 := by
  intro block
  have htwo := d.two_le
  have htwo' := e.two_le
  have hone : rrNext d.queues.length 0 = 1 := by
    rw [rrNext_of_lt d.size_lt (by omega), Nat.mod_eq_of_lt (by omega)]
  have hcounter : counter ds 0 block = 0 := by
    rw [counter]
    simp only [hd]
    rw [hone, counter_replicate he key _ (by omega), Nat.add_sub_cancel' (by omega), Nat.mod_self]
  have hqueues : queuesOf a (run ds 0 block) = [1] := by
    rw [run]
    simp only [hd]
    rw [enqueued_roundRobin hfield (by omega), ← singleton_append, queuesOf_append,
      queuesOf_replicate hne]
    simp [queuesOf]
  induction k with
  | zero => rfl
  | succ k ih =>
    rw [replicate_succ, flatten_cons, run_append, hcounter, queuesOf_append, hqueues, ih,
      replicate_succ]
    rfl

/-- A function that is the only one turns the counter around. -/
theorem run_alone (hcalls : ∀ call ∈ calls, call.function = 0) (c : Nat) :
    run [d] (c % d.queues.length) calls =
      (calls.zipIdx c).map fun p => (p.1, d.enqueued (p.2 % d.queues.length) p.1.key) := by
  have htwo := d.two_le
  induction calls generalizing c with
  | nil => rfl
  | cons call calls ih =>
    obtain ⟨hzero, hrest⟩ := forall_mem_cons.mp hcalls
    have hd : [d][call.function]? = some d := by rw [hzero]; rfl
    rw [run]
    simp only [hd]
    rw [rrNext_of_lt d.size_lt (Nat.mod_lt _ (by omega)), Nat.mod_add_mod, ih hrest, zipIdx_cons,
      map_cons]

/-- In round-robin mode it goes through the queues in turn. -/
theorem queuesOf_alone (hfield : d.field = "-1") (hcalls : ∀ call ∈ calls, call.function = 0) :
    queuesOf 0 (run [d] 0 calls) =
      (range calls.length).map fun j => ((j % d.queues.length : Nat) : Int) + 1 := by
  have htwo := d.two_le
  have hrun := run_alone (d := d) hcalls 0
  have hsnd : (range calls.length) = calls.zipIdx.map Prod.snd := by simp [range_eq_range']
  rw [Nat.zero_mod] at hrun
  rw [hrun, queuesOf, filterMap_map, hsnd, map_map, ← filterMap_eq_map]
  refine filterMap_congr fun p hp => ?_
  have hzero := hcalls p.1 (mem_of_getElem? (mem_zipIdx_iff_getElem?.mp hp))
  simp [hzero, enqueued_roundRobin hfield (Nat.mod_lt p.2 (by omega : 0 < d.queues.length))]

/-- Its counter stays below the number of cases. -/
theorem mem_run_alone (hcalls : ∀ call ∈ calls, call.function = 0) (hx : x ∈ run [d] 0 calls) :
    ∃ c < d.queues.length, x.2 = d.enqueued c x.1.key := by
  have htwo := d.two_le
  rw [← Nat.zero_mod d.queues.length, run_alone hcalls] at hx
  obtain ⟨p, -, rfl⟩ := mem_map.mp hx
  exact ⟨_, Nat.mod_lt _ (by omega), rfl⟩

theorem nodup_queues (n : Nat) : ((range n).map fun i : Nat => (i : Int) + 1).Nodup :=
  nodup_range.map fun _ _ hij => Int.ofNat.inj ((Int.add_left_inj 1).mp hij)

/-- A list with as many entries as it has queues from one on has no others. -/
theorem perm_of_contains {queues : List Int} (h : ∀ i < queues.length, (i : Int) + 1 ∈ queues) :
    queues.Perm ((range queues.length).map fun i : Nat => (i : Int) + 1) := by
  have hsub : ((range queues.length).map fun i : Nat => (i : Int) + 1) ⊆ queues := by
    intro q hq
    obtain ⟨i, hi, rfl⟩ := mem_map.mp hq
    exact h i (mem_range.mp hi)
  exact ((subperm_of_subset (nodup_queues _) hsub).perm_of_length_le (by simp)).symm

/-- A round of a function that is the only one visits each of its queues. -/
theorem count_round (hqueues : ∀ i < d.queues.length, (i : Int) + 1 ∈ d.queues) {m k : Nat}
    (hk : (k + 1) * d.queues.length ≤ m) {q : Int} (hq : q ∈ d.queues) :
    ((((range m).map fun j => ((j % d.queues.length : Nat) : Int) + 1).drop
      (k * d.queues.length)).take d.queues.length).count q = 1 := by
  have hround : ((range m).drop (k * d.queues.length)).take d.queues.length =
      (range d.queues.length).map (k * d.queues.length + ·) := by
    rw [Nat.add_mul, Nat.one_mul] at hk
    refine ext_getElem? fun j => ?_
    by_cases hj : j < d.queues.length
    · rw [getElem?_take_of_lt hj, getElem?_drop, getElem?_range (by omega),
        getElem?_map, getElem?_range hj]
      rfl
    · rw [getElem?_eq_none (by simp; omega), getElem?_eq_none (by simp; omega)]
  have hmap : ((((range m).map fun j => ((j % d.queues.length : Nat) : Int) + 1).drop
      (k * d.queues.length)).take d.queues.length) =
        (range d.queues.length).map fun i : Nat => (i : Int) + 1 := by
    rw [← map_drop, ← map_take, hround, map_map]
    refine map_congr_left fun j hj => ?_
    rw [Function.comp_apply, Nat.mul_comm, Nat.mul_add_mod,
      Nat.mod_eq_of_lt (mem_range.mp hj)]
  rw [hmap]
  exact count_eq_one_of_mem (nodup_queues _) ((perm_of_contains hqueues).mem_iff.mp hq)

end Calls

/-! ## All sequences of calls -/

section AllCalls

variable {ds : List Dispatcher} {keys : Set Int}
variable {calls : List Call} {a : Nat}

/-- Functions in partition mode whose keys have queues. -/
theorem dispatches_of_partition (hpart : ∀ d ∈ ds, d.field ≠ "-1") (hsafe : Safe ds keys)
    (hcalls : ∀ call ∈ calls, Allowed ds keys call) (rrCtr : Nat) :
    Dispatches ds (run ds rrCtr calls) := by
  refine ⟨fun x hx d hd => ?_, fun a d hd hfield => ?_, fun x hx y hy d hd hfield hsame hkey => ?_⟩
  · obtain ⟨hcall, d', c, hd', henq⟩ := mem_run hx
    obtain rfl : d' = d := Option.some.inj (hd'.symm.trans hd)
    have hmem := mem_of_getElem? hd
    obtain ⟨d'', hd'', hkeys⟩ := hcalls x.1 hcall
    obtain rfl : d'' = d' := Option.some.inj (hd''.symm.trans hd)
    have hfield := hpart _ hmem
    rw [henq]
    exact (enqueued_partition_iff hfield).mpr (hsafe.hashed _ hmem hfield x.1.key (hkeys hfield))
  · exact absurd hfield (hpart d (mem_of_getElem? hd))
  · obtain ⟨-, d₁, c₁, hd₁, henq₁⟩ := mem_run hx
    obtain ⟨-, d₂, c₂, hd₂, henq₂⟩ := mem_run hy
    obtain rfl : d₁ = d := Option.some.inj (hd₁.symm.trans hd)
    obtain rfl : d₂ = d₁ := Option.some.inj (hd₂.symm.trans (hsame ▸ hd))
    rw [henq₁, henq₂, hkey]
    exact enqueued_partition hfield c₂

variable {d : Dispatcher}

/-- A function in round-robin mode that is the only one. -/
theorem dispatches_of_alone (hfield : d.field = "-1")
    (hqueues : ∀ i < d.queues.length, (i : Int) + 1 ∈ d.queues)
    (hcalls : ∀ call ∈ calls, Allowed [d] keys call) : Dispatches [d] (run [d] 0 calls) := by
  have htwo := d.two_le
  have honly : ∀ {a : Nat} {e : Dispatcher}, [d][a]? = some e → a = 0 ∧ e = d := by
    intro a e he
    cases a with
    | zero => exact ⟨rfl, (Option.some.inj he).symm⟩
    | succ a => cases he
  have hzero : ∀ call ∈ calls, call.function = 0 := by
    intro call hcall
    obtain ⟨e, he, -⟩ := hcalls call hcall
    exact (honly he).1
  have hall := queuesOf_alone hfield hzero
  refine ⟨fun x hx e he => ?_, fun a e he _ k hk q hq => ?_, fun x hx y hy e he hne => ?_⟩
  · obtain ⟨-, rfl⟩ := honly he
    obtain ⟨c, hc, henq⟩ := mem_run_alone hzero hx
    rw [henq, enqueued_roundRobin hfield hc]
    exact ⟨c + 1, hqueues c hc, rfl⟩
  · obtain ⟨rfl, rfl⟩ := honly he
    rw [hall] at hk ⊢
    rw [length_map, length_range] at hk
    exact count_round hqueues hk hq
  · obtain ⟨-, rfl⟩ := honly he
    exact absurd hfield hne

/-- A function in round-robin mode that is not the only one does not visit all of its queues. -/
theorem eq_singleton_of_dispatches (hkeys : keys.Nonempty)
    (h : ∀ calls, (∀ call ∈ calls, Allowed ds keys call) → Dispatches ds (run ds 0 calls))
    (hd : ds[a]? = some d) (hfield : d.field = "-1") : ds = [d] := by
  have hoth : ∀ b ≠ a, ds[b]? = none := by
    intro b hne
    by_contra hsome
    obtain ⟨e, he⟩ := Option.ne_none_iff_exists'.mp hsome
    obtain ⟨key, hkey⟩ := hkeys
    have hqueues := queuesOf_disturbed hd hfield he hne key d.queues.length
    have hallowed : ∀ call ∈ (replicate d.queues.length
        (⟨a, 0⟩ :: replicate (e.queues.length - 1) ⟨b, key⟩)).flatten,
        Allowed ds keys call := by
      intro call hcall
      obtain ⟨block, hblock, hcall⟩ := mem_flatten.mp hcall
      rw [eq_of_mem_replicate hblock] at hcall
      rcases mem_cons.mp hcall with rfl | hcall
      · exact ⟨d, hd, fun hne => absurd hfield hne⟩
      · rw [eq_of_mem_replicate hcall]
        exact ⟨e, he, fun _ => hkey⟩
    have hdispatches := h _ hallowed
    have hround := hdispatches.rounds a d hd hfield 0
    rw [hqueues, length_replicate, Nat.zero_add, Nat.one_mul, Nat.zero_mul, drop_zero,
      take_of_length_le (by simp)] at hround
    have htwo := d.two_le
    obtain ⟨q, hq⟩ := exists_mem_of_length_pos (by omega : 0 < d.queues.length)
    have hcnt := hround (Nat.le_refl _) q hq
    rw [count_replicate] at hcnt
    split at hcnt <;> omega
  have ha : a = 0 := by
    by_contra hne
    have hshort := getElem?_eq_none_iff.mp (hoth 0 (Ne.symm hne))
    obtain rfl := eq_nil_of_length_eq_zero (Nat.le_zero.mp hshort)
    cases hd
  subst ha
  refine ext_getElem? fun b => ?_
  cases b with
  | zero => exact hd
  | succ b => exact hoth (b + 1) (Nat.succ_ne_zero b)

/-- A function in round-robin mode reaches every number below that of its cases. -/
theorem mem_queues_of_dispatches
    (h : ∀ calls, (∀ call ∈ calls, Allowed ds keys call) → Dispatches ds (run ds 0 calls))
    (hd : ds[a]? = some d) (hfield : d.field = "-1") {i : Nat} (hi : i < d.queues.length) :
    (i : Int) + 1 ∈ d.queues := by
  have hallowed : ∀ call ∈ replicate i ⟨a, 0⟩ ++ [⟨a, 0⟩], Allowed ds keys call := by
    intro call hcall
    rw [← replicate_succ'] at hcall
    rw [eq_of_mem_replicate hcall]
    exact ⟨d, hd, fun hne => absurd hfield hne⟩
  have hlast : ((⟨a, 0⟩ : Call), d.enqueued i 0) ∈ run ds 0 (replicate i ⟨a, 0⟩ ++ [⟨a, 0⟩]) := by
    rw [run_append, counter_replicate hd 0 i (by omega), Nat.zero_add, Nat.mod_eq_of_lt hi, run]
    simp only [hd]
    exact mem_append_right _ mem_cons_self
  obtain ⟨q, hq, henq⟩ := (h _ hallowed).member _ hlast d hd
  rw [enqueued_roundRobin hfield hi] at henq
  rwa [(Prod.mk.inj (Option.some.inj henq)).2]

/-- For all sequences of calls with keys from a set, every call enqueues on a queue of its list,
round-robin calls visit every queue of theirs once per round and equal keys have equal queues, if
and only if a function in round-robin mode is alone and lists the queues from one on, and a
function in partition mode lists the queues of its keys, none of which is as an `int` negative
with a remainder. -/
theorem dispatches_iff_safe (calls : List EnqWork) (keys : Set Int) (hkeys : keys.Nonempty) :
    (∀ cs, (∀ call ∈ cs, Allowed (dispatchers calls) keys call) →
        Dispatches (dispatchers calls) (run (dispatchers calls) 0 cs)) ↔
      Safe (dispatchers calls) keys := by
  constructor
  · intro h
    refine ⟨fun d hmem hfield => ?_, fun d hmem hfield key hkey => ?_⟩
    · obtain ⟨a, hd⟩ := mem_iff_getElem?.mp hmem
      exact ⟨eq_singleton_of_dispatches hkeys h hd hfield,
        fun i hi => mem_queues_of_dispatches h hd hfield hi⟩
    · obtain ⟨a, hd⟩ := mem_iff_getElem?.mp hmem
      have hallowed : ∀ call ∈ [(⟨a, key⟩ : Call)], Allowed (dispatchers calls) keys call := by
        intro call hcall
        rw [mem_singleton.mp hcall]
        exact ⟨d, hd, fun _ => hkey⟩
      have hrun : ((⟨a, key⟩ : Call), d.enqueued 0 key) ∈ run (dispatchers calls) 0 [⟨a, key⟩] := by
        rw [run]
        simp only [hd]
        exact mem_cons_self
      exact (enqueued_partition_iff hfield).mp ((h _ hallowed).member _ hrun d hd)
  · intro hsafe cs hcs
    by_cases hround : ∃ d ∈ dispatchers calls, d.field = "-1"
    · obtain ⟨d, hmem, hfield⟩ := hround
      obtain ⟨hall, hqueues⟩ := hsafe.alone d hmem hfield
      rw [hall] at hcs ⊢
      exact dispatches_of_alone hfield hqueues hcs
    · exact dispatches_of_partition (fun d hmem hfield => hround ⟨d, hmem, hfield⟩) hsafe hcs 0

/-- Calls with the queues one and two, in round-robin mode. -/
def pairCalls (events : List String) : List EnqWork := events.map fun e => ⟨e, "1 2 ", "-1"⟩

theorem dispatchers_pairCalls (events : List String) : dispatchers (pairCalls events) =
      events.map fun e => ⟨e, [1, 2], "-1", by decide, by decide⟩ := by
  induction events with
  | nil => rfl
  | cons e events ih =>
    have hparse : parseDescription "1 2 " = [1, 2] := by decide
    have hone : dispatcher? ⟨e, "1 2 ", "-1"⟩ = some ⟨e, [1, 2], "-1", by decide, by decide⟩ := by
      simp [dispatcher?, hparse]
    rw [dispatchers, pairCalls, map_cons, filterMap_cons_some hone]
    exact congrArg _ ih

/-- A single function in round-robin mode with the queues one and two. -/
theorem dispatches_iff_safe_pair : (dispatchers (pairCalls ["NET"])).length = 1 ∧
      ∀ cs, (∀ call ∈ cs, Allowed (dispatchers (pairCalls ["NET"])) {0} call) →
        Dispatches (dispatchers (pairCalls ["NET"]))
          (run (dispatchers (pairCalls ["NET"])) 0 cs) := by
  refine ⟨by rw [dispatchers_pairCalls]; rfl,
    (dispatches_iff_safe (pairCalls ["NET"]) {0} ⟨0, rfl⟩).mpr ?_⟩
  refine ⟨fun d hd _ => ?_, fun d hd hfield => ?_⟩ <;>
    obtain rfl := mem_singleton.mp hd
  · exact ⟨rfl, by decide⟩
  · exact absurd rfl hfield

/-- Two functions in round-robin mode called in turn: the first one never uses its second
queue. -/
theorem shared_counter_starves_queue : (∀ call ∈ [⟨0, 0⟩, ⟨1, 0⟩, ⟨0, 0⟩, ⟨1, 0⟩],
      Allowed (dispatchers (pairCalls ["NET", "DMA"])) {0} call) ∧
    queuesOf 0 (run (dispatchers (pairCalls ["NET", "DMA"])) 0
      [⟨0, 0⟩, ⟨1, 0⟩, ⟨0, 0⟩, ⟨1, 0⟩]) = [1, 1] ∧
    ¬ Dispatches (dispatchers (pairCalls ["NET", "DMA"]))
      (run (dispatchers (pairCalls ["NET", "DMA"])) 0
        [⟨0, 0⟩, ⟨1, 0⟩, ⟨0, 0⟩, ⟨1, 0⟩]) := by
  have hqueues : queuesOf 0 (run (dispatchers (pairCalls ["NET", "DMA"])) 0
      [⟨0, 0⟩, ⟨1, 0⟩, ⟨0, 0⟩, ⟨1, 0⟩]) = [1, 1] := by
    rfl
  refine ⟨?_, hqueues, fun h => ?_⟩
  · rw [dispatchers_pairCalls]
    intro call hcall
    simp only [mem_cons, not_mem_nil, or_false] at hcall
    rcases hcall with rfl | rfl | rfl | rfl <;> exact ⟨_, rfl, fun hne => absurd rfl hne⟩
  · have hrounds := h.rounds 0 ⟨"NET", [1, 2], "-1", by decide, by decide⟩
      (by rw [dispatchers_pairCalls]; rfl) rfl 0
    exact absurd (hrounds (by decide) 2 (by decide)) (by decide)

end AllCalls

end Alkali.Netronome
