import Alkali.Dialect.Types

/-!
# Tables of the runtime

The runtime keeps one element for a table, whatever the key is. It copies as many bytes as it
was told when the table was made, and the lowering tells it the number of entries of the table.
A lookup hands out the pointer to the element, whose bytes are read where the result is used.
-/

namespace Alkali.RuntimeTable

open Vector

abbrev Bytes := List UInt8

/-- `table_t` -/
structure Table where
  vsize : Nat
  el : Bytes
  deriving DecidableEq

/-- `__rt_table_alloc` -/
def alloc (vsize : Nat) : Table := ⟨vsize, List.replicate vsize 0⟩

/-- `__rt_table_update`; it must not copy more bytes than the value has. -/
def update (t : Table) (_key : Int) (value : Bytes) : Option Table :=
  if t.vsize ≤ value.length then some { t with el := value.take t.vsize } else none

/-- Read a value of some size through the pointer that `__rt_table_lookup` returns, which is
`table->el` for every key. -/
def load (t : Table) (n : Nat) : Option Bytes :=
  if n ≤ t.el.length then some (t.el.take n) else none

/-- The lowered type is an integer. -/
def isInteger : Ty → Bool
  | .int _ | .atom => true
  | _ => false

/-- The lowered type is a pointer. -/
def isPointer : Ty → Bool
  | .struct .. | .buffer | .table .. | .context => true
  | _ => false

/-- A table type: keys, values and the number of entries. -/
structure TableType where
  keyType : Ty
  valueType : Ty
  size : Nat

/-- The accesses that `LookupPattern` and `UpdatePattern` lower. -/
def TableType.lowers (ty : TableType) : Bool := isInteger ty.keyType && isPointer ty.valueType

/-- An access to a table with values of `n` bytes, or a use of the result of a lookup; lookups
are counted from the start. -/
inductive Access (n : Nat)
  | lookup (key : Int)
  | use (result : Nat)
  | update (key : Int) (value : Vector UInt8 n)

/-- What an access does: it reads a value, or it copies some bytes. -/
inductive Effect
  | reads (value : Bytes)
  | copies (count : Nat)
  deriving DecidableEq

variable {n : Nat} (ty : TableType)

/-- `InitOpToTablePattern` -/
def initTable : Table := alloc ty.size

/-- A sequence of accesses with the runtime, after some lookups. -/
def run (t : Table) (lookups : Nat) : List (Access n) → Option (List Effect)
  | [] => some []
  | .lookup _ :: as => if ty.lowers then run t (lookups + 1) as else none
  | .use result :: as =>
    if result < lookups then
      (load t n).bind fun value => (run t lookups as).map (.reads value :: ·)
    else run t lookups as
  | .update key value :: as =>
    if ty.lowers then
      (update t key value.toList).bind fun t' => (run t' lookups as).map (.copies t.vsize :: ·)
    else none

/-- A sequence of accesses to a finite map, with the values that were looked up. -/
def runMap (map : Int → Vector UInt8 n) (results : List (Vector UInt8 n)) :
    List (Access n) → List Effect
  | [] => []
  | .lookup key :: as => runMap map (results ++ [map key]) as
  | .use result :: as =>
    match results[result]? with
    | some value => .reads value.toList :: runMap map results as
    | none => runMap map results as
  | .update key value :: as => .copies n :: runMap (Function.update map key value) results as

/-- The accesses suit the runtime: the size of the table is the size of a value, and when the
result of a lookup is used, the value of the last update of any key is the one that was looked
up. Without an update a larger table will do. -/
def Suits (last : Vector UInt8 n) (map : Int → Vector UInt8 n) (results : List (Vector UInt8 n)) :
    List (Access n) → Prop
  | [] => True
  | .lookup key :: as => ty.lowers = true ∧ Suits last map (results ++ [map key]) as
  | .use result :: as =>
    (∀ value, results[result]? = some value → n ≤ ty.size ∧ value = last) ∧
      Suits last map results as
  | .update key value :: as =>
    ty.lowers = true ∧ n = ty.size ∧ Suits value (Function.update map key value) results as

/-- The element of a table starts with a value. -/
structure Holds (t : Table) (value : Vector UInt8 n) : Prop where
  vsize : t.vsize = ty.size
  length : t.el.length = ty.size
  value : n ≤ ty.size → t.el.take n = value.toList

section Steps

variable {ty} {t : Table} {last : Vector UInt8 n}

theorem holds_initTable : Holds ty (initTable ty) (replicate n 0) where
  vsize := rfl
  length := List.length_replicate
  value := fun h => by
    rw [initTable, alloc, List.take_replicate, Nat.min_eq_left h, toList_replicate]

theorem map_cons_eq_some {e e' : Effect} {es : List Effect} {o : Option (List Effect)} :
    o.map (e :: ·) = some (e' :: es) ↔ e = e' ∧ o = some es := by
  cases o with
  | none => simp
  | some l => simp

variable (h : Holds ty t last)
include h

/-- The element has the value of the last update. -/
theorem load_eq : load t n = if n ≤ ty.size then some last.toList else none := by
  rw [load, h.length]
  split
  · next hn => rw [h.value hn]
  · rfl

/-- An update copies as many bytes as the table has entries. -/
theorem update_eq (key : Int) (value : Vector UInt8 n) : update t key value.toList =
      if ty.size ≤ n then some { t with el := value.toList.take ty.size } else none := by
  rw [update, h.vsize, length_toList]

theorem Holds.update (hn : n = ty.size) (value : Vector UInt8 n) :
    Holds ty { t with el := value.toList.take ty.size } value := by
  have htake : value.toList.take ty.size = value.toList := by
    rw [← hn]
    exact List.take_of_length_le (Nat.le_of_eq length_toList)
  refine ⟨h.vsize, ?_, fun _ => ?_⟩
  · rw [htake, length_toList, hn]
  · rw [htake]
    exact List.take_of_length_le (Nat.le_of_eq length_toList)

end Steps

/-- The runtime does what a map does exactly if the accesses suit it. -/
theorem run_eq_runMap_iff {t : Table} {last : Vector UInt8 n} (h : Holds ty t last)
    (map : Int → Vector UInt8 n) (results : List (Vector UInt8 n)) (as : List (Access n)) :
    run ty t results.length as = some (runMap map results as) ↔
      Suits ty last map results as := by
  induction as generalizing t last map results with
  | nil => exact iff_of_true rfl trivial
  | cons a as ih =>
    cases a with
    | lookup key =>
      have hrest := ih h map (results ++ [map key])
      rw [List.length_append, List.length_singleton] at hrest
      rw [run, runMap, Suits]
      by_cases hlowers : ty.lowers = true
      · rw [if_pos hlowers, hrest]
        exact (and_iff_right hlowers).symm
      · rw [if_neg hlowers]
        exact iff_of_false (fun hnone => by cases hnone) fun hsuits => hlowers hsuits.1
    | use result =>
      rw [run, runMap, Suits]
      cases hresult : results[result]? with
      | none =>
        rw [if_neg (Nat.not_lt.mpr (List.getElem?_eq_none_iff.mp hresult)), ih h map results]
        exact (and_iff_right fun value hvalue => by cases hvalue).symm
      | some value =>
        have hlt : result < results.length := (List.getElem?_eq_some_iff.mp hresult).1
        rw [if_pos hlt, load_eq h]
        by_cases hn : n ≤ ty.size
        · rw [if_pos hn, Option.bind_some, map_cons_eq_some, ih h map results,
            Effect.reads.injEq, toList_inj]
          refine and_congr ⟨fun heq v hv => ?_, fun hall => ?_⟩ Iff.rfl
          · exact ⟨hn, (Option.some.inj hv).symm.trans heq.symm⟩
          · exact (hall value rfl).2.symm
        · rw [if_neg hn]
          exact iff_of_false (fun hnone => by cases hnone) fun hsuits => hn (hsuits.1 value rfl).1
    | update key value =>
      rw [run, update_eq h, runMap, Suits]
      by_cases hlowers : ty.lowers = true
      · rw [if_pos hlowers, and_iff_right hlowers]
        by_cases hn : n = ty.size
        · rw [if_pos (Nat.le_of_eq hn.symm), Option.bind_some, map_cons_eq_some,
            ih (h.update hn value) (Function.update map key value) results]
          exact and_congr_left'
            ⟨fun _ => hn, fun _ => congrArg Effect.copies (h.vsize.trans hn.symm)⟩
        · refine iff_of_false (fun hsome => hn ?_) fun hsuits => hn hsuits.1
          split at hsome
          · rw [Option.bind_some, map_cons_eq_some, Effect.copies.injEq] at hsome
            exact hsome.1.symm.trans h.vsize
          · cases hsome
      · rw [if_neg hlowers]
        exact iff_of_false (fun hnone => by cases hnone) fun hsuits => hlowers hsuits.1

/-- A table with two entries of two bytes, for integer keys. -/
def pairTable : TableType := ⟨.int 32, .struct false [.int 16] "pair_t", 2⟩

end Alkali.RuntimeTable
