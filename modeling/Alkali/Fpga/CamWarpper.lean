import Alkali.Library.Synchronous
import Mathlib.Data.BitVec

/-!
# The modules `cam_warpper` and `ram`

A table keeps its keys in a content addressable memory (CAM) and its values in a `ram` under
the same addresses. `match_mux` puts the updates and the lookups in one order. A request that
the match stage takes is compared with the keys, and one cycle later the result is used: an
update writes to the address of its key or to the next free slot, a lookup reads.
-/

namespace Alkali.Fpga

open Synchronous Function Option Finset

/-- A request at `match_mux`. The first bit of `match_req_user` tells the kinds apart. -/
inductive Req (K V : Type) where
  | update (key : K) (value : V)
  | lookup (key : K) (user : BitVec 4)
  deriving DecidableEq, Repr

namespace Req

variable {K V : Type}

def key : Req K V → K
  | update key _ => key
  | lookup key _ => key

def asUpdate : Req K V → Option (K × V)
  | update key value => some (key, value)
  | lookup _ _ => none

theorem bind_asUpdate_eq_some {r : Option (Req K V)} {x : K × V} :
    r.bind asUpdate = some x ↔ r = some (update x.1 x.2) := by
  rcases r with - | (- | -) <;> simp [asUpdate, Prod.ext_iff]

/-- The key of a lookup of a user. -/
def asLookup (user : BitVec 4) : Req K V → Option K
  | update _ _ => none
  | lookup key u => if u = user then some key else none

end Req

/-- The registers of the wrapper: `grant` are the registers `frame_reg` and `select_reg` of
`match_mux`, `matchReq` its output registers, `result` and `matched` the match stage. -/
structure CamWarpper (w : Nat) (K V : Type) where
  grant : Option Bool
  preSelect : Bool
  matchReq : List (Req K V)
  stallCount : Nat
  result : Option (Req K V)
  matched : Option (BitVec w)
  freeSlot : BitVec w
  cam : BitVec w → Option K
  ram : BitVec w → V
  readReady : Bool
  readValue : Option (V × BitVec 4)

namespace CamWarpper

variable {w : Nat} {K V : Type}

/-- The two kinds of requests, what `match_mux` and the CAM do in the cycle, and
`lookup_value_ready`. -/
structure Inputs (K V : Type) where
  updateReq : Option (K × V)
  lookupReq : Option (K × BitVec 4)
  muxReady : Bool
  matchShows : Bool
  camBusy : Bool
  valueReady : Bool

section Signals

variable (s : CamWarpper w K V) (i : Inputs K V)

/-- `match_select`: true for an update. -/
def matchSelect : Bool :=
  if i.updateReq.isSome && i.lookupReq.isNone then true
  else if i.updateReq.isNone && i.lookupReq.isSome then false
  else if 0 < s.stallCount then false else !s.preSelect

def updateReady : Bool := decide (s.grant = some true) && i.muxReady

def lookupReady : Bool := decide (s.grant = some false) && i.muxReady

/-- The request that `match_mux` moves to its output. -/
def moved : Option (Req K V) :=
  if updateReady s i then i.updateReq.map fun x => .update x.1 x.2
  else if lookupReady s i then i.lookupReq.map fun x => .lookup x.1 x.2
  else none

/-- A grant is for one request. -/
def grantNext : Option Bool :=
  match s.grant with
  | none =>
    if (if matchSelect s i then i.updateReq.isSome else i.lookupReq.isSome)
    then some (matchSelect s i) else none
  | some select => if (moved s i).isSome then none else some select

def preSelectNext : Bool :=
  if i.updateReq.isSome && updateReady s i then true
  else if i.lookupReq.isSome && lookupReady s i then false
  else s.preSelect

/-- `match_result_ready_reg`. -/
def resultReady : Bool :=
  match s.result with
  | some (.update _ _) => !i.camBusy
  | _ => s.readReady

/-- `match_req_ready`. -/
def matchReady : Bool := decide (s.stallCount = 0) && resultReady s i

/-- The request that the match stage takes. -/
def taken : Option (Req K V) := Fifo.popped i.matchShows (matchReady s i) s.matchReq

/-- The result of an update: the key and the value that are written. -/
def written : Option (K × V) := if resultReady s i then s.result.bind Req.asUpdate else none

/-- `cam_write_addr`. -/
def writeAddr : BitVec w := s.matched.getD s.freeSlot

/-- The result of a lookup reads the ram. Without a match it reads at the address 2. -/
def readNext : Option (V × BitVec 4) :=
  match s.result with
  | some (.lookup _ user) =>
    if s.readReady then some (s.ram (s.matched.getD (BitVec.ofNat w 2)), user) else none
  | _ => none

/-- An update in the match stage stops the requests for five cycles. -/
def stallNext : Nat :=
  match taken s i with
  | some (.update _ _) => 5
  | some (.lookup _ _) => 0
  | none => s.stallCount - 1

end Signals

variable [DecidableEq K]

/-- The comparison of the CAM. It sees every write that was enabled: the stall keeps requests
away from one that is not finished. -/
def compare (cam : BitVec w → Option K) (key : K) : Option (BitVec w) :=
  ((List.finRange (2 ^ w)).map BitVec.ofFin).find? fun a => cam a = some key

/-- Whatever the match stage does not take replaces the last result. -/
def next (s : CamWarpper w K V) (i : Inputs K V) : CamWarpper w K V where
  grant := grantNext s i
  preSelect := preSelectNext s i
  matchReq := Fifo.next i.matchShows (matchReady s i) s.matchReq (moved s i)
  stallCount := stallNext s i
  result := taken s i
  matched := (taken s i).bind fun r => compare s.cam r.key
  freeSlot := if (written s i).isSome && s.matched.isNone then s.freeSlot + 1 else s.freeSlot
  cam := match written s i with
    | some (key, _) => update s.cam (writeAddr s) (some key)
    | none => s.cam
  ram := match written s i with
    | some (_, value) => update s.ram (writeAddr s) value
    | none => s.ram
  readReady := i.valueReady
  readValue := readNext s

/-- The registers after a reset. The ram starts with zeros. -/
def init (w : Nat) (K V : Type) [Zero V] : CamWarpper w K V where
  grant := none
  preSelect := false
  matchReq := []
  stallCount := 0
  result := none
  matched := none
  freeSlot := 0
  cam _ := none
  ram _ := 0
  readReady := false
  readValue := none

/-! ## The comparison -/

variable {cam : BitVec w → Option K} {key : K}
variable {a : BitVec w}

theorem compare_eq_some (h : compare cam key = some a) : cam a = some key := by
  simpa using List.find?_some h

theorem compare_eq_none : compare cam key = none ↔ ∀ a, cam a ≠ some key := by
  simp only [compare, List.find?_eq_none, decide_eq_true_eq, List.mem_map, List.mem_finRange,
    true_and, forall_exists_index, forall_apply_eq_imp_iff]
  exact ⟨fun h a => h a.toFin, fun h a => h _⟩

/-! ## The values -/

/-- Each key has at most one address. -/
def Distinct (cam : BitVec w → Option K) : Prop :=
  ∀ a b key, cam a = some key → cam b = some key → a = b

theorem compare_of_mem (h : Distinct cam) (ha : cam a = some key) : compare cam key = some a := by
  cases hb : compare cam key with
  | none => exact absurd ha (compare_eq_none.mp hb a)
  | some b => rw [h a b key ha (compare_eq_some hb)]

section Values

variable [Zero V]

/-- The value that is stored for a key. -/
def stored (s : CamWarpper w K V) (key : K) : V :=
  match compare s.cam key with
  | some a => s.ram a
  | none => 0

/-- The value of a key when the update in the match stage is done. -/
def value (s : CamWarpper w K V) (key : K) : V :=
  match s.result.bind Req.asUpdate with
  | some (k, v) => if k = key then v else s.stored key
  | none => s.stored key

/-- The slots in use come first and have distinct keys among `keys`; a result has been compared
with them, and an update in the match stage stalls. -/
structure Store (keys : Finset K) (s : CamWarpper w K V) : Prop where
  free : ∃ n ≤ 2 ^ w, s.freeSlot = BitVec.ofNat w n ∧ ∀ a, (s.cam a).isSome ↔ a.toNat < n
  distinct : Distinct s.cam
  known : ∀ a, ∀ key ∈ s.cam a, key ∈ keys
  compared : ∀ r ∈ s.result, s.matched = compare s.cam r.key
  pending : ∀ key v, s.result = some (.update key v) → key ∈ keys ∧ 0 < s.stallCount

end Values

/-! ## Writing a key -/

section Write

variable {cam : BitVec w → Option K} {key : K} {a : BitVec w}

/-- The address is free or has the key, and no other one has it. -/
def Writable (cam : BitVec w → Option K) (key : K) (a : BitVec w) : Prop :=
  (cam a = none ∨ cam a = some key) ∧ ∀ b, cam b = some key → b = a

variable {k : K}

section

variable (h : Writable cam key a)
include h

omit [DecidableEq K] in
theorem Writable.update_eq_some (hk : k ≠ key) (b : BitVec w) :
    update cam a (some key) b = some k ↔ cam b = some k := by
  by_cases hb : b = a
  · subst hb
    rw [update_self]
    refine iff_of_false (fun heq => hk (some.inj heq).symm) fun heq => ?_
    rcases h.1 with hnone | hsome
    · rw [hnone] at heq
      cases heq
    · exact hk (some.inj (heq.symm.trans hsome))
  · rw [update_of_ne hb]

variable {b : BitVec w}

omit [DecidableEq K] in
theorem Writable.eq_of_update (hb : update cam a (some key) b = some key) : b = a := by
  by_contra hne
  rw [update_of_ne hne] at hb
  exact hne (h.2 b hb)

theorem Writable.distinct (hcam : Distinct cam) : Distinct (update cam a (some key)) := by
  intro b c k hb hc
  by_cases hk : k = key
  · subst hk
    rw [h.eq_of_update hb, h.eq_of_update hc]
  · exact hcam b c k ((h.update_eq_some hk b).mp hb) ((h.update_eq_some hk c).mp hc)

theorem Writable.compare_self (hcam : Distinct cam) :
    compare (update cam a (some key)) key = some a :=
  compare_of_mem (h.distinct hcam) (update_self a (some key) cam)

theorem Writable.compare_ne (hk : k ≠ key) :
    compare (update cam a (some key)) k = compare cam k := by
  simp only [compare, h.update_eq_some hk]

theorem Writable.ne_of_compare (hk : k ≠ key) (hb : compare cam k = some b) : b ≠ a := by
  rintro rfl
  have hsome := (h.update_eq_some hk b).mpr (compare_eq_some hb)
  rw [update_self] at hsome
  exact hk (some.inj hsome).symm

end

end Write

/-! ## What `match_mux` moves -/

section Moved

variable (s : CamWarpper w K V) (i : Inputs K V)

omit [DecidableEq K] in
theorem asUpdate_moved :
    (moved s i).bind Req.asUpdate = if updateReady s i then i.updateReq else none := by
  rw [moved]
  cases updateReady s i <;> cases lookupReady s i <;> cases i.updateReq <;>
    cases i.lookupReq <;> rfl

omit [DecidableEq K] in
theorem asLookup_moved (user : BitVec 4) : (moved s i).bind (Req.asLookup user) =
      if lookupReady s i then i.lookupReq.bind fun x => if x.2 = user then some x.1 else none
      else none := by
  have hone : updateReady s i = true → lookupReady s i = false := by
    rw [updateReady, lookupReady]
    cases s.grant with
    | none => simp
    | some select => cases select <;> simp
  rw [moved]
  cases hupd : updateReady s i with
  | true =>
    rw [hone hupd]
    cases i.updateReq <;> rfl
  | false => cases lookupReady s i <;> cases i.lookupReq <;> rfl

end Moved

/-! ## One cycle -/

section Step

variable {keys : Finset K} {s : CamWarpper w K V} {i : Inputs K V}

omit [DecidableEq K] in
theorem written_eq (hidle : ∀ key v, s.result = some (.update key v) → i.camBusy = false) :
    written s i = s.result.bind Req.asUpdate := by
  rw [written, resultReady]
  cases hres : s.result with
  | none => simp
  | some r =>
    cases r with
    | update key v => simp [hidle key v hres]
    | lookup key user => simp [Req.asUpdate]

variable {key : K} {v : V}

section

variable (h : Store keys s) (hcard : keys.card ≤ 2 ^ w)
include h hcard

/-- There is a slot for a new key. -/
theorem Store.lt_of_unmatched (hkey : key ∈ keys)
    (hnew : ∀ a, s.cam a ≠ some key) {n : Nat} (hn : n ≤ 2 ^ w)
    (hused : ∀ a, (s.cam a).isSome ↔ a.toNat < n) : n < 2 ^ w := by
  have hcam : ∀ m < n, ∃ k, s.cam (BitVec.ofNat w m) = some k ∧ k ∈ keys.erase key := by
    intro m hm
    have hlt : m < 2 ^ w := hm.trans_le hn
    obtain ⟨k, hk⟩ := isSome_iff_exists.mp ((hused (BitVec.ofNat w m)).mpr (by
      rwa [BitVec.toNat_ofNat, Nat.mod_eq_of_lt hlt]))
    refine ⟨k, hk, mem_erase.mpr ⟨?_, h.known _ k hk⟩⟩
    rintro rfl
    exact hnew _ hk
  have hle : (range n).card ≤ (keys.erase key).card := by
    refine card_le_card_of_injOn (fun m => (s.cam (BitVec.ofNat w m)).getD key) ?_ ?_
    · intro m hm
      obtain ⟨k, hk, hmem⟩ := hcam m (mem_range.mp hm)
      simpa [hk, and_comm] using hmem
    · intro m hm m' hm' heq
      have hm := mem_range.mp hm
      have hm' := mem_range.mp hm'
      obtain ⟨k, hk, _⟩ := hcam m hm
      obtain ⟨k', hk', _⟩ := hcam m' hm'
      simp only [hk, hk', getD_some] at heq
      subst heq
      have haddr := congrArg BitVec.toNat (h.distinct _ _ _ hk hk')
      rwa [BitVec.toNat_ofNat, BitVec.toNat_ofNat, Nat.mod_eq_of_lt (hm.trans_le hn),
        Nat.mod_eq_of_lt (hm'.trans_le hn)] at haddr
  rw [card_range, card_erase_of_mem hkey] at hle
  have hpos := card_pos.mpr ⟨key, hkey⟩
  omega

variable (hres : s.result = some (.update key v))
include hres

theorem Store.writable : Writable s.cam key (writeAddr s) := by
  have hmatched : s.matched = compare s.cam key := h.compared _ hres
  cases hcmp : compare s.cam key with
  | some a =>
    rw [writeAddr, hmatched, hcmp]
    have ha := compare_eq_some hcmp
    exact ⟨Or.inr ha, fun b hb => h.distinct b a key hb ha⟩
  | none =>
    rw [writeAddr, hmatched, hcmp]
    have hnew := compare_eq_none.mp hcmp
    refine ⟨Or.inl ?_, fun b hb => absurd hb (hnew b)⟩
    obtain ⟨n, hn, hfree, hused⟩ := h.free
    have hlt := h.lt_of_unmatched hcard (h.pending key v hres).1 hnew hn hused
    rw [← not_isSome_iff_eq_none, getD_none, hfree, hused, BitVec.toNat_ofNat, Nat.mod_eq_of_lt hlt]
    exact Nat.lt_irrefl n

/-- The slots in use still come first. -/
theorem Store.free_next :
    ∃ n ≤ 2 ^ w, (if s.matched.isNone then s.freeSlot + 1 else s.freeSlot) = BitVec.ofNat w n ∧
      ∀ a, (update s.cam (writeAddr s) (some key) a).isSome ↔ a.toNat < n := by
  obtain ⟨n, hn, hfree, hused⟩ := h.free
  have hmatched : s.matched = compare s.cam key := h.compared _ hres
  cases hcmp : compare s.cam key with
  | some a =>
    rw [writeAddr, hmatched, hcmp, getD_some]
    refine ⟨n, hn, hfree, fun b => ?_⟩
    rw [← compare_eq_some hcmp, update_eq_self]
    exact hused b
  | none =>
    have hlt := h.lt_of_unmatched hcard (h.pending key v hres).1
      (compare_eq_none.mp hcmp) hn hused
    rw [writeAddr, hmatched, hcmp, getD_none]
    refine ⟨n + 1, hlt, ?_, fun b => ?_⟩
    · rw [hfree]
      exact (BitVec.ofNat_add n 1).symm
    · by_cases hb : b = s.freeSlot
      · subst hb
        rw [update_self, hfree, BitVec.toNat_ofNat, Nat.mod_eq_of_lt hlt]
        simp
      · have hne : b.toNat ≠ n := by
          intro heq
          refine hb (BitVec.eq_of_toNat_eq ?_)
          rw [hfree, BitVec.toNat_ofNat, Nat.mod_eq_of_lt hlt, heq]
        rw [update_of_ne hb, hused]
        omega

end

variable (h : Store keys s)
include h

/-- An update in the match stage keeps other requests out. -/
theorem Store.taken_eq_none (hres : s.result = some (.update key v)) : taken s i = none := by
  have hstall := (h.pending key v hres).2
  simp [taken, Fifo.popped, matchReady, hstall.ne']

theorem Store.next (hcard : keys.card ≤ 2 ^ w)
    (hidle : ∀ key v, s.result = some (.update key v) → i.camBusy = false) {keys' : Finset K}
    (hsub : keys ⊆ keys') (htaken : ∀ key v, taken s i = some (.update key v) → key ∈ keys') :
    Store keys' (next s i) := by
  have hpend : ∀ key v, taken s i = some (.update key v) → key ∈ keys' ∧ 0 < stallNext s i := by
    intro key v htake
    refine ⟨htaken key v htake, ?_⟩
    rw [stallNext, htake]
    exact Nat.succ_pos 4
  have hwr := written_eq hidle
  cases hupd : s.result.bind Req.asUpdate with
  | none =>
    rw [hupd] at hwr
    refine ⟨?_, ?_, ?_, ?_, hpend⟩ <;>
      simp only [CamWarpper.next, hwr, isSome_none, Bool.false_and, Bool.false_eq_true, if_false]
    · exact h.free
    · exact h.distinct
    · exact fun a key hkey => hsub (h.known a key hkey)
    · intro r hr
      rw [mem_def.mp hr, bind_some]
  | some x =>
    have hres := Req.bind_asUpdate_eq_some.mp hupd
    rw [hupd] at hwr
    refine ⟨?_, ?_, ?_, ?_, hpend⟩ <;>
      simp only [CamWarpper.next, hwr, isSome_some, Bool.true_and]
    · exact h.free_next hcard hres
    · exact (h.writable hcard hres).distinct h.distinct
    · intro a k hk
      by_cases ha : a = writeAddr s
      · rw [ha, update_self] at hk
        cases hk
        exact hsub (h.pending _ _ hres).1
      · rw [update_of_ne ha] at hk
        exact hsub (h.known a k hk)
    · intro r hr
      rw [h.taken_eq_none hres] at hr
      cases hr

variable [Zero V]

section

variable (h : Store keys s) (hcard : keys.card ≤ 2 ^ w)
  (hidle : ∀ key v, s.result = some (.update key v) → i.camBusy = false) (k : K)
include h hcard hidle k

/-- In the next cycle the update in the match stage is stored. -/
theorem Store.stored_next : stored (CamWarpper.next s i) k = s.value k := by
  have hwr := written_eq hidle
  cases hupd : s.result.bind Req.asUpdate with
  | none =>
    simp only [value, hupd, stored, CamWarpper.next, hwr]
  | some x =>
    have hwritable := h.writable hcard (Req.bind_asUpdate_eq_some.mp hupd)
    simp only [value, hupd, stored, CamWarpper.next, hwr]
    by_cases hk : x.1 = k
    · subst hk
      rw [if_pos rfl, hwritable.compare_self h.distinct]
      exact update_self _ _ _
    · rw [if_neg hk, hwritable.compare_ne (Ne.symm hk)]
      cases hcmp : compare s.cam k with
      | none => rfl
      | some b => exact update_of_ne (hwritable.ne_of_compare (Ne.symm hk) hcmp) _ _

theorem Store.value_next : value (CamWarpper.next s i) k = match (taken s i).bind Req.asUpdate with
      | some (key, v) => if key = k then v else s.value k
      | none => s.value k := by
  rw [value, h.stored_next hcard hidle]
  rfl

end

/-- A lookup in the match stage reads the value of its key, if a lookup without a match finds
a zero. -/
theorem Store.readNext_eq {user : BitVec 4} (hres : s.result = some (.lookup key user))
    (hrdy : s.readReady) (hmiss : s.matched = none → s.ram (BitVec.ofNat w 2) = 0) :
    readNext s = some (s.value key, user) := by
  have hmatched : s.matched = compare s.cam key := h.compared _ hres
  simp only [readNext, hres, hrdy, if_true, value, bind_some, Req.asUpdate, stored]
  cases hcmp : compare s.cam key with
  | some a => rw [hmatched, hcmp, getD_some]
  | none => rw [hmatched, hcmp, getD_none, hmiss (hmatched.trans hcmp)]

end Step

end CamWarpper

end Alkali.Fpga
