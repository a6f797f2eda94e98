import Alkali.Netronome.Replicate

/-!
# The names of handlers and of their replicas

`mangle` joins the event and the atom of a handler by an underscore, which may also stand in
either of them. A replica is named by its handler and its number, and a port by its event, its atom
and its number; the number is the part after the last underscore.
-/

namespace Alkali.Netronome

open List

/-- An identifier of the lexer: a letter, and then letters, digits and underscores. -/
def IsIdentifier (s : String) : Prop :=
  ∃ c cs, s.toList = c :: cs ∧ c.isAlpha ∧ ∀ d ∈ cs, d.isAlphanum ∨ d = '_'

/-- What `mangle` writes behind the event. -/
def surffix (n : HandlerFullName) : String := if n.atom = "" then "" else "_" ++ n.atom

/-- The event of `m` is the event of `n` and a beginning of its atom, and the rest of the atom of
`n` is the atom of `m`. -/
def Overlaps (n m : HandlerFullName) : Prop :=
  ∃ x, m.event = n.event ++ "_" ++ x ∧ n.atom ≠ "" ∧ n.atom = x ++ surffix m

/-- The handler of a port. -/
def PortAttr.fullName (p : PortAttr) : HandlerFullName := ⟨p.handler, p.atom⟩

/-- The names of handlers, of replicas and of ports are distinct, and the name from a port is the
name of the replica. -/
structure NamesFaithful (names : Set HandlerFullName) : Prop where
  handlers : ∀ n ∈ names, ∀ m ∈ names, n.mangle = m.mangle → n = m
  replicas : ∀ n ∈ names, ∀ m ∈ names, ∀ i j, replicaName n i = replicaName m j → n = m ∧ i = j
  ports : ∀ p q : PortAttr, p.fullName ∈ names → q.fullName ∈ names →
    portToHandlerName p = portToHandlerName q → p = q
  agree : ∀ n ∈ names, ∀ i, portToHandlerName (ownPort n i) = replicaName n i

/-! ## Numbers after an underscore -/

section Numbers

/-- A list is cut in one way at the last occurrence of a separator. -/
theorem append_cons_inj_of_notMem {α : Type*} {s : α} {a b c d : List α} (hb : s ∉ b)
    (hd : s ∉ d) (h : a ++ s :: b = c ++ s :: d) : a = c ∧ b = d := by
  rcases append_eq_append_iff.mp h with ⟨x, rfl, hx⟩ | ⟨x, rfl, hx⟩
  · cases x with
    | nil =>
      obtain ⟨-, rfl⟩ := List.cons.inj hx
      exact ⟨(append_nil a).symm, rfl⟩
    | cons y x =>
      obtain ⟨-, rfl⟩ := List.cons.inj hx
      exact absurd (mem_append_right x mem_cons_self) hb
  · cases x with
    | nil =>
      obtain ⟨-, rfl⟩ := List.cons.inj hx
      exact ⟨append_nil c, rfl⟩
    | cons y x =>
      obtain ⟨-, rfl⟩ := List.cons.inj hx
      exact absurd (mem_append_right x mem_cons_self) hd

theorem toList_toString (k : Nat) : (toString k).toList = Nat.toDigits 10 k := by
  rw [Nat.toString_eq_ofList_toDigits, String.toList_ofList]

theorem isDigit_of_mem_toString {k : Nat} {c : Char} (h : c ∈ (toString k).toList) :
    c.isDigit = true := by
  rw [toList_toString] at h
  exact Nat.isDigit_of_mem_toDigits (by decide) (by decide) h

theorem toString_negSucc (k : Nat) : toString (Int.negSucc k) = "-" ++ toString (k + 1) := rfl

/-- A number has no underscore. -/
theorem underscore_notMem_toString (z : Int) : '_' ∉ (toString z).toList := by
  intro h
  cases z with
  | ofNat k =>
    exact absurd (isDigit_of_mem_toString h) (by decide)
  | negSucc k =>
    rw [toString_negSucc, String.toList_append] at h
    rcases mem_append.mp h with h | h
    · exact absurd h (by decide)
    · exact absurd (isDigit_of_mem_toString h) (by decide)

theorem minus_append_ne_toString (s : String) (k : Nat) : "-" ++ s ≠ toString k := by
  intro h
  have hmem : '-' ∈ (toString k).toList := by
    rw [← h, String.toList_append]
    exact mem_append_left _ (by decide)
  exact absurd (isDigit_of_mem_toString hmem) (by decide)

theorem toString_int_inj {y z : Int} (h : toString y = toString z) : y = z := by
  cases y with
  | ofNat i =>
    cases z with
    | ofNat j => exact congrArg Int.ofNat (Decimal.toString_inj.mp h)
    | negSucc j => exact absurd h.symm (minus_append_ne_toString _ i)
  | negSucc i =>
    cases z with
    | ofNat j => exact absurd h (minus_append_ne_toString _ j)
    | negSucc j =>
      rw [toString_negSucc, toString_negSucc, String.append_right_inj] at h
      exact congrArg Int.negSucc (Nat.succ.inj (Decimal.toString_inj.mp h))

/-- A name followed by an underscore and a number can be read back. -/
theorem numbered_inj {a b : String} {y z : Int}
    (h : a ++ "_" ++ toString y = b ++ "_" ++ toString z) : a = b ∧ y = z := by
  have hlists := congrArg String.toList h
  simp only [String.toList_append, append_assoc] at hlists
  obtain ⟨hname, hnum⟩ := append_cons_inj_of_notMem (underscore_notMem_toString y)
    (underscore_notMem_toString z) hlists
  exact ⟨String.toList_inj.mp hname, toString_int_inj (String.toList_inj.mp hnum)⟩

end Numbers

/-! ## Equal names -/

section Mangle

variable {n m : HandlerFullName}

theorem mangle_eq_append (n : HandlerFullName) :
    n.mangle = "__handler_" ++ (n.event ++ surffix n) :=
  String.append_assoc ..

theorem mangle_eq_iff_append : n.mangle = m.mangle ↔
    n.event.toList ++ (surffix n).toList = m.event.toList ++ (surffix m).toList := by
  rw [mangle_eq_append, mangle_eq_append, String.append_right_inj, ← String.toList_inj,
    String.toList_append, String.toList_append]

theorem surffix_of_ne (h : n.atom ≠ "") : surffix n = "_" ++ n.atom := if_neg h

theorem toList_surffix_of_ne (h : n.atom ≠ "") : (surffix n).toList = '_' :: n.atom.toList := by
  rw [surffix_of_ne h, String.toList_append]
  rfl

theorem surffix_of_eq (h : n.atom = "") : surffix n = "" := if_pos h

theorem atom_eq_of_surffix_eq (h : surffix n = surffix m) : n.atom = m.atom := by
  by_cases hn : n.atom = "" <;> by_cases hm : m.atom = ""
  · rw [hn, hm]
  · have hlists := congrArg String.toList h
    rw [surffix_of_eq hn, toList_surffix_of_ne hm] at hlists
    exact absurd hlists (cons_ne_nil _ _).symm
  · have hlists := congrArg String.toList h
    rw [surffix_of_eq hm, toList_surffix_of_ne hn] at hlists
    exact absurd hlists (cons_ne_nil _ _)
  · rwa [surffix_of_ne hn, surffix_of_ne hm, String.append_right_inj] at h

/-- Two names spell the same text if the event of one goes on where the other one ends; the rest
is empty, or it begins with the underscore before the atom. -/
theorem eq_or_overlaps {x : List Char} (hev : m.event.toList = n.event.toList ++ x)
    (hrest : (surffix n).toList = x ++ (surffix m).toList) : n = m ∨ Overlaps n m := by
  cases x with
  | nil =>
    left
    rw [append_nil] at hev
    have hatom := atom_eq_of_surffix_eq (String.toList_inj.mp hrest)
    rw [HandlerFullName.mk.injEq]
    exact ⟨(String.toList_inj.mp hev).symm, hatom⟩
  | cons c x =>
    right
    have hatom : n.atom ≠ "" := by
      intro hatom
      rw [surffix_of_eq hatom] at hrest
      exact absurd hrest (cons_ne_nil _ _).symm
    rw [toList_surffix_of_ne hatom] at hrest
    obtain ⟨rfl, hatomEq⟩ := List.cons.inj hrest
    refine ⟨String.ofList x, String.toList_inj.mp ?_, hatom, String.toList_inj.mp ?_⟩
    · simp only [hev, String.toList_append, String.toList_ofList, append_assoc]
      rfl
    · rw [hatomEq, String.toList_append, String.toList_ofList]
      rfl

theorem Overlaps.mangle_eq (h : Overlaps n m) : n.mangle = m.mangle := by
  obtain ⟨x, hev, hatom, hrest⟩ := h
  rw [mangle_eq_append, mangle_eq_append, surffix_of_ne hatom, hev, hrest]
  simp only [String.append_assoc]

/-- A name that overlaps another one is not that name: the event of the other one is longer. -/
theorem Overlaps.ne (h : Overlaps n m) : n ≠ m := by
  obtain ⟨x, hev, -, -⟩ := h
  rintro rfl
  have hlen := congrArg String.length hev
  have hone : "_".length = 1 := rfl
  rw [String.length_append, String.length_append, hone] at hlen
  omega

theorem mangle_eq_iff : n.mangle = m.mangle ↔ n = m ∨ Overlaps n m ∨ Overlaps m n := by
  constructor
  · intro h
    rcases append_eq_append_iff.mp (mangle_eq_iff_append.mp h) with
      ⟨x, hev, hrest⟩ | ⟨x, hev, hrest⟩
    · exact (eq_or_overlaps hev hrest).imp_right Or.inl
    · rcases eq_or_overlaps hev hrest with rfl | hover
      · exact Or.inl rfl
      · exact Or.inr (Or.inr hover)
  · rintro (rfl | hover | hover)
    · rfl
    · exact hover.mangle_eq
    · exact hover.mangle_eq.symm

end Mangle

/-! ## Replicas and ports -/

section Replicas

variable {n m : HandlerFullName}

theorem replicaName_eq_iff {i j : Nat} :
    replicaName n i = replicaName m j ↔ n.mangle = m.mangle ∧ i = j := by
  constructor
  · intro h
    have hnum : ∀ k : Nat, toString (k + 1) = toString ((k + 1 : Nat) : Int) := fun _ => rfl
    rw [replicaName, replicaName, hnum, hnum] at h
    obtain ⟨hname, hint⟩ := numbered_inj h
    exact ⟨hname, by omega⟩
  · rintro ⟨hname, rfl⟩
    rw [replicaName, replicaName, hname]

theorem portToHandlerName_eq_append {p : PortAttr} (hatom : p.atom ≠ "") :
    portToHandlerName p = p.fullName.mangle ++ "_" ++ toString (p.instanceNumber + 1) := by
  have hmangle : p.fullName.mangle = "__handler_" ++ p.handler ++ ("_" ++ p.atom) := by
    exact congrArg _ (if_neg hatom)
  rw [portToHandlerName, hmangle, ← String.append_assoc]

theorem port_eq_of_fullName {p q : PortAttr} (hname : p.fullName = q.fullName)
    (hnum : p.instanceNumber = q.instanceNumber) : p = q := by
  cases p
  obtain ⟨rfl, rfl⟩ := HandlerFullName.mk.inj hname
  cases hnum
  rfl

/-- The names tell the handlers, their replicas and their ports apart, and are built in one way,
if and only if every handler has an atom and no two of them overlap. -/
theorem namesFaithful_iff (names : Set HandlerFullName) :
    NamesFaithful names ↔ (∀ n ∈ names, n.atom ≠ "") ∧
      ∀ n ∈ names, ∀ m ∈ names, ¬ Overlaps n m := by
  constructor
  · intro h
    refine ⟨fun n hn hatom => ?_, fun n hn m hm hover => ?_⟩
    · exact portToHandlerName_ownPort_ne hatom 0 (h.agree n hn 0)
    · exact hover.ne (h.handlers n hn m hm hover.mangle_eq)
  · rintro ⟨hatoms, hapart⟩
    have hhandlers : ∀ n ∈ names, ∀ m ∈ names, n.mangle = m.mangle → n = m := by
      intro n hn m hm h
      rcases mangle_eq_iff.mp h with h | hover | hover
      · exact h
      · exact absurd hover (hapart n hn m hm)
      · exact absurd hover (hapart m hm n hn)
    refine ⟨hhandlers, fun n hn m hm i j h => ?_, fun p q hp hq h => ?_, fun n hn i => ?_⟩
    · obtain ⟨hname, hnum⟩ := replicaName_eq_iff.mp h
      exact ⟨hhandlers n hn m hm hname, hnum⟩
    · rw [portToHandlerName_eq_append (hatoms _ hp), portToHandlerName_eq_append (hatoms _ hq)] at h
      obtain ⟨hname, hnum⟩ := numbered_inj h
      exact port_eq_of_fullName (hhandlers _ hp _ hq hname) (by omega)
    · exact portToHandlerName_ownPort (hatoms n hn) i

end Replicas

theorem isIdentifier_of_all {s : String} {c : Char} {cs : List Char} (hs : s.toList = c :: cs)
    (hfirst : c.isAlpha = true) (hrest : (cs.all fun d => d.isAlphanum || d == '_') = true) :
    IsIdentifier s := by
  refine ⟨c, cs, hs, hfirst, fun d hd => ?_⟩
  have htest := all_eq_true.mp hrest d hd
  rw [Bool.or_eq_true, beq_iff_eq] at htest
  exact htest

/-- The event `NET_RECV` and the atom `RECV` of the event `NET` have one name, and so have all
their replicas; and the name from a port of `NET_RECV` is the name of no replica of it. -/
theorem netRecv_name_shared : ∃ n m : HandlerFullName, (IsIdentifier n.event ∧ n.atom = "") ∧
      (IsIdentifier m.event ∧ IsIdentifier m.atom) ∧ n ≠ m ∧ n.mangle = m.mangle ∧
      (∀ i, replicaName n i = replicaName m i) ∧
      ∀ i, portToHandlerName (ownPort n i) ≠ replicaName n i := by
  have hname : (⟨"NET_RECV", ""⟩ : HandlerFullName).mangle =
      (⟨"NET", "RECV"⟩ : HandlerFullName).mangle := by decide
  have hev : IsIdentifier "NET_RECV" :=
    isIdentifier_of_all (c := 'N') rfl (by decide) (by decide)
  have hnet : IsIdentifier "NET" := isIdentifier_of_all (c := 'N') rfl (by decide) (by decide)
  have hrecv : IsIdentifier "RECV" := isIdentifier_of_all (c := 'R') rfl (by decide) (by decide)
  exact ⟨⟨"NET_RECV", ""⟩, ⟨"NET", "RECV"⟩, ⟨hev, rfl⟩, ⟨hnet, hrecv⟩, by decide, hname,
    fun i => replicaName_eq_iff.mpr ⟨hname, rfl⟩, portToHandlerName_ownPort_ne rfl⟩

end Alkali.Netronome
