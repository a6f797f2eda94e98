import Mathlib.Data.List.FinRange
import Mathlib.Data.List.Induction

/-!
# Synchronous circuits

In each cycle a clocked circuit reads its inputs, drives its outputs and loads its
registers. A run is the list of the inputs. What goes through a channel is read off the
trace, and an invariant of the runs may speak about the trace so far.
-/

namespace Synchronous

open List

/-- A clocked circuit with registers `σ`. -/
structure Circuit (σ ι ο : Type*) where
  init : σ
  output : σ → ι → ο
  next : σ → ι → σ

namespace Circuit

variable {σ ι ο α : Type*} (c : Circuit σ ι ο) (inputs : List ι)

/-- The registers after some cycles. -/
def run : σ := inputs.foldl c.next c.init

def traceFrom : σ → List ι → List (ι × ο)
  | _, [] => []
  | s, i :: is => (i, c.output s i) :: traceFrom (c.next s i) is

/-- The inputs and the outputs of each cycle. -/
def trace : List (ι × ο) := c.traceFrom c.init inputs

theorem run_concat (is : List ι) (i : ι) : c.run (is ++ [i]) = c.next (c.run is) i := by
  rw [run, foldl_append]
  rfl

theorem traceFrom_append (s : σ) (is js : List ι) :
    c.traceFrom s (is ++ js) = c.traceFrom s is ++ c.traceFrom (is.foldl c.next s) js := by
  induction is generalizing s with
  | nil => rfl
  | cons i is ih => simp [traceFrom, ih]

theorem trace_concat (is : List ι) (i : ι) :
    c.trace (is ++ [i]) = c.trace is ++ [(i, c.output (c.run is) i)] :=
  c.traceFrom_append c.init is [i]

variable (channel : ι → ο → Option α) (history : List (ι × ο))

/-- The entries that go through a channel. -/
def transfers : List α :=
  history.filterMap fun p => channel p.1 p.2

theorem transfers_concat (i : ι) (o : ο) : transfers channel (history ++ [(i, o)]) =
      transfers channel history ++ (channel i o).toList := by
  cases h : channel i o <;> simp [transfers, h]

theorem forall_transfers_concat {channel : ι → ο → Option α} {history : List (ι × ο)} {i : ι}
    {o : ο} {P : α → Prop} : (∀ a ∈ transfers channel (history ++ [(i, o)]), P a) ↔
      (∀ a ∈ transfers channel history, P a) ∧ ∀ a ∈ channel i o, P a := by
  simp [transfers_concat, or_imp, forall_and]

/-- Every step of a run meets a condition on the registers before it and its inputs. -/
def Along (ok : σ → ι → Prop) (inputs : List ι) : Prop :=
  ∀ is i, is ++ [i] <+: inputs → ok (c.run is) i

variable {c}

theorem along_nil (ok : σ → ι → Prop) : c.Along ok [] := by
  intro is i hpre
  simp at hpre

variable {ok : σ → ι → Prop}

theorem along_of_take {inputs : List ι}
    (h : ∀ n : Fin inputs.length, ok (c.run (inputs.take n)) inputs[n]) :
    c.Along ok inputs := by
  rintro is i ⟨rest, rfl⟩
  simpa using h ⟨is.length, by simp⟩

theorem along_concat {is : List ι} {i : ι} :
    c.Along ok (is ++ [i]) ↔ c.Along ok is ∧ ok (c.run is) i := by
  constructor
  · intro h
    refine ⟨fun is' i' hpre => h is' i' (hpre.trans (prefix_append _ _)), ?_⟩
    exact h is i prefix_rfl
  · rintro ⟨his, hi⟩ is' i' hpre
    rcases prefix_concat_iff.mp hpre with heq | hpre
    · obtain ⟨rfl, rfl⟩ := append_singleton_inj.mp heq
      exact hi
    · exact his is' i' hpre

/-- What holds at the start and is kept by every step that meets the condition holds after
every run of such steps. -/
theorem invariant {P : List (ι × ο) → σ → Prop} (hinit : P [] c.init)
    (hstep : ∀ h s i, P h s → ok s i → P (h ++ [(i, c.output s i)]) (c.next s i))
    {inputs : List ι} (hok : c.Along ok inputs) : P (c.trace inputs) (c.run inputs) := by
  induction inputs using reverseRecOn with
  | nil => exact hinit
  | append_singleton is i ih =>
    obtain ⟨hok, hlast⟩ := along_concat.mp hok
    rw [trace_concat, run_concat]
    exact hstep _ _ _ (ih hok) hlast

/-- A condition on the steps that says, in a state that is related, that the step gives the right
output and a state that is related again, says the same about the whole run. -/
theorem along_iff {R : List ι → Prop} {Q : List ι → ι → Prop} (hinit : R [])
    (hstep : ∀ is i, R is → (ok (c.run is) i ↔ R (is ++ [i]) ∧ Q is i)) (inputs : List ι) :
    c.Along ok inputs ↔ (∀ is, is <+: inputs → R is) ∧ ∀ is i, is ++ [i] <+: inputs → Q is i := by
  constructor
  · intro hok
    have hall : ∀ is, is <+: inputs → R is := by
      intro is
      induction is using reverseRecOn with
      | nil => exact fun _ => hinit
      | append_singleton is i ih =>
        intro hpre
        have hprev := ih ((prefix_append _ _).trans hpre)
        exact ((hstep is i hprev).mp (hok is i hpre)).1
    refine ⟨hall, fun is i hpre => ?_⟩
    exact ((hstep is i (hall is ((prefix_append _ _).trans hpre))).mp (hok is i hpre)).2
  · rintro ⟨hR, hQ⟩ is i hpre
    exact (hstep is i (hR is ((prefix_append _ _).trans hpre))).mpr ⟨hR _ hpre, hQ is i hpre⟩

/-- Cycles that make a rank smaller work off what is left. -/
theorem rank_append (rank : σ → Nat) {good : List ι → Prop} {quiet : ι → Prop}
    (hstep : ∀ is i, good is → quiet i →
      good (is ++ [i]) ∧ rank (c.next (c.run is) i) ≤ rank (c.run is) - 1)
    {inputs rest : List ι} (hgood : good inputs) (hrest : ∀ i ∈ rest, quiet i) :
    good (inputs ++ rest) ∧ rank (c.run (inputs ++ rest)) ≤ rank (c.run inputs) - rest.length := by
  induction rest using reverseRecOn with
  | nil => simpa using hgood
  | append_singleton rest i ih =>
    obtain ⟨hprev, hi⟩ := forall_mem_append.mp hrest
    obtain ⟨hgood, hrank⟩ := ih hprev
    obtain ⟨hnext, hless⟩ := hstep _ i hgood (hi i (mem_singleton_self i))
    rw [← append_assoc, run_concat, length_append, length_singleton]
    exact ⟨hnext, by omega⟩

theorem along_true : c.Along (fun _ _ => True) inputs := fun _ _ _ => trivial

end Circuit

/-! ## Queues -/

namespace Fifo

variable {α : Type*}

/-- The entry at the output. The implementation decides in which cycles it shows one. -/
def front (shows : Bool) (q : List α) : Option α := if shows then q.head? else none

variable {q : List α}

theorem front_eq_some {shows : Bool} {x : α} (h : front shows q = some x) : q = x :: q.tail := by
  rw [front] at h
  split at h
  · exact eq_cons_of_mem_head? h
  · cases h

theorem ne_nil_of_front {shows : Bool} (h : (front shows q).isSome) : q ≠ [] := by
  obtain ⟨x, hx⟩ := Option.isSome_iff_exists.mp h
  rw [front_eq_some hx]
  exact cons_ne_nil _ _

variable (shows ready : Bool)

/-- The contents after a cycle in which an entry may leave and one may come in. -/
def next (q : List α) (pushed : Option α) : List α :=
  (if ready && (front shows q).isSome then q.tail else q) ++ pushed.toList

/-- The entry that leaves. -/
def popped (q : List α) : Option α := if ready then front shows q else none

theorem popped_append_next (q : List α) (pushed : Option α) :
    (popped shows ready q).toList ++ next shows ready q pushed = q ++ pushed.toList := by
  cases ready <;> cases shows <;> cases q <;> simp [popped, next, front]

/-- Nothing is lost or added: what came in is what left and what is still there. -/
theorem conserve {accepted taken : List α} (h : accepted = taken ++ q) (shows ready : Bool)
    (pushed : Option α) :
    accepted ++ pushed.toList =
      (taken ++ (popped shows ready q).toList) ++ next shows ready q pushed := by
  rw [h, append_assoc, append_assoc, popped_append_next]

/-- The same for the entries that some channel is interested in. -/
theorem popped_append_next_filterMap {β : Type*} (f : α → Option β) (shows ready : Bool)
    (q : List α) (pushed : Option α) :
    ((popped shows ready q).bind f).toList ++ (next shows ready q pushed).filterMap f =
      q.filterMap f ++ (pushed.bind f).toList := by
  have htoList : ∀ o : Option α, (o.bind f).toList = o.toList.filterMap f := by
    intro o
    cases o with
    | none => rfl
    | some x => cases h : f x <;> simp [h]
  rw [htoList, htoList, ← filterMap_append, ← filterMap_append, popped_append_next]

/-- A queue that keeps showing an entry until it is taken. -/
structure Held (α : Type*) where
  shown : Option α
  rest : List α

namespace Held

def contents (q : Held α) : List α := q.shown.toList ++ q.rest

/-- The implementation decides in which cycles it loads an entry that it then shows. -/
def next (q : Held α) (ready load : Bool) (pushed : Option α) : Held α :=
  if (ready || q.shown.isNone) && load then ⟨q.rest.head?, q.rest.tail ++ pushed.toList⟩
  else ⟨if ready then none else q.shown, q.rest ++ pushed.toList⟩

/-- The entry that leaves. -/
def popped (q : Held α) (ready : Bool) : Option α := if ready then q.shown else none

theorem popped_append_contents_next (q : Held α) (ready load : Bool) (pushed : Option α) :
    (q.popped ready).toList ++ (q.next ready load pushed).contents =
      q.contents ++ pushed.toList := by
  obtain ⟨shown, rest⟩ := q
  cases ready <;> cases load <;> cases shown <;> cases rest <;> simp [popped, next, contents]

theorem shown_next {q : Held α} {x : α} (h : q.shown = some x) (load : Bool)
    (pushed : Option α) : (q.next false load pushed).shown = some x := by
  simp [next, h]

end Held

theorem length_next_of_ready (q : List α) (pushed : Option α) :
    (next true true q pushed).length = q.length - 1 + pushed.toList.length := by
  cases q <;> simp [next, front]

section Ports

variable {n : Nat}

/-- Of the entries that some ports have, one port gives its one. -/
theorem flatMap_ite_eq (o : Option (Fin n)) (f : Fin n → Option α) :
    ((finRange n).flatMap fun x => if o = some x then (f x).toList else []) =
      (o.bind f).toList := by
  cases o with
  | none => simp
  | some x =>
    obtain ⟨before, after, hsplit⟩ := append_of_mem (mem_finRange x)
    have hnd := nodup_finRange n
    rw [hsplit, nodup_middle, nodup_cons, mem_append, not_or] at hnd
    have hnil : ∀ l : List (Fin n), x ∉ l →
        (l.flatMap fun y => if some x = some y then (f y).toList else []) = [] := by
      intro l hx
      rw [flatMap_eq_nil_iff]
      intro y hy
      rw [if_neg]
      rintro ⟨⟩
      exact hx hy
    rw [hsplit, flatMap_append, flatMap_cons, hnil _ hnd.1.1, hnil _ hnd.1.2]
    simp

/-- An entry that has one address comes into one queue. -/
theorem length_flatMap_le_one {f : Fin n → Option α}
    (h : ∀ x y, (f x).isSome → (f y).isSome → x = y) :
    ((finRange n).flatMap fun x => (f x).toList).length ≤ 1 := by
  by_cases hall : ∀ x, f x = none
  · simp [hall]
  · obtain ⟨x, hx⟩ := not_forall.mp hall
    have hsome : (f x).isSome := Option.isSome_iff_ne_none.mpr hx
    have hite : ∀ y, (f y).toList = if some x = some y then (f y).toList else [] := by
      intro y
      split
      · rfl
      · rename_i hne
        cases hy : f y with
        | none => rfl
        | some z => exact absurd (congrArg some (h x y hsome (by simp [hy]))) hne
    rw [flatMap_congr fun y _ => hite y, flatMap_ite_eq]
    exact Option.length_toList_le

/-- When all queues are read, their contents get less, but for what comes in. -/
theorem length_flatMap_next (q q' : Fin n → List α) (pushed : Fin n → Option α)
    (h : ∀ x, q' x = next true true (q x) (pushed x)) :
    ((finRange n).flatMap q').length + min 1 ((finRange n).flatMap q).length ≤
      ((finRange n).flatMap q).length +
        ((finRange n).flatMap fun x => (pushed x).toList).length := by
  induction finRange n with
  | nil => simp
  | cons x xs ih =>
    have hx := congrArg length (h x)
    rw [length_next_of_ready] at hx
    simp only [flatMap_cons, length_append] at ih ⊢
    omega

/-- An arbiter that looks at all queues takes an entry whenever there is one. -/
theorem length_find?_bind {β : Type*} {order : List (Fin n)} (hord : ∀ x, x ∈ order)
    {q : Fin n → List α} {f : Fin n → Option β} (h : ∀ x, (f x).isSome ↔ q x ≠ []) :
    ((order.find? fun x => (f x).isSome).bind f).toList.length =
      min 1 ((finRange n).flatMap q).length := by
  cases hfind : order.find? fun x => (f x).isSome with
  | none =>
    have hnil : ∀ x, q x = [] := fun x => by
      simpa [h] using find?_eq_none.mp hfind x (hord x)
    simp [hnil]
  | some x =>
    have hsome : (f x).isSome := find?_some (p := fun x => (f x).isSome) hfind
    have hne : (finRange n).flatMap q ≠ [] := fun hnil =>
      (h x).mp hsome (flatMap_eq_nil_iff.mp hnil x (mem_finRange x))
    have hpos := length_pos_iff.mpr hne
    obtain ⟨y, hy⟩ := Option.isSome_iff_exists.mp hsome
    rw [Option.bind_some, hy, Option.toList_some, length_singleton]
    omega

end Ports

/-- The signals at the input of a queue, and what its implementation does in the cycle. -/
structure Port (α : Type*) where
  valid : Option α
  ready : Bool
  shows : Bool

/-- The entry that comes in. -/
def Port.pushed (p : Port α) : Option α := if p.ready then p.valid else none

end Fifo

/-! ## Frames -/

section Frames

variable {α : Type*} (last : α → Bool)

/-- Group the beats of a stream to frames, the last of which may be unfinished. -/
def frames : List α → List (List α)
  | [] => []
  | b :: bs =>
    if last b then [b] :: frames bs
    else
      match frames bs with
      | [] => [[b]]
      | f :: fs => (b :: f) :: fs

/-- The last frame is not finished. -/
def unfinished (bs : List α) : Bool := bs.getLast?.any fun b => !last b

variable {last}
variable {b : α} {bs : List α} {fs : List (List α)}

theorem frames_cons_of_last (h : last b) (bs : List α) :
    frames last (b :: bs) = [b] :: frames last bs := by
  rw [frames, if_pos h]

theorem frames_cons_of_not_last (h : ¬ last b) {f : List α} (hbs : frames last bs = f :: fs) :
    frames last (b :: bs) = (b :: f) :: fs := by
  rw [frames, if_neg h, hbs]

theorem flatten_frames (bs : List α) : (frames last bs).flatten = bs := by
  induction bs with
  | nil => rfl
  | cons b bs ih =>
    by_cases h : last b
    · rw [frames_cons_of_last h, flatten_cons, ih]
      rfl
    · cases hbs : frames last bs with
      | nil =>
        rw [hbs] at ih
        rw [frames, if_neg h, hbs, ← ih]
        rfl
      | cons f fs =>
        rw [frames_cons_of_not_last h hbs, flatten_cons, cons_append, ← flatten_cons, ← hbs, ih]

theorem frames_ne_nil (h : bs ≠ []) : frames last bs ≠ [] := by
  intro hnil
  have hflat : (frames last bs).flatten = bs := flatten_frames bs
  rw [hnil] at hflat
  exact h hflat.symm

theorem unfinished_concat (bs : List α) (b : α) : unfinished last (bs ++ [b]) = !last b := by
  rw [unfinished, getLast?_append]
  rfl

theorem unfinished_of_append {xs ys : List α} (h : unfinished last (xs ++ ys) = false) :
    unfinished last ys = false := by
  cases ys with
  | nil => rfl
  | cons y ys => rwa [unfinished, getLast?_append_of_ne_nil _ (cons_ne_nil y ys)] at h

/-- A beat after a finished frame starts a frame. -/
theorem frames_concat_of_finished (h : unfinished last bs = false) (b : α) :
    frames last (bs ++ [b]) = frames last bs ++ [[b]] := by
  induction bs with
  | nil => cases hb : last b <;> simp [frames, hb]
  | cons x xs ih =>
    cases xs with
    | nil =>
      have hx : last x := by simpa [unfinished] using h
      rw [cons_append, frames_cons_of_last hx, frames_cons_of_last hx]
      cases hb : last b <;> simp [frames, hb]
    | cons y ys =>
      have hys := ih h
      by_cases hx : last x
      · rw [cons_append, frames_cons_of_last hx, hys, frames_cons_of_last hx]
        rfl
      · have hne : frames last (y :: ys) ≠ [] := frames_ne_nil (cons_ne_nil y ys)
        obtain ⟨f, fs, hf⟩ := exists_cons_of_ne_nil hne
        rw [hf] at hys
        rw [cons_append, frames_cons_of_not_last hx hys, frames_cons_of_not_last hx hf]
        rfl

/-- A beat after an unfinished frame belongs to it. -/
theorem frames_concat_of_unfinished (h : unfinished last bs) (b : α) :
    ∃ fs f, frames last bs = fs ++ [f] ∧ frames last (bs ++ [b]) = fs ++ [f ++ [b]] := by
  induction bs with
  | nil => cases h
  | cons x xs ih =>
    cases xs with
    | nil =>
      have hx : ¬ last x := by simpa [unfinished] using h
      refine ⟨[], [x], by simp [frames, hx], ?_⟩
      cases hb : last b <;> simp [frames, hx, hb]
    | cons y ys =>
      obtain ⟨fs, f, hf, hf'⟩ := ih h
      by_cases hx : last x
      · refine ⟨[x] :: fs, f, ?_, ?_⟩
        · rw [frames_cons_of_last hx, hf]
          rfl
        · rw [cons_append, frames_cons_of_last hx, hf']
          rfl
      · cases fs with
        | nil =>
          exact ⟨[], x :: f, frames_cons_of_not_last hx hf, frames_cons_of_not_last hx hf'⟩
        | cons g gs =>
          exact ⟨(x :: g) :: gs, f, frames_cons_of_not_last hx hf, frames_cons_of_not_last hx hf'⟩

/-- A frame whose last beat is its only one that says so. -/
def Complete (last : α → Bool) (f : List α) : Prop :=
  ∃ bs b, f = bs ++ [b] ∧ last b ∧ ∀ x ∈ bs, ¬ last x

theorem frames_append_of_complete {f : List α} (hf : Complete last f) (bs : List α) :
    frames last (f ++ bs) = f :: frames last bs := by
  obtain ⟨xs, b, rfl, hb, hxs⟩ := hf
  induction xs with
  | nil => exact frames_cons_of_last hb bs
  | cons x xs ih =>
    obtain ⟨hx, hxs⟩ := forall_mem_cons.mp hxs
    exact frames_cons_of_not_last hx (ih hxs)

section

variable (hfs : ∀ f ∈ fs, Complete last f)
include hfs

theorem frames_flatten_append (bs : List α) :
    frames last (fs.flatten ++ bs) = fs ++ frames last bs := by
  induction fs with
  | nil => rfl
  | cons f fs ih =>
    obtain ⟨hf, hfs⟩ := forall_mem_cons.mp hfs
    rw [flatten_cons, append_assoc, frames_append_of_complete hf, ih hfs]
    rfl

theorem frames_flatten : frames last fs.flatten = fs := by
  have happend := frames_flatten_append hfs []
  rwa [append_nil, frames, append_nil] at happend

theorem unfinished_flatten : unfinished last fs.flatten = false := by
  rcases eq_nil_or_concat' fs with rfl | ⟨fs, f, rfl⟩
  · rfl
  · obtain ⟨xs, b, rfl, hb, _⟩ := hfs f (mem_append_right _ (mem_singleton_self f))
    rw [flatten_append, flatten_singleton, ← append_assoc, unfinished_concat, hb]
    rfl

end

theorem frames_of_no_last (hbs : ∀ b ∈ bs, ¬ last b) :
    frames last bs = if bs = [] then [] else [bs] := by
  induction bs with
  | nil => rfl
  | cons b bs ih =>
    obtain ⟨hb, hrest⟩ := forall_mem_cons.mp hbs
    cases bs with
    | nil => simp [frames, hb]
    | cons b' bs => exact frames_cons_of_not_last hb (ih hrest)

theorem forall_mem_concat {P : α → Prop} (hbs : ∀ x ∈ bs, P x) (hb : P b) : ∀ x ∈ bs ++ [b], P x :=
  forall_mem_append.mpr ⟨hbs, forall_mem_singleton.mpr hb⟩

theorem Complete.concat (hbs : ∀ b ∈ bs, ¬ last b) (hb : last b) : Complete last (bs ++ [b]) :=
  ⟨bs, b, rfl, hb, hbs⟩

theorem eq_nil_of_finished (hbs : ∀ b ∈ bs, ¬ last b) (h : unfinished last bs = false) :
    bs = [] := by
  rcases eq_nil_or_concat' bs with hnil | ⟨xs, b, rfl⟩
  · exact hnil
  · rw [unfinished_concat, Bool.not_eq_false'] at h
    exact absurd h (hbs b (mem_append_right _ (mem_singleton_self b)))

/-- Between two frames, what was sent of a stream of complete frames and an unfinished one are
some of the complete frames. -/
theorem eq_flatten_take_of_finished {cur : List α} (hfs : ∀ f ∈ fs, Complete last f)
    (hcur : ∀ b ∈ cur, ¬ last b) (hpre : bs <+: fs.flatten ++ cur)
    (h : unfinished last bs = false) : ∃ n, bs = (fs.take n).flatten := by
  induction fs generalizing bs with
  | nil =>
    refine ⟨0, eq_nil_of_finished (fun b hb => hcur b ?_) h⟩
    exact hpre.subset hb
  | cons f fs ih =>
    obtain ⟨⟨xs, b, rfl, _, hxs⟩, hrest⟩ := forall_mem_cons.mp hfs
    rw [flatten_cons, append_assoc] at hpre
    rcases prefix_or_prefix_of_prefix hpre (prefix_append _ _) with
      hpre | ⟨ys, rfl⟩
    · rcases prefix_concat_iff.mp hpre with rfl | hpre
      · exact ⟨1, by simp⟩
      · exact ⟨0, eq_nil_of_finished (fun y hy => hxs y (hpre.subset hy)) h⟩
    · rw [prefix_append_right_inj] at hpre
      obtain ⟨n, rfl⟩ := ih hrest hpre (unfinished_of_append h)
      exact ⟨n + 1, by simp⟩

/-- A stream of frames of one beat. -/
theorem frames_of_all_last (h : ∀ b ∈ bs, last b) : frames last bs = bs.map fun b => [b] := by
  induction bs with
  | nil => rfl
  | cons b bs ih =>
    obtain ⟨hb, hbs⟩ := forall_mem_cons.mp h
    rw [frames_cons_of_last hb, ih hbs]
    rfl

end Frames

end Synchronous
