import Alkali.Library.Synchronous

/-!
# The module `ctrl_mux`

A multiplexer of a controller has a queue for each source. The selector token at its input
chooses the source of the next frame; it is taken with the last beat of the frame.
-/

namespace Alkali.Fpga

open Synchronous List

/-- The registers of `ctrl_mux`, of its `axis_mux` and the queue of selector tokens that
`axis_replication` has before it. -/
structure CtrlMux (sources : Nat) (β : Type) where
  selector : Fifo.Held (Fin sources)
  fifo : Fin sources → List β
  select : Fin sources
  frame : Bool
  /-- `s_axis_tready_reg` -/
  tready : Fin sources → Bool
  /-- The beats in the output registers of `axis_mux`. -/
  out : List β

namespace CtrlMux

/-- The inputs of a multiplexer, and what its queues do in a cycle. -/
structure Inputs (sources : Nat) (β : Type) where
  port : Fin sources → Fifo.Port β
  replicaReady : Bool
  load : Bool
  /-- `m_axis_tready_int_early` -/
  early : Bool
  shows : Bool
  ready : Bool

variable {sources : Nat} {β : Type}

section Signals

variable (last : β → Bool) (m : CtrlMux sources β) (i : Inputs sources β)

def front (rid : Fin sources) : Option β := Fifo.front (i.port rid).shows (m.fifo rid)

/-- The beat that is transferred from the source in `select_reg`. -/
def current : Option β := if m.tready m.select then front m i m.select else none

/-- `m_axis_int`. -/
def entered : Option β := if m.frame then current m i else none

/-- `s_selector_tready`: a last beat is transferred. -/
def selectorReady : Bool :=
  decide (∃ rid, m.tready rid ∧ (front m i rid).any last)

/-- A frame starts with the source of the token, as soon as it has a beat. -/
def starting : Option (Fin sources) :=
  if m.frame then none else m.selector.shown.filter fun rid => (front m i rid).isSome

def frameNext : Bool := (starting m i).isSome || (m.frame && !(current m i).any last)

def selectNext : Fin sources := (starting m i).getD m.select

/-- `m_val_axis`. -/
def output : Option β := Fifo.front i.shows m.out

/-- The registers after a cycle in which a token may come in. -/
def next (token : Option (Fin sources)) : CtrlMux sources β where
  selector := m.selector.next (selectorReady last m i) i.load token
  fifo rid := Fifo.next (i.port rid).shows (m.tready rid) (m.fifo rid) (i.port rid).pushed
  select := selectNext m i
  frame := frameNext last m i
  tready rid := i.early && frameNext last m i && decide (rid = selectNext m i)
  out := Fifo.next i.shows i.ready m.out (entered m i)

end Signals

/-- The registers after a reset. -/
def init (first : Fin sources) : CtrlMux sources β where
  selector := ⟨none, []⟩
  fifo _ := []
  select := first
  frame := false
  tready _ := false
  out := []

/-! ## What a multiplexer is for -/

/-- The frames among some that belong to a source. -/
def ofSource (rid : Fin sources) (fs : List (List β)) (tokens : List (Fin sources)) :
    List (List β) :=
  ((fs.zip tokens).filter fun p => p.2 = rid).map Prod.fst

variable (last : β → Bool)

/-- Between two frames: each frame that was sent has a token, and those with the tokens of a
source are the first frames of this source. -/
def Forwards (tokens : List (Fin sources)) (ins : Fin sources → List β) (outs : List β) : Prop :=
  unfinished last outs = false → (frames last outs).length ≤ tokens.length ∧
    ∀ rid, ofSource rid (frames last outs) tokens <+: frames last (ins rid)

variable {fs : List (List β)} {tokens : List (Fin sources)}

theorem ofSource_concat (h : fs.length = tokens.length) (rid t : Fin sources) (f : List β) :
    ofSource rid (fs ++ [f]) (tokens ++ [t]) =
      ofSource rid fs tokens ++ if t = rid then [f] else [] := by
  rw [ofSource, zip_append h, filter_append, map_append, ofSource]
  by_cases ht : t = rid <;> simp [ht]

theorem ofSource_append_right (h : fs.length = tokens.length) (rid : Fin sources)
    (rest : List (Fin sources)) : ofSource rid fs (tokens ++ rest) = ofSource rid fs tokens := by
  have hzip : (fs ++ []).zip (tokens ++ rest) = fs.zip tokens ++ [].zip rest :=
    zip_append h
  rw [append_nil] at hzip
  rw [ofSource, hzip, zip_nil_left, append_nil, ofSource]

theorem ofSource_take (rid : Fin sources) (fs : List (List β))
    (tokens : List (Fin sources)) (n : Nat) :
    ofSource rid (fs.take n) tokens <+: ofSource rid fs tokens := by
  have hzip : (fs.take n).zip tokens = (fs.zip tokens).take n := by
    induction fs generalizing tokens n with
    | nil => simp
    | cons f fs ih => cases n <;> cases tokens <;> simp_all
  rw [ofSource, hzip]
  exact ((List.take_prefix _ _).filter _).map _

/-! ## One cycle -/

/-- The registers of the multiplexer and the beats and tokens that went through it: `fs` are
the frames that were forwarded with the tokens `taken`, `cur` is the beginning of one. -/
structure Follows (taken : List (Fin sources)) (fs : List (List β)) (cur : List β)
    (tokens : List (Fin sources)) (ins : Fin sources → List β) (outs : List β)
    (m : CtrlMux sources β) : Prop where
  tokens : tokens = taken ++ m.selector.contents
  length : fs.length = taken.length
  complete : ∀ f ∈ fs, Complete last f
  unfinished : ∀ b ∈ cur, ¬ last b
  outs : outs ++ m.out = fs.flatten ++ cur
  ins : ∀ rid, ins rid = (ofSource rid fs taken).flatten ++
    (if m.select = rid then cur else []) ++ m.fifo rid
  idle : m.frame = false → cur = []
  shown : m.frame → m.selector.shown = some m.select
  tready : ∀ rid, m.tready rid → m.frame ∧ rid = m.select

section Step

variable {last : β → Bool} {taken tokens : List (Fin sources)} {fs : List (List β)}
  {cur outs : List β} {ins : Fin sources → List β} {m : CtrlMux sources β}
  {i : Inputs sources β}

variable (h : Follows last taken fs cur tokens ins outs m)
include h

/-- Only the selected source can lose a beat. -/
theorem Follows.popped_fifo (rid : Fin sources) :
    Fifo.popped (i.port rid).shows (m.tready rid) (m.fifo rid) =
      if m.select = rid then current m i else none := by
  by_cases hrid : m.select = rid
  · subst hrid
    rw [if_pos rfl]
    rfl
  · have htready : m.tready rid = false :=
      Bool.eq_false_iff.mpr fun htready => hrid (h.tready rid htready).2.symm
    rw [if_neg hrid, Fifo.popped, htready]
    rfl

theorem Follows.selectorReady_eq : selectorReady last m i = (current m i).any last := by
  rw [Bool.eq_iff_iff, selectorReady, decide_eq_true_eq, current]
  constructor
  · rintro ⟨rid, htready, hlast⟩
    obtain rfl := (h.tready rid htready).2
    rwa [if_pos htready]
  · intro hlast
    by_cases htready : m.tready m.select
    · rw [if_pos htready] at hlast
      exact ⟨m.select, htready, hlast⟩
    · rw [if_neg htready] at hlast
      cases hlast

variable {b : β}

theorem Follows.frame_of_current (hb : current m i = some b) : m.frame := by
  rw [current] at hb
  split at hb
  · next htready => exact (h.tready _ htready).1
  · cases hb

theorem Follows.entered_eq : entered m i = current m i := by
  rw [entered]
  split
  · rfl
  · next hframe =>
      cases hb : current m i with
      | none => rfl
      | some b => exact absurd (h.frame_of_current hb) hframe

omit h

theorem starting_of_frame (hframe : m.frame) : starting m i = none := if_pos hframe

theorem starting_of_not_frame (hframe : ¬ m.frame) {rid : Fin sources}
    (hrid : starting m i = some rid) : m.selector.shown = some rid := by
  rw [starting, if_neg hframe] at hrid
  exact (Option.filter_eq_some_iff.mp hrid).1

section

variable (h : Follows last taken fs cur tokens ins outs m)
include h

variable (token : Option (Fin sources))

theorem Follows.tokens_next :
    tokens ++ token.toList = taken ++ (m.selector.popped ((current m i).any last)).toList ++
      (next last m i token).selector.contents := by
  have hkept := m.selector.popped_append_contents_next ((current m i).any last) i.load token
  rw [next, h.selectorReady_eq, h.tokens, append_assoc, ← hkept, append_assoc]

theorem Follows.outs_next :
    outs ++ (Fifo.popped i.shows i.ready m.out).toList ++ (next last m i token).out =
      fs.flatten ++ cur ++ (current m i).toList := by
  rw [next, h.entered_eq, append_assoc, Fifo.popped_append_next, ← append_assoc, h.outs]

theorem Follows.ins_next (rid : Fin sources) :
    ins rid ++ (i.port rid).pushed.toList = (ofSource rid fs taken).flatten ++
      (if m.select = rid then cur else []) ++
      (if m.select = rid then current m i else none).toList ++ (next last m i token).fifo rid := by
  rw [← h.popped_fifo]
  exact Fifo.conserve (h.ins rid) _ _ _

omit h in
theorem tready_next {token : Option (Fin sources)} {rid : Fin sources}
    (htready : (next last m i token).tready rid) :
    (next last m i token).frame ∧ rid = (next last m i token).select := by
  simp only [next, Bool.and_eq_true, decide_eq_true_eq] at htready
  exact ⟨htready.1.2, htready.2⟩

/-- No beat is transferred; a frame may start. -/
theorem Follows.step_none (hcurrent : current m i = none) (token : Option (Fin sources)) :
    Follows last taken fs cur (tokens ++ token.toList)
      (fun rid => ins rid ++ (i.port rid).pushed.toList)
      (outs ++ (Fifo.popped i.shows i.ready m.out).toList) (next last m i token) where
  tokens := by
    rw [h.tokens_next, hcurrent]
    exact congrArg (· ++ _) (append_nil _)
  length := h.length
  complete := h.complete
  unfinished := h.unfinished
  outs := by rw [h.outs_next, hcurrent, Option.toList_none, append_nil]
  ins rid := by
    rw [h.ins_next token, hcurrent, ite_self, Option.toList_none, append_nil]
    -- a frame that starts has no beats yet
    cases hframe : m.frame with
    | true => rw [next, selectNext, starting_of_frame hframe]; rfl
    | false => simp [h.idle hframe, next]
  idle hidle := by
    refine h.idle (Bool.eq_false_iff.mpr fun hframe => ?_)
    simp [next, frameNext, hcurrent, hframe] at hidle
  shown hnext := by
    have hrdy : selectorReady last m i = false := by rw [h.selectorReady_eq, hcurrent]; rfl
    cases hframe : m.frame with
    | true =>
      rw [next, hrdy, selectNext, starting_of_frame hframe]
      exact Fifo.Held.shown_next (h.shown hframe) _ _
    | false =>
      rw [next, frameNext, hframe, Bool.false_and, Bool.or_false] at hnext
      obtain ⟨rid, hrid⟩ := Option.isSome_iff_exists.mp hnext
      rw [next, hrdy, selectNext, hrid]
      exact Fifo.Held.shown_next (starting_of_not_frame (by simp [hframe]) hrid) _ _
  tready _ := tready_next

/-- A beat is transferred that does not end its frame. -/
theorem Follows.step_beat
    (hb : current m i = some b) (hlast : ¬ last b) (token : Option (Fin sources)) :
    Follows last taken fs (cur ++ [b]) (tokens ++ token.toList)
      (fun rid => ins rid ++ (i.port rid).pushed.toList)
      (outs ++ (Fifo.popped i.shows i.ready m.out).toList) (next last m i token) := by
  have hframe := h.frame_of_current hb
  have hrdy : selectorReady last m i = false := by
    rw [h.selectorReady_eq, hb, Option.any_some, Bool.eq_false_iff.mpr hlast]
  have hselect : selectNext m i = m.select := by rw [selectNext, starting_of_frame hframe]; rfl
  have hnext : frameNext last m i := by simp [frameNext, hb, hlast, hframe]
  refine ⟨?_, h.length, h.complete, forall_mem_concat h.unfinished hlast, ?_, ?_, ?_, ?_,
    fun _ => tready_next⟩
  · rw [h.tokens_next, ← h.selectorReady_eq, hrdy]
    exact congrArg (· ++ _) (append_nil _)
  · rw [h.outs_next, hb, append_assoc]
    rfl
  · intro rid
    rw [h.ins_next token, hb]
    simp only [next, hselect]
    split <;> simp
  · intro hidle
    rw [next, hnext] at hidle
    cases hidle
  · intro _
    rw [next, hrdy, hselect]
    exact Fifo.Held.shown_next (h.shown hframe) _ _

/-- The last beat of a frame is transferred, and its token is taken. -/
theorem Follows.step_last
    (hb : current m i = some b) (hlast : last b) (token : Option (Fin sources)) :
    Follows last (taken ++ [m.select]) (fs ++ [cur ++ [b]]) [] (tokens ++ token.toList)
      (fun rid => ins rid ++ (i.port rid).pushed.toList)
      (outs ++ (Fifo.popped i.shows i.ready m.out).toList) (next last m i token) := by
  have hframe := h.frame_of_current hb
  have hnext : frameNext last m i = false := by
    simp [frameNext, starting_of_frame hframe, hb, hlast]
  refine ⟨?_, ?_, forall_mem_concat h.complete (.concat h.unfinished hlast), nofun, ?_, ?_,
    fun _ => rfl, ?_, fun _ => tready_next⟩
  · rw [h.tokens_next, hb, Option.any_some, hlast, Fifo.Held.popped, if_pos rfl, h.shown hframe]
    rfl
  · rw [length_append, length_append, h.length]
    rfl
  · rw [h.outs_next, hb]
    simp
  · intro rid
    rw [h.ins_next token, hb, ofSource_concat h.length, ite_self]
    split <;> simp
  · intro hframe'
    rw [next, hnext] at hframe'
    cases hframe'

theorem Follows.step (i : Inputs sources β) (token : Option (Fin sources)) :
    ∃ taken fs cur, Follows last taken fs cur (tokens ++ token.toList)
      (fun rid => ins rid ++ (i.port rid).pushed.toList)
      (outs ++ (Fifo.popped i.shows i.ready m.out).toList) (next last m i token) := by
  cases hb : current m i with
  | none => exact ⟨_, _, _, h.step_none hb token⟩
  | some b =>
    by_cases hlast : last b
    · exact ⟨_, _, _, h.step_last hb hlast token⟩
    · exact ⟨_, _, _, h.step_beat hb hlast token⟩

theorem Follows.forwards : Forwards last tokens ins outs := by
  intro hfin
  obtain ⟨n, rfl⟩ := eq_flatten_take_of_finished h.complete h.unfinished
    ⟨m.out, h.outs⟩ hfin
  rw [frames_flatten fun f hf => h.complete f (mem_of_mem_take hf)]
  constructor
  · rw [h.tokens, length_append, ← h.length]
    exact (length_take_le' n fs).trans (Nat.le_add_right _ _)
  · intro rid
    have hcompl : ∀ f ∈ ofSource rid fs taken, Complete last f := by
      intro f hf
      obtain ⟨p, hp, rfl⟩ := mem_map.mp hf
      exact h.complete _ (of_mem_zip (mem_of_mem_filter hp)).1
    refine (ofSource_take rid fs tokens n).trans ?_
    rw [h.tokens, ofSource_append_right h.length, h.ins, append_assoc, frames_flatten_append hcompl]
    exact prefix_append _ _

end

end Step

theorem follows_init (first : Fin sources) :
    Follows last [] [] [] [] (fun _ => []) [] (init first) where
  tokens := rfl
  length := rfl
  complete := nofun
  unfinished := nofun
  outs := rfl
  ins rid := by rw [ite_self]; rfl
  idle _ := rfl
  shown := nofun
  tready _ := nofun

end CtrlMux

end Alkali.Fpga
