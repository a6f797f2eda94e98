import Alkali.Fpga.Guard

/-!
# The modules `select` and `ifelse_demux`

Both have a queue for conditions and two for values, and forward the first entry of one of
the two. The ready signal of the queue of the first value is that of the second one: the
queue loses an entry if the second value is late.
-/

namespace Alkali.Fpga.Select

open Synchronous List Circuit Fifo Option

/-- The contents of `cond_fifo`, `if_fifo` and `else_fifo`. -/
structure Regs (condWidth : Nat) (α : Type) where
  cond : List (BitVec condWidth)
  ifFifo : List α
  elseFifo : List α

/-- The inputs of the three queues and `m_val_axis_tready`. -/
structure Inputs (condWidth : Nat) (α : Type) where
  cond : Fifo.Port (BitVec condWidth)
  ifVal : Fifo.Port α
  elseVal : Fifo.Port α
  ready : Bool

variable {condWidth : Nat} {α : Type}

/-- A condition other than zero chooses the first value. -/
def choice (cond : BitVec condWidth) (a b : α) : α := if cond ≠ 0 then a else b

section Signals

variable (s : Regs condWidth α) (i : Inputs condWidth α)

def condFront : Option (BitVec condWidth) := front i.cond.shows s.cond

def ifFront : Option α := front i.ifVal.shows s.ifFifo

def elseFront : Option α := front i.elseVal.shows s.elseFifo

/-- `fifo_cond_axis_tready`. -/
def condReady : Bool := i.ready && (ifFront s i).isSome && (elseFront s i).isSome

/-- `fifo_else_axis_tready`. It is connected to `if_fifo` too, and nothing reads
`fifo_if_axis_tready`. -/
def elseReady : Bool := i.ready && (condFront s i).isSome && (ifFront s i).isSome

/-- `m_val_axis`: valid if the three queues show an entry. -/
def chosen : Option α :=
  (condFront s i).bind fun cond =>
    (ifFront s i).bind fun a => (elseFront s i).map fun b => choice cond a b

/-- `idle` is what the data are while the receiver is not ready. -/
def output (idle : α → α) : Option α :=
  if i.ready then chosen s i else (chosen s i).map idle

/-- The queues after the cycle; the values may be wrapped on their way in. -/
def next (wrap : α → α) : Regs condWidth α where
  cond := Fifo.next i.cond.shows (condReady s i) s.cond i.cond.pushed
  ifFifo := Fifo.next i.ifVal.shows (elseReady s i) s.ifFifo (i.ifVal.pushed.map wrap)
  elseFifo := Fifo.next i.elseVal.shows (elseReady s i) s.elseFifo (i.elseVal.pushed.map wrap)

end Signals

def circuit (condWidth : Nat) (wrap idle : α → α) :
    Circuit (Regs condWidth α) (Inputs condWidth α) (Option α) where
  init := ⟨[], [], []⟩
  output s i := output s i idle
  next s i := next s i wrap

/-- The module `select`. -/
def select (condWidth valWidth : Nat) :
    Circuit (Regs condWidth (BitVec valWidth)) (Inputs condWidth (BitVec valWidth))
      (Option (BitVec valWidth)) :=
  circuit condWidth id id

/-- The module `ifelse_demux`, which drives its data only if they are transferred. -/
def ifelseDemux (ifStream : Bool) (condWidth w k : Nat) :
    Circuit (Regs condWidth (Beat w k)) (Inputs condWidth (Beat w k)) (Option (Beat w k)) :=
  circuit condWidth (Beat.wrapped ifStream) fun _ => ⟨0, 0, false⟩

/-! ## What the modules are for -/

def acceptedCond (i : Inputs condWidth α) (_ : Option α) : Option (BitVec condWidth) :=
  i.cond.pushed

def acceptedIf (wrap : α → α) (i : Inputs condWidth α) (_ : Option α) : Option α :=
  i.ifVal.pushed.map wrap

def acceptedElse (wrap : α → α) (i : Inputs condWidth α) (_ : Option α) : Option α :=
  i.elseVal.pushed.map wrap

def sent (i : Inputs condWidth α) (o : Option α) : Option α := if i.ready then o else none

/-- The choices of a list of conditions: a condition of one chooses the first value. -/
def choices {β : Type} (conds : List (BitVec condWidth)) (as bs : List β) : List β :=
  (conds.zip (as.zip bs)).map fun p => if p.1 = 1 then p.2.1 else p.2.2

/-- Between two frames of the output: the frames that were sent are the choices, and each
input has lost as many frames. -/
def Chooses (last : α → Bool) (conds : List (BitVec condWidth)) (as bs outs : List α)
    (s : Regs condWidth α) : Prop :=
  unfinished last outs = false → let n := (frames last outs).length
    frames last outs = (choices conds (frames last as) (frames last bs)).take n ∧
      conds = conds.take n ++ s.cond ∧
      as = ((frames last as).take n).flatten ++ s.ifFifo ∧
      bs = ((frames last bs).take n).flatten ++ s.elseFifo

/-- The second value is not late, conditions are zero or one, and frames have one beat. -/
structure Aligned (last : α → Bool) (wrap : α → α) (s : Regs condWidth α)
    (i : Inputs condWidth α) : Prop where
  notLate : i.ready → (condFront s i).isSome → (ifFront s i).isSome → (elseFront s i).isSome
  bit : ∀ cond ∈ i.cond.pushed, cond ≠ 0 ↔ cond = 1
  lastIf : ∀ a ∈ i.ifVal.pushed, last (wrap a)
  lastElse : ∀ b ∈ i.elseVal.pushed, last (wrap b)

/-! ## Lists of choices -/

section Choices

variable {β γ : Type} {conds : List (BitVec condWidth)} {as bs : List β}

theorem length_choices (ha : as.length = conds.length) (hb : bs.length = conds.length) :
    (choices conds as bs).length = conds.length := by
  rw [choices, length_map, length_zip, length_zip, ha, hb, Nat.min_self, Nat.min_self]

theorem choices_append (ha : as.length = conds.length) (hb : bs.length = conds.length)
    (conds' : List (BitVec condWidth)) (as' bs' : List β) :
    choices (conds ++ conds') (as ++ as') (bs ++ bs') =
      choices conds as bs ++ choices conds' as' bs' := by
  have hzip : (as.zip bs).length = conds.length := by rw [length_zip, ha, hb, Nat.min_self]
  rw [choices, zip_append (ha.trans hb.symm), zip_append hzip.symm, map_append]
  rfl

theorem choices_map (f : β → γ) (conds : List (BitVec condWidth)) (as bs : List β) :
    choices conds (as.map f) (bs.map f) = (choices conds as bs).map f := by
  induction conds generalizing as bs with
  | nil => rfl
  | cons cond conds ih =>
    cases as <;> cases bs <;> simp_all [choices, apply_ite f]

theorem mem_choices {x : β} (h : x ∈ choices conds as bs) : x ∈ as ∨ x ∈ bs := by
  obtain ⟨p, hp, rfl⟩ := mem_map.mp h
  have hmem := (of_mem_zip hp).2
  split
  · exact Or.inl (of_mem_zip hmem).1
  · exact Or.inr (of_mem_zip hmem).2

end Choices

/-! ## One cycle -/

variable {last : α → Bool} {wrap : α → α} {s : Regs condWidth α}
variable {i : Inputs condWidth α} {h : List (Inputs condWidth α × Option α)}

/-- In a cycle either one entry of each queue is taken, or none. -/
theorem step_cases (hok : Aligned last wrap s i) (idle : α → α) :
    (∃ cond a b, popped i.cond.shows (condReady s i) s.cond = some cond ∧
      popped i.ifVal.shows (elseReady s i) s.ifFifo = some a ∧
      popped i.elseVal.shows (elseReady s i) s.elseFifo = some b ∧
      sent i (output s i idle) = some (choice cond a b)) ∨
    popped i.cond.shows (condReady s i) s.cond = none ∧
      popped i.ifVal.shows (elseReady s i) s.ifFifo = none ∧
      popped i.elseVal.shows (elseReady s i) s.elseFifo = none ∧
      sent i (output s i idle) = none := by
  have hlate := hok.notLate
  rcases eq_none_or_eq_some (condFront s i) with hc | ⟨cond, hc⟩ <;>
    rcases eq_none_or_eq_some (ifFront s i) with ha | ⟨a, ha⟩ <;>
    rcases eq_none_or_eq_some (elseFront s i) with hb | ⟨b, hb⟩ <;>
    cases hr : i.ready <;>
    simp_all [popped, condReady, elseReady, sent, output, chosen, condFront, ifFront, elseFront]

/-! ## Runs -/

/-- What was taken from the queues, and what is known of what came in. -/
structure Inv (last : α → Bool) (wrap : α → α) (h : List (Inputs condWidth α × Option α))
    (s : Regs condWidth α) : Prop where
  taken : ∃ conds as bs, transfers acceptedCond h = conds ++ s.cond ∧
    transfers (acceptedIf wrap) h = as ++ s.ifFifo ∧
    transfers (acceptedElse wrap) h = bs ++ s.elseFifo ∧
    as.length = conds.length ∧ bs.length = conds.length ∧
    transfers sent h = choices conds as bs
  bit : ∀ cond ∈ transfers acceptedCond h, cond ≠ 0 ↔ cond = 1
  lastIf : ∀ a ∈ transfers (acceptedIf wrap) h, last a
  lastElse : ∀ b ∈ transfers (acceptedElse wrap) h, last b

theorem inv_step (hinv : Inv last wrap h s) (hok : Aligned last wrap s i) (idle : α → α) :
    Inv last wrap (h ++ [(i, output s i idle)]) (next s i wrap) := by
  have hbit : ∀ cond ∈ transfers acceptedCond (h ++ [(i, output s i idle)]),
      cond ≠ 0 ↔ cond = 1 := forall_transfers_concat.mpr ⟨hinv.bit, hok.bit⟩
  refine ⟨?_, hbit, ?_, ?_⟩
  · obtain ⟨conds, as, bs, hconds, has, hbs, hlenA, hlenB, hsent⟩ := hinv.taken
    have hconds' := conserve hconds i.cond.shows (condReady s i) i.cond.pushed
    have has' := conserve has i.ifVal.shows (elseReady s i) (i.ifVal.pushed.map wrap)
    have hbs' := conserve hbs i.elseVal.shows (elseReady s i) (i.elseVal.pushed.map wrap)
    simp only [transfers_concat, acceptedCond, acceptedIf, acceptedElse] at hbit ⊢
    rcases step_cases hok idle with ⟨cond, a, b, hc, ha, hb, hout⟩ | ⟨hc, ha, hb, hout⟩
    · rw [hc, toList_some] at hconds'
      rw [ha, toList_some] at has'
      rw [hb, toList_some] at hbs'
      have hcond : cond ≠ 0 ↔ cond = 1 := by
        refine hbit cond ?_
        simp only [hconds', mem_append, mem_singleton, or_true, true_or]
      refine ⟨_, _, _, hconds', has', hbs', by simp [hlenA], by simp [hlenB], ?_⟩
      rw [hout, choices_append hlenA hlenB, hsent, choice]
      simp only [hcond]
      rfl
    · rw [hc, toList_none, append_nil] at hconds'
      rw [ha, toList_none, append_nil] at has'
      rw [hb, toList_none, append_nil] at hbs'
      refine ⟨_, _, _, hconds', has', hbs', hlenA, hlenB, ?_⟩
      rw [hout, toList_none, append_nil, hsent]
  · exact forall_transfers_concat.mpr ⟨hinv.lastIf, forall_mem_map.mpr hok.lastIf⟩
  · exact forall_transfers_concat.mpr ⟨hinv.lastElse, forall_mem_map.mpr hok.lastElse⟩

theorem Inv.chooses (hinv : Inv last wrap h s) :
    Chooses last (transfers acceptedCond h) (transfers (acceptedIf wrap) h)
      (transfers (acceptedElse wrap) h) (transfers sent h) s := by
  intro _
  obtain ⟨conds, as, bs, hconds, has, hbs, hlenA, hlenB, hsent⟩ := hinv.taken
  have hlast : ∀ x ∈ transfers sent h, last x := by
    intro x hx
    rw [hsent] at hx
    rcases mem_choices hx with hx | hx
    · exact hinv.lastIf x (has ▸ mem_append_left _ hx)
    · exact hinv.lastElse x (hbs ▸ mem_append_left _ hx)
  have hlen : (transfers sent h).length = conds.length := by
    rw [hsent, length_choices hlenA hlenB]
  -- every frame has one beat, so that frames and beats are counted alike
  simp only [frames_of_all_last hlast, frames_of_all_last hinv.lastIf,
    frames_of_all_last hinv.lastElse, length_map, hlen]
  refine ⟨?_, ?_, ?_, ?_⟩
  · rw [choices_map, hconds, has, hbs, choices_append hlenA hlenB, ← hsent, map_append,
      ← hlen, ← length_map, take_left]
  · rw [hconds, take_left]
  · rw [has, map_append, ← hlenA, ← length_map, take_left]
    simp [← flatMap_def]
  · rw [hbs, map_append, ← hlenB, ← length_map, take_left]
    simp [← flatMap_def]

theorem chooses_of_aligned (idle : α → α) {inputs : List (Inputs condWidth α)}
    (hok : (circuit condWidth wrap idle).Along (Aligned last wrap) inputs) :
    let h := (circuit condWidth wrap idle).trace inputs
    Chooses last (transfers acceptedCond h) (transfers (acceptedIf wrap) h)
      (transfers (acceptedElse wrap) h) (transfers sent h)
      ((circuit condWidth wrap idle).run inputs) := by
  refine (Circuit.invariant (P := Inv last wrap) ?_ ?_ hok).chooses
  · exact ⟨⟨[], [], [], rfl, rfl, rfl, rfl, rfl, rfl⟩, nofun, nofun, nofun⟩
  · exact fun _ _ _ hinv hok => inv_step hinv hok idle

/-- In every run in which the second value is never late, conditions are bits and frames have
one beat, the frames that are sent are the chosen ones. -/
theorem select_chooses (ifStream : Bool) (condWidth valWidth w k : Nat) :
    (∀ inputs, (select condWidth valWidth).Along (Aligned (fun _ => true) id) inputs →
      let h := (select condWidth valWidth).trace inputs
      Chooses (fun _ => true) (transfers acceptedCond h)
        (transfers (acceptedIf id) h) (transfers (acceptedElse id) h)
        (transfers sent h) ((select condWidth valWidth).run inputs)) ∧
    ∀ inputs, (ifelseDemux ifStream condWidth w k).Along
        (Aligned Beat.tlast (Beat.wrapped ifStream)) inputs →
      let h := (ifelseDemux ifStream condWidth w k).trace inputs
      Chooses Beat.tlast (transfers acceptedCond h)
        (transfers (acceptedIf (Beat.wrapped ifStream)) h)
        (transfers (acceptedElse (Beat.wrapped ifStream)) h)
        (transfers sent h) ((ifelseDemux ifStream condWidth w k).run inputs) :=
  ⟨fun _ => chooses_of_aligned id, fun _ => chooses_of_aligned _⟩

theorem select_chooses_second :
    let i : Inputs 1 (BitVec 8) := ⟨⟨some 0, true, false⟩, ⟨some 1, true, false⟩,
      ⟨some 2, true, false⟩, true⟩
    let j : Inputs 1 (BitVec 8) := ⟨⟨none, true, true⟩, ⟨none, true, true⟩,
      ⟨none, true, true⟩, true⟩
    transfers sent ((select 1 8).trace [i, j]) = [2] ∧
      Chooses (fun _ => true) [0] [1] [2] [2] ((select 1 8).run [i, j]) := by
  intro i j
  have hok : (select 1 8).Along (Aligned (fun _ => true) id) ([] ++ [i] ++ [j]) := by
    rw [along_concat, along_concat]
    exact ⟨⟨along_nil _, by constructor <;> decide⟩, by constructor <;> decide⟩
  exact ⟨rfl, (select_chooses true 1 8 8 1).1 [i, j] hok⟩

/-- A second value that is late makes `select` drop the first one, and `ifelse_demux` takes a
condition for each beat, so that it mixes frames of two beats. -/
theorem select_mixes :
    (let i₁ : Inputs 1 (BitVec 8) := ⟨⟨some 1, true, false⟩, ⟨some 1, true, false⟩,
        ⟨none, true, false⟩, true⟩
      let i₂ : Inputs 1 (BitVec 8) := ⟨⟨none, true, true⟩, ⟨some 3, true, true⟩,
        ⟨some 2, true, true⟩, true⟩
      let i₃ : Inputs 1 (BitVec 8) := ⟨⟨none, true, true⟩, ⟨none, true, true⟩,
        ⟨none, true, true⟩, true⟩
      let h := (select 1 8).trace [i₁, i₂, i₃]
      transfers sent h = [3] ∧ ¬ Chooses (fun _ => true) (transfers acceptedCond h)
          (transfers (acceptedIf id) h) (transfers (acceptedElse id) h)
          (transfers sent h) ((select 1 8).run [i₁, i₂, i₃])) ∧
    (let i₁ : Inputs 1 (Beat 8 1) := ⟨⟨some 1, true, true⟩, ⟨some ⟨10, 1, false⟩, true, true⟩,
        ⟨some ⟨20, 1, false⟩, true, true⟩, true⟩
      let i₂ : Inputs 1 (Beat 8 1) := ⟨⟨some 0, true, true⟩, ⟨some ⟨11, 1, true⟩, true, true⟩,
        ⟨some ⟨21, 1, true⟩, true, true⟩, true⟩
      let i₃ : Inputs 1 (Beat 8 1) := ⟨⟨none, true, true⟩, ⟨none, true, true⟩,
        ⟨none, true, true⟩, true⟩
      let h := (ifelseDemux true 1 8 1).trace [i₁, i₂, i₃]
      transfers sent h = [⟨10, 1, false⟩, ⟨21, 1, true⟩] ∧
        ¬ Chooses Beat.tlast (transfers acceptedCond h)
          (transfers (acceptedIf (Beat.wrapped true)) h)
          (transfers (acceptedElse (Beat.wrapped true)) h)
          (transfers sent h) ((ifelseDemux true 1 8 1).run [i₁, i₂, i₃])) := by
  unfold Chooses
  decide

end Alkali.Fpga.Select
