import Alkali.Dialect.Ops

/-!
# Buffers as references

`bufferToRef` gives a stage the operations on mutable buffers in place of those that make a new
version of a buffer. All versions become the first one. The pure operations that are left have
no users. A `select` between two versions, which the linearize pass puts in place of a
conditional, becomes one between references: the version that it does not choose was written
all the same.
-/

namespace Alkali.BufferToRef

open List Function

/-- The operations of a stage in value form. -/
inductive ValueOp
  | init (result : Value)
  | emitValue (result buffer value : Value)
  | emitBufferValue (result buffer other : Value)
  | extractValue (result output buffer : Value) (ty : Ty)
  | select (result condition trueBuffer falseBuffer : Value)
  | compute (mnemonic : String) (operands : List Value) (output : Value)
  | event (buffers operands : List Value)
  deriving DecidableEq, Repr

/-- The operations on references. -/
inductive RefOp
  | init (result : Value)
  | emit (buffer value : Value)
  | emitBuffer (buffer other : Value)
  | extract (output buffer : Value) (ty : Ty)
  | select (result condition trueBuffer falseBuffer : Value)
  | compute (mnemonic : String) (operands : List Value) (output : Value)
  | event (buffers operands : List Value)
  deriving DecidableEq, Repr

/-- An operation with the uses that were replaced before, and what its own result is replaced
by. -/
def rewrite (subst : Value → Value) : ValueOp → RefOp × (Value → Value)
  | .init r => (.init r, update subst r r)
  | .emitValue r b v => (.emit (subst b) v, update subst r (subst b))
  | .emitBufferValue r b o => (.emitBuffer (subst b) (subst o), update subst r (subst b))
  | .extractValue r out b ty => (.extract out (subst b) ty, update subst r (subst b))
  | .select r c a b => (.select r c (subst a) (subst b), update subst r r)
  | .compute m vs out => (.compute m vs out, subst)
  | .event bs vs => (.event (bs.map subst) vs, subst)

/-- The walk over a stage. -/
def bufferToRef (subst : Value → Value) : List ValueOp → List RefOp
  | [] => []
  | op :: ops => (rewrite subst op).1 :: bufferToRef (rewrite subst op).2 ops

/-! ## Meaning -/

/-- Buffers and other values, and what the operations do with them. -/
structure Interp (B D : Type) where
  empty : B
  emit : B → D → B
  emitBuffer : B → B → B
  extract : Ty → B → D × B
  truth : D → Bool
  compute : String → List D → D

/-- What is extracted, and what events get. -/
inductive Effect (B D : Type)
  | extracted (d : D)
  | event (buffers : List B) (operands : List D)
  deriving DecidableEq

/-- The versions of the buffers, and the other values. -/
structure State (B D : Type) where
  bufs : Value → B
  data : Value → D

/-- The buffer that a value refers to, the buffers, and the other values. A buffer has the number
of the value that it was made for. -/
structure RefState (B D : Type) where
  refs : Value → Value
  bufs : Value → B
  data : Value → D

variable {B D : Type} (I : Interp B D)

namespace State

variable (s : State B D)

def setBuf (v : Value) (b : B) : State B D := { s with bufs := update s.bufs v b }

def setData (v : Value) (d : D) : State B D := { s with data := update s.data v d }

/-- Every value refers to a buffer of its own. -/
def toRef : RefState B D := ⟨id, s.bufs, s.data⟩

end State

namespace RefState

variable (s : RefState B D)

def read (v : Value) : B := s.bufs (s.refs v)

def write (v : Value) (b : B) : RefState B D := { s with bufs := update s.bufs (s.refs v) b }

def setRef (v ref : Value) : RefState B D := { s with refs := update s.refs v ref }

def setData (v : Value) (d : D) : RefState B D := { s with data := update s.data v d }

end RefState

def ValueOp.step (s : State B D) : ValueOp → State B D × List (Effect B D)
  | init r => (s.setBuf r I.empty, [])
  | emitValue r b v => (s.setBuf r (I.emit (s.bufs b) (s.data v)), [])
  | emitBufferValue r b o => (s.setBuf r (I.emitBuffer (s.bufs b) (s.bufs o)), [])
  | extractValue r out b ty =>
    let e := I.extract ty (s.bufs b)
    ((s.setBuf r e.2).setData out e.1, [.extracted e.1])
  | select r c a b => (s.setBuf r (if I.truth (s.data c) then s.bufs a else s.bufs b), [])
  | compute m vs out => (s.setData out (I.compute m (vs.map s.data)), [])
  | event bs vs => (s, [.event (bs.map s.bufs) (vs.map s.data)])

def RefOp.step (s : RefState B D) : RefOp → RefState B D × List (Effect B D)
  | init r => ((s.setRef r r).write r I.empty, [])
  | emit b v => (s.write b (I.emit (s.read b) (s.data v)), [])
  | emitBuffer b o => (s.write b (I.emitBuffer (s.read b) (s.read o)), [])
  | extract out b ty =>
    let e := I.extract ty (s.read b)
    ((s.write b e.2).setData out e.1, [.extracted e.1])
  | select r c a b => (s.setRef r (if I.truth (s.data c) then s.refs a else s.refs b), [])
  | compute m vs out => (s.setData out (I.compute m (vs.map s.data)), [])
  | event bs vs => (s, [.event (bs.map s.read) (vs.map s.data)])

/-- The effects of a list of operations. -/
def effects {Op S : Type} (step : S → Op → S × List (Effect B D)) :
    S → List Op → List (Effect B D)
  | _, [] => []
  | s, op :: ops => (step s op).2 ++ effects step (step s op).1 ops

/-! ## Linearity -/

namespace ValueOp

/-- The buffers that an operation writes or sends. -/
def consumed : ValueOp → List Value
  | init _ | compute _ _ _ | select _ _ _ _ => []
  | emitValue _ b _ | extractValue _ _ b _ => [b]
  | emitBufferValue _ b o => [b, o]
  | event bs _ => bs

/-- The buffers that an operation consumes, if a `select` consumes both of its own. -/
def consumedOrSelected : ValueOp → List Value
  | select _ _ a b => [a, b]
  | op => op.consumed

def result? : ValueOp → Option Value
  | init r | emitValue r _ _ | emitBufferValue r _ _ | extractValue r _ _ _ | select r _ _ _ =>
    some r
  | compute _ _ _ | event _ _ => none

end ValueOp

/-- Each buffer is consumed by one operation at most, behind its definition; a `select` is such
an operation. `defined` are the buffers so far, and `live` those that are not consumed. -/
def Linear : (defined live : List Value) → List ValueOp → Prop
  | _, _, [] => True
  | defined, live, op :: ops =>
    op.consumedOrSelected ⊆ live ∧ (∀ r ∈ op.result?, r ∉ defined) ∧
      Linear (op.result?.toList ++ defined)
        (op.result?.toList ++ live.filter (· ∉ op.consumedOrSelected)) ops

/-- The live versions are in different buffers, which their references lead to. -/
structure Sim (defined live : List Value) (subst : Value → Value) (s : State B D)
    (t : RefState B D) : Prop where
  data : t.data = s.data
  bufs : ∀ v ∈ live, t.read (subst v) = s.bufs v
  apart : ∀ v ∈ live, ∀ w ∈ live, t.refs (subst v) = t.refs (subst w) → v = w
  root : ∀ v ∈ live, subst v ∈ defined ∧ t.refs (subst v) ∈ defined
  known : ∀ v ∈ live, v ∈ defined

variable {I} {defined live : List Value} {subst : Value → Value} {s : State B D}
  {t t' : RefState B D}

namespace Sim

section

variable (h : Sim defined live subst s t)
include h

theorem setData (v : Value) (d : D) : Sim defined live subst (s.setData v d) (t.setData v d) :=
  { h with data := by rw [State.setData, RefState.setData, h.data] }

theorem filter (p : Value → Bool) : Sim defined (live.filter p) subst s t where
  data := h.data
  bufs v hv := h.bufs v (mem_of_mem_filter hv)
  apart v hv w hw := h.apart v (mem_of_mem_filter hv) w (mem_of_mem_filter hw)
  root v hv := h.root v (mem_of_mem_filter hv)
  known v hv := h.known v (mem_of_mem_filter hv)

/-- A new version that is read through `x`, in a buffer that no live version has. -/
theorem define {r x : Value} {b : B} (hr : r ∉ defined)
    (hx : x ∈ r :: defined ∧ t'.refs x ∈ r :: defined) (hdata : t'.data = t.data)
    (hrefs : ∀ v ∈ live, t'.refs (subst v) = t.refs (subst v))
    (hkept : ∀ v ∈ live, t'.bufs (t.refs (subst v)) = t.read (subst v))
    (hfree : ∀ v ∈ live, t.refs (subst v) ≠ t'.refs x) (hb : t'.read x = b) :
    Sim (r :: defined) (r :: live) (update subst r x) (s.setBuf r b) t' := by
  have hne : ∀ v ∈ live, v ≠ r := fun v hv heq => hr (heq ▸ h.known v hv)
  have hkeep : ∀ v ∈ live, update subst r x v = subst v := fun v hv =>
    update_of_ne (hne v hv) _ _
  refine ⟨hdata.trans h.data, ?_, ?_, ?_, ?_⟩
  · rw [forall_mem_cons]
    refine ⟨by simpa [State.setBuf] using hb, fun v hv => ?_⟩
    show t'.bufs (t'.refs (update subst r x v)) = update s.bufs r b v
    rw [hkeep v hv, hrefs v hv, hkept v hv, update_of_ne (hne v hv), h.bufs v hv]
  · intro v hv w hw heq
    rcases mem_cons.mp hv with hvr | hv' <;> rcases mem_cons.mp hw with hwr | hw'
    · exact hvr.trans hwr.symm
    · rw [hvr, update_self, hkeep w hw', hrefs w hw'] at heq
      exact absurd heq.symm (hfree w hw')
    · rw [hwr, update_self, hkeep v hv', hrefs v hv'] at heq
      exact absurd heq (hfree v hv')
    · rw [hkeep v hv', hkeep w hw', hrefs v hv', hrefs w hw'] at heq
      exact h.apart v hv' w hw' heq
  · rw [forall_mem_cons]
    refine ⟨by rwa [update_self], fun v hv => ?_⟩
    rw [hkeep v hv, hrefs v hv]
    exact (h.root v hv).imp (mem_cons_of_mem _) (mem_cons_of_mem _)
  · exact forall_mem_cons.mpr
      ⟨mem_cons_self, fun v hv => mem_cons_of_mem _ (h.known v hv)⟩

/-- A new buffer. -/
theorem init {r : Value} (hr : r ∉ defined) (b : B) :
    Sim (r :: defined) (r :: live) (update subst r r) (s.setBuf r b)
      ((t.setRef r r).write r b) := by
  have hnew : (t.setRef r r).refs r = r := update_self ..
  have hroot : ∀ v ∈ live, subst v ≠ r ∧ t.refs (subst v) ≠ (t.setRef r r).refs r := by
    intro v hv
    rw [hnew]
    exact (h.root v hv).imp (fun hv heq => hr (heq ▸ hv)) fun hv heq => hr (heq ▸ hv)
  refine h.define hr ⟨mem_cons_self, ?_⟩ rfl (fun v hv => update_of_ne (hroot v hv).1 _ _)
    (fun v hv => update_of_ne (hroot v hv).2 _ _) (fun v hv => (hroot v hv).2) (update_self ..)
  show (t.setRef r r).refs r ∈ r :: defined
  rw [hnew]
  exact mem_cons_self

/-- A version that is not consumed is in another buffer than one that is. -/
theorem refs_ne {v b : Value} {consumed : List Value} (hv : v ∈ live.filter (· ∉ consumed))
    (hb : b ∈ consumed) (hlive : consumed ⊆ live) : t.refs (subst v) ≠ t.refs (subst b) := by
  intro heq
  obtain ⟨hv, hfree⟩ := mem_filter.mp hv
  rw [h.apart v hv b (hlive hb) heq] at hfree
  exact absurd hb (of_decide_eq_true hfree)

/-- The version of a buffer that is consumed is overwritten. -/
theorem overwrite {r b : Value} {consumed : List Value}
    (hr : r ∉ defined) (hb : b ∈ consumed) (hlive : consumed ⊆ live) (x : B) :
    Sim (r :: defined) (r :: live.filter (· ∉ consumed)) (update subst r (subst b))
      (s.setBuf r x) (t.write (subst b) x) :=
  (h.filter _).define hr
    ((h.root b (hlive hb)).imp (mem_cons_of_mem _) (mem_cons_of_mem _)) rfl (fun _ _ => rfl)
    (fun _ hv => update_of_ne (h.refs_ne hv hb hlive) _ _)
    (fun _ hv => h.refs_ne hv hb hlive) (update_self ..)

/-- One of two versions that are consumed is chosen. -/
theorem select {r a b : Value} (hr : r ∉ defined) (hlive : [a, b] ⊆ live) (c : Bool) :
    Sim (r :: defined) (r :: live.filter (· ∉ [a, b])) (update subst r r)
      (s.setBuf r (if c then s.bufs a else s.bufs b))
      (t.setRef r (if c then t.refs (subst a) else t.refs (subst b))) := by
  obtain ⟨x, hx, hbuf, href⟩ : ∃ x ∈ [a, b], (if c then s.bufs a else s.bufs b) = s.bufs x ∧
      (if c then t.refs (subst a) else t.refs (subst b)) = t.refs (subst x) := by
    cases c with
    | true => exact ⟨a, by simp, rfl, rfl⟩
    | false => exact ⟨b, by simp, rfl, rfl⟩
  rw [hbuf, href]
  have hroot := h.root x (hlive hx)
  have hnew : (t.setRef r (t.refs (subst x))).refs r = t.refs (subst x) := update_self ..
  refine (h.filter _).define hr ⟨mem_cons_self, ?_⟩ rfl (fun v hv => ?_) (fun _ _ => rfl)
    (fun v hv => ?_) ?_
  · rw [hnew]
    exact mem_cons_of_mem _ hroot.2
  · refine update_of_ne (fun heq => hr ?_) _ _
    exact heq ▸ (h.root v (mem_of_mem_filter hv)).1
  · rw [hnew]
    exact h.refs_ne hv hx hlive
  · rw [RefState.read, hnew]
    exact h.bufs x (hlive hx)

/-- One operation has the same effects, and the versions stay where their references lead. -/
theorem step {op : ValueOp} (hlive : op.consumedOrSelected ⊆ live)
    (hfresh : ∀ r ∈ op.result?, r ∉ defined) :
    ((rewrite subst op).1.step I t).2 = (op.step I s).2 ∧
      Sim (op.result?.toList ++ defined)
        (op.result?.toList ++ live.filter (· ∉ op.consumedOrSelected))
        (rewrite subst op).2 (op.step I s).1 ((rewrite subst op).1.step I t).1 := by
  cases op with
  | init r => exact ⟨rfl, (h.filter _).init (hfresh r rfl) _⟩
  | emitValue r b v =>
    have hb := h.bufs b (hlive mem_cons_self)
    simp only [rewrite, RefOp.step, ValueOp.step, hb, h.data]
    exact ⟨trivial, h.overwrite (hfresh r rfl) mem_cons_self hlive _⟩
  | emitBufferValue r b o =>
    have hb := h.bufs b (hlive mem_cons_self)
    have ho := h.bufs o (hlive (mem_cons_of_mem _ mem_cons_self))
    simp only [rewrite, RefOp.step, ValueOp.step, hb, ho]
    exact ⟨trivial, h.overwrite (hfresh r rfl) mem_cons_self hlive _⟩
  | extractValue r out b ty =>
    have hb := h.bufs b (hlive mem_cons_self)
    simp only [rewrite, RefOp.step, ValueOp.step, hb]
    exact ⟨trivial, (h.overwrite (hfresh r rfl) mem_cons_self hlive _).setData _ _⟩
  | select r c a b =>
    simp only [rewrite, RefOp.step, ValueOp.step, h.data]
    exact ⟨trivial, h.select (hfresh r rfl) hlive _⟩
  | compute m vs out =>
    simp only [rewrite, RefOp.step, ValueOp.step, h.data]
    exact ⟨trivial, (h.filter _).setData _ _⟩
  | event bs vs =>
    have hbs : (bs.map subst).map t.read = bs.map s.bufs := by
      rw [map_map]
      exact map_congr_left fun b hb => h.bufs b (hlive hb)
    simp only [rewrite, RefOp.step, ValueOp.step, h.data, hbs]
    exact ⟨trivial, h.filter _⟩

theorem effects_eq {ops : List ValueOp} (hops : Linear defined live ops) :
    effects (RefOp.step I) t (bufferToRef subst ops) = effects (ValueOp.step I) s ops := by
  induction ops generalizing defined live subst s t with
  | nil => rfl
  | cons op ops ih =>
    obtain ⟨hlive, hfresh, hrest⟩ := hops
    obtain ⟨heffects, hsim⟩ := h.step (I := I) hlive hfresh
    rw [bufferToRef, effects, effects, heffects, ih hsim hrest]

end

end Sim

/-- A stage: its buffer arguments and its operations. -/
structure Stage where
  args : List Value
  ops : List ValueOp
  linear : Linear args args ops

def Stage.toRef (stage : Stage) : List RefOp := bufferToRef id stage.ops

/-- Two headers are read off a packet, and one is put in front of what is left or of a new
buffer. -/
def twoHeaders : Stage where
  args := [0]
  ops := [.extractValue 1 10 0 (.int 16), .extractValue 2 11 1 (.int 16), .init 3,
    .select 4 11 2 3, .init 5, .emitValue 6 5 10, .emitBufferValue 7 6 4, .event [7] [11]]
  linear := by simp [Linear, ValueOp.consumedOrSelected, ValueOp.consumed, ValueOp.result?]

/-- Buffers as lists of numbers. -/
def listInterp : Interp (List Nat) Nat where
  empty := []
  emit b d := b ++ [d]
  emitBuffer b b' := b ++ b'
  extract _ b := (b.headD 0, b.tail)
  truth d := d != 0
  compute _ ds := ds.length

/-- A number is emitted under a condition. -/
def emitIf : List ValueOp := [.emitValue 1 0 10, .select 2 11 1 0, .event [2] []]

end Alkali.BufferToRef
