import Alkali.Linearize.Cfg

/-!
# The accesses of a stage

Handling an event reads and writes entries of tables, buffer pools and contexts. A
stage changes only entries that it writes, and what it does depends only on the
entries that it reads.
-/

namespace Alkali

open List Operation

/-- An access to an entry of a table, a pool or a context, with the value that it
returns or stores. -/
structure Access (Val : Type) where
  isWrite : Bool
  cell : Cell
  key : Val
  value : Val
  deriving DecidableEq, Repr

def Access.entry {Val : Type} (a : Access Val) : Cell × Val := (a.cell, a.key)

/-- The state of a stage with the accesses that it has made. -/
structure StageState (Val : Type) where
  state : State Val
  log : List (Access Val)

open StageState

section Semantics

variable {Val : Type} [Inhabited Val] [DecidableEq Val] (I : Interp Val)

/-- The accesses of an operation. -/
def PlainOp.accessLog (op : PlainOp) (s : State Val) : List (Access Val) :=
  let args := op.operands.map s.env
  let key := op.kind.key args
  (op.kind.reads.toList.map fun c => ⟨false, c, key, s.cells c key⟩) ++
    op.kind.writes.toList.map fun c => ⟨true, c, key, op.kind.stored I args (s.cells c key)⟩

def Operation.accessLog (o : Operation) (s : State Val) : List (Access Val) :=
  if o.enabled I s.env then o.inner.accessLog I s else []

def StageState.step (s : StageState Val) (o : Operation) : StageState Val :=
  ⟨o.step I silent s.state, s.log ++ o.accessLog I s.state⟩

/-- Run a stage from a block. -/
def FuncOp.stageFrom (f : FuncOp) : Nat → Nat → StageState Val → Option (StageState Val)
  | 0, _, _ => none
  | n + 1, b, s =>
    let t := (f.opsOf b).foldl (step I) s
    match f.termOf b with
    | .terminate => some t
    | .br dest args => stageFrom f n dest { t with state := t.state.bind (f.argsOf dest) args }
    | .condBr cond trueDest trueArgs falseDest falseArgs =>
      if I.truth (t.state.env cond) then
        stageFrom f n trueDest { t with state := t.state.bind (f.argsOf trueDest) trueArgs }
      else
        stageFrom f n falseDest { t with state := t.state.bind (f.argsOf falseDest) falseArgs }

/-- Handle an event: the accesses that are made and the state that is left. -/
def FuncOp.handle (f : FuncOp) (n : Nat) (inputs : List Val) (cells : Cell → Val → Val) :
    Option (List (Access Val) × (Cell → Val → Val)) :=
  (f.stageFrom I n 0 ⟨initialState (f.argsOf 0) inputs cells, []⟩).map fun s =>
    (s.log, s.state.cells)

end Semantics

section Footprint

variable {Val : Type} [Inhabited Val] [DecidableEq Val] {I : Interp Val}

/-- Two states with the same values that agree on entries. -/
structure SameEntries (A : Set (Cell × Val)) (s t : State Val) : Prop where
  env : t.env = s.env
  cells : ∀ e ∈ A, t.cells e.1 e.2 = s.cells e.1 e.2

def readSet (log : List (Access Val)) : Set (Cell × Val) :=
  {e | ∃ a ∈ log, a.isWrite = false ∧ a.entry = e}

def writeSet (log : List (Access Val)) : Set (Cell × Val) :=
  {e | ∃ a ∈ log, a.isWrite = true ∧ a.entry = e}

variable {c : Cell} {op : PlainOp} {key : Val}

omit [DecidableEq Val] in
/-- What is stored depends on the entry only if it is read. -/
theorem OpKind.stored_congr {k : OpKind} (hw : k.writes = some c) (args : List Val)
    {old old' : Val} (h : k.reads = some c → old' = old) :
    k.stored I args old' = k.stored I args old := by
  cases k with
  | updateAtomic t opValue => rw [h hw]
  | _ => rfl

/-- A write changes one entry. -/
theorem OpKind.write_apply (k : OpKind) (args : List Val) (cells : Cell → Val → Val) (c : Cell)
    (key : Val) : k.write I args cells c key =
      if k.writes = some c ∧ k.key args = key then k.stored I args (cells c key)
      else cells c key := by
  unfold write
  cases hw : k.writes with
  | none => simp
  | some c' =>
    by_cases hc : c = c'
    · subst hc
      by_cases hkey : key = k.key args
      · simp [hkey]
      · simp [hkey, Ne.symm hkey]
    · simp [hc, Ne.symm hc]

variable {A : Set (Cell × Val)} {s t : State Val}

omit [DecidableEq Val] in
theorem mem_readSet_accessLog : (c, key) ∈ readSet (op.accessLog I s) ↔
      op.kind.reads = some c ∧ op.kind.key (op.operands.map s.env) = key := by
  simp only [readSet, PlainOp.accessLog, Access.entry, mem_append, mem_map,
    Option.mem_toList, Set.mem_ofPred_eq]
  constructor
  · rintro ⟨a, ⟨d, hd, rfl⟩ | ⟨d, hd, rfl⟩, hread, hent⟩
    · cases hent
      exact ⟨hd, rfl⟩
    · cases hread
  · rintro ⟨hc, rfl⟩
    exact ⟨_, Or.inl ⟨c, hc, rfl⟩, rfl, rfl⟩

omit [DecidableEq Val] in
theorem mem_writeSet_accessLog : (c, key) ∈ writeSet (op.accessLog I s) ↔
      op.kind.writes = some c ∧ op.kind.key (op.operands.map s.env) = key := by
  simp only [writeSet, PlainOp.accessLog, Access.entry, mem_append, mem_map,
    Option.mem_toList, Set.mem_ofPred_eq]
  constructor
  · rintro ⟨a, ⟨d, hd, rfl⟩ | ⟨d, hd, rfl⟩, hwrite, hent⟩
    · cases hwrite
    · cases hent
      exact ⟨hd, rfl⟩
  · rintro ⟨hc, rfl⟩
    exact ⟨_, Or.inr ⟨c, hc, rfl⟩, rfl, rfl⟩

/-- An operation does the same if it reads the same. -/
theorem SameEntries.plain (h : SameEntries A s t) (hreads : readSet (op.accessLog I s) ⊆ A) :
    op.accessLog I t = op.accessLog I s ∧
      SameEntries (A ∪ writeSet (op.accessLog I s)) (op.step I silent s) (op.step I silent t) := by
  have hargs : op.operands.map t.env = op.operands.map s.env := by rw [h.env]
  have hold : ∀ c, op.kind.reads = some c → t.cells c (op.kind.key (op.operands.map s.env)) =
      s.cells c (op.kind.key (op.operands.map s.env)) :=
    fun c hc => h.cells (c, _) (hreads (mem_readSet_accessLog.mpr ⟨hc, rfl⟩))
  have hstored : ∀ c, op.kind.writes = some c →
      op.kind.stored I (op.operands.map s.env) (t.cells c (op.kind.key (op.operands.map s.env))) =
        op.kind.stored I (op.operands.map s.env)
          (s.cells c (op.kind.key (op.operands.map s.env))) :=
    fun c hc => OpKind.stored_congr hc _ (hold c)
  refine ⟨?_, ?_, ?_⟩
  · simp only [PlainOp.accessLog, hargs]
    congr 1
    · cases hc : op.kind.reads with
      | none => rfl
      | some c => simp [hold c hc]
    · cases hc : op.kind.writes with
      | none => rfl
      | some c => simp [hstored c hc]
  · have houtputs : op.kind.outputs I (op.operands.map s.env) t.cells =
        op.kind.outputs I (op.operands.map s.env) s.cells := by
      unfold OpKind.outputs
      cases hc : op.kind.reads with
      | none => rfl
      | some c => simp [hold c hc]
    simp only [PlainOp.step, houtputs, h.env]
  · rintro ⟨c, key⟩ he
    simp only [PlainOp.step, hargs, OpKind.write_apply]
    by_cases hwrite : op.kind.writes = some c ∧ op.kind.key (op.operands.map s.env) = key
    · obtain ⟨hc, rfl⟩ := hwrite
      simp only [hc, and_self, if_true]
      exact hstored c hc
    · rw [if_neg hwrite, if_neg hwrite]
      exact h.cells (c, key) (he.resolve_right (mt mem_writeSet_accessLog.mp hwrite))

variable {o : Operation}

theorem SameEntries.operation (h : SameEntries A s t) (hreads : readSet (o.accessLog I s) ⊆ A) :
    o.accessLog I t = o.accessLog I s ∧
      SameEntries (A ∪ writeSet (o.accessLog I s)) (o.step I silent s) (o.step I silent t) := by
  rw [accessLog, accessLog, h.env] at *
  cases he : o.enabled I s.env with
  | true =>
    rw [step_of_enabled he, step_of_enabled (by rw [h.env]; exact he)]
    simpa [he] using h.plain (by simpa [he] using hreads)
  | false =>
    rw [step_of_not_enabled he, step_of_not_enabled (by rw [h.env]; exact he)]
    refine ⟨rfl, h.env, fun e hmem => h.cells e (hmem.resolve_right ?_)⟩
    simp [writeSet]

/-- An operation changes the entries that it writes. -/
theorem Operation.step_cells_of_not_mem (h : (c, key) ∉ writeSet (o.accessLog I s)) :
    (o.step I silent s).cells c key = s.cells c key := by
  rw [accessLog] at h
  cases he : o.enabled I s.env with
  | false => rw [step_of_not_enabled he]
  | true =>
    rw [if_pos he, mem_writeSet_accessLog] at h
    rw [step_of_enabled he]
    simp only [PlainOp.step, OpKind.write_apply, if_neg h]

end Footprint

section Run

variable {Val : Type} [Inhabited Val] [DecidableEq Val] {I : Interp Val} {f : FuncOp}
variable {n b : Nat} {log : List (Access Val)}

/-- What every step of a stage preserves holds after a run. -/
theorem FuncOp.stageFrom_preserves {P : StageState Val → Prop} (hstep : ∀ s o, P s → P (s.step I o))
    (hbind : ∀ s dests srcs, P s → P { s with state := s.state.bind dests srcs })
    {s t : StageState Val} (hs : P s) (h : f.stageFrom I n b s = some t) : P t := by
  induction n generalizing b s with
  | zero => cases h
  | succ n ih =>
    have hblock : P ((f.opsOf b).foldl (step I) s) := by
      clear h ih
      induction f.opsOf b generalizing s with
      | nil => exact hs
      | cons o ops ih => exact ih (hstep s o hs)
    rw [stageFrom] at h
    split at h
    · cases h
      exact hblock
    · exact ih (hbind _ _ _ hblock) h
    · split at h
      · exact ih (hbind _ _ _ hblock) h
      · exact ih (hbind _ _ _ hblock) h

theorem FuncOp.prefix_stageFrom {s t : StageState Val} (h : f.stageFrom I n b s = some t) :
    s.log <+: t.log :=
  stageFrom_preserves (P := fun t => s.log <+: t.log)
    (fun _ _ hu => hu.trans (prefix_append _ _)) (fun _ _ _ hu => hu) prefix_rfl h

omit [Inhabited Val] [DecidableEq Val] in
theorem readSet_mono {log' : List (Access Val)} (h : log <+: log') : readSet log ⊆ readSet log' :=
  fun _ ⟨a, ha, hrest⟩ => ⟨a, h.subset ha, hrest⟩

omit [Inhabited Val] [DecidableEq Val] in
theorem writeSet_append (log log' : List (Access Val)) :
    writeSet (log ++ log') = writeSet log ∪ writeSet log' := by
  ext e
  simp only [writeSet, mem_append, Set.mem_union, Set.mem_ofPred_eq, or_and_right, exists_or]

variable {e : Cell × Val} {s' : StageState Val} {inputs : List Val}

/-- Entries that are not written keep their values. -/
theorem FuncOp.stageFrom_frame {s t : StageState Val} (h : f.stageFrom I n b s = some t)
    (he : e ∉ writeSet t.log) : t.state.cells e.1 e.2 = s.state.cells e.1 e.2 := by
  refine stageFrom_preserves (P := fun t => e ∉ writeSet t.log →
    t.state.cells e.1 e.2 = s.state.cells e.1 e.2) ?_ (fun _ _ _ hu => hu) (fun _ => rfl) h he
  intro u o hu hmem
  rw [StageState.step, writeSet_append, Set.mem_union, not_or] at hmem
  exact (step_cells_of_not_mem hmem.2).trans (hu hmem.1)

/-- A second run with the same accesses, from a state that agrees on the entries `A`. -/
structure Replays (A : Set (Cell × Val)) (s t : StageState Val) : Prop where
  log : t.log = s.log
  state : SameEntries (A ∪ writeSet s.log) s.state t.state

variable {A : Set (Cell × Val)} {s t : StageState Val}

theorem Replays.step (h : Replays A s t) {o : Operation}
    (hreads : readSet (o.accessLog I s.state) ⊆ A) : Replays A (s.step I o) (t.step I o) := by
  obtain ⟨hlog, hst⟩ := h.state.operation (I := I) (o := o)
    (hreads.trans Set.subset_union_left)
  refine ⟨?_, ?_⟩
  · rw [StageState.step, StageState.step, h.log, hlog]
  · rw [StageState.step, writeSet_append, ← Set.union_assoc]
    exact hst

theorem prefix_foldl (ops : List Operation) (s : StageState Val) :
    s.log <+: (ops.foldl (step I) s).log := by
  induction ops generalizing s with
  | nil => exact prefix_rfl
  | cons o ops ih => exact (prefix_append _ _).trans (ih (s.step I o))

theorem Replays.foldl {ops : List Operation} (h : Replays A s t)
    (hreads : readSet (ops.foldl (StageState.step I) s).log ⊆ A) :
    Replays A (ops.foldl (StageState.step I) s) (ops.foldl (StageState.step I) t) := by
  induction ops generalizing s t with
  | nil => exact h
  | cons o ops ih =>
    refine ih (h.step (Set.Subset.trans ?_ hreads)) hreads
    rintro e ⟨a, ha, hrest⟩
    exact readSet_mono (prefix_foldl ops (s.step I o))
      ⟨a, mem_append_right _ ha, hrest⟩

omit [DecidableEq Val] in
theorem Replays.bind (h : Replays A s t) (dests srcs : List Value) :
    Replays A { s with state := s.state.bind dests srcs }
      { t with state := t.state.bind dests srcs } :=
  ⟨h.log, by simp only [State.bind, h.state.env], h.state.cells⟩

/-- A run begins with the accesses of its first block. -/
theorem FuncOp.prefix_stageFrom_succ (h : f.stageFrom I (n + 1) b s = some s') :
    ((f.opsOf b).foldl (step I) s).log <+: s'.log := by
  rw [stageFrom] at h
  split at h
  · cases h
    exact prefix_rfl
  · have hrest := prefix_stageFrom h
    exact hrest
  · split at h <;>
    · have hrest := prefix_stageFrom h
      exact hrest

/-- A run does the same if the entries that it reads are the same. -/
theorem Replays.stageFrom (h : Replays A s t) (hrun : f.stageFrom I n b s = some s')
    (hreads : readSet s'.log ⊆ A) : ∃ t', f.stageFrom I n b t = some t' ∧ Replays A s' t' := by
  induction n generalizing b s t with
  | zero => cases hrun
  | succ n ih =>
    have hblock := h.foldl ((readSet_mono (FuncOp.prefix_stageFrom_succ hrun)).trans hreads)
    rw [FuncOp.stageFrom] at hrun ⊢
    cases hterm : f.termOf b with
    | terminate =>
      rw [hterm] at hrun
      cases hrun
      exact ⟨_, rfl, hblock⟩
    | br dest args =>
      rw [hterm] at hrun
      exact ih (hblock.bind _ _) hrun
    | condBr cond trueDest trueArgs falseDest falseArgs =>
      simp only [hterm] at hrun
      simp only [hblock.state.env]
      split at hrun
      · next htrue => exact if_pos htrue ▸ ih (hblock.bind _ _) hrun
      · next hfalse => exact if_neg hfalse ▸ ih (hblock.bind _ _) hrun

/-- The accesses are recorded beside the run. -/
theorem FuncOp.stageFrom_state (n b : Nat) (s : StageState Val) :
    (f.stageFrom I n b s).map state = f.runFrom I silent n b s.state := by
  have hblock : ∀ (ops : List Operation) (s : StageState Val),
      (ops.foldl (step I) s).state = exec I silent ops s.state := by
    intro ops
    induction ops with
    | nil => intro s; rfl
    | cons o ops ih => exact fun s => ih (s.step I o)
  induction n generalizing b s with
  | zero => rfl
  | succ n ih =>
    rw [stageFrom, runFrom, ← hblock]
    cases f.termOf b with
    | terminate => rfl
    | br dest args => exact ih _ _
    | condBr cond trueDest trueArgs falseDest falseArgs =>
      rw [apply_ite (Option.map state)]
      exact if_congr Iff.rfl (ih _ _) (ih _ _)

/-- Enough fuel for a stage without loops. -/
theorem FuncOp.Acyclic.exists_handle (h : f.Acyclic) (I : Interp Val) :
    ∃ n, ∀ inputs cells, (f.handle I n inputs cells).isSome := by
  obtain ⟨n, hn⟩ := h.exists_fuel I silent 0
  refine ⟨n, fun inputs cells => ?_⟩
  obtain ⟨t, ht⟩ := hn (initialState (f.argsOf 0) inputs cells)
  rw [← FuncOp.stageFrom_state n 0 ⟨_, []⟩] at ht
  rw [handle, Option.isSome_map, ← Option.isSome_map (f := state), ht]
  rfl

theorem FuncOp.handle_frame {cells cells' : Cell → Val → Val}
    (h : f.handle I n inputs cells = some (log, cells')) (he : e ∉ writeSet log) :
    cells' e.1 e.2 = cells e.1 e.2 := by
  rw [handle, Option.map_eq_some_iff] at h
  obtain ⟨t, ht, hpair⟩ := h
  cases hpair
  exact stageFrom_frame ht he

theorem FuncOp.handle_determined {cells cells' cells₂ : Cell → Val → Val}
    (h : f.handle I n inputs cells = some (log, cells'))
    (hsame : ∀ e ∈ readSet log, cells₂ e.1 e.2 = cells e.1 e.2) :
    ∃ cells₂', f.handle I n inputs cells₂ = some (log, cells₂') ∧
      ∀ e ∈ writeSet log, cells₂' e.1 e.2 = cells' e.1 e.2 := by
  rw [handle, Option.map_eq_some_iff] at h
  obtain ⟨t, ht, hpair⟩ := h
  cases hpair
  have hstart : Replays (readSet t.log) ⟨initialState (f.argsOf 0) inputs cells, []⟩
      ⟨initialState (f.argsOf 0) inputs cells₂, []⟩ :=
    ⟨rfl, rfl, fun e he => he.elim (hsame e) (fun ⟨_, hmem, _⟩ => nomatch hmem)⟩
  obtain ⟨t₂, ht₂, hend⟩ := hstart.stageFrom ht Set.Subset.rfl
  exact ⟨t₂.state.cells, by rw [handle, ht₂, Option.map_some, hend.log],
    fun e he => hend.state.cells e (Or.inr he)⟩

end Run

end Alkali
