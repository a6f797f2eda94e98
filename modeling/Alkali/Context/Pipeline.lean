import Alkali.Context.Stage

/-!
# Pipelines with arguments in the context

The stages of a pipeline run one after the other, each with what the one before has put
into its event. After `contextIdentification` and `restoreContext` every stage finds the
arguments that it got before, some of them in the context. This holds unless a stage
passes one of its arguments on twice: then two arguments of the next stage have the same
name.
-/

namespace Alkali

open List ContextIdentification FuncOp NamedStage

open ContextIdentification (Names Distinct)

/-- The stages with their attributes; the last one has no event for another stage. -/
def attachNames : List FuncOp → List Names → List NamedStage
  | f :: g :: rest, n :: m :: names =>
    ⟨f, n, initNames f g m⟩ :: attachNames (g :: rest) (m :: names)
  | [f], n :: _ => [⟨f, n, fun _ => none⟩]
  | _, _ => []

def contextIdentification (pipeline : List FuncOp) : List NamedStage :=
  attachNames pipeline (funcContextNames pipeline)

/-- A pipeline: stages in SSA form that do not use the places for arguments, and the event
of each stage but the last. -/
def IsPipeline : List FuncOp → List PlainOp → Prop
  | [f], [] => f.SsaForm ∧ f.KeepsSlots
  | f :: g :: rest, feed :: feeds =>
    (f.SsaForm ∧ f.KeepsSlots) ∧ Feeds f g feed ∧ IsPipeline (g :: rest) feeds
  | _, _ => False

section Runs

variable {Val : Type} [Inhabited Val] [DecidableEq Val]

/-- A run of a pipeline, with the inputs and the memory that each stage starts with. A stage
gets the values of the event without the atom. -/
inductive PipelineRun (I : Interp Val) : List FuncOp → List PlainOp → List Val →
    (Cell → Val → Val) → List (List Val × (Cell → Val → Val)) → Prop
  | stop {f rest feeds inputs cells} :
      PipelineRun I (f :: rest) feeds inputs cells [(inputs, cells)]
  | next {f g rest feed feeds inputs cells outs cells' log}
      (hdelivers : f.Delivers I feed inputs cells outs cells')
      (hrest : PipelineRun I (g :: rest) feeds outs.tail cells' log) :
      PipelineRun I (f :: g :: rest) (feed :: feeds) inputs cells ((inputs, cells) :: log)

end Runs

def AllMatch : List NamedStage → List PlainOp → Prop
  | s :: t :: rest, feed :: feeds => s.Matches t feed ∧ AllMatch (t :: rest) feeds
  | _, _ => True

/-- With its arguments in the context a pipeline does the same. -/
structure Restores (pipeline : List FuncOp) (feeds : List PlainOp) : Prop where
  distinct : ∀ s ∈ contextIdentification pipeline, Distinct s.func.args.length s.argNames
  allMatch : AllMatch (contextIdentification pipeline) feeds
  observes : ∀ (Val : Type) [Inhabited Val] [DecidableEq Val] (I : Interp Val) (c : Val)
    (inputs : List Val) (cells : Cell → Val → Val) (log : List (List Val × (Cell → Val → Val))),
    PipelineRun I pipeline feeds inputs cells log →
    (∀ f ∈ pipeline.head?, f.args.length = inputs.length) →
    ∃ log', PipelineRun I ((contextIdentification pipeline).map restoreContext)
        (List.zipWith restoredFeed (contextIdentification pipeline) feeds)
        (c :: inputs) cells log' ∧
      log'.length = log.length ∧
      List.zipWith (fun s start => s.observed I start.1 start.2)
          (contextIdentification pipeline) log' =
        List.zipWith (fun f start => f.received start.1 start.2) pipeline log

/-! ## The names of the stages -/

section Stages

variable {f : FuncOp} {rest fs : List FuncOp} {n : Names} {names : List Names}
  {feeds : List PlainOp}

theorem exists_attachNames (hlen : rest.length = names.length) :
    ∃ init, attachNames (f :: rest) (n :: names) = ⟨f, n, init⟩ :: attachNames rest names := by
  cases rest with
  | nil =>
    cases names with
    | nil => exact ⟨_, rfl⟩
    | cons => cases hlen
  | cons g rest =>
    cases names with
    | nil => cases hlen
    | cons m names => exact ⟨_, rfl⟩

theorem forall_attachNames {P : FuncOp → Names → Prop} (hlen : fs.length = names.length) :
    (∀ s ∈ attachNames fs names, P s.func s.argNames) ↔ List.Forall₂ P fs names := by
  induction fs generalizing names with
  | nil =>
    cases names with
    | nil => simp [attachNames]
    | cons => cases hlen
  | cons f fs ih =>
    cases names with
    | nil => cases hlen
    | cons n names =>
      have hlen := Nat.succ.inj hlen
      obtain ⟨init, heq⟩ := exists_attachNames (f := f) (n := n) hlen
      rw [heq, forall_mem_cons, List.forall₂_cons, ih hlen]

theorem length_identify (fs : List FuncOp) (k : Nat) (names : Names) :
    (identify fs k names).length = fs.length := by
  induction fs generalizing k names with
  | nil => rfl
  | cons f fs ih => rw [identify, length_cons, ih, length_cons]

theorem length_funcContextNames (fs : List FuncOp) : (funcContextNames fs).length = fs.length := by
  cases fs with
  | nil => rfl
  | cons f fs =>
    rw [funcContextNames, length_cons, length_identify, length_cons]

theorem contextNames_identify {k : Nat} {names : Names} (h : Older k names) :
    ∀ n ∈ identify fs k names, ContextNames n := by
  induction fs generalizing k names with
  | nil => exact fun _ h => (by cases h)
  | cons f fs ih =>
    intro n hn
    rcases mem_cons.mp hn with rfl | hn
    · intro p a ha
      obtain ⟨k, -, hk⟩ := (nameArgs_invariant (n := 0) h).2.1 p a ha
      exact ⟨k, hk⟩
    · cases fs with
      | nil => cases hn
      | cons g fs => exact ih (older_next h rfl) n hn

theorem contextNames_funcContextNames (h : n ∈ funcContextNames fs) : ContextNames n := by
  cases fs with
  | nil => cases h
  | cons f fs =>
    rcases mem_cons.mp h with rfl | h
    · exact fun p a ha => by cases ha
    · exact contextNames_identify (fun p a ha => by cases ha) n h

/-- The names of all stages are distinct exactly if no stage but the first passes an
argument on twice. -/
theorem distinct_iff (f : FuncOp) (rest : List FuncOp) :
    List.Forall₂ (fun (g : FuncOp) names => Distinct g.args.length names) (f :: rest)
      (funcContextNames (f :: rest)) ↔
      PassOnce rest := by
  have hnone : ∀ n, Distinct n fun _ => none := fun n p _ q _ a ha => by cases ha
  rw [funcContextNames, List.forall₂_cons, and_iff_right (hnone _)]
  cases rest with
  | nil => exact iff_of_true .nil trivial
  | cons g rest =>
    exact identify_distinct_iff (fun p a ha => by cases ha) (hnone _)

/-! ## All stages -/

theorem IsPipeline.head (h : IsPipeline (f :: rest) feeds) : f.SsaForm ∧ f.KeepsSlots := by
  cases rest with
  | nil =>
    cases feeds with
    | nil => exact h
    | cons => cases h
  | cons g rest =>
    cases feeds with
    | nil => cases h
    | cons feed feeds => exact h.1

theorem allMatch_of_distinct (hp : IsPipeline fs feeds) (hslots : ∀ n ∈ names, ContextNames n)
    (hdist : List.Forall₂ (fun (g : FuncOp) names => Distinct g.args.length names) fs names) :
    AllMatch (attachNames fs names) feeds := by
  induction hdist generalizing feeds with
  | nil => trivial
  | @cons f n rest names hn hrest ih =>
    cases hrest with
    | nil => trivial
    | @cons g m rest names hm hrest =>
      cases feeds with
      | nil => cases hp
      | cons feed feeds =>
        obtain ⟨init, heq⟩ := exists_attachNames (f := g) (n := m) hrest.length_eq
        have hih := ih hp.2.2 fun k hk => hslots k (mem_cons_of_mem _ hk)
        rw [attachNames]
        rw [heq] at hih ⊢
        refine ⟨matches_feed hp.2.1 rfl ?_ hp.2.2.head.1.nodup_args hm, hih⟩
        exact (hslots m (by simp)).ne_empty

variable {Val : Type} [Inhabited Val] [DecidableEq Val] {I : Interp Val} {c : Val}
  {inputs : List Val} {cells cells' : Cell → Val → Val}

/-- A stage uses the values that it got as arguments before. -/
theorem observed_eq_received {s : NamedStage} (hf : s.func.SsaForm)
    (hdist : Distinct s.func.args.length s.argNames)
    (hlen : s.func.args.length = inputs.length) (hcells : ∀ c, ¬ IsSlot c → cells' c = cells c)
    (hholds : s.Holds I c inputs cells') :
    s.observed I (c :: unnamed s.argNames 0 inputs) cells' = s.func.received inputs cells := by
  refine map_congr_left fun arg harg => ?_
  have hlt := lt_ctx_of_mem_args harg
  exact (NamedStage.Sim.start hdist hf.nodup_args hlen hcells hholds s.ctx).renamed.env arg.1
    ⟨hlt, hlt.ne⟩

/-- Every run of a pipeline is one with arguments in the context. -/
theorem PipelineRun.restoreContext {log : List (List Val × (Cell → Val → Val))}
    (h : PipelineRun I fs feeds inputs cells log) (hp : IsPipeline fs feeds)
    (hslots : ∀ n ∈ names, ContextNames n)
    (hdist : List.Forall₂ (fun (g : FuncOp) names => Distinct g.args.length names) fs names)
    (hcells : ∀ c, ¬ IsSlot c → cells' c = cells c)
    (hlen : ∀ f ∈ fs.head?, f.args.length = inputs.length) (hn : n ∈ names.head?)
    (hholds : ∀ i a x, n i = some a → inputs[i]? = some x →
      cells' (.context a) (contextRef I a c) = x) :
    ∃ log', PipelineRun I ((attachNames fs names).map restoreContext)
        (List.zipWith restoredFeed (attachNames fs names) feeds)
        (c :: unnamed n 0 inputs) cells' log' ∧
      log'.length = log.length ∧
      List.zipWith (fun s start => s.observed I start.1 start.2) (attachNames fs names) log' =
        List.zipWith (fun f start => f.received start.1 start.2) fs log := by
  induction h generalizing names cells' n with
  | @stop f rest feeds inputs cells =>
    cases hdist with
    | @cons _ m _ names hm hrest =>
      obtain rfl := Option.mem_some_iff.mp hn
      obtain ⟨init, heq⟩ := exists_attachNames (f := f) (n := m) hrest.length_eq
      rw [heq]
      refine ⟨[(c :: unnamed m 0 inputs, cells')], .stop, rfl, ?_⟩
      have hsame := observed_eq_received (s := ⟨f, m, init⟩) hp.head.1 hm (hlen f rfl) hcells
        hholds
      simp [hsame]
  | @next f g rest feed feeds inputs cells outs cells₁ log hdelivers _ ih =>
    cases hdist with
    | @cons _ m _ names hm hrest =>
      obtain rfl := Option.mem_some_iff.mp hn
      cases hrest with
      | @cons _ m' _ names hm' hrest' =>
        obtain ⟨a, cells₁', hdelivers', hlen', hcells', hholds'⟩ := delivers_restoreContext
          (s := ⟨f, m, initNames f g m'⟩) hp.head.1 hp.head.2 hp.2.1
          rfl hm (hslots m' (by simp)) hm' (hlen f rfl) hcells hholds hdelivers
        obtain ⟨log', hrun, hloglen, hsame⟩ := ih hp.2.2
          (fun k hk => hslots k (mem_cons_of_mem _ hk)) (.cons hm' hrest') hcells'
          (fun k hk => Option.mem_some_iff.mp hk ▸ hlen') rfl hholds'
        obtain ⟨init, heq⟩ := exists_attachNames (f := g) (n := m') hrest'.length_eq
        have hfirst := observed_eq_received
          (s := ⟨f, m, initNames f g m'⟩) hp.head.1 hm (hlen f rfl)
          hcells hholds
        rw [attachNames]
        refine ⟨(c :: unnamed m 0 inputs, cells') :: log', ?_, congrArg Nat.succ hloglen, ?_⟩
        · rw [heq] at hrun ⊢
          exact .next hdelivers' hrun
        · rw [zipWith_cons_cons, zipWith_cons_cons, hsame]
          exact congrArg (· :: _) hfirst

/-- After `contextIdentification` and `restoreContext` all stages of a pipeline observe
their original arguments, under distinct names and with events that fit, exactly if no
stage but the first passes an argument to two positions of the next stage. -/
theorem contextIdentification_restores_iff {pipeline : List FuncOp} {feeds : List PlainOp}
    (hp : IsPipeline pipeline feeds) :
    Restores pipeline feeds ↔ PassOnce pipeline.tail := by
  obtain _ | ⟨f, rest⟩ := pipeline
  · cases hp
  have hlen := (length_funcContextNames (f :: rest)).symm
  rw [tail_cons, ← distinct_iff f rest]
  constructor
  · intro h
    exact (forall_attachNames hlen).mp h.distinct
  · intro hdist
    have hslots : ∀ n ∈ funcContextNames (f :: rest), ContextNames n :=
      fun n hn => contextNames_funcContextNames hn
    refine ⟨(forall_attachNames hlen).mpr hdist, allMatch_of_distinct hp hslots hdist, ?_⟩
    intro Val _ _ I c inputs cells log hrun hinputs
    have hnone : ∀ (j : Nat) (xs : List Val), unnamed (fun _ => none) j xs = xs := by
      intro j xs
      induction xs generalizing j with
      | nil => rfl
      | cons x xs ih => rw [unnamed, ih]; rfl
    have hrestored := hrun.restoreContext hp hslots hdist (c := c) (fun _ _ => rfl) hinputs
      (n := fun _ => none) rfl (fun i a x ha => by cases ha)
    rwa [hnone] at hrestored

/-! ## An argument that is passed on twice -/

theorem FuncOp.ssaForm_of_block {name : String} {args : List (Value × Ty)} {ops : List Operation}
    {termId : OpId} (hnd : (args.map Prod.fst ++ ops.flatMap Operation.binds).Nodup)
    (huses : InstrsFrom (args.map Prod.fst) (ops.map .op))
    (hres : ∀ o ∈ ops, effects o.inner.kind → o.inner.results = []) :
    FuncOp.SsaForm ⟨name, [⟨args, ops, termId, .terminate⟩]⟩ := by
  have hterm : ∀ b, termOf ⟨name, [⟨args, ops, termId, .terminate⟩]⟩ b = .terminate := by
    intro b
    cases b <;> rfl
  have hedges : ∀ b, edges ⟨name, [⟨args, ops, termId, .terminate⟩]⟩ b = [] := by
    intro b
    rw [edges, hterm]
  refine ⟨rfl, ⟨fun _ => 0, fun b instrs d h => ?_⟩, fun b => ?_, fun b c hbc v hb hc => ?_,
    fun w hw => ?_, fun b o ho => ?_⟩
  · rw [hedges] at h
    cases h
  · cases b with
    | zero => exact hnd
    | succ b => exact nodup_nil
  · cases b with
    | zero =>
      cases c with
      | zero => exact hbc rfl
      | succ c => cases hc
    | succ b => cases hb
  · cases hw with
    | stop =>
      rw [code_cons, code_nil, append_nil, append_nil]
      exact huses
    | go hedge =>
      cases hedge
  · cases b with
    | zero => exact hres o ho
    | succ b => cases ho

theorem FuncOp.keepsSlots_of_valueForm (h : ∀ o ∈ f.operations, o.inner.kind.valueForm) :
    f.KeepsSlots := by
  rintro o ho c ⟨k, rfl⟩ (hc | hc)
  · obtain ⟨t, ht⟩ := OpKind.valueForm_reads (h o ho) hc
    cases ht
  · obtain ⟨t, ht⟩ := OpKind.valueForm_writes (h o ho) hc
    cases ht

end Stages

namespace HashStages

def twoInts : Ty := .struct true [.atom, .int 32, .int 32] "Main_2"

/-- Send a value to the next stage. -/
def receive : FuncOp where
  name := "__handler_Main_main"
  blocks := [⟨[(0, .int 32)], [
    .plain ⟨10, .constant "main", [], [(1, .atom)]⟩,
    .plain ⟨11, .init (.struct true [.atom, .int 32] "Main_1"), [1, 0],
      [(2, .struct true [.atom, .int 32] "Main_1")]⟩,
    .plain ⟨12, .ret, [2], []⟩], 13, .terminate⟩]

/-- Send the argument and another value to the next stage. -/
def hash (second : Value) : FuncOp where
  name := "__handler_Main_1_main"
  blocks := [⟨[(0, .int 32)], [
    .plain ⟨20, .compute "hash", [0], [(1, .int 32)]⟩,
    .plain ⟨21, .constant "main", [], [(2, .atom)]⟩,
    .plain ⟨22, .init twoInts, [2, 0, second], [(3, twoInts)]⟩,
    .plain ⟨23, .ret, [3], []⟩], 24, .terminate⟩]

def count : FuncOp where
  name := "__handler_Main_2_main"
  blocks := [⟨[(0, .int 32), (1, .int 32)], [
    .plain ⟨30, .globalImport "flows", [], [(2, .table (.int 32) (.int 32) 16)]⟩,
    .plain ⟨31, .update "flows", [2, 0, 1], []⟩], 32, .terminate⟩]

/-- The stages send the argument with its hash, or twice. -/
def pipeline (second : Value) : List FuncOp := [receive, hash second, count]

def feeds (second : Value) : List PlainOp := [
  ⟨11, .init (.struct true [.atom, .int 32] "Main_1"), [1, 0],
    [(2, .struct true [.atom, .int 32] "Main_1")]⟩,
  ⟨22, .init twoInts, [2, 0, second], [(3, twoInts)]⟩]

theorem feeds_of_block {f next : FuncOp} {feed : PlainOp} {a : Value} {vs : List Value}
    (hmem : .plain feed ∈ f.operations) (htgts : targets f next feed)
    (hunique : ∀ o ∈ f.operations, targets f next o.inner → o.inner = feed)
    (hres : ∃ v ty, feed.results = [(v, ty)])
    (hret : f.OnlyReturned (feed.results.map Prod.fst)) (hops : feed.operands = a :: vs)
    (hatom : f.typeOf a = some .atom)
    (htypes : vs.map f.typeOf = next.args.map fun arg => some arg.2) : Feeds f next feed :=
  ⟨hmem, htgts, fun op hop ht => hunique (.plain op) hop ht, hres, hret, a, vs, hops, hatom, htypes⟩

theorem isPipeline {second : Value} (h : second < 2) :
    IsPipeline (pipeline second) (feeds second) := by
  have hlast : count.SsaForm ∧ count.KeepsSlots :=
    ⟨ssaForm_of_block (by decide) (by decide) (by decide), keepsSlots_of_valueForm (by decide)⟩
  have hsecond : second = 0 ∨ second = 1 := by lia
  rcases hsecond with rfl | rfl
  all_goals
    refine ⟨⟨ssaForm_of_block (by decide) (by decide) (by decide),
      keepsSlots_of_valueForm (by decide)⟩, ?_,
      ⟨ssaForm_of_block (by decide) (by decide) (by decide),
        keepsSlots_of_valueForm (by decide)⟩, ?_, hlast⟩
    · exact feeds_of_block (by decide) (by decide) (by decide) ⟨_, _, rfl⟩ (by decide) rfl
        (by decide) (by decide)
    · exact feeds_of_block (by decide) (by decide) (by decide) ⟨_, _, rfl⟩ (by decide) rfl
        (by decide) (by decide)

/-- The argument and its hash arrive. -/
theorem contextIdentification_restores_hash :
    IsPipeline (pipeline 1) (feeds 1) ∧ Restores (pipeline 1) (feeds 1) := by
  have hp : IsPipeline (pipeline 1) (feeds 1) := isPipeline (by decide)
  refine ⟨hp, (contextIdentification_restores_iff hp).mpr ⟨?_, trivial⟩⟩
  have hnone : firstUser (hash 1) 1 = none := by decide
  intro p hp q hq j hj hj'
  have hp : p < 2 := hp
  have hq : q < 2 := hq
  have hp0 : p ≠ 1 := fun h => by rw [h, hnone] at hj; cases hj
  have hq0 : q ≠ 1 := fun h => by rw [h, hnone] at hj'; cases hj'
  omega

/-- An argument that is sent twice has one name at both places. The next stage keeps one
of them as a parameter, and the event has no operand for it. -/
theorem contextIdentification_passes_twice : IsPipeline (pipeline 0) (feeds 0) ∧
    ((contextIdentification (pipeline 0)).map fun s => (s.argNames 0, s.argNames 1)) =
      [(none, none), (some "context0", none), (some "context0", some "context0")] ∧
    ((contextIdentification (pipeline 0)).map fun s => s.newArgs.map Prod.snd) =
      [[.context, .int 32], [.context], [.context, .int 32]] ∧
    (List.zipWith restoredFeed (contextIdentification (pipeline 0)) (feeds 0)).map
      (fun op => op.kind) = [.init (.struct true [.atom, .context] "Main_1"),
        .init (.struct true [.atom, .context] "Main_2")] ∧
    ¬ AllMatch (contextIdentification (pipeline 0)) (feeds 0) := by
  refine ⟨isPipeline (by decide), by decide, by decide, by decide, fun h => ?_⟩
  have hlen := h.2.1.1
  revert hlen
  decide

end HashStages

end Alkali
