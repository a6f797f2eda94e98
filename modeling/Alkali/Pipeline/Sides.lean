import Alkali.Pipeline.CutSound
import Alkali.Pipeline.Split

/-!
# The two sides of a cut

The splitter succeeds on a sound cut exactly when what guarded operations use
is available on the side of their guard, which the cut does not look at. Then
all accesses to an imported table are on the side of its import, and a sink
operation interferes with the source operations behind it only through state
that is not imported: buffer pools, context fields and tables of the handler.
-/

namespace Alkali

open PipelineHandler SplitFunction List Operation

/-- What the IR and the passes before the cut promise: one block in SSA form,
ended by `ep2.terminate`, that imports a global at most once. -/
structure Linearized (f : FuncOp) (blk : Block) : Prop where
  blocks : f.blocks = [blk]
  term : blk.term = .terminate
  wellFormed : f.WellFormed
  dominated : UsesFrom (blk.args.map Prod.fst) blk.ops
  distinct : (blk.args.map Prod.fst ++ blk.ops.flatMap defs).Nodup
  imports : f.OneImportPerTable

/-- An operation uses the import of a table. Tables that the handler makes itself have none. -/
def UsesImport (blk : Block) (o : Operation) (t : String) : Prop :=
  ∃ i ∈ blk.ops, i.kind? = some (.globalImport t) ∧ ∃ v ∈ i.defs, v ∈ o.inner.operands

/-- All tables that a block accesses are imported. -/
def TablesImported (blk : Block) : Prop :=
  ∀ o ∈ blk.ops, ∀ t ∈ o.inner.kind.table?, UsesImport blk o t

/-- What a guarded operation uses is available on the side of its guard: in the
sink it is defined there or is an operand of a sink operation itself, in the
source it is not defined in the sink. -/
def GuardsClosed (blk : Block) (sinkOps : List OpId) : Prop :=
  ∀ o ∈ blk.ops, ∀ v ∈ o.nestedOperands, if inSink sinkOps o then
      (∃ d ∈ blk.ops, inSink sinkOps d ∧ v ∈ d.defs) ∨
        ∃ u ∈ blk.ops, inSink sinkOps u ∧ v ∈ u.operands
    else ∀ d ∈ blk.ops, v ∈ d.defs → inSink sinkOps d = false

/-- An access to a cell that a later access must not overtake. -/
def Operation.conflicts (p o : Operation) (c : Cell) : Prop :=
  (p.inner.kind.reads = some c ∧ o.inner.kind.writes = some c) ∨ (p.inner.kind.writes = some c ∧
      (o.inner.kind.reads = some c ∨ o.inner.kind.writes = some c))

/-- No source operation overtakes a conflicting access to state that is not an imported
table: a buffer pool, a context field or a table of the handler. -/
def StateOrdered (blk : Block) (sinkOps : List OpId) : Prop :=
  blk.ops.Pairwise fun p o => inSink sinkOps p → inSink sinkOps o = false →
    ∀ c, p.conflicts o c → ∃ t, c = .table t ∧ UsesImport blk p t ∧ UsesImport blk o t

/-- Both accesses that conflict over a table name it. -/
theorem Operation.conflicts.table? {p o : Operation} {t : String} (h : p.conflicts o (.table t)) :
    p.inner.kind.table? = some t ∧ o.inner.kind.table? = some t := by
  rcases h with ⟨hr, hw⟩ | ⟨hw, hr | hw'⟩
  · exact ⟨OpKind.table?_of_reads hr, OpKind.table?_of_writes hw⟩
  · exact ⟨OpKind.table?_of_writes hw, OpKind.table?_of_reads hr⟩
  · exact ⟨OpKind.table?_of_writes hw, OpKind.table?_of_writes hw'⟩

/-- In value form and with imported tables there is nothing to overtake. -/
theorem stateOrdered_of_valueForm {blk : Block} (h : ∀ o ∈ blk.ops, o.inner.kind.valueForm)
    (htables : TablesImported blk) (K : List OpId) : StateOrdered blk K := by
  refine pairwise_iff_forall_sublist.mpr fun {p o} hsub _ _ c hc => ?_
  have hp : p ∈ blk.ops := hsub.subset (by simp)
  obtain ⟨t, rfl⟩ : ∃ t, c = .table t := by
    rcases hc with ⟨hr, _⟩ | ⟨hw, _⟩
    · exact OpKind.valueForm_reads (h p hp) hr
    · exact OpKind.valueForm_writes (h p hp) hw
  exact ⟨t, rfl, htables p hp t hc.table?.1, htables o (hsub.subset (by simp)) t hc.table?.2⟩

section Sides

variable {f : FuncOp} {blk : Block} {S : List Vertex} {o : Operation} {K : List OpId} {v : Value}

theorem inSink_iff (ho : o ∈ f.operations) : inSink (sinkOps f S) o = true ↔ .op o.id ∉ S := by
  rw [inSink, decide_eq_true_iff]
  exact mem_sinkOps ho

theorem inSink_eq_false (ho : o ∈ f.operations) :
    inSink (sinkOps f S) o = false ↔ .op o.id ∈ S := by
  rw [← Bool.not_eq_true, inSink_iff ho, not_not]

theorem freshValue_not_mem (ho : o ∈ blk.ops) :
    blk.freshValue ∉ o.uses ∧ blk.freshValue ∉ o.binds := by
  have hle : ∀ v ∈ o.uses ++ o.binds, v < blk.freshValue := by
    intro v hv
    refine Nat.lt_succ_of_le (le_foldr_max (mem_append_right _ ?_))
    exact mem_flatMap.mpr ⟨o, mem_append_left _ ho, hv⟩
  exact ⟨fun h => lt_irrefl _ (hle _ (mem_append_left _ h)),
    fun h => lt_irrefl _ (hle _ (mem_append_right _ h))⟩

namespace Linearized

variable (hf : Linearized f blk)
include hf

theorem operations : f.operations = blk.operations := by
  simp [FuncOp.operations, hf.blocks]

theorem mem_operations (ho : o ∈ blk.ops) : o ∈ f.operations := by
  rw [hf.operations]
  exact mem_append_left _ ho

theorem binds (ho : o ∈ blk.ops) : o.binds = o.defs := by
  cases o with
  | plain op => rfl
  | guard i ps as body =>
    have hnil := hf.wellFormed.nested _ (hf.mem_operations ho) body (by simp [nested])
    simp [binds, hnil]

/-- The terminator neither uses nor defines a value. -/
theorem term_uses : (blk.term.toOperation blk.termId).uses = [] ∧
      (blk.term.toOperation blk.termId).operands = [] ∧
      (blk.term.toOperation blk.termId).defs = [] := by
  rw [hf.term]
  exact ⟨rfl, rfl, rfl⟩

theorem valueInSink_eq_false :
    valueInSink blk K v = false ↔ ∀ d ∈ blk.ops, v ∈ d.defs → inSink K d = false := by
  simp [valueInSink, Block.operations, hf.term_uses.2.2]

theorem mem_getValuesToTransfer : v ∈ getValuesToTransfer blk K ↔
      (∃ u ∈ blk.ops, inSink K u ∧ v ∈ u.operands) ∧
        ∀ d ∈ blk.ops, v ∈ d.defs → inSink K d = false := by
  rw [getValuesToTransfer, mem_dedup, mem_filter, Bool.not_eq_true', hf.valueInSink_eq_false]
  refine and_congr_left fun _ => ?_
  simp only [mem_flatMap, mem_filter, Block.operations, mem_append, mem_singleton]
  constructor
  · rintro ⟨u, ⟨hu | rfl, hK⟩, hv⟩
    · exact ⟨u, hu, hK, hv⟩
    · rw [hf.term_uses.2.1] at hv
      cases hv
  · rintro ⟨u, hu, hK, hv⟩
    exact ⟨u, ⟨Or.inl hu, hK⟩, hv⟩

theorem eq_of_def {d d' : Operation} (hd : d ∈ blk.ops)
    (hd' : d' ∈ blk.ops) (hv : v ∈ d.defs) (hv' : v ∈ d'.defs) : d = d' := by
  have h := hf.wellFormed.definingOp (hf.mem_operations hd) hv
  rw [hf.wellFormed.definingOp (hf.mem_operations hd') hv'] at h
  exact (Option.some.inj h).symm

theorem not_arg_of_def {d : Operation} (hd : d ∈ blk.ops)
    (hv : v ∈ d.defs) : v ∉ blk.args.map Prod.fst := fun ha =>
  (nodup_append.mp hf.distinct).2.2 v ha v (mem_flatMap.mpr ⟨d, hd, hv⟩) rfl

/-- The sink can be cleaned up when it uses transferred values and its own. -/
theorem sinkErasable_iff : sinkErasable blk K = true ↔ ∀ o ∈ blk.ops, inSink K o → ∀ v ∈ o.uses,
      v ∈ getValuesToTransfer blk K ∨ ∃ d ∈ blk.ops, inSink K d ∧ v ∈ d.defs := by
  simp only [sinkErasable, remainingUses, all_eq_true, mem_filter,
    Bool.and_eq_true, decide_eq_true_eq, Bool.not_eq_true']
  constructor
  · intro h o ho hK v hv
    by_cases ht : v ∈ getValuesToTransfer blk K
    · exact Or.inl ht
    · obtain ⟨harg, hdef⟩ := h o ⟨mem_append_left _ ho, hK⟩ v ⟨hv, ht⟩
      rcases hf.dominated.mem ho hv with ha | ⟨d, hd, hvd⟩
      · exact absurd ha harg
      · refine Or.inr ⟨d, hd, ?_, hvd⟩
        by_contra hn
        exact hdef d ⟨mem_append_left _ hd, Bool.not_eq_true _ ▸ hn⟩ hvd
  · rintro h o ⟨ho, hK⟩ v ⟨hv, ht⟩
    rcases mem_append.mp ho with ho | ho
    · rcases h o ho hK v hv with hv' | ⟨d, hd, hKd, hvd⟩
      · exact absurd hv' ht
      · refine ⟨hf.not_arg_of_def hd hvd, ?_⟩
        rintro d' ⟨hd', hKd'⟩ hvd'
        rcases mem_append.mp hd' with hd' | hd'
        · rw [hf.eq_of_def hd' hd hvd' hvd, hKd] at hKd'
          cases hKd'
        · rw [mem_singleton.mp hd', hf.term_uses.2.2] at hvd'
          cases hvd'
    · rw [mem_singleton.mp ho, hf.term_uses.1] at hv
      cases hv

/-- The source can be cleaned up when it uses nothing that the sink defines. -/
theorem sourceErasable_iff {name : String} :
    sourceErasable name blk K = true ↔ ∀ o ∈ blk.ops, inSink K o = false → ∀ v ∈ o.uses,
      ∀ d ∈ blk.ops, v ∈ d.defs → inSink K d = false := by
  simp only [sourceErasable, all_eq_true, mem_append, mem_filter, Bool.not_eq_true',
    hf.valueInSink_eq_false]
  constructor
  · intro h o ho hK
    exact h o (Or.inl ⟨mem_append_left _ ho, hK⟩)
  · rintro h o (⟨ho, hK⟩ | ho) v hv
    · rcases mem_append.mp ho with ho | ho
      · exact h o ho hK v hv
      · rw [mem_singleton.mp ho, hf.term_uses.1] at hv
        cases hv
    · -- the event is made of values outside of the sink, and is new itself
      simp only [createGenerate, mem_cons, not_mem_nil, or_false] at ho
      rcases ho with rfl | rfl
      · have hv' : v ∈ getValuesToTransfer blk K := by simpa [uses] using hv
        exact (hf.mem_getValuesToTransfer.mp hv').2
      · have hv' : v = blk.freshValue := by simpa [uses] using hv
        subst hv'
        intro d hd hvd
        exact absurd (hf.binds hd ▸ hvd) (freshValue_not_mem hd).2

/-- For a cut that keeps definitions before uses, only guards can make the
splitter fail. -/
theorem erasable_iff (hcut : CutSound f.operations S) : (sinkErasable blk (sinkOps f S) = true ∧
      sourceErasable f.name blk (sinkOps f S) = true) ↔ GuardsClosed blk (sinkOps f S) := by
  rw [hf.sinkErasable_iff, hf.sourceErasable_iff]
  have hop : ∀ u ∈ blk.ops, inSink (sinkOps f S) u → ∀ v ∈ u.operands,
      v ∈ getValuesToTransfer blk (sinkOps f S) ∨
        ∃ d ∈ blk.ops, inSink (sinkOps f S) d ∧ v ∈ d.defs := by
    intro u hu hK v hv
    by_cases hd : ∃ d ∈ blk.ops, inSink (sinkOps f S) d ∧ v ∈ d.defs
    · exact Or.inr hd
    · refine Or.inl (hf.mem_getValuesToTransfer.mpr ⟨⟨u, hu, hK, hv⟩, ?_⟩)
      intro d hdm hvd
      by_contra hn
      exact hd ⟨d, hdm, by simpa using hn, hvd⟩
  constructor
  · rintro ⟨hsink, hsrc⟩ o ho v hv
    have huse : v ∈ o.uses := mem_uses.mpr (Or.inr hv)
    split_ifs with hK
    · rcases hsink o ho hK v huse with ht | hd
      · exact Or.inr (hf.mem_getValuesToTransfer.mp ht).1
      · exact Or.inl hd
    · exact hsrc o ho (by simpa using hK) v huse
  · intro hguard
    constructor
    · intro o ho hK v hv
      rcases mem_uses.mp hv with hv | hv
      · exact hop o ho hK v hv
      · have h := hguard o ho v hv
        rw [if_pos hK] at h
        rcases h with hd | ⟨u, hu, hKu, hvu⟩
        · exact Or.inr hd
        · exact hop u hu hKu v hvu
    · intro o ho hK v hv d hd hvd
      rcases mem_uses.mp hv with hv | hv
      · have hoS := (inSink_eq_false (hf.mem_operations ho)).mp hK
        exact (inSink_eq_false (hf.mem_operations hd)).mpr
          (hcut.defs o (hf.mem_operations ho) hoS v hv d (hf.mem_operations hd) hvd)
      · have h := hguard o ho v hv
        rw [if_neg (by simp [hK])] at h
        exact h d hd hvd

section

variable (hcut : CutSound f.operations S)
  (hguard : GuardsClosed blk (sinkOps f S))
include hcut hguard

/-- All accesses to a table, guarded ones too, are on the side of its import. -/
theorem import_side {i : Operation} (ho : o ∈ blk.ops)
    (hi : i ∈ blk.ops) (himp : i.isImport) (hvi : v ∈ i.defs) (hvo : v ∈ o.inner.operands) :
    inSink (sinkOps f S) o = inSink (sinkOps f S) i := by
  have hplain : ∀ u ∈ blk.ops, v ∈ u.operands →
      inSink (sinkOps f S) u = inSink (sinkOps f S) i := by
    intro u hu hvu
    rw [Bool.eq_iff_iff, inSink_iff (hf.mem_operations hu), inSink_iff (hf.mem_operations hi)]
    exact not_congr (hcut.imports i (hf.mem_operations hi) himp v hvi u
      (hf.mem_operations hu) hvu)
  cases o with
  | plain op => exact hplain _ ho hvo
  | guard j ps as body =>
    have h := hguard _ ho v hvo
    split_ifs at h with hK
    · rw [hK]
      rcases h with ⟨d, hd, hKd, hvd⟩ | ⟨u, hu, hKu, hvu⟩
      · rw [hf.eq_of_def hi hd hvi hvd, hKd]
      · rw [← hplain u hu hvu, hKu]
    · rw [Bool.not_eq_true] at hK
      rw [hK, h i hi hvi]

variable {p : Operation} {t : String}

/-- Accesses to one imported table are on one side. -/
theorem table_side (ho : o ∈ blk.ops) (hp : p ∈ blk.ops) (hot : UsesImport blk o t)
    (hpt : UsesImport blk p t) : inSink (sinkOps f S) o = inSink (sinkOps f S) p := by
  obtain ⟨i, hi, hki, v, hvi, hvo⟩ := hot
  obtain ⟨j, hj, hkj, w, hwj, hwp⟩ := hpt
  have himp : i.isImport := by simp [isImport, hki]
  obtain rfl : j = i := hf.imports i (hf.mem_operations hi) j (hf.mem_operations hj) himp
    (hkj.trans hki.symm)
  rw [hf.import_side hcut hguard ho hi himp hvi hvo, hf.import_side hcut hguard hp hi himp hwj hwp]

/-- A sink operation is independent of the source operations behind it. -/
theorem independent (hst : StateOrdered blk (sinkOps f S)) :
    blk.ops.Pairwise fun p o => inSink (sinkOps f S) p → inSink (sinkOps f S) o = false →
      p.Independent o := by
  have hdefs : blk.ops.Pairwise (Function.onFun List.Disjoint defs) :=
    (nodup_flatMap.mp (nodup_append.mp hf.distinct).2.1).2
  have hord := hf.dominated.pairwise hf.distinct
  have hsrc := hf.sourceErasable_iff.mp ((hf.erasable_iff hcut).mpr hguard).2
  refine (hdefs.and (hord.and hst)).imp_of_mem ?_
  rintro p o hp ho ⟨hdisj, hlater, hcells⟩ hKp hKo
  have hconf : ∀ c, ¬ p.conflicts o c := by
    intro c hc
    obtain ⟨t, -, hpt, hot⟩ := hcells hKp hKo c hc
    have hside := hf.table_side hcut hguard ho hp hot hpt
    rw [hKp, hKo] at hside
    cases hside
  constructor
  · intro v hv hu
    rw [hf.binds hp] at hv
    have hfalse := hsrc o ho hKo v hu p hp hv
    rw [hKp] at hfalse
    cases hfalse
  · intro v hv
    rw [hf.binds ho] at hv
    exact hlater v hv
  · intro v hv hv'
    rw [hf.binds hp] at hv
    rw [hf.binds ho] at hv'
    exact hdisj hv hv'
  · intro c hr hw
    exact hconf c (Or.inl ⟨hr, hw⟩)
  · intro c hr hw
    exact hconf c (Or.inr ⟨hw, Or.inl hr⟩)
  · intro c hw hw'
    exact hconf c (Or.inr ⟨hw, Or.inr hw'⟩)

end

end Linearized

end Sides

end Alkali
