import Alkali.Mapping.Canonicalize

/-!
# The events between the stages

Renaming the events of a stage changes nothing but the event that carries values to
the next stage exactly if the stage has no other event.
-/

namespace Alkali

open List Operation

namespace FuncOp

variable {f g : FuncOp} {next : HandlerFullName} {init carrier : PlainOp} {o : Operation}

theorem toRename_eq (hf : f.WellFormed) (hc : f.IsCarrier carrier)
    (honly : ∀ o ∈ f.operations, o.isEventInit → o = .plain carrier) :
    f.toRename = [carrier] := by
  have hnd : (f.operations.filter isEventInit).Nodup :=
    ((nodup_append.mp hf.ids).1.of_map _).filter _
  have hall : ∀ o ∈ f.operations.filter isEventInit, o = .plain carrier := by
    intro o ho
    obtain ⟨ho, hev⟩ := mem_filter.mp ho
    exact honly o ho hev
  have hmem : .plain carrier ∈ f.operations.filter isEventInit :=
    mem_filter.mpr ⟨hc.mem, hc.event⟩
  have hperm : (f.operations.filter isEventInit).Perm [.plain carrier] := by
    refine (perm_ext_iff_of_nodup hnd (nodup_singleton _)).mpr fun o => ?_
    rw [mem_singleton]
    exact ⟨hall o, fun h => h ▸ hmem⟩
  rw [toRename, perm_singleton.mp hperm]
  rfl

/-- Events that are left over start with a new atom. -/
theorem head?_of_mem_renameInits {inits : List PlainOp} {g' : FuncOp}
    (h : inits.foldlM (fun g init => g.renameInit next init) g = some g')
    (hle : f.nextValue ≤ g.nextValue)
    (hg : ∀ o ∈ g.operations, o.isEventInit →
      o.inner ∈ inits ∨ ∃ c, f.nextValue ≤ c ∧ o.inner.operands.head? = some c)
    (hinits : ∀ init ∈ inits, isEventInit (.plain init)) :
    ∀ o ∈ g'.operations, o.isEventInit →
      ∃ c, f.nextValue ≤ c ∧ o.inner.operands.head? = some c := by
  induction inits generalizing g with
  | nil =>
    obtain rfl := Option.some.inj h
    exact fun o ho hev => (hg o ho hev).resolve_left (not_mem_nil)
  | cons init inits ih =>
    obtain ⟨g₁, hg₁, h⟩ := Option.bind_eq_some_iff.mp h
    have hev := hinits init mem_cons_self
    have hbody : .plain init ∈ g.bodyOps := by
      refine (mem_operations_iff_body.mp (renameInit_eq_some hg₁).1).resolve_right ?_
      rintro ⟨blk, -, hterm⟩
      exact isEventInit_term blk.term blk.termId (hterm ▸ hev)
    refine ih h (hle.trans (nextValue_le_renameInit hg₁ hbody)) ?_
      fun i hi => hinits i (mem_cons_of_mem _ hi)
    intro o ho hoevent
    rcases (mem_renameInit hg₁).mp ho with ⟨p, hp, ho⟩ | ⟨blk, -, rfl⟩
    · rcases mem_renameOp.mp ho with ⟨-, ho⟩ | ⟨hne, -, rfl⟩
      · exact Or.inr ⟨_, hle, head?_of_mem_forward ho hoevent⟩
      · refine (hg o (mem_operations_of_body hp) hoevent).imp_left fun hmem => ?_
        refine (mem_cons.mp hmem).resolve_left fun heq => hne ?_
        cases o with
        | plain op => exact congrArg _ heq
        | guard _ _ _ _ => cases hoevent
    · exact absurd hoevent (isEventInit_term _ _)

theorem OnlyCarrier.only (hg : f.renameInits next = some g) (h : f.OnlyCarrier g carrier next) :
    ∀ o ∈ f.operations, o.isEventInit → o = .plain carrier := by
  intro o ho hev
  cases o with
  | guard _ _ _ _ => cases hev
  | plain init =>
    by_contra hne
    obtain ⟨init', hmem, hkind, hops, -⟩ :=
      h.others init ho hev fun heq => hne (congrArg _ heq)
    have hhead := head?_of_mem_renameInits (f := f) hg le_rfl ?_ ?_ _ hmem ?_
    · obtain ⟨c, hc, hhead⟩ := hhead
      have hlt : c < f.nextValue := by
        refine lt_nextValue (mem_values_of_uses ho ?_)
        rw [inner_plain, hops] at hhead
        exact mem_append_left _ (mem_of_mem_head? hhead)
      exact absurd hc (Nat.not_le.mpr hlt)
    · intro p hp hpevent
      exact Or.inl (mem_map_of_mem (mem_filter.mpr ⟨hp, hpevent⟩))
    · intro i hi
      obtain ⟨p, hp, rfl⟩ := mem_map.mp hi
      obtain ⟨-, hpevent⟩ := mem_filter.mp hp
      cases p with
      | plain op => exact hpevent
      | guard _ _ _ _ => cases hpevent
    · rw [isEventInit, kind?, hkind]
      exact hev

section

variable (hf : f.WellFormed) (hc : f.IsCarrier carrier)
include hf hc

/-- With one event, the pass renames it and nothing else. -/
theorem renameInits_eq (honly : ∀ o ∈ f.operations, o.isEventInit → o = .plain carrier) :
    f.renameInits next = f.renameInit next carrier := by
  rw [renameInits, toRename_eq hf hc honly, foldlM_cons]
  cases f.renameInit next carrier <;> rfl

theorem OnlyCarrier.sendsOnly
    (hg : f.renameInits next = some g) (h : f.OnlyCarrier g carrier next) :
    f.SendsOnly carrier := by
  have honly := h.only hg
  rw [renameInits_eq hf hc honly] at hg
  refine ⟨honly, fun o ho hev huser => ?_, fun w truth hw v hv => ?_⟩
  · by_contra hret
    have hkept := h.kept o ho hev fun v hv hkind hmem => hret ⟨hkind, v, hv, hmem⟩
    rcases (mem_renameInit hg).mp hkept with ⟨p, hp, hop⟩ | ⟨blk, hblk, rfl⟩
    · rcases mem_renameOp.mp hop with ⟨-, hnew⟩ | ⟨-, hkeep, rfl⟩
      · simp only [forward, mem_cons, not_mem_nil, or_false] at hnew
        rcases hnew with rfl | rfl | rfl
        · simp [isUser, uses] at huser
        · exact hev rfl
        · have hlt := lt_nextValue (mem_values_of_uses ho (mem_cons_self))
          exact Nat.not_lt_of_le (Nat.le_succ _) hlt
      · exact hkeep huser
    · have herase := (renameInit_eq_some hg).2.1
      rw [usersErasable, Bool.and_eq_true, all_eq_true, all_eq_true] at herase
      simpa [huser] using herase.2 blk hblk
  · obtain ⟨init, tys, hinit, hkind, -, -, -, hsame⟩ := h.renamed
    have hev : isEventInit (.plain init) := by
      simp [isEventInit, kind?, hkind]
    rcases (mem_renameInit hg).mp hinit with ⟨p, hp, hop⟩ | ⟨blk, -, hterm⟩
    · rcases mem_renameOp.mp hop with ⟨-, hnew⟩ | ⟨hne, -, rfl⟩
      · simp only [forward, mem_cons, not_mem_nil, or_false] at hnew
        rcases hnew with hnew | hnew | hnew
        · cases hnew
          cases hev
        · cases hnew
          rw [← hsame w truth hw v hv _ (mem_singleton_self _), timesReturned_renameInit hg]
        · cases hnew
          cases hev
      · exact absurd (honly _ (mem_operations_of_body hp) hev) hne
    · exact absurd (hterm ▸ hev) (isEventInit_term _ _)

theorem SendsOnly.usersErasable (h : f.SendsOnly carrier) : f.usersErasable carrier := by
  have hret : ∀ o ∈ f.operations, isUser carrier o → o.inner.kind = .ret := by
    intro o ho huser
    by_cases hev : o.isEventInit
    · rw [h.only o ho hev] at huser
      exact absurd huser hc.operands
    · exact (h.users o ho hev huser).1
  rw [FuncOp.usersErasable, Bool.and_eq_true, all_eq_true, all_eq_true]
  constructor
  · intro o ho
    rw [Bool.or_eq_true, Bool.not_eq_true']
    by_cases huser : isUser carrier o
    · right
      have hdefs : o.defs = [] := by
        cases o with
        | guard _ _ _ _ => rfl
        | plain op =>
          have hkind : isReturn (.plain op) := by
            simpa [isReturn, kind?] using hret _ ho huser
          rw [defs, hf.returns _ ho hkind]
          rfl
      rw [hdefs]
      rfl
    · exact Or.inl (by simpa using huser)
  · intro blk hblk
    rw [Bool.not_eq_true', Bool.eq_false_iff]
    intro huser
    have hmem : blk.term.toOperation blk.termId ∈ f.operations :=
      mem_operations_iff_body.mpr (Or.inr ⟨blk, hblk, rfl⟩)
    have hkind := hret _ hmem huser
    cases hterm : blk.term <;> rw [hterm] at hkind <;> cases hkind

theorem SendsOnly.onlyCarrier (h : f.SendsOnly carrier) :
    ∃ g, f.renameInits next = some g ∧ f.OnlyCarrier g carrier next := by
  have hbody := hc.mem_bodyOps
  rw [renameInits_eq hf hc h.only]
  obtain ⟨g, hg⟩ : ∃ g, f.renameInit next carrier = some g := by
    rw [renameInit, if_pos ⟨hc.mem, h.usersErasable hf hc⟩]
    exact ⟨_, rfl⟩
  refine ⟨g, hg, ⟨?_, ?_, ?_⟩⟩
  · have hnew := forward_subset hg hbody (mem_cons_of_mem _ mem_cons_self)
    refine ⟨_, _, mem_operations_of_body hnew, rfl, fullName_renameInit hg hbody _, rfl,
      ⟨_, rfl⟩, fun w truth hw v hv v' hv' => ?_⟩
    obtain rfl := mem_singleton.mp hv'
    rw [timesReturned_renameInit hg, h.returned w truth hw v hv]
  · intro init hinit hev hne
    exact absurd (plain.inj (h.only _ hinit hev)) hne
  · intro o ho hev hret
    rw [mem_renameInit hg]
    refine (mem_operations_iff_body.mp ho).imp_left fun hbody => ⟨o, hbody, ?_⟩
    refine mem_renameOp.mpr (Or.inr ⟨fun heq => hev (heq ▸ hc.event), fun huser => ?_, rfl⟩)
    obtain ⟨hkind, v, hv, hmem⟩ := h.users o ho hev huser
    exact hret v hv hkind hmem

end

end FuncOp

/-! ## The pipeline -/

variable {mode : String} {first : HandlerFullName} {stages out : List ModuleFunc}

/-- What becomes of a stage: it gets its name, and its events the name of the next
stage, if there is one. -/
theorem canonicalizeFrom_eq_some {k : Nat} (h : canonicalizeFrom mode first k stages = some out) :
    out.length = stages.length ∧ ∀ i s s', stages[i]? = some s → out[i]? = some s' →
      s'.fullName = stageName mode first (k + i) ∧
      (i + 1 < stages.length → ∃ g n,
        s.func.renameInits (stageName mode first (k + i + 1)) = some g ∧
          s'.func = { g with name := n }) := by
  induction stages generalizing k out with
  | nil =>
    obtain rfl := Option.some.inj h
    exact ⟨rfl, fun i s s' hs => by simp at hs⟩
  | cons s rest ih =>
    cases rest with
    | nil =>
      obtain rfl := Option.some.inj h
      refine ⟨rfl, fun i t t' ht ht' => ?_⟩
      cases i with
      | zero =>
        obtain rfl := Option.some.inj ht'
        exact ⟨rfl, fun hlt => absurd hlt (lt_irrefl _)⟩
      | succ i => simp at ht
    | cons t rest =>
      obtain ⟨g, hg, h⟩ := Option.bind_eq_some_iff.mp h
      obtain ⟨outs, houts, h⟩ := Option.bind_eq_some_iff.mp h
      obtain rfl := Option.some.inj h
      obtain ⟨hlen, hrest⟩ := ih houts
      refine ⟨by simp [hlen], fun i u u' hu hu' => ?_⟩
      cases i with
      | zero =>
        obtain rfl := Option.some.inj hu
        obtain rfl := Option.some.inj hu'
        exact ⟨rfl, fun _ => ⟨g, _, hg, rfl⟩⟩
      | succ i =>
        obtain ⟨hname, hfunc⟩ := hrest i u u' hu hu'
        rw [show k + (i + 1) = k + 1 + i by omega]
        exact ⟨hname, fun hlt => hfunc (by simpa using hlt)⟩

theorem exists_canonicalizeFrom {k : Nat} (h : ∀ i s, i + 1 < stages.length → stages[i]? = some s →
      ∃ g, s.func.renameInits (stageName mode first (k + i + 1)) = some g) :
    ∃ out, canonicalizeFrom mode first k stages = some out := by
  induction stages generalizing k with
  | nil => exact ⟨_, rfl⟩
  | cons s rest ih =>
    cases rest with
    | nil => exact ⟨_, rfl⟩
    | cons t rest =>
      obtain ⟨g, hg⟩ := h 0 s (by simp) rfl
      obtain ⟨outs, houts⟩ := ih (k := k + 1) fun i u hlt hu => by
        have := h (i + 1) u (by simpa using hlt) hu
        rwa [show k + (i + 1) + 1 = k + 1 + i + 1 by omega] at this
      exact ⟨_, by rw [canonicalizeFrom, hg, houts]; rfl⟩

theorem FuncOp.OnlyCarrier.of_name {f g : FuncOp} {carrier : PlainOp} {next : HandlerFullName}
    {n n' : String} (h : f.OnlyCarrier { g with name := n } carrier next) :
    f.OnlyCarrier { g with name := n' } carrier next :=
  ⟨h.renamed, h.others, h.kept⟩

/-- For every pipeline, `preMappingCanonicalize` gives the events that carry values to
the next stage the name of that stage and changes nothing else, exactly if no stage but
the last has another event and each of them returns its event once wherever it is
initialised. -/
theorem preMappingCanonicalize_onlyCarrier_iff (mode : String) (pipeline : List ModuleFunc)
    (carrier : Nat → PlainOp) (hwf : ∀ s ∈ pipeline, s.func.WellFormed)
    (hcarrier : ∀ i s, i + 1 < pipeline.length → pipeline[i]? = some s →
      s.func.IsCarrier (carrier i)) :
    (∃ out, preMappingCanonicalize mode pipeline = some out ∧ out.length = pipeline.length ∧
        ∀ i s s' t', pipeline[i]? = some s → out[i]? = some s' → out[i + 1]? = some t' →
          s.func.OnlyCarrier s'.func (carrier i) t'.fullName) ↔
      ∀ i s, i + 1 < pipeline.length → pipeline[i]? = some s → s.func.SendsOnly (carrier i) := by
  cases hpipe : pipeline with
  | nil => simp [preMappingCanonicalize]
  | cons s₀ rest =>
    rw [preMappingCanonicalize, ← hpipe]
    constructor
    · rintro ⟨out, hout, hlen, honly⟩ i s hlt hs
      obtain ⟨-, hstages⟩ := canonicalizeFrom_eq_some hout
      obtain ⟨s', hs'⟩ : ∃ s', out[i]? = some s' := ⟨_, getElem?_eq_getElem (by omega)⟩
      obtain ⟨t', ht'⟩ : ∃ t', out[i + 1]? = some t' :=
        ⟨_, getElem?_eq_getElem (by omega)⟩
      obtain ⟨t, ht⟩ : ∃ t, pipeline[i + 1]? = some t := ⟨_, getElem?_eq_getElem hlt⟩
      obtain ⟨-, hfunc⟩ := hstages i s s' hs hs'
      obtain ⟨g, n, hg, hfunc⟩ := hfunc hlt
      have hcar := honly i s s' t' hs hs' ht'
      rw [hfunc, (hstages (i + 1) t t' ht ht').1] at hcar
      exact hcar.of_name.sendsOnly (hwf s (mem_of_getElem? hs)) (hcarrier i s hlt hs) hg
    · intro h
      have hnext : ∀ i s, i + 1 < pipeline.length → pipeline[i]? = some s →
          ∃ g, s.func.renameInits (stageName mode s₀.firstName (0 + i + 1)) = some g ∧
            s.func.OnlyCarrier g (carrier i) (stageName mode s₀.firstName (0 + i + 1)) :=
        fun i s hlt hs => (h i s hlt hs).onlyCarrier (hwf s (mem_of_getElem? hs))
          (hcarrier i s hlt hs)
      obtain ⟨out, hout⟩ := exists_canonicalizeFrom
        fun i s hlt hs => (hnext i s hlt hs).imp fun _ => And.left
      obtain ⟨hlen, hstages⟩ := canonicalizeFrom_eq_some hout
      refine ⟨out, hout, hlen, fun i s s' t' hs hs' ht' => ?_⟩
      have hlt : i + 1 < pipeline.length :=
        hlen ▸ (List.getElem?_eq_some_iff.mp ht').1
      obtain ⟨t, ht⟩ : ∃ t, pipeline[i + 1]? = some t := ⟨_, getElem?_eq_getElem hlt⟩
      obtain ⟨g, hg, hcar⟩ := hnext i s hlt hs
      obtain ⟨-, hfunc⟩ := hstages i s s' hs hs'
      obtain ⟨g', n, hg', hfunc⟩ := hfunc hlt
      obtain rfl := Option.some.inj (hg.symm.trans hg')
      rw [hfunc, (hstages (i + 1) t t' ht ht').1]
      exact hcar.of_name (n := g.name)

/-! ## A handler in two stages -/

open SplitFunction

variable (ops : List Operation)

/-- A handler that hashes its argument and sends the hash, after other operations. -/
def hashBlock : Block where
  args := [(0, .context), (1, .int 32), (2, .int 1)]
  ops := ops ++ [
    .plain ⟨13, .compute "hash", [1], [(4, .int 32)]⟩,
    .plain ⟨14, .init (.struct true [.context, .int 32] "NET_SEND"), [0, 4],
      [(5, .struct true [.context, .int 32] "NET_SEND")]⟩,
    .plain ⟨15, .ret, [5], []⟩]
  termId := 16
  term := .terminate

def hashHandler : ModuleFunc where
  id := 0
  func := ⟨"__handler_NET_RECV", [hashBlock ops]⟩
  type := .handler
  isExtern := false
  event := some "NET_RECV"
  atom := none
  generationIndex := none
  instances := none

/-- The second stage sends the hash. -/
def hashPipeline : List ModuleFunc :=
  let stages := (hashHandler ops).splitInto 1 2
    (sourceFunc "__handler_NET_RECV" (hashBlock ops) [14, 15, 16])
    (sinkFunc "__handler_NET_RECV" (hashBlock ops) [14, 15, 16])
  [stages.1, stages.2]

/-- The event that `functionSplitter` puts into the first stage. -/
def hashCarrier : PlainOp :=
  ⟨17, .init (.struct true [.context, .int 32] "__handler_NET_RECV_sink"), [0, 4],
    [(6, .struct true [.context, .int 32] "__handler_NET_RECV_sink")]⟩

theorem preMappingCanonicalize_hashPipeline :
    ∃ out, preMappingCanonicalize "netronome" (hashPipeline []) = some out ∧
      out.length = (hashPipeline []).length ∧
      ∀ i s s' t', (hashPipeline [])[i]? = some s → out[i]? = some s' → out[i + 1]? = some t' →
        s.func.OnlyCarrier s'.func hashCarrier t'.fullName := by
  have hwf : ∀ s ∈ hashPipeline [], s.func.WellFormed := by
    rintro s hs
    rcases mem_pair.mp hs with rfl | rfl <;>
    exact ⟨by decide, by decide, by decide, by decide⟩
  refine (preMappingCanonicalize_onlyCarrier_iff "netronome" (hashPipeline [])
    (fun _ => hashCarrier) hwf ?_).mpr ?_
  · rintro (_ | i) s hlt hs
    · obtain rfl := Option.some.inj hs
      exact ⟨by decide, by decide, by decide⟩
    · exact absurd hlt (by simp [hashPipeline])
  · rintro (_ | i) s hlt hs
    · obtain rfl := Option.some.inj hs
      refine ⟨by decide, by decide, fun w truth hw v hv => ?_⟩
      obtain rfl := mem_singleton.mp hv
      cases hw.walk with
      | stop _ => rfl
      | go h _ => cases h
    · exact absurd hlt (by simp [hashPipeline])

/-- A guarded event before the hash. -/
def alertOps : List Operation :=
  [.plain ⟨10, .init (.struct true [.context] "ALERT"), [0],
      [(3, .struct true [.context] "ALERT")]⟩,
    .guard 11 [2] [true] ⟨12, .ret, [3], []⟩]

/-- The alert becomes an event of the second stage, without a condition. -/
theorem preMappingCanonicalize_alert :
    functionSplitter "__handler_NET_RECV" (hashBlock alertOps) [14, 15, 16] =
        some (sourceFunc "__handler_NET_RECV" (hashBlock alertOps) [14, 15, 16],
          sinkFunc "__handler_NET_RECV" (hashBlock alertOps) [14, 15, 16]) ∧
      ((preMappingCanonicalize "netronome" (hashPipeline alertOps)).map fun out =>
        out.head?.map fun s => s.func.operations.take 3) = some (some [
          .plain ⟨20, .constant "main_1", [], [(7, .atom)]⟩,
          .plain ⟨21, .init (.struct true [.atom, .context] "NET_RECV_1"), [7, 0],
            [(8, .struct true [.atom, .context] "NET_RECV_1")]⟩,
          .plain ⟨22, .ret, [8], []⟩]) ∧
      ¬ ∃ out, preMappingCanonicalize "netronome" (hashPipeline alertOps) = some out ∧
        out.length = (hashPipeline alertOps).length ∧
        ∀ i s s' t', (hashPipeline alertOps)[i]? = some s → out[i]? = some s' →
          out[i + 1]? = some t' → s.func.OnlyCarrier s'.func hashCarrier t'.fullName := by
  refine ⟨by decide, by decide +kernel, ?_⟩
  rintro ⟨out, hout, hlen, honly⟩
  have hgone : ((preMappingCanonicalize "netronome" (hashPipeline alertOps)).all fun out =>
      out.all fun s => s.func.operations.all fun o =>
        o.inner.kind ≠ .init (.struct true [.context] "ALERT")) = true := by decide +kernel
  have hs' : ∃ s' t', out[0]? = some s' ∧ out[1]? = some t' :=
    ⟨_, _, getElem?_eq_getElem (hlen ▸ by decide), getElem?_eq_getElem (hlen ▸ by decide)⟩
  obtain ⟨s', t', hs', ht'⟩ := hs'
  obtain ⟨init, hmem, hkind, -⟩ := (honly 0 _ s' t' rfl hs' ht').others
    ⟨10, .init (.struct true [.context] "ALERT"), [0], [(3, .struct true [.context] "ALERT")]⟩
    (by decide) (by decide) (by decide)
  rw [hout] at hgone
  have hops := all_eq_true.mp hgone s' (mem_of_getElem? hs')
  simpa [hkind] using all_eq_true.mp hops _ hmem

end Alkali
