import Alkali.Fpga.Predicate
import Mathlib.Order.Lattice.Nat

/-!
# The predicates of the blocks that a run executes

The blocks of a run form a trail: each block's branch leads to the next one. In an acyclic
function only one block of the trail leads to a given block. A block has a one if all its
incoming edges have one, so a block with two incoming edges has a zero even if it is executed.
-/

namespace Alkali

open List FuncOp

namespace FuncOp

variable {Val : Type} [Inhabited Val] [DecidableEq Val]
variable (I : Interp Val) (obs : OpKind → Bool) (f : FuncOp)

/-- The blocks that a run executes, each with the state before its branch. -/
def visits : Nat → Nat → State Val → List (Nat × State Val)
  | 0, _, _ => []
  | n + 1, b, s =>
    let t := exec I obs (f.opsOf b) s
    (b, t) :: match f.termOf b with
      | .terminate => []
      | .br dest args => visits n dest (t.bind (f.argsOf dest) args)
      | .condBr cond trueDest trueArgs falseDest falseArgs =>
        if I.truth (t.env cond) then visits n trueDest (t.bind (f.argsOf trueDest) trueArgs)
        else visits n falseDest (t.bind (f.argsOf falseDest) falseArgs)

end FuncOp

namespace Fpga

/-- The wires carry the conditions of the branches that a run executes. -/
def Agrees {Val : Type} (f : FuncOp) (I : Interp Val) (ν : Value → Bool)
    (blocks : List (Nat × State Val)) : Prop :=
  ∀ x ∈ blocks, ∀ cond d args d' args', f.termOf x.1 = .condBr cond d args d' args' →
    ν cond = I.truth (x.2.env cond)

/-- The blocks that the branches lead through. -/
def trail (f : FuncOp) (ν : Value → Bool) : Nat → Nat → List Nat
  | 0, _ => []
  | n + 1, b => b :: match nextBlock f ν b with
    | none => []
    | some d => trail f ν n d

/-! ## Trails -/

section Trails

variable {f : FuncOp} {ν : Value → Bool}

theorem trail_of_none {n b : Nat} (h : nextBlock f ν b = none) : trail f ν (n + 1) b = [b] := by
  rw [trail, h]

theorem trail_of_some {n b d : Nat} (h : nextBlock f ν b = some d) :
    trail f ν (n + 1) b = b :: trail f ν n d := by
  rw [trail, h]

theorem mem_trail_self (n b : Nat) : b ∈ trail f ν (n + 1) b := by
  exact mem_cons_self

/-- A member of a trail after its first block is on the rest of it. -/
theorem mem_trail_succ {n b x : Nat} (h : x ∈ trail f ν (n + 1) b) :
    x = b ∨ ∃ d, nextBlock f ν b = some d ∧ x ∈ trail f ν n d := by
  obtain hnone | ⟨d, hsome⟩ := Option.eq_none_or_eq_some (nextBlock f ν b)
  · rw [trail_of_none hnone, mem_singleton] at h
    exact Or.inl h
  · rw [trail_of_some hsome] at h
    exact (mem_cons.mp h).imp_right fun h => ⟨d, hsome, h⟩

theorem mem_trail_of_next {n b d x : Nat} (hnext : nextBlock f ν b = some d)
    (h : x ∈ trail f ν n d) : x ∈ trail f ν (n + 1) b := by
  rw [trail_of_some hnext]
  exact mem_cons_of_mem _ h

/-- Each block of a trail but the first follows another one. -/
theorem exists_before {n b x : Nat} (h : x ∈ trail f ν n b) (hne : x ≠ b) :
    ∃ a ∈ trail f ν n b, nextBlock f ν a = some x := by
  induction n generalizing b with
  | zero => cases h
  | succ n ih =>
    obtain rfl | ⟨d, hnext, hmem⟩ := mem_trail_succ h
    · exact absurd rfl hne
    · by_cases hx : x = d
      · exact ⟨b, mem_trail_self n b, hx ▸ hnext⟩
      · obtain ⟨a, ha, hstep⟩ := ih hmem hx
        exact ⟨a, mem_trail_of_next hnext ha, hstep⟩

section Ranked

variable {rank : Nat → Nat} (hrank : ∀ a d, nextBlock f ν a = some d → rank d < rank a)

include hrank

theorem rank_le_of_mem_trail {n b x : Nat} (h : x ∈ trail f ν n b) : rank x ≤ rank b := by
  induction n generalizing b with
  | zero => cases h
  | succ n ih =>
    obtain rfl | ⟨d, hnext, hmem⟩ := mem_trail_succ h
    · exact Nat.le_refl _
    · exact Nat.le_trans (ih hmem) (Nat.le_of_lt (hrank b d hnext))

/-- At most one block of a trail leads to a block. -/
theorem before_unique {n b x a a' : Nat} (ha : a ∈ trail f ν n b) (ha' : a' ∈ trail f ν n b)
    (hnext : nextBlock f ν a = some x) (hnext' : nextBlock f ν a' = some x) : a = a' := by
  induction n generalizing b with
  | zero => cases ha
  | succ n ih =>
    -- a block further down does not lead back to the second block of the trail
    have hback : ∀ c d, nextBlock f ν b = some d → c ∈ trail f ν n d →
        nextBlock f ν c ≠ some d := by
      intro c d hd hc hcd
      have hle := rank_le_of_mem_trail hrank hc
      have hlt := hrank c d hcd
      omega
    obtain rfl | ⟨d, hd, hmem⟩ := mem_trail_succ ha
    · obtain rfl | ⟨d, hd, hmem⟩ := mem_trail_succ ha'
      · rfl
      · obtain rfl : x = d := Option.some.inj (hnext.symm.trans hd)
        exact absurd hnext' (hback a' x hd hmem)
    · obtain rfl | ⟨d', hd', hmem'⟩ := mem_trail_succ ha'
      · obtain rfl : x = d := Option.some.inj (hnext'.symm.trans hd)
        exact absurd hnext (hback a x hd hmem)
      · obtain rfl : d = d' := Option.some.inj (hd.symm.trans hd')
        exact ih hmem hmem'

end Ranked

end Trails

/-! ## Runs -/

section Runs

variable {Val : Type} [Inhabited Val] [DecidableEq Val]
variable {I : Interp Val} {obs : OpKind → Bool} {f : FuncOp} {ν : Value → Bool}
variable {s t : State Val}

/-- The next block of a run, in the state before its branch. -/
theorem visits_succ {n b : Nat} (hagree : Agrees f I ν (f.visits I obs (n + 1) b s))
    (hrun : f.runFrom I obs (n + 1) b s = some t) :
    nextBlock f ν b = none ∧ (f.visits I obs (n + 1) b s).map Prod.fst = [b] ∨
      ∃ d u, nextBlock f ν b = some d ∧ Agrees f I ν (f.visits I obs n d u) ∧
        f.runFrom I obs n d u = some t ∧ (f.visits I obs (n + 1) b s).map Prod.fst =
          b :: (f.visits I obs n d u).map Prod.fst := by
  have hcond := hagree (b, exec I obs (f.opsOf b) s) (by simp [visits])
  have hrest : ∀ d u, f.runFrom I obs n d u = some t → f.visits I obs (n + 1) b s =
      (b, exec I obs (f.opsOf b) s) :: f.visits I obs n d u → Agrees f I ν (f.visits I obs n d u) ∧
        f.runFrom I obs n d u = some t ∧ (f.visits I obs (n + 1) b s).map Prod.fst =
          b :: (f.visits I obs n d u).map Prod.fst :=
    fun d u hgo heq => ⟨fun x hx => hagree x (heq ▸ mem_cons_of_mem _ hx), hgo,
      by rw [heq, map_cons]⟩
  rw [runFrom] at hrun
  cases hterm : f.termOf b with
  | terminate => exact Or.inl ⟨by simp [nextBlock, hterm], by simp [visits, hterm]⟩
  | br dest args =>
    rw [hterm] at hrun
    exact Or.inr ⟨dest, _, by simp [nextBlock, hterm], hrest dest _ hrun (by simp [visits, hterm])⟩
  | condBr cond d args d' args' =>
    have hbit := hcond cond d args d' args' hterm
    rw [hterm] at hrun
    cases htruth : I.truth ((exec I obs (f.opsOf b) s).env cond) with
    | true =>
      simp only [htruth, if_true] at hrun
      exact Or.inr ⟨d, _, by simp [nextBlock, hterm, hbit, htruth],
        hrest d _ hrun (by simp [visits, hterm, htruth])⟩
    | false =>
      simp only [htruth, Bool.false_eq_true, if_false] at hrun
      exact Or.inr ⟨d', _, by simp [nextBlock, hterm, hbit, htruth],
        hrest d' _ hrun (by simp [visits, hterm, htruth])⟩

/-- A run goes along the trail of its conditions. -/
theorem map_visits {n b : Nat} (hagree : Agrees f I ν (f.visits I obs n b s))
    (hrun : f.runFrom I obs n b s = some t) :
    (f.visits I obs n b s).map Prod.fst = trail f ν n b := by
  induction n generalizing b s with
  | zero => rfl
  | succ n ih =>
    obtain ⟨hnext, hblocks⟩ | ⟨d, u, hnext, hrest, hgo, hblocks⟩ := visits_succ hagree hrun
    · rw [hblocks, trail_of_none hnext]
    · rw [hblocks, trail_of_some hnext, ih hrest hgo]

/-- The trail of a run that ends goes on after each of its blocks that branches. -/
theorem mem_trail_next {n b a d : Nat} (hagree : Agrees f I ν (f.visits I obs n b s))
    (hrun : f.runFrom I obs n b s = some t) (ha : a ∈ trail f ν n b)
    (hnext : nextBlock f ν a = some d) : d ∈ trail f ν n b := by
  induction n generalizing b s with
  | zero => cases ha
  | succ n ih =>
    obtain ⟨hnone, -⟩ | ⟨e, u, hsome, hrest, hgo, -⟩ := visits_succ hagree hrun
    · rw [trail_of_none hnone, mem_singleton] at ha
      rw [ha, hnone] at hnext
      cases hnext
    · obtain rfl | ⟨e', hsome', hmem⟩ := mem_trail_succ ha
      · obtain rfl : d = e := Option.some.inj (hnext.symm.trans hsome)
        cases n with
        | zero => cases hgo
        | succ n => exact mem_trail_of_next hsome (mem_trail_self n d)
      · obtain rfl : e = e' := Option.some.inj (hsome.symm.trans hsome')
        exact mem_trail_of_next hsome (ih hrest hgo hmem)

end Runs

/-! ## The predicates -/

section Predicates

variable {f : FuncOp} {ν : Value → Bool}
variable {b : Nat}

theorem mem_feeds {v : Value} : v ∈ feeds f.insertNewBlockParameter b ↔
    ∃ a blk, f.blocks[a]? = some blk ∧ v ∈ predsTo f b a blk.term := by
  rw [feeds_eq, mem_flatMap]
  constructor
  · rintro ⟨⟨blk, a⟩, hmem, hv⟩
    exact ⟨a, blk, mk_mem_zipIdx_iff_getElem?.mp hmem, hv⟩
  · rintro ⟨a, blk, ha, hv⟩
    exact ⟨(blk, a), mk_mem_zipIdx_iff_getElem?.mpr ha, hv⟩

theorem feeds_eq_nil : feeds f.insertNewBlockParameter b = [] ↔ f.predecessors b = [] := by
  rw [← length_eq_zero_iff, length_feeds, length_eq_zero_iff]

theorem exists_block_of_next {a d : Nat} (h : nextBlock f ν a = some d) :
    ∃ blk, f.blocks[a]? = some blk := by
  obtain hnone | hsome := Option.eq_none_or_eq_some (f.blocks[a]?)
  · simp [nextBlock, termOf, hnone] at h
  · exact hsome

theorem exists_edge_of_next {a d : Nat} (h : nextBlock f ν a = some d) :
    ∃ instrs, (instrs, d) ∈ f.edges a := by
  rw [nextBlock] at h
  rw [edges]
  cases hterm : f.termOf a with
  | terminate => simp [hterm] at h
  | br dest args =>
    obtain rfl : dest = d := by simpa [hterm] using h
    exact ⟨_, mem_singleton.mpr rfl⟩
  | condBr cond e args e' args' =>
    cases hcond : ν cond with
    | true =>
      obtain rfl : e = d := by simpa [hterm, hcond] using h
      exact ⟨_, mem_cons_self⟩
    | false =>
      obtain rfl : e' = d := by simpa [hterm, hcond] using h
      exact ⟨_, mem_cons_of_mem _ mem_cons_self⟩

theorem rank_lt_of_next {rank : Nat → Nat}
    (hrank : ∀ b instrs d, (instrs, d) ∈ f.edges b → rank d < rank b) (a d : Nat)
    (h : nextBlock f ν a = some d) : rank d < rank a := by
  obtain ⟨instrs, hedge⟩ := exists_edge_of_next h
  exact hrank a instrs d hedge

variable (h : Wired f.insertNewBlockParameter ν)
include h

/-- A block that another one's branch leads to has an edge with the other one's predicate. -/
theorem Wired.exists_feed {a : Nat} (hnext : nextBlock f ν a = some b) :
    ∃ v ∈ feeds f.insertNewBlockParameter b, ν v = ν (f.predOf a) := by
  obtain ⟨blk, ha⟩ := exists_block_of_next hnext
  obtain ⟨v, hv, hbit⟩ := h.exists_edge ha hnext
  exact ⟨v, mem_feeds.mpr ⟨a, blk, ha, hv⟩, hbit⟩

/-- Edges with a one that come from one block are at most one edge. -/
theorem Wired.length_feeds_le {a : Nat} (hall : ∀ v ∈ feeds f.insertNewBlockParameter b, ν v = true)
    (hfrom : ∀ c, ν (f.predOf c) = true → nextBlock f ν c = some b → c = a) :
    (feeds f.insertNewBlockParameter b).length ≤ 1 := by
  have hseg : ∀ p ∈ f.blocks.zipIdx, p.2 ≠ a → predsTo f b p.2 p.1.term = [] := by
    intro p hp hne
    refine eq_nil_iff_forall_not_mem.mpr fun v hv => hne ?_
    have hblk := mk_mem_zipIdx_iff_getElem?.mp hp
    obtain ⟨hpred, hnext⟩ := h.edge_iff hblk hv (hall v (mem_feeds.mpr ⟨_, _, hblk, hv⟩))
    exact hfrom p.2 hpred hnext
  have hone : ∀ p ∈ f.blocks.zipIdx, (predsTo f b p.2 p.1.term).length ≤ 1 := by
    intro p hp
    have hblk := mk_mem_zipIdx_iff_getElem?.mp hp
    exact h.length_predsTo_le hblk fun v hv => hall v (mem_feeds.mpr ⟨_, _, hblk, hv⟩)
  have hdist : (f.blocks.zipIdx.map Prod.snd).Nodup := by
    rw [zipIdx_map_snd]
    exact nodup_range' 1 Nat.one_pos
  rw [feeds_eq]
  generalize f.blocks.zipIdx = ps at hseg hone hdist
  induction ps with
  | nil => exact Nat.zero_le _
  | cons p ps ih =>
    rw [forall_mem_cons] at hseg hone
    obtain ⟨hnot, hrest⟩ := nodup_cons.mp hdist
    rw [flatMap_cons, length_append]
    by_cases hp : p.2 = a
    · have hnil : ps.flatMap (fun p => predsTo f b p.2 p.1.term) = [] := by
        refine flatMap_eq_nil_iff.mpr fun q hq => hseg.2 q hq fun hqa => hnot ?_
        exact hp.trans hqa.symm ▸ mem_map_of_mem hq
      rw [hnil]
      exact hone.1
    · rw [hseg.1 hp, length_nil, Nat.zero_add]
      exact ih hseg.2 hone.2 hrest

variable {Val : Type} [Inhabited Val] [DecidableEq Val]
variable {I : Interp Val} {obs : OpKind → Bool} {n : Nat} {s t : State Val}

/-- The blocks with a one are the blocks of the trail, if no block but the first is without
predecessors and the blocks of the trail have one each. -/
theorem Wired.pred_iff_mem_trail (hacyc : f.Acyclic) (hent : f.predecessors 0 = [])
    (hagree : Agrees f I ν (f.visits I obs n 0 s)) (hrun : f.runFrom I obs n 0 s = some t)
    (hpreds : ∀ b < f.blocks.length, b ≠ 0 → f.predecessors b ≠ [] ∧
      (b ∈ trail f ν n 0 → (f.predecessors b).length = 1))
    (hb : b < f.blocks.length) :
    ν (f.predOf b) = true ↔ b ∈ trail f ν n 0 := by
  obtain ⟨rank, hrank⟩ := hacyc
  have hle : ∀ c < f.blocks.length, rank c ≤ (Finset.range f.blocks.length).sup rank :=
    fun c hc => Finset.le_sup (f := rank) (Finset.mem_range.mpr hc)
  -- induction against the edges: the blocks that lead to a block have a greater rank
  induction hk : (Finset.range f.blocks.length).sup rank - rank b using
    Nat.strong_induction_on generalizing b with
  | _ k ih =>
    have hprev : ∀ a, nextBlock f ν a = some b → (ν (f.predOf a) = true ↔ a ∈ trail f ν n 0) := by
      intro a hnext
      obtain ⟨blk, ha⟩ := exists_block_of_next hnext
      have hlt := (List.getElem?_eq_some_iff.mp ha).1
      have hless := rank_lt_of_next hrank a b hnext
      have hbound := hle a hlt
      exact ih _ (by omega) hlt rfl
    by_cases hzero : b = 0
    · subst hzero
      refine iff_of_true (h.pred_of_no_predecessors hb hent) ?_
      cases n with
      | zero => cases hrun
      | succ n => exact mem_trail_self n 0
    · obtain ⟨hne, hsingle⟩ := hpreds b hb hzero
      rw [h.pred_iff hb hne]
      constructor
      · intro hall
        obtain ⟨v, hv⟩ := exists_mem_of_ne_nil _ (mt feeds_eq_nil.mp hne)
        obtain ⟨a, blk, ha, hmem⟩ := mem_feeds.mp hv
        obtain ⟨hpred, hnext⟩ := h.edge_iff ha hmem (hall v hv)
        exact mem_trail_next hagree hrun ((hprev a hnext).mp hpred) hnext
      · intro hvis
        obtain ⟨a, ha, hnext⟩ := exists_before hvis hzero
        obtain ⟨v, hv, hbit⟩ := h.exists_feed hnext
        obtain ⟨w, hw⟩ := length_eq_one_iff.mp
          ((length_feeds b).trans (hsingle hvis))
        rw [hw, mem_singleton] at hv
        rw [hw, forall_mem_singleton, ← hv, hbit]
        exact (hprev a hnext).mpr ha

omit h

/-- In an acyclic function the predicate of a block is one exactly if the block is executed, in
exactly those runs that execute no join and in which no unreachable block is left: a block with
several incoming edges has the conjunction of their predicates, of which one is one, and a
block without incoming edges has the constant. -/
theorem pred_iff_visited (hacyclic : f.Acyclic) (hentry : f.predecessors 0 = [])
    (hrun : f.runFrom I obs n 0 s = some t) (h : Wired f.insertNewBlockParameter ν)
    (hagree : Agrees f I ν (f.visits I obs n 0 s)) :
    (∀ b < f.blocks.length, ν (f.predOf b) = true ↔ b ∈ (f.visits I obs n 0 s).map Prod.fst) ↔
      ∀ b < f.blocks.length, b ≠ 0 → f.predecessors b ≠ [] ∧
        (b ∈ (f.visits I obs n 0 s).map Prod.fst → (f.predecessors b).length = 1) := by
  rw [map_visits hagree hrun]
  refine ⟨fun hiff b hb hzero => ?_, fun hpreds b hb =>
    h.pred_iff_mem_trail hacyclic hentry hagree hrun hpreds hb⟩
  have hfed : b ∈ trail f ν n 0 → f.predecessors b ≠ [] := by
    intro hvis
    obtain ⟨a, -, hnext⟩ := exists_before hvis hzero
    obtain ⟨v, hv, -⟩ := h.exists_feed hnext
    exact mt feeds_eq_nil.mpr (ne_nil_of_mem hv)
  have hne : f.predecessors b ≠ [] := by
    intro hnil
    exact hfed ((hiff b hb).mp (h.pred_of_no_predecessors hb hnil)) hnil
  refine ⟨hne, fun hvis => ?_⟩
  obtain ⟨rank, hrank⟩ := hacyclic
  obtain ⟨a, ha, hnext⟩ := exists_before hvis hzero
  have hall := (h.pred_iff hb hne).mp ((hiff b hb).mpr hvis)
  have hle := h.length_feeds_le (a := a) hall fun c hc hcnext => by
    obtain ⟨blk, hblk⟩ := exists_block_of_next hcnext
    have hmem := (hiff c (List.getElem?_eq_some_iff.mp hblk).1).mp hc
    exact before_unique (rank_lt_of_next hrank) hmem ha hcnext hnext
  rw [length_feeds] at hle
  have hpos := length_pos_iff.mpr hne
  omega

end Predicates

/-! ## Conditionals without and with a join -/

/-- Run one of two blocks. -/
def twoArms : FuncOp :=
  ⟨"handler", [⟨[(0, .int 1)], [], 0, .condBr 0 1 [] 2 []⟩, ⟨[], [], 1, .terminate⟩,
    ⟨[], [], 2, .terminate⟩]⟩

/-- Run one of two blocks, and a third one after it. -/
def diamond : FuncOp :=
  ⟨"handler", [⟨[(0, .int 1)], [], 0, .condBr 0 1 [] 2 []⟩, ⟨[], [], 1, .br 3 []⟩,
    ⟨[], [], 2, .br 3 []⟩, ⟨[], [], 3, .terminate⟩]⟩

/-- The condition, value 0, is one; 4 and 5 are its negation and the predicate of the second
edge, 11 and 16 are the predicates of the blocks 2 and 3. -/
def armBits (v : Value) : Bool := v ∉ [4, 5, 11, 16]

def bitInterp : Interp Bool := ⟨fun _ _ => [], id, fun _ _ v => v⟩

def bitState : State Bool := ⟨fun _ => true, fun _ _ => false, []⟩

theorem twoArms_wired : Wired twoArms.insertNewBlockParameter armBits := by
  refine ⟨by decide, ?_⟩
  rintro (_ | _ | _ | b) blk v hblk hpred hv
  · exact absurd rfl hpred
  all_goals cases hblk
  all_goals
    cases hv
    rfl

theorem diamond_wired : Wired diamond.insertNewBlockParameter armBits := by
  refine ⟨by decide, ?_⟩
  rintro (_ | _ | _ | _ | b) blk v hblk hpred hv
  · exact absurd rfl hpred
  all_goals cases hblk
  all_goals
    cases hv
    rfl

theorem pred_iff_visited_two_arms : twoArms.Acyclic ∧
    ∀ b < 3, armBits (twoArms.predOf b) = true ↔ b ∈ [0, 1] := by
  have hacyc : twoArms.Acyclic := by
    refine ⟨fun b => 3 - b, ?_⟩
    rintro (_ | _ | _ | b) instrs d h <;> simp [twoArms, edges, termOf] at h
    obtain ⟨-, rfl⟩ | ⟨-, rfl⟩ := h <;> decide
  have hagree : Agrees twoArms bitInterp armBits [(0, bitState), (1, bitState)] := by
    intro x hx cond d args d' args' hterm
    simp only [mem_cons, not_mem_nil, or_false] at hx
    obtain rfl | rfl := hx <;> cases hterm
    rfl
  have hrun : twoArms.runFrom bitInterp effects 2 0 bitState = some bitState := rfl
  exact ⟨hacyc, (pred_iff_visited hacyc (by decide) hrun twoArms_wired hagree).mpr (by decide)⟩

/-- The block after a conditional is executed, and its predicate is zero. -/
theorem pred_of_join_is_zero : ∃ (f : FuncOp) (ν : Value → Bool) (t : State Bool),
    f.Acyclic ∧ f.predecessors 0 = [] ∧ f.runFrom bitInterp effects 3 0 bitState = some t ∧
      Wired f.insertNewBlockParameter ν ∧
      Agrees f bitInterp ν (f.visits bitInterp effects 3 0 bitState) ∧
      3 ∈ (f.visits bitInterp effects 3 0 bitState).map Prod.fst ∧ ν (f.predOf 3) = false := by
  refine ⟨diamond, armBits, bitState, ⟨fun b => 4 - b, ?_⟩, by decide, rfl, diamond_wired, ?_,
    by decide, by decide⟩
  · rintro (_ | _ | _ | _ | b) instrs d h <;> simp [diamond, edges, termOf] at h
    · obtain ⟨-, rfl⟩ | ⟨-, rfl⟩ := h <;> decide
    · obtain ⟨-, rfl⟩ := h
      decide
    · obtain ⟨-, rfl⟩ := h
      decide
  · have hvisits : diamond.visits bitInterp effects 3 0 bitState =
        [(0, bitState), (1, bitState), (3, bitState)] := rfl
    intro x hx cond d args d' args' hterm
    simp only [hvisits, mem_cons, not_mem_nil, or_false] at hx
    obtain rfl | rfl | rfl := hx <;> cases hterm
    rfl

end Fpga

end Alkali
