import Alkali.Linearize.Lift

/-!
# Walks through a function

The conditions that `foldPredicates` collects for a block are tests on every walk
that visits it, and every other walk fails one of them.
-/

namespace Alkali.FuncOp

open List Terminator

variable {f : FuncOp}

section Predecessors

/-- A block occurs among the predecessors once for each of its edges. -/
theorem count_predecessors (f : FuncOp) (q b : Nat) :
    (f.predecessors b).count q = (f.termOf q).successors.count b := by
  suffices hfrom : ∀ (blocks : List Block) (k : Nat),
      ((blocks.zipIdx k).flatMap fun p => p.1.term.successors.filterMap fun d =>
        if d = b then some p.2 else none).count q =
      if k ≤ q then (((blocks[q - k]?).map Block.term).getD .terminate).successors.count b
      else 0 by
    simpa [predecessors, termOf] using hfrom f.blocks 0
  intro blocks
  induction blocks with
  | nil => intro k; simp [successors]
  | cons blk blocks ih =>
    intro k
    have hhead : (blk.term.successors.filterMap fun d => if d = b then some k else none).count q =
        if k = q then blk.term.successors.count b else 0 := by
      induction blk.term.successors with
      | nil => simp
      | cons d ds ih =>
        by_cases hd : d = b <;> by_cases hk : k = q <;> simp_all
    rw [zipIdx_cons, flatMap_cons, count_append, ih, hhead]
    rcases Nat.lt_trichotomy k q with hlt | rfl | hgt
    · have hsub : q - k = q - (k + 1) + 1 := by omega
      rw [if_neg (by omega), if_pos (by omega), if_pos (by omega), hsub, getElem?_cons_succ,
        Nat.zero_add]
    · rw [if_pos rfl, if_neg (by omega), if_pos (Nat.le_refl k), Nat.sub_self,
        getElem?_cons_zero, Nat.add_zero]
      rfl
    · rw [if_neg (by omega), if_neg (by omega), if_neg (by omega)]

variable {instrs : List Instr}

/-- On an edge conditions are tested, and the arguments of its block are bound. -/
theorem tests_and_bind_of_edge {b d : Nat} (h : (instrs, d) ∈ f.edges b) :
    d ∈ (f.termOf b).successors ∧ ∃ (tests : List (Value × Bool)) (args : List Value),
      instrs = tests.map (fun t => .test t.1 t.2) ++ [.bind (f.argsOf d) args] ∧
      ∀ id, tests.map Prod.fst ++ args ⊆ ((f.termOf b).toOperation id).operands := by
  unfold edges at h
  cases hterm : f.termOf b with
  | terminate => simp [hterm] at h
  | br dest args =>
    simp only [hterm, mem_singleton, Prod.mk.injEq] at h
    obtain ⟨rfl, rfl⟩ := h
    exact ⟨mem_singleton_self _, [], args, rfl, fun _ => List.Subset.refl _⟩
  | condBr cond trueDest trueArgs falseDest falseArgs =>
    simp only [hterm, mem_cons, not_mem_nil, or_false, Prod.mk.injEq] at h
    have hargs : ∀ id, (toOperation id
        (.condBr cond trueDest trueArgs falseDest falseArgs)).operands =
          cond :: (trueArgs ++ falseArgs) := fun _ => rfl
    rcases h with ⟨rfl, rfl⟩ | ⟨rfl, rfl⟩
    · refine ⟨by simp [successors], [(cond, true)], trueArgs, rfl, fun id => ?_⟩
      simp [hargs]
    · refine ⟨by simp [successors], [(cond, false)], falseArgs, rfl, fun id => ?_⟩
      simp [hargs]

/-- There is one edge to a block with one predecessor. -/
theorem successors_of_single {pred cur : Nat} (h : f.predecessors cur = [pred]) (q : Nat) :
    (f.termOf q).successors.count cur = if q = pred then 1 else 0 := by
  rw [← count_predecessors, h, count_singleton]
  by_cases hq : q = pred
  · simp [hq]
  · rw [if_neg hq, if_neg (by simpa using Ne.symm hq)]

theorem eq_of_single {pred cur q : Nat} (h : f.predecessors cur = [pred])
    (hedge : (instrs, cur) ∈ f.edges q) : q = pred := by
  by_contra hne
  have hcnt := successors_of_single h q
  rw [if_neg hne, count_eq_zero] at hcnt
  exact hcnt (tests_and_bind_of_edge hedge).1

end Predecessors

section Walks

/-- There is an edge between the blocks. -/
def Edge (f : FuncOp) (b c : Nat) : Prop := ∃ instrs, (instrs, c) ∈ f.edges b

variable {b c : Nat} {leg : Leg} {w : List Leg} {x : Instr}
variable {rest : List Leg} {d : Nat} {instrs : List Instr} {o : Operation}

theorem walk_cons :
    f.Walk b (leg :: rest) ↔ leg.1 = b ∧ (rest = [] ∧ leg.2 = [] ∧ f.termOf b = .terminate ∨
      ∃ d, (leg.2, d) ∈ f.edges b ∧ f.Walk d rest) := by
  obtain ⟨c, instrs⟩ := leg
  constructor
  · intro h
    cases h with
    | stop hterm => exact ⟨rfl, Or.inl ⟨rfl, rfl, hterm⟩⟩
    | go hedge hrest => exact ⟨rfl, Or.inr ⟨_, hedge, hrest⟩⟩
  · rintro ⟨rfl, ⟨rfl, rfl, hterm⟩ | ⟨d, hedge, hrest⟩⟩
    · exact .stop hterm
    · exact .go hedge hrest

theorem exists_visit (h : b ∈ w.map Prod.fst) : ∃ pre e post, w = pre ++ (b, e) :: post := by
  obtain ⟨leg, hleg, rfl⟩ := mem_map.mp h
  obtain ⟨pre, post, rfl⟩ := append_of_mem hleg
  exact ⟨pre, leg.2, post, rfl⟩

theorem Walk.head (h : f.Walk b w) : ∃ instrs rest, w = (b, instrs) :: rest := by
  cases h with
  | stop => exact ⟨_, _, rfl⟩
  | go => exact ⟨_, _, rfl⟩

/-- The edge between neighbours on a walk. -/
theorem Walk.edge {leg' : Leg} (h : f.Walk b (leg :: leg' :: rest)) :
    (leg.2, leg'.1) ∈ f.edges b ∧ f.Walk leg'.1 (leg' :: rest) := by
  obtain ⟨_, ⟨hnil, _⟩ | ⟨d, hedge, hrest⟩⟩ := walk_cons.mp h
  · cases hnil
  · obtain ⟨rfl, _⟩ := walk_cons.mp hrest
    exact ⟨hedge, hrest⟩

/-- The rest of a walk from one of its blocks. -/
theorem Walk.suffix {pre post : List Leg} (h : f.Walk b (pre ++ leg :: post)) :
    f.Walk leg.1 (leg :: post) := by
  induction pre generalizing b with
  | nil =>
    obtain ⟨rfl, _⟩ := walk_cons.mp h
    exact h
  | cons l pre ih =>
    obtain ⟨_, ⟨hnil, _⟩ | ⟨d, _, hrest⟩⟩ := walk_cons.mp h
    · simp at hnil
    · exact ih hrest

/-- A block that is visited before another one reaches it. -/
theorem Walk.reaches {pre post : List Leg} (h : f.Walk b (pre ++ leg :: post)) :
    ∀ l ∈ pre, Relation.TransGen f.Edge l.1 leg.1 := by
  induction pre generalizing b with
  | nil => simp
  | cons l pre ih =>
    obtain ⟨rfl, ⟨hnil, _⟩ | ⟨d, hedge, hrest⟩⟩ := walk_cons.mp h
    · simp at hnil
    intro l' hl'
    rcases mem_cons.mp hl' with rfl | hl'
    · cases pre with
      | nil =>
        obtain ⟨rfl, _⟩ := walk_cons.mp hrest
        exact .single ⟨_, hedge⟩
      | cons l' pre =>
        obtain ⟨rfl, _⟩ := walk_cons.mp hrest
        exact .head ⟨_, hedge⟩ (ih hrest l' (by simp))
    · exact ih hrest l' hl'

theorem op_not_mem_edge (h : (instrs, d) ∈ f.edges b) (p : Operation) : .op p ∉ instrs := by
  obtain ⟨-, tests, args, rfl, -⟩ := tests_and_bind_of_edge h
  simp

theorem op_not_mem_leg (h : f.Walk c w) (hleg : leg ∈ w) (p : Operation) : .op p ∉ leg.2 := by
  induction h with
  | stop =>
    rw [mem_singleton.mp hleg]
    exact not_mem_nil
  | go hedge _ ih =>
    rcases mem_cons.mp hleg with rfl | hleg
    · exact op_not_mem_edge hedge p
    · exact ih hleg

theorem mem_operations_of_opsOf (h : o ∈ f.opsOf c) : o ∈ f.operations := by
  cases hblk : f.blocks[c]? with
  | none => simp [opsOf, hblk] at h
  | some blk =>
    simp only [opsOf, hblk, Option.map_some, Option.getD_some] at h
    refine mem_flatMap.mpr ⟨blk, mem_of_getElem? hblk, ?_⟩
    exact mem_append_left _ h

/-- What is used on an edge are operands of a terminator. -/
theorem uses_of_edge (h : (instrs, d) ∈ f.edges c) (hx : x ∈ instrs) {v : Value} (hv : v ∈ x.uses) :
    ∃ o ∈ f.operations, o.kind? = some .branch ∧ v ∈ o.operands := by
  obtain ⟨hsucc, tests, args, rfl, hops⟩ := tests_and_bind_of_edge h
  cases hblk : f.blocks[c]? with
  | none => simp [termOf, hblk, successors] at hsucc
  | some blk =>
    have hterm : f.termOf c = blk.term := by simp [termOf, hblk]
    refine ⟨blk.term.toOperation blk.termId, ?_, ?_, ?_⟩
    · refine mem_flatMap.mpr ⟨blk, mem_of_getElem? hblk, ?_⟩
      simp [Block.operations]
    · rw [hterm] at hsucc
      cases hbr : blk.term with
      | terminate => simp [hbr, successors] at hsucc
      | br => rfl
      | condBr => rfl
    · rw [← hterm]
      refine hops blk.termId (mem_append.mpr ?_)
      rcases mem_append.mp hx with hx | hx
      · obtain ⟨t, ht, rfl⟩ := mem_map.mp hx
        rw [mem_singleton.mp hv]
        exact Or.inl (mem_map_of_mem ht)
      · rw [mem_singleton.mp hx] at hv
        exact Or.inr hv

/-- An instruction of a walk is an operation of a block or stands on an edge. -/
theorem mem_code (hw : f.Walk b w) (hx : x ∈ f.code w) :
    (∃ c, ∃ o ∈ f.opsOf c, x = .op o) ∨ ∃ c d instrs, (instrs, d) ∈ f.edges c ∧ x ∈ instrs := by
  induction hw with
  | @stop b =>
    simp only [code_cons, code_nil, append_nil, mem_map] at hx
    obtain ⟨o, ho, rfl⟩ := hx
    exact Or.inl ⟨b, o, ho, rfl⟩
  | @go b d instrs rest hedge _ ih =>
    rw [code_cons, append_assoc] at hx
    rcases mem_append.mp hx with hx | hx
    · obtain ⟨o, ho, rfl⟩ := mem_map.mp hx
      exact Or.inl ⟨b, o, ho, rfl⟩
    · rcases mem_append.mp hx with hx | hx
      · exact Or.inr ⟨b, d, instrs, hedge, hx⟩
      · exact ih hx

/-- An instruction of a walk is an operation of the function, or it uses operands
of a terminator. -/
theorem mem_code_cases (hw : f.Walk b w) (hx : x ∈ f.code w) :
    (∃ o ∈ f.operations, x = .op o) ∨ (∀ p, x ≠ .op p) ∧
      ∀ v ∈ x.uses, ∃ o ∈ f.operations, o.kind? = some .branch ∧ v ∈ o.operands := by
  rcases mem_code hw hx with ⟨_, o, ho, rfl⟩ | ⟨_, _, _, hedge, hx⟩
  · exact Or.inl ⟨o, mem_operations_of_opsOf ho, rfl⟩
  · exact Or.inr ⟨fun p hp => op_not_mem_edge hedge p (hp ▸ hx), fun _ => uses_of_edge hedge hx⟩

theorem mem_operations_of_code (hw : f.Walk b w) (ho : .op o ∈ f.code w) : o ∈ f.operations := by
  rcases mem_code_cases hw ho with ⟨p, hp, heq⟩ | ⟨hno, _⟩
  · cases heq
    exact hp
  · exact absurd rfl (hno o)

theorem Acyclic.walk_nodup (hf : f.Acyclic) (h : f.Walk b w) : (w.map Prod.fst).Nodup := by
  obtain ⟨rank, hrank⟩ := hf
  have hle : ∀ {b w}, f.Walk b w → ∀ leg ∈ w, rank leg.1 ≤ rank b := by
    intro b w h
    induction h with
    | stop => simp
    | go hedge _ ih =>
      intro leg hleg
      rcases mem_cons.mp hleg with rfl | hleg
      · exact Nat.le_refl _
      · exact Nat.le_trans (ih leg hleg) (Nat.le_of_lt (hrank _ _ _ hedge))
  induction h with
  | stop => simp
  | go hedge hrest ih =>
    refine nodup_cons.mpr ⟨?_, ih⟩
    intro hmem
    obtain ⟨leg, hleg, heq⟩ := mem_map.mp hmem
    have hlt := hrank _ _ _ hedge
    have := hle hrest leg hleg
    rw [heq] at this
    exact absurd hlt (Nat.not_lt.mpr this)

end Walks

section Predicates

variable {n cur : Nat} {ps : List (Value × Bool)}

/-- Induction over the rounds of the loop of `foldPredicates`. -/
@[elab_as_elim]
theorem foldPredicates_induction {motive : ∀ n cur ps, f.foldPredicates n cur = some ps → Prop}
    (entry : ∀ n h, motive n 0 [] h)
    (step : ∀ n cur pred ps rest hrest h, cur ≠ 0 → f.predecessors cur = [pred] →
      motive n pred rest hrest → ((∃ dest args, f.termOf pred = .br dest args ∧ ps = rest) ∨
        ∃ cond trueDest trueArgs falseDest falseArgs,
          f.termOf pred = .condBr cond trueDest trueArgs falseDest falseArgs ∧
          f.definedInEntry cond = true ∧ ps = (cond, trueDest == cur) :: rest) →
      motive (n + 1) cur ps h)
    (n cur : Nat) (ps : List (Value × Bool)) (h : f.foldPredicates n cur = some ps) :
    motive n cur ps h := by
  induction n generalizing cur ps with
  | zero =>
    by_cases hcur : cur = 0
    · subst hcur
      cases h
      exact entry 0 rfl
    · simp [foldPredicates, hcur] at h
  | succ n ih =>
    by_cases hcur : cur = 0
    · subst hcur
      cases h
      exact entry (n + 1) rfl
    have hround := h
    rw [foldPredicates, if_neg hcur] at hround
    split at hround
    · next pred hpred =>
        split at hround
        · cases hround
        · next dest args hterm =>
            exact step n cur pred ps ps hround h hcur hpred (ih pred ps hround)
              (Or.inl ⟨dest, args, hterm, rfl⟩)
        · next cond trueDest trueArgs falseDest falseArgs hterm =>
            split_ifs at hround with hcond
            obtain ⟨rest, hrest, rfl⟩ := Option.map_eq_some_iff.mp hround
            exact step n cur pred _ rest hrest h hcur hpred (ih pred rest hrest)
              (Or.inr ⟨cond, trueDest, trueArgs, falseDest, falseArgs, hterm, hcond, rfl⟩)
    · cases hround

variable {instrs : List Instr}

/-- Whether a branch goes to a block with one predecessor is its condition. -/
theorem test_mem_of_single {pred d : Nat} {cond : Value} {trueDest falseDest : Nat}
    {trueArgs falseArgs : List Value} (h : f.predecessors cur = [pred])
    (hterm : f.termOf pred = .condBr cond trueDest trueArgs falseDest falseArgs)
    (hedge : (instrs, d) ∈ f.edges pred) :
    .test cond ((trueDest == cur) == decide (d = cur)) ∈ instrs := by
  have hcnt := successors_of_single h pred
  rw [if_pos rfl, hterm] at hcnt
  simp only [edges, hterm, mem_cons, not_mem_nil, or_false, Prod.mk.injEq] at hedge
  rcases hedge with ⟨rfl, rfl⟩ | ⟨rfl, rfl⟩
  · by_cases hd : d = cur <;> simp [hd]
  · by_cases hd : d = cur
    · subst hd
      have hne : trueDest ≠ d := by
        rintro rfl
        simp [successors] at hcnt
      simp [hne]
    · have htrue : trueDest = cur := by
        by_contra hne
        simp [successors, hne, hd] at hcnt
      simp [htrue, hd]

theorem eq_of_br {pred d dest : Nat} {args : List Value} (h : f.predecessors cur = [pred])
    (hterm : f.termOf pred = .br dest args) (hedge : (instrs, d) ∈ f.edges pred) : d = cur := by
  have hcnt := successors_of_single h pred
  rw [if_pos rfl, hterm] at hcnt
  simp only [edges, hterm, mem_singleton, Prod.mk.injEq] at hedge
  obtain ⟨_, rfl⟩ := hedge
  by_contra hne
  simp [successors, hne] at hcnt

section

variable (h : f.foldPredicates n cur = some ps)
include h

/-- A walk to the block passes all of its predicates. -/
theorem tests_of_visit {pre post : List Leg} {leg : Leg}
    (hw : f.Walk 0 (pre ++ leg :: post)) (hleg : leg.1 = cur) :
    ∀ p ∈ ps, ∃ l ∈ pre, .test p.1 p.2 ∈ l.2 := by
  induction n, cur, ps, h using foldPredicates_induction generalizing pre leg post with
  | entry => simp
  | step n cur pred ps rest _ _ hcur hpred ih hps =>
    rcases eq_nil_or_concat pre with rfl | ⟨pre, l, rfl⟩
    · obtain ⟨h0, _⟩ := walk_cons.mp hw
      exact absurd (hleg.symm.trans h0) hcur
    rw [concat_eq_append, append_assoc, singleton_append] at hw
    rw [concat_eq_append]
    obtain ⟨hedge, _⟩ := hw.suffix.edge
    rw [hleg] at hedge
    obtain rfl := eq_of_single hpred hedge
    have hearlier := ih hw rfl
    have hmem : ∀ p ∈ rest, ∃ l' ∈ pre ++ [l], .test p.1 p.2 ∈ l'.2 := by
      intro p hp
      obtain ⟨l', hl', htest⟩ := hearlier p hp
      exact ⟨l', by simp [hl'], htest⟩
    rcases hps with ⟨_, _, _, rfl⟩ | ⟨cond, trueDest, _, _, _, hterm, _, rfl⟩
    · exact hmem
    · intro p hp
      rcases mem_cons.mp hp with rfl | hp
      · exact ⟨l, by simp, by simpa using test_mem_of_single hpred hterm hedge⟩
      · exact hmem p hp

/-- A walk that does not visit the block fails one of its predicates. -/
theorem visits_or_fails {w : List Leg} (hw : f.Walk 0 w) :
    cur ∈ w.map Prod.fst ∨ ∃ p ∈ ps, ∃ l ∈ w, .test p.1 (!p.2) ∈ l.2 := by
  induction n, cur, ps, h using foldPredicates_induction with
  | entry =>
    obtain ⟨_, _, rfl⟩ := hw.head
    simp
  | step n cur pred ps rest _ _ hcur hpred ih hps =>
    have hsub : rest ⊆ ps := by
      rcases hps with ⟨_, _, _, rfl⟩ | ⟨_, _, _, _, _, _, _, rfl⟩
      · exact List.Subset.refl _
      · exact subset_cons_self _ _
    rcases ih with hvisit | ⟨p, hp, hfails⟩
    · obtain ⟨leg, hleg, rfl⟩ := mem_map.mp hvisit
      obtain ⟨pre, post, rfl⟩ := append_of_mem hleg
      obtain ⟨_, ⟨_, _, hterm⟩ | ⟨d, hedge, hrestWalk⟩⟩ := walk_cons.mp hw.suffix
      · rcases hps with ⟨_, _, hterm', _⟩ | ⟨_, _, _, _, _, hterm', _, _⟩ <;>
          cases hterm.symm.trans hterm'
      · obtain ⟨instrs, post, rfl⟩ := hrestWalk.head
        by_cases hd : d = cur
        · exact Or.inl (by simp [hd])
        · rcases hps with ⟨_, _, hterm, _⟩ | ⟨cond, trueDest, _, _, _, hterm, _, rfl⟩
          · exact absurd (eq_of_br hpred hterm hedge) hd
          · refine Or.inr ⟨(cond, trueDest == cur), by simp, leg, by simp, ?_⟩
            simpa [hd] using test_mem_of_single hpred hterm hedge
    · exact Or.inr ⟨p, hsub hp, hfails⟩

theorem definedInEntry_of_mem : ∀ p ∈ ps, f.definedInEntry p.1 = true := by
  induction n, cur, ps, h using foldPredicates_induction with
  | entry => simp
  | step _ _ _ _ _ _ _ _ _ ih hps =>
    rcases hps with ⟨_, _, _, rfl⟩ | ⟨cond, trueDest, _, _, _, _, hcond, rfl⟩
    · exact ih
    · exact forall_mem_cons.mpr ⟨hcond, ih⟩

end

end Predicates

end Alkali.FuncOp
