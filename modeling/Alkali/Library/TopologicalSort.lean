import Alkali.Library.FuelLoop
import Mathlib.Tactic

/-!
# Topological sorting by in-degrees

A queue holds the vertices whose predecessors are all listed. Listing a vertex lowers
the in-degree of its successors, one for each edge; a vertex whose in-degree comes to
zero is enqueued. If the queue starts with every vertex without predecessors once, a
finite acyclic graph is listed in a topological order.
-/

namespace TopologicalSort

open List FuelLoop

variable {V : Type*} [DecidableEq V] (succ : V → List V)

/-- The degrees that are left, the queue, and the vertices listed so far. -/
structure State (V : Type*) where
  degree : V → Int
  queue : List V
  order : List V

/-- Lower the degrees along edges. -/
def relax : List V → (V → Int) → List V → (V → Int) × List V
  | [], degree, queue => (degree, queue)
  | t :: ts, degree, queue =>
    let left := degree t - 1
    relax ts (Function.update degree t left) (if left = 0 then queue ++ [t] else queue)

/-- List the first vertex of the queue. -/
def step (s : State V) : Option (State V ⊕ State V) :=
  match s.queue with
  | [] => some (.inl s)
  | cur :: rest =>
    let (degree, queue) := relax (succ cur) s.degree rest
    some (.inr ⟨degree, queue, s.order ++ [cur]⟩)

/-- A list of the vertices of a set, each once and after all of its predecessors. -/
structure Lists (vertices : V → Prop) (order : List V) : Prop where
  nodup : order.Nodup
  mem : ∀ v, v ∈ order ↔ vertices v
  preds : ∀ l v l', order = l ++ v :: l' → ∀ u, v ∈ succ u → u ∈ l

theorem relax_degree (ts : List V) (degree : V → Int) (queue : List V) (v : V) :
    (relax ts degree queue).1 v = degree v - ts.count v := by
  induction ts generalizing degree queue with
  | nil => simp [relax]
  | cons t ts ih =>
    rw [relax, ih, count_cons]
    by_cases h : t = v
    · subst h
      simp
      omega
    · simp [Function.update_of_ne (Ne.symm h), h]

/-- The vertices whose degree comes to zero are enqueued, each once. -/
theorem relax_queue (ts : List V) (degree : V → Int) (queue : List V) :
    ∃ zeros, (relax ts degree queue).2 = queue ++ zeros ∧ zeros.Nodup ∧
      ∀ v, v ∈ zeros ↔ 0 < degree v ∧ degree v ≤ ts.count v := by
  induction ts generalizing degree queue with
  | nil => exact ⟨[], by simp [relax], nodup_nil, fun v => by simp⟩
  | cons t ts ih =>
    rw [relax]
    obtain ⟨zeros, hq, hnd, hmem⟩ := ih (Function.update degree t (degree t - 1))
      (if degree t - 1 = 0 then queue ++ [t] else queue)
    split_ifs at hq with hzero
    · refine ⟨t :: zeros, by simpa [hzero] using hq, ?_, fun v => ?_⟩
      · refine nodup_cons.mpr ⟨fun ht => ?_, hnd⟩
        have := (hmem t).mp ht
        simp [hzero] at this
      · rw [mem_cons, hmem, count_cons]
        by_cases h : v = t
        · subst h
          simp
          omega
        · simp [h, Ne.symm h]
    · refine ⟨zeros, by simpa [hzero] using hq, hnd, fun v => ?_⟩
      rw [hmem, count_cons]
      by_cases h : v = t
      · subst h
        simp
        omega
      · simp [Function.update_of_ne h, Ne.symm h]

section Invariant

variable (all vertices : Finset V)

/-- The vertices listed or enqueued are those that all edges from unlisted vertices
miss. -/
structure Inv (s : State V) : Prop where
  nodup : (s.order ++ s.queue).Nodup
  subset : ∀ v ∈ s.order ++ s.queue, v ∈ vertices
  degree : ∀ v ∈ vertices, s.degree v = ∑ u ∈ all with u ∉ s.order, ((succ u).count v : Int)
  zero : ∀ v ∈ vertices, v ∈ s.order ++ s.queue ↔ s.degree v = 0
  preds : ∀ l v l', s.order ++ s.queue = l ++ v :: l' → ∀ u, v ∈ succ u → u ∈ l

/-- A part of a finite graph that no edge enters or leaves. -/
structure Separate : Prop where
  subset : vertices ⊆ all
  edges : ∀ u v, v ∈ succ u → u ∈ all
  succs : ∀ u v, v ∈ succ u → u ∈ vertices → v ∈ vertices
  preds : ∀ u v, v ∈ succ u → v ∈ vertices → u ∈ vertices

variable {succ all vertices} {s t : State V}
variable {v : V} {degree : V → Int} {queue : List V}

/-- A vertex without degree has listed predecessors only. -/
theorem mem_order_of_degree (hsep : Separate succ all vertices) {order : List V} {u : V}
    (hzero : ∑ u ∈ all with u ∉ order, ((succ u).count v : Int) = 0) (huv : v ∈ succ u) :
    u ∈ order := by
  by_contra hu
  have hmem : u ∈ all.filter (· ∉ order) := Finset.mem_filter.mpr ⟨hsep.edges u v huv, hu⟩
  have hcnt := (Finset.sum_eq_zero_iff_of_nonneg fun _ _ => Int.natCast_nonneg _).mp hzero u hmem
  have hpos := count_pos_iff.mpr huv
  omega

/-- The queue holds the vertices without predecessors, each once. -/
theorem Inv.start (hsep : Separate succ all vertices)
    (hdeg : ∀ v ∈ vertices, degree v = ∑ u ∈ all, ((succ u).count v : Int))
    (hnd : queue.Nodup) (hq : ∀ v, v ∈ queue ↔ v ∈ vertices ∧ degree v = 0) :
    Inv succ all vertices ⟨degree, queue, []⟩ where
  nodup := hnd
  subset v hv := ((hq v).mp hv).1
  degree v hv := by simpa using hdeg v hv
  zero v hv := by simpa [hv] using hq v
  preds l v l' hl u huv := by
    have hv : v ∈ queue := by
      rw [show queue = l ++ v :: l' from hl]
      simp
    obtain ⟨hmem, hzero⟩ := (hq v).mp hv
    rw [hdeg v hmem] at hzero
    have hnone : u ∈ ([] : List V) := mem_order_of_degree hsep (by simpa using hzero) huv
    cases hnone

theorem step_cases (h : step succ s = some (.inr t)) :
    ∃ cur rest zeros, s.queue = cur :: rest ∧ t.order = s.order ++ [cur] ∧
      t.queue = rest ++ zeros ∧ zeros.Nodup ∧
      (∀ v, t.degree v = s.degree v - (succ cur).count v) ∧
      (∀ v, v ∈ zeros ↔ 0 < s.degree v ∧ s.degree v ≤ (succ cur).count v) ∧
      t.order ++ t.queue = s.order ++ s.queue ++ zeros ∧ cur ∈ s.order ++ s.queue ∧
      ∀ v ∈ zeros, v ∈ succ cur := by
  rw [step] at h
  split at h
  · cases h
  · rename_i cur rest hq
    obtain ⟨zeros, hzeros, hnd, hmem⟩ := relax_queue (succ cur) s.degree rest
    obtain rfl := Sum.inr.inj (Option.some.inj h)
    refine ⟨cur, rest, zeros, hq, rfl, hzeros, hnd, relax_degree _ _ _, hmem,
      by simp [hq, hzeros], by simp [hq], fun v hv => count_pos_iff.mp ?_⟩
    have := (hmem v).mp hv
    omega

omit [DecidableEq V] in
/-- An element of two lists in a row is in the first or the second. -/
theorem append_eq_append_cons {xs ys l l' : List V} (h : xs ++ ys = l ++ v :: l') :
    (∃ mid, l = xs ++ mid ∧ ys = mid ++ v :: l') ∨ ∃ mid, xs = l ++ v :: mid := by
  rcases append_eq_append_iff.mp h with hmid | ⟨mid, rfl, hend⟩
  · exact Or.inl hmid
  · cases mid with
    | nil => exact Or.inl ⟨[], by simp, hend.symm⟩
    | cons w mid =>
      obtain ⟨rfl, rfl⟩ := List.cons.inj hend
      exact Or.inr ⟨mid, rfl⟩

section

variable (hsep : Separate succ all vertices)
include hsep

theorem Inv.preserved (hs : Inv succ all vertices s)
    (h : step succ s = some (.inr t)) : Inv succ all vertices t := by
  obtain ⟨cur, rest, zeros, hq, hord, -, hznodup, hdegree, hzeros, hlist, hcur, hsucc⟩ :=
    step_cases h
  have hcurV := hs.subset cur hcur
  have hnot : cur ∉ s.order := by
    have hnd := hs.nodup
    rw [hq] at hnd
    exact fun hmem => (nodup_append.mp hnd).2.2 cur hmem cur mem_cons_self rfl
  have hdeg : ∀ v ∈ vertices,
      t.degree v = ∑ u ∈ all with u ∉ t.order, ((succ u).count v : Int) := by
    intro v hv
    have hfilter : all.filter (· ∉ t.order) = (all.filter (· ∉ s.order)).erase cur := by
      ext u
      simp only [hord, Finset.mem_filter, Finset.mem_erase, mem_append, mem_singleton, not_or]
      tauto
    rw [hdegree, hs.degree v hv, hfilter, ← Finset.add_sum_erase _ _
      (Finset.mem_filter.mpr ⟨hsep.subset hcurV, hnot⟩)]
    omega
  have hnonneg : ∀ v ∈ vertices, 0 ≤ t.degree v ∧ 0 ≤ s.degree v := by
    intro v hv
    rw [hdeg v hv, hs.degree v hv]
    exact ⟨Finset.sum_nonneg fun _ _ => Int.natCast_nonneg _,
      Finset.sum_nonneg fun _ _ => Int.natCast_nonneg _⟩
  have hzerosV : ∀ v ∈ zeros, v ∈ vertices := fun v hv => hsep.succs cur v (hsucc v hv) hcurV
  have hzero : ∀ v ∈ vertices, v ∈ t.order ++ t.queue ↔ t.degree v = 0 := by
    intro v hv
    have hpos := hnonneg v hv
    have hstep := hdegree v
    rw [hlist, mem_append, hs.zero v hv, hzeros]
    omega
  have hnew : ∀ v ∈ zeros, ∀ u, v ∈ succ u → u ∈ s.order ++ s.queue := by
    intro v hv u huv
    have hvzero : t.degree v = 0 := by
      rw [← hzero v (hzerosV v hv), hlist]
      exact mem_append_right _ hv
    rw [hdeg v (hzerosV v hv)] at hvzero
    have hu := mem_order_of_degree hsep hvzero huv
    rw [hord] at hu
    rcases mem_append.mp hu with hu | hu
    · exact mem_append_left _ hu
    · exact mem_singleton.mp hu ▸ hcur
  refine ⟨?_, ?_, hdeg, hzero, ?_⟩
  · rw [hlist]
    refine nodup_append.mpr ⟨hs.nodup, hznodup, ?_⟩
    rintro v hv _ hv' rfl
    have hpos := ((hzeros v).mp hv').1
    have := (hs.zero v (hs.subset v hv)).mp hv
    omega
  · intro v hv
    rw [hlist] at hv
    exact (mem_append.mp hv).elim (hs.subset v) (hzerosV v)
  · intro l v l' hl u huv
    rcases append_eq_append_cons (hlist ▸ hl) with ⟨mid, rfl, rfl⟩ | ⟨mid, hmid⟩
    · exact mem_append_left _ (hnew v (by simp) u huv)
    · exact hs.preds l v mid hmid u huv

/-- Vertices outside of the part keep their degree. -/
theorem degree_of_step (hs : Inv succ all vertices s)
    (h : step succ s = some (.inr t)) (hv : v ∉ vertices) : t.degree v = s.degree v := by
  obtain ⟨cur, _, _, -, -, -, -, hdeg, -, -, hcur, -⟩ := step_cases h
  have hcnt : (succ cur).count v = 0 :=
    count_eq_zero.mpr fun hmem => hv (hsep.succs cur v hmem (hs.subset cur hcur))
  rw [hdeg, hcnt]
  omega

section

variable (hacyclic : ∀ v, ¬ Relation.TransGen (fun a b => b ∈ succ a) v v)
include hacyclic

/-- In an acyclic part every vertex is listed if a vertex is whose predecessors are. -/
theorem mem_of_preds {order : List V}
    (hlisted : ∀ v ∈ vertices, (∀ u, v ∈ succ u → u ∈ order) → v ∈ order) :
    ∀ v ∈ vertices, v ∈ order := by
  by_contra hno
  push Not at hno
  obtain ⟨v, hv, hvorder⟩ := hno
  -- an unlisted vertex has an unlisted predecessor, so there is no first one
  have hirrefl : Std.Irrefl
      fun a b : {v // v ∈ vertices} => Relation.TransGen (fun a b => b ∈ succ a) a.1 b.1 :=
    ⟨fun v => hacyclic v.1⟩
  have hwf := Finite.wellFounded_of_trans_of_irrefl
    fun a b : {v // v ∈ vertices} => Relation.TransGen (fun a b => b ∈ succ a) a.1 b.1
  obtain ⟨⟨w, hw⟩, hworder, hmin⟩ := hwf.has_min {v | v.1 ∉ order} ⟨⟨v, hv⟩, hvorder⟩
  refine hworder (hlisted w hw fun u huw => ?_)
  by_contra hu
  exact hmin ⟨u, hsep.preds u w huw hw⟩ hu (.single huw)

/-- When the queue is empty, an acyclic part is listed completely. -/
theorem Inv.lists (hs : Inv succ all vertices s) (hq : s.queue = []) :
    Lists succ (· ∈ vertices) s.order := by
  have hlist : s.order ++ s.queue = s.order := by rw [hq, append_nil]
  have hall : ∀ v ∈ vertices, v ∈ s.order := by
    refine mem_of_preds hsep hacyclic fun v hv hpreds => ?_
    rw [← hlist, hs.zero v hv, hs.degree v hv]
    refine Finset.sum_eq_zero fun u hu => ?_
    have hmem : v ∉ succ u := fun hmem => (Finset.mem_filter.mp hu).2 (hpreds u hmem)
    simp [count_eq_zero.mpr hmem]
  have hnd := hs.nodup
  have hpreds := hs.preds
  rw [hlist] at hnd hpreds
  exact ⟨hnd, fun v => ⟨fun hv => hs.subset v (mem_append_left _ hv), hall v⟩, hpreds⟩

end

theorem Inv.reaches (hs : Inv succ all vertices s) (h : Reaches (step succ) s t) :
    Inv succ all vertices t ∧ ∀ v ∉ vertices, t.degree v = s.degree v := by
  refine h.invariant (P := fun t => Inv succ all vertices t ∧
    ∀ v ∉ vertices, t.degree v = s.degree v) ⟨hs, fun _ _ => rfl⟩ ?_
  rintro t u ⟨ht, hdeg⟩ hstep
  exact ⟨ht.preserved hsep hstep, fun v hv =>
    (degree_of_step hsep ht hstep hv).trans (hdeg v hv)⟩

end

theorem isSome_step (s : State V) : (step succ s).isSome := by
  rw [step]
  split <;> rfl

/-- The sort ends when the queue is empty. -/
theorem reaches_of_run {n : Nat} (h : run (step succ) n s = some t) :
    Reaches (step succ) s t ∧ t.queue = [] := by
  obtain ⟨u, hreach, hdone⟩ := exists_of_run h
  rw [step] at hdone
  split at hdone
  · rename_i hq
    cases hdone
    exact ⟨hreach, hq⟩
  · cases hdone

/-- The sort of an acyclic part finishes with a topological order. -/
theorem exists_run_lists (hsep : Separate succ all vertices)
    (hacyclic : ∀ v, ¬ Relation.TransGen (fun a b => b ∈ succ a) v v)
    (hs : Inv succ all vertices s) :
    ∃ n t, run (step succ) n s = some t ∧ Lists succ (· ∈ vertices) t.order ∧
      ∀ v ∉ vertices, t.degree v = s.degree v := by
  have hrun : ∃ n t, run (step succ) n s = some t := by
    refine (exists_run_iff (fun t => vertices.card - t.order.length) fun t u hreach hstep =>
      ?_).mpr fun t _ => isSome_step t
    have hinv := (hs.reaches hsep hreach).1.preserved hsep hstep
    obtain ⟨cur, rest, zeros, -, hord, -⟩ := step_cases hstep
    have hle : u.order.length ≤ vertices.card := by
      rw [← toFinset_card_of_nodup (nodup_append.mp hinv.nodup).1]
      refine Finset.card_le_card fun v hv => ?_
      exact hinv.subset v (mem_append_left _ (mem_toFinset.mp hv))
    rw [hord, length_append, length_singleton] at hle ⊢
    omega
  obtain ⟨n, t, hrun⟩ := hrun
  obtain ⟨hreach, hq⟩ := reaches_of_run hrun
  obtain ⟨hinv, hdeg⟩ := hs.reaches hsep hreach
  exact ⟨n, t, hrun, hinv.lists hsep hacyclic hq, hdeg⟩

/-- Whatever the queue starts with is listed first. -/
theorem exists_order_eq {n : Nat} (h : run (step succ) n s = some t) :
    ∃ l, t.order = s.order ++ s.queue ++ l := by
  obtain ⟨hreach, hq⟩ := reaches_of_run h
  obtain ⟨l, hl⟩ : ∃ l, t.order ++ t.queue = s.order ++ s.queue ++ l := by
    refine hreach.invariant (P := fun t => ∃ l, t.order ++ t.queue = s.order ++ s.queue ++ l)
      ⟨[], (append_nil _).symm⟩ ?_
    rintro t u ⟨l, hl⟩ hstep
    obtain ⟨_, _, zeros, -, -, -, -, -, -, hlist, -⟩ := step_cases hstep
    exact ⟨l ++ zeros, by rw [hlist, hl, append_assoc]⟩
  rw [hq, append_nil] at hl
  exact ⟨l, hl⟩

/-- Every vertex is in the queue at the start or is listed after a predecessor. -/
theorem exists_pred_of_run {n : Nat} (h : run (step succ) n ⟨degree, queue, []⟩ = some t)
    {l l' : List V} (hord : t.order = l ++ v :: l') : v ∈ queue ∨ ∃ u ∈ l, v ∈ succ u := by
  obtain ⟨hreach, hq⟩ := reaches_of_run h
  have hall : ∀ l v l', t.order ++ t.queue = l ++ v :: l' → v ∈ queue ∨ ∃ u ∈ l, v ∈ succ u := by
    refine hreach.invariant (P := fun t => ∀ l v l', t.order ++ t.queue = l ++ v :: l' →
      v ∈ queue ∨ ∃ u ∈ l, v ∈ succ u) (fun l v l' heq => ?_) ?_
    · exact Or.inl (by simp [show queue = l ++ v :: l' from heq])
    · intro t u ht hstep l v l' heq
      obtain ⟨cur, _, _, -, -, -, -, -, -, hlist, hcur, hsucc⟩ := step_cases hstep
      rcases append_eq_append_cons (hlist ▸ heq) with ⟨mid, rfl, rfl⟩ | ⟨mid, hmid⟩
      · exact Or.inr ⟨cur, mem_append_left _ hcur, hsucc v (by simp)⟩
      · exact ht l v mid hmid
  exact hall l v l' (by rw [hq, append_nil, hord])

/-! ## Sources that are enqueued several times -/

variable (succ vertices) in
/-- The invariant when sources can be listed several times: a vertex is enqueued at the
latest when its degree comes to zero. -/
structure Covering (degree : V → Int) (s : State V) : Prop where
  subset : ∀ v ∈ s.order ++ s.queue, v ∈ vertices
  degree : ∀ v, s.degree v = degree v - (s.order.map fun u => ((succ u).count v : Int)).sum
  zero : ∀ v ∈ vertices, s.degree v ≤ 0 → v ∈ s.order ++ s.queue

section

variable (hsep : Separate succ all vertices) (hs : Covering succ vertices degree s)
  (h : step succ s = some (.inr t))
include hsep hs h

theorem Covering.preserved : Covering succ vertices degree t := by
  obtain ⟨cur, _, zeros, -, hord, -, -, hdeg, hzeros, hlist, hcur, hsucc⟩ := step_cases h
  refine ⟨fun v hv => ?_, fun v => ?_, fun v hv hle => ?_⟩
  · rw [hlist] at hv
    rcases mem_append.mp hv with hv | hv
    · exact hs.subset v hv
    · exact hsep.succs cur v (hsucc v hv) (hs.subset cur hcur)
  · rw [hdeg, hs.degree, hord]
    simp
    omega
  · rw [hlist, mem_append]
    by_cases hpos : 0 < s.degree v
    · have := hdeg v
      exact Or.inr ((hzeros v).mpr ⟨hpos, by omega⟩)
    · exact Or.inl (hs.zero v hv (by omega))

/-- Each step takes one vertex from the queue and enqueues vertices with a degree above
zero only. -/
theorem Covering.measure_lt : t.queue.length + (vertices.filter (0 < t.degree ·)).card <
      s.queue.length + (vertices.filter (0 < s.degree ·)).card := by
  obtain ⟨cur, rest, zeros, hq, -, htqueue, hnd, hdeg, hzeros, -, hcur, hsucc⟩ :=
    step_cases h
  have hdisj : Disjoint zeros.toFinset (vertices.filter (0 < t.degree ·)) := by
    refine Finset.disjoint_left.mpr fun v hv hpos => ?_
    have hzero := (hzeros v).mp (mem_toFinset.mp hv)
    have hpos := (Finset.mem_filter.mp hpos).2
    have := hdeg v
    omega
  have hsub : zeros.toFinset ∪ vertices.filter (0 < t.degree ·) ⊆
      vertices.filter (0 < s.degree ·) := by
    intro v hv
    have hstep := hdeg v
    rw [Finset.mem_filter]
    rcases Finset.mem_union.mp hv with hv | hv
    · have hv := mem_toFinset.mp hv
      exact ⟨hsep.succs cur v (hsucc v hv) (hs.subset cur hcur), ((hzeros v).mp hv).1⟩
    · obtain ⟨hv, hpos⟩ := Finset.mem_filter.mp hv
      exact ⟨hv, by omega⟩
  have hcard := Finset.card_le_card hsub
  rw [Finset.card_union_of_disjoint hdisj, toFinset_card_of_nodup hnd] at hcard
  rw [htqueue, hq, length_append, length_cons]
  omega

end

/-- A vertex whose predecessors are all listed has no degree left. -/
theorem Covering.degree_le (hs : Covering succ vertices degree s)
    (hdeg : degree v = ∑ u ∈ all, ((succ u).count v : Int))
    (hpreds : ∀ u, v ∈ succ u → u ∈ s.order) : s.degree v ≤ 0 := by
  have hlisted : ∑ u ∈ all, ((succ u).count v : Int) ≤
      ∑ u ∈ s.order.toFinset, s.order.count u • ((succ u).count v : Int) := by
    have hzero : ∀ u ∈ all, u ∉ s.order.toFinset → ((succ u).count v : Int) = 0 := by
      intro u _ hu
      have : v ∉ succ u := fun hv => hu (mem_toFinset.mpr (hpreds u hv))
      simp [count_eq_zero.mpr this]
    calc ∑ u ∈ all, ((succ u).count v : Int)
        = ∑ u ∈ all with u ∈ s.order.toFinset, ((succ u).count v : Int) := by
          refine (Finset.sum_filter_of_ne fun u hu hne => ?_).symm
          by_contra hmem
          exact hne (hzero u hu hmem)
      _ ≤ ∑ u ∈ s.order.toFinset, ((succ u).count v : Int) :=
          Finset.sum_le_sum_of_subset_of_nonneg
            (fun u hu => (Finset.mem_filter.mp hu).2) fun _ _ _ => Int.natCast_nonneg _
      _ ≤ ∑ u ∈ s.order.toFinset, s.order.count u • ((succ u).count v : Int) := by
          refine Finset.sum_le_sum fun u hu => ?_
          have hcnt := count_pos_iff.mpr (mem_toFinset.mp hu)
          rw [nsmul_eq_mul]
          exact_mod_cast Nat.le_mul_of_pos_left ((succ u).count v) hcnt
  rw [hs.degree, hdeg, Finset.sum_list_map_count]
  omega

/-- However often the sources are enqueued, an acyclic part is listed completely. -/
theorem exists_run_covers (hsep : Separate succ all vertices)
    (hacyclic : ∀ v, ¬ Relation.TransGen (fun a b => b ∈ succ a) v v)
    (hdeg : ∀ v ∈ vertices, degree v = ∑ u ∈ all, ((succ u).count v : Int))
    (hq : ∀ v, v ∈ queue ↔ v ∈ vertices ∧ degree v = 0) :
    ∃ n t, run (step succ) n ⟨degree, queue, []⟩ = some t ∧
      (∀ v, v ∈ t.order ↔ v ∈ vertices) ∧ ∀ v ∉ vertices, t.degree v = degree v := by
  have hstart : Covering succ vertices degree ⟨degree, queue, []⟩ := by
    refine ⟨fun v hv => ((hq v).mp hv).1, fun v => by simp, fun v hv hle => ?_⟩
    have hnonneg : 0 ≤ degree v := by
      rw [hdeg v hv]
      exact Finset.sum_nonneg fun _ _ => Int.natCast_nonneg _
    exact (hq v).mpr ⟨hv, le_antisymm hle hnonneg⟩
  have hinv : ∀ t, Reaches (step succ) ⟨degree, queue, []⟩ t →
      Covering succ vertices degree t := fun t ht =>
    ht.invariant hstart fun _ _ hs hstep => hs.preserved hsep hstep
  obtain ⟨n, t, hrun⟩ : ∃ n t, run (step succ) n ⟨degree, queue, []⟩ = some t := by
    exact (exists_run_iff (fun t => t.queue.length + (vertices.filter (0 < t.degree ·)).card)
      fun t u ht hstep => (hinv t ht).measure_lt hsep hstep).mpr fun t _ => isSome_step t
  obtain ⟨hreach, hemp⟩ := reaches_of_run hrun
  have hcov := hinv t hreach
  have hlist : t.order ++ t.queue = t.order := by rw [hemp, append_nil]
  refine ⟨n, t, hrun, fun v => ⟨fun hv => hcov.subset v (mem_append_left _ hv), ?_⟩, fun v hv => ?_⟩
  · exact mem_of_preds hsep hacyclic (fun v hv hpreds => hlist ▸ hcov.zero v hv
      (hcov.degree_le (hdeg v hv) hpreds)) v
  · rw [hcov.degree]
    have hzero : ∀ u ∈ t.order, ((succ u).count v : Int) = 0 := by
      intro u hu
      have hmem : v ∉ succ u := fun hmem =>
        hv (hsep.succs u v hmem (hcov.subset u (mem_append_left _ hu)))
      simp [count_eq_zero.mpr hmem]
    rw [map_congr_left hzero]
    simp

end Invariant

end TopologicalSort
