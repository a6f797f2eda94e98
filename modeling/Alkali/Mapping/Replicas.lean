import Alkali.Library.Replication
import Alkali.Mapping.Performance
import Alkali.Mapping.Stage

/-!
# Replicated stages

A stage with several units becomes several replicas. The controller in front of it
is a queue that hands the events to the replicas in turn, and every replica has
tables of its own. Contexts and buffer pools stay shared. Events are handled one
after the other.
-/

namespace Alkali

open Function

section Service

variable {Val : Type} [Inhabited Val] [DecidableEq Val] (f : FuncOp) (I : Interp Val)

/-- A stage as a service of its events. A run that is out of fuel counts as one that
reads everything. -/
def FuncOp.service (n : Nat) :
    Replication.Service (Cell × Val) Val (List Val) (Option (List (Access Val))) where
  handle inputs c :=
    match f.handle I n inputs (curry c) with
    | some (log, cells) => (some log, uncurry cells)
    | none => (none, c)
  reads inputs c := ((f.handle I n inputs (curry c)).map (readSet ∘ Prod.fst)).getD Set.univ
  writes inputs c := ((f.handle I n inputs (curry c)).map (writeSet ∘ Prod.fst)).getD ∅
  frame inputs c e he := by
    cases hrun : f.handle I n inputs (curry c) with
    | none => rfl
    | some p =>
      rw [hrun] at he
      exact handle_frame hrun he
  determined inputs c c' hsame := by
    cases hrun : f.handle I n inputs (curry c) with
    | none =>
      rw [hrun] at hsame
      have hc : c' = c := funext fun e => hsame e (Set.mem_univ e)
      simp [hc, hrun]
    | some p =>
      rw [hrun] at hsame
      have hsame' : ∀ e ∈ readSet p.1, curry c' e.1 e.2 = curry c e.1 e.2 :=
        hsame
      obtain ⟨cells₂, hrun₂, hvalues⟩ := handle_determined hrun hsame'
      simp only [hrun₂]
      exact ⟨trivial, rfl, hvalues⟩

/-- Whether an entry has a copy in every replica. -/
def ownedEntry (e : Cell × Val) : Bool :=
  match e.1 with
  | .table _ => true
  | _ => false

/-- The controller's queue hands out events in turn. -/
def roundRobin (n k : Nat) : Nat := k % n

/-- The accesses of each event, handled in order by the stage. -/
def FuncOp.stageLogs (n : Nat) (events : List (List Val)) (cells : Cell → Val → Val) :
    List (Option (List (Access Val))) :=
  (f.service I n).serve events (uncurry cells)

/-- The accesses of each event, handled in turn by replicas with tables of their own. -/
def FuncOp.replicaLogs (n units : Nat) (events : List (List Val)) (cells : Cell → Val → Val) :
    List (Option (List (Access Val))) :=
  (f.service I n).serveReplicas ownedEntry (roundRobin units) 0 events
    (fun _ => uncurry cells) (uncurry cells)

/-- Table entries that an event reads were last written by an event of its replica. -/
def FuncOp.KeepsToReplicas (n units : Nat) (events : List (List Val)) (cells : Cell → Val → Val) :
    Prop :=
  (f.service I n).Together ownedEntry (roundRobin units) events (uncurry cells)

/-- A stage without loops handles every event, and its replicas make the accesses of
the stage, with the same values, for events that keep to their replicas. -/
theorem FuncOp.replicaLogs_eq_stageLogs {f : FuncOp} (hf : f.Acyclic) (I : Interp Val)
    (units : Nat) :
    (∃ n, ∀ inputs cells, (f.handle I n inputs cells).isSome) ∧
      ∀ n events cells, f.KeepsToReplicas I n units events cells →
        f.replicaLogs I n units events cells = f.stageLogs I n events cells :=
  ⟨hf.exists_handle I, fun _ _ _ h => h.serve_eq⟩

end Service

theorem handlerOf_acyclic (ops : List Operation) : (handlerOf ops).Acyclic := by
  refine ⟨fun _ => 0, fun b instrs d hedge => ?_⟩
  match b with
  | 0 => cases hedge
  | b + 1 => cases hedge

/-- Values are natural numbers, and `add` is the only computation. -/
def countInterp : Interp Nat where
  eval
    | .compute "add", args => [args.sum]
    | _, _ => []
  truth v := v != 0
  atomic _ old _ := old

/-- Counters keep to their replicas if the events of a flow go to one replica. -/
theorem count_keepsToReplicas {units : Nat} {flows : List Nat}
    (h : ∀ j k flow, flows[j]? = some flow → flows[k]? = some flow →
      roundRobin units j = roundRobin units k) (cells : Cell → Nat → Nat) :
    (handlerOf countOps).KeepsToReplicas countInterp 1 units (flows.map fun flow => [0, flow])
      cells := by
  have hreads : ∀ flow c e, e ∈ ((handlerOf countOps).service countInterp 1).reads [0, flow] c →
      e = (.table "flows", flow) := by
    rintro flow c e ⟨a, ha, hread, rfl⟩
    rcases List.mem_pair.mp ha with rfl | rfl
    · rfl
    · cases hread
  have hwrites : ∀ flow c e, e ∈ ((handlerOf countOps).service countInterp 1).writes [0, flow] c →
      e = (.table "flows", flow) := by
    rintro flow c e ⟨a, ha, hwrite, rfl⟩
    rcases List.mem_pair.mp ha with rfl | rfl
    · cases hwrite
    · rfl
  rintro j k ev' _ hk e _ ⟨ev, hj, hw⟩ hr -
  rw [List.getElem?_map, Option.map_eq_some_iff] at hj hk
  obtain ⟨flow, hflow, rfl⟩ := hj
  obtain ⟨flow', hflow', rfl⟩ := hk
  have heq : flow = flow' := by
    have := (hwrites _ _ _ hw).symm.trans (hreads _ _ _ hr)
    exact congrArg Prod.snd this
  exact h j k flow hflow (heq ▸ hflow')

/-- Four events of three flows, handed to three replicas. -/
theorem replicaLogs_eq_stageLogs_count :
    (handlerOf countOps).replicaLogs countInterp 1 3 ([5, 7, 9, 5].map fun flow => [0, flow])
        (fun _ _ => 0) =
      (handlerOf countOps).stageLogs countInterp 1 ([5, 7, 9, 5].map fun flow => [0, flow])
        (fun _ _ => 0) := by
  refine (FuncOp.replicaLogs_eq_stageLogs (handlerOf_acyclic countOps) countInterp 3).2 1 _ _
    (count_keepsToReplicas (fun j k flow hj hk => ?_) _)
  have hall : ∀ j < 4, ∀ k < 4, [5, 7, 9, 5][j]? = [5, 7, 9, 5][k]? →
      roundRobin 3 j = roundRobin 3 k := by decide
  exact hall j (List.getElem?_eq_some_iff.mp hj).1 k (List.getElem?_eq_some_iff.mp hk).1
    (hj.trans hk.symm)

/-- A handler that counts by flow is clean and gets three units. With two events of one
flow the second lookup of the stage returns what the first event has stored, and that
of the replicas does not. -/
theorem replicaLogs_count : isTableClean (handlerOf countOps) = true ∧
      (netronomeModel.getMapping [handlerOf countOps]).map (fun r => (r.unitMap 0).length) =
        some 3 ∧
      (handlerOf countOps).stageLogs countInterp 1 [[0, 5], [0, 5]] (fun _ _ => 0) =
        [some [⟨false, .table "flows", 5, 0⟩, ⟨true, .table "flows", 5, 5⟩],
          some [⟨false, .table "flows", 5, 5⟩, ⟨true, .table "flows", 5, 10⟩]] ∧
      (handlerOf countOps).replicaLogs countInterp 1 3 [[0, 5], [0, 5]] (fun _ _ => 0) =
        [some [⟨false, .table "flows", 5, 0⟩, ⟨true, .table "flows", 5, 5⟩],
          some [⟨false, .table "flows", 5, 0⟩, ⟨true, .table "flows", 5, 5⟩]] :=
  ⟨by decide, by decide, by decide, by decide⟩

end Alkali
