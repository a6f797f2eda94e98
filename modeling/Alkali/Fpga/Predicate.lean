import Alkali.Linearize.Lift

/-!
# The pass `cf-to-pred` and the module `pred_demux`

On the FPGA all blocks of a handler run. The pass gives each block a predicate that should be
one if the block is executed: the entry block gets a constant, every other block an argument
that its predecessors pass. `pred_demux` combines what comes in over several edges.
-/

namespace Alkali

open List FuncOp

namespace FuncOp

variable (f : FuncOp)

/-! ## The pass -/

variable (b : Nat)

/-- The predicate of a block. Each block gets five new values. -/
def predOf : Value := f.nextValue + 5 * b

def truePredOf : Value := f.predOf b + 1

def oneOf : Value := f.predOf b + 2

def notCondOf : Value := f.predOf b + 3

def falsePredOf : Value := f.predOf b + 4

/-- `pred` as a constant of a block without predecessors, or as the operand of the sink in a
block without successors. -/
def headOps (blk : Block) : List Operation :=
  if f.predecessors b = [] then
    [.plain ⟨f.nextId + 5 * b, .constant "1", [], [(f.predOf b, .int 1)]⟩]
  else if blk.term.successors = [] then
    [.plain ⟨f.nextId + 5 * b, .sink, [f.predOf b], []⟩]
  else []

/-- The predicates of the two edges of a conditional branch. -/
def edgeOps : Terminator → List Operation
  | .condBr cond _ _ _ _ =>
    [.plain ⟨f.nextId + 5 * b + 1, .compute "arith.andi", [cond, f.predOf b],
        [(f.truePredOf b, .int 1)]⟩,
      .plain ⟨f.nextId + 5 * b + 2, .constant "1", [], [(f.oneOf b, .int 1)]⟩,
      .plain ⟨f.nextId + 5 * b + 3, .compute "arith.subi", [f.oneOf b, cond],
        [(f.notCondOf b, .int 1)]⟩,
      .plain ⟨f.nextId + 5 * b + 4, .compute "arith.andi", [f.notCondOf b, f.predOf b],
        [(f.falsePredOf b, .int 1)]⟩]
  | _ => []

/-- The branch with the predicates of its edges. -/
def predTerm : Terminator → Terminator
  | .terminate => .terminate
  | .br dest args => .br dest (f.predOf b :: args)
  | .condBr cond trueDest trueArgs falseDest falseArgs =>
    .condBr cond trueDest (f.truePredOf b :: trueArgs) falseDest (f.falsePredOf b :: falseArgs)

def predBlock (blk : Block) (b : Nat) : Block where
  args := if f.predecessors b = [] then blk.args else (f.predOf b, .int 1) :: blk.args
  ops := f.headOps b blk ++ blk.ops ++ f.edgeOps b blk.term
  termId := blk.termId
  term := f.predTerm b blk.term

/-- `insertNewBlockParameter`. -/
def insertNewBlockParameter : FuncOp :=
  { f with blocks := f.blocks.zipIdx.map fun p => f.predBlock p.1 p.2 }

end FuncOp

/-! ## The hardware -/

namespace Fpga

/-- `m_demux_out_tdata` of `pred_demux`: the conjunction of what comes in. -/
def predDemux (bits : List Bool) : Bool := bits.all id

/-- The first operands that a branch passes, with their blocks. -/
def firstOperands : Terminator → List (Nat × Value)
  | .terminate => []
  | .br dest args => args.head?.toList.map (dest, ·)
  | .condBr _ trueDest trueArgs falseDest falseArgs =>
    trueArgs.head?.toList.map (trueDest, ·) ++ falseArgs.head?.toList.map (falseDest, ·)

/-- The values that feed the first argument of a block, one for each edge. -/
def feeds (g : FuncOp) (b : Nat) : List Value :=
  g.blocks.zipIdx.flatMap fun p =>
    (firstOperands p.1.term).filterMap fun x => if x.1 = b then some x.2 else none

/-- The bits that an operation with a result of one bit allows. -/
def OpHolds (ν : Value → Bool) : Operation → Prop
  | .plain ⟨_, .constant "1", [], [(r, .int 1)]⟩ => ν r = true
  | .plain ⟨_, .compute "arith.andi", [x, y], [(r, .int 1)]⟩ => ν r = (ν x && ν y)
  | .plain ⟨_, .compute "arith.subi", [x, y], [(r, .int 1)]⟩ => ν r = (ν x ^^ ν y)
  | _ => True

instance (ν : Value → Bool) (o : Operation) : Decidable (OpHolds ν o) := by
  unfold OpHolds
  split <;> infer_instance

/-- The wires of a function carry bits that agree with its operations and with `pred_demux`. -/
structure Wired (g : FuncOp) (ν : Value → Bool) : Prop where
  ops : ∀ blk ∈ g.blocks, ∀ o ∈ blk.ops, OpHolds ν o
  args : ∀ b blk v, g.blocks[b]? = some blk → g.predecessors b ≠ [] →
    (blk.args.head?.map Prod.fst) = some v → ν v = predDemux ((feeds g b).map ν)

/-! ## The transformed function -/

section Shape

variable {f : FuncOp}

theorem getElem?_blocks (b : Nat) : f.insertNewBlockParameter.blocks[b]? =
    (f.blocks[b]?).map fun blk => f.predBlock blk b := by
  simp [insertNewBlockParameter, getElem?_zipIdx, Option.map_map]
  rfl

theorem zipIdx_blocks : f.insertNewBlockParameter.blocks.zipIdx =
    f.blocks.zipIdx.map fun p => (f.predBlock p.1 p.2, p.2) := by
  refine ext_getElem? fun b => ?_
  rw [getElem?_zipIdx, getElem?_blocks, getElem?_map, getElem?_zipIdx]
  cases f.blocks[b]? <;> simp

theorem predecessors_eq (b : Nat) :
    f.insertNewBlockParameter.predecessors b = f.predecessors b := by
  have hterm : ∀ a term, (f.predTerm a term).successors = term.successors := by
    intro a term
    cases term <;> rfl
  simp only [predecessors, zipIdx_blocks, flatMap_map, predBlock, hterm]

/-- The predicates of the edges out of a block. -/
def edgePreds (f : FuncOp) (a : Nat) : Terminator → List (Nat × Value)
  | .terminate => []
  | .br dest _ => [(dest, f.predOf a)]
  | .condBr _ trueDest _ falseDest _ => [(trueDest, f.truePredOf a), (falseDest, f.falsePredOf a)]

/-- Those that lead to a block. -/
def predsTo (f : FuncOp) (b a : Nat) (term : Terminator) : List Value :=
  (edgePreds f a term).filterMap fun x => if x.1 = b then some x.2 else none

theorem feeds_eq (b : Nat) : feeds f.insertNewBlockParameter b =
    f.blocks.zipIdx.flatMap fun p => predsTo f b p.2 p.1.term := by
  have hterm : ∀ a term, firstOperands (f.predTerm a term) = edgePreds f a term := by
    intro a term
    cases term <;> rfl
  simp only [feeds, zipIdx_blocks, flatMap_map, predBlock, hterm]
  rfl

theorem length_feeds (b : Nat) :
    (feeds f.insertNewBlockParameter b).length = (f.predecessors b).length := by
  rw [feeds_eq, predecessors]
  induction f.blocks.zipIdx with
  | nil => rfl
  | cons p ps ih =>
    rw [flatMap_cons, flatMap_cons, length_append, length_append, ih]
    congr 1
    obtain ⟨blk, a⟩ := p
    cases hterm : blk.term with
    | terminate => rfl
    | br dest args =>
      by_cases hd : dest = b <;> simp [predsTo, edgePreds, hd, Terminator.successors]
    | condBr cond d args d' args' =>
      by_cases hd : d = b <;> by_cases hd' : d' = b <;>
        simp [predsTo, edgePreds, hd, hd', Terminator.successors]

end Shape

/-! ## The bits -/

section Bits

variable {f : FuncOp} {ν : Value → Bool}

/-- The block that is executed after a block. -/
def nextBlock (f : FuncOp) (ν : Value → Bool) (a : Nat) : Option Nat :=
  match f.termOf a with
  | .terminate => none
  | .br dest _ => some dest
  | .condBr cond trueDest _ falseDest _ => some (if ν cond then trueDest else falseDest)

variable {b a : Nat} {blk : Block}

section

variable (h : Wired f.insertNewBlockParameter ν)
include h

theorem Wired.opHolds (hb : f.blocks[b]? = some blk)
    {o : Operation} (ho : o ∈ (f.predBlock blk b).ops) : OpHolds ν o := by
  refine h.ops (f.predBlock blk b) (mem_of_getElem? (i := b) ?_) o ho
  rw [getElem?_blocks, hb]
  rfl

/-- A block without predecessors has a one. -/
theorem Wired.pred_of_no_predecessors
    (hb : b < f.blocks.length) (hpred : f.predecessors b = []) : ν (f.predOf b) = true := by
  have hop : Operation.plain ⟨f.nextId + 5 * b, .constant "1", [], [(f.predOf b, .int 1)]⟩ ∈
      (f.predBlock f.blocks[b] b).ops := by
    simp [predBlock, headOps, hpred]
  exact h.opHolds (getElem?_eq_getElem hb) hop

theorem Wired.pred_iff (hb : b < f.blocks.length) (hpred : f.predecessors b ≠ []) :
    ν (f.predOf b) = true ↔ ∀ v ∈ feeds f.insertNewBlockParameter b, ν v = true := by
  have hblock : f.insertNewBlockParameter.blocks[b]? = some (f.predBlock f.blocks[b] b) := by
    rw [getElem?_blocks, getElem?_eq_getElem hb]
    rfl
  rw [h.args b _ (f.predOf b) hblock (by rwa [predecessors_eq]) (by
    simp [predBlock, hpred])]
  simp [predDemux]

variable (ha : f.blocks[a]? = some blk)
include ha

/-- The predicates of the edges of a conditional branch. -/
theorem Wired.edge_bits {cond : Value} {d d' : Nat} {args args' : List Value}
    (hterm : blk.term = .condBr cond d args d' args') :
    ν (f.truePredOf a) = (ν cond && ν (f.predOf a)) ∧
      ν (f.falsePredOf a) = (!ν cond && ν (f.predOf a)) := by
  have hops : ∀ o ∈ f.edgeOps a blk.term, OpHolds ν o :=
    fun o ho => h.opHolds ha (mem_append_right _ ho)
  simp only [hterm, edgeOps, mem_cons, not_mem_nil, or_false, forall_eq_or_imp, forall_eq] at hops
  obtain ⟨htrue, hone, hnot, hfalse⟩ := hops
  refine ⟨htrue, ?_⟩
  rw [hfalse, hnot, hone, Bool.true_xor]

/-- An edge has a one if its block has one and the branch takes the edge. -/
theorem Wired.edge_iff {v : Value} (hv : v ∈ predsTo f b a blk.term) :
    ν v = true → ν (f.predOf a) = true ∧ nextBlock f ν a = some b := by
  intro hone
  have hterm : f.termOf a = blk.term := by simp [termOf, ha]
  rw [nextBlock, hterm]
  obtain ⟨⟨d, v⟩, hmem, hd⟩ := mem_filterMap.mp hv
  obtain ⟨rfl, rfl⟩ : d = b ∧ v = _ := by simpa using hd
  cases hblk : blk.term with
  | terminate => simp [edgePreds, hblk] at hmem
  | br dest args =>
    simp only [edgePreds, hblk, mem_singleton, Prod.mk.injEq] at hmem
    obtain ⟨rfl, rfl⟩ := hmem
    exact ⟨hone, rfl⟩
  | condBr cond e args e' args' =>
    obtain ⟨htrue, hfalse⟩ := h.edge_bits ha hblk
    simp only [edgePreds, hblk, mem_cons, not_mem_nil, or_false, Prod.mk.injEq] at hmem
    rcases hmem with ⟨rfl, rfl⟩ | ⟨rfl, rfl⟩
    · rw [htrue, Bool.and_eq_true] at hone
      simp [hone]
    · rw [hfalse, Bool.and_eq_true, Bool.not_eq_true'] at hone
      simp [hone]

/-- The edge that the branch of a block takes has the block's predicate. -/
theorem Wired.exists_edge (hnext : nextBlock f ν a = some b) :
    ∃ v ∈ predsTo f b a blk.term, ν v = ν (f.predOf a) := by
  have hterm : f.termOf a = blk.term := by simp [termOf, ha]
  rw [nextBlock, hterm] at hnext
  cases hblk : blk.term with
  | terminate => simp [hblk] at hnext
  | br dest args =>
    obtain rfl : dest = b := by simpa [hblk] using hnext
    exact ⟨f.predOf a, by simp [predsTo, edgePreds], rfl⟩
  | condBr cond d args d' args' =>
    obtain ⟨htrue, hfalse⟩ := h.edge_bits ha hblk
    cases hcond : ν cond with
    | true =>
      obtain rfl : d = b := by simpa [hblk, hcond] using hnext
      exact ⟨f.truePredOf a, by simp [predsTo, edgePreds], by simp [htrue, hcond]⟩
    | false =>
      obtain rfl : d' = b := by simpa [hblk, hcond] using hnext
      refine ⟨f.falsePredOf a, ?_, by simp [hfalse, hcond]⟩
      exact mem_filterMap.mpr ⟨(d', f.falsePredOf a), by simp [edgePreds], by simp⟩

/-- Two edges of one branch do not both have a one. -/
theorem Wired.length_predsTo_le (hall : ∀ v ∈ predsTo f b a blk.term, ν v = true) :
    (predsTo f b a blk.term).length ≤ 1 := by
  cases hblk : blk.term with
  | terminate => exact Nat.zero_le _
  | br dest args => exact length_filterMap_le _ _
  | condBr cond d args d' args' =>
    obtain ⟨htrue, hfalse⟩ := h.edge_bits ha hblk
    by_cases hd : d = b <;> by_cases hd' : d' = b <;>
      simp [predsTo, edgePreds, hd, hd']
    simp only [predsTo, edgePreds, hblk, hd, hd', if_true, filterMap_cons,
      filterMap_nil, forall_mem_cons, htrue, hfalse, Bool.and_eq_true,
      Bool.not_eq_true'] at hall
    rw [hall.1.1] at hall
    cases hall.2.1.1

end

end Bits

end Fpga

end Alkali
