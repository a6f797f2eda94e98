import Alkali.Linearize.Motion

/-!
# `LiftPurePattern`

Operations whose operands are defined in the entry block move to its end. An
operation with an effect moves into a guard with the conditions of the branches
that lead to its block.
-/

namespace Alkali

/-- What `matchAndRewrite` does with an operation. -/
structure OpAction where
  guard : Bool
  preds : List Value
  predAttrs : List Bool
  deriving DecidableEq, Repr

namespace FuncOp

variable (f : FuncOp)

/-- The defining block of the value is the entry block. -/
def definedInEntry (v : Value) : Bool :=
  v ∈ f.argsOf 0 || (f.opsOf 0).any fun o => v ∈ o.defs

/-- `foldPredicates`: the conditions on the way from the entry block to a block
where every block on the way has one predecessor. Fuel stands for the loop,
which visits no block twice in an acyclic function. -/
def foldPredicates (n cur : Nat) : Option (List (Value × Bool)) :=
  if cur = 0 then some []
  else
    match n with
    | 0 => none
    | n + 1 =>
      match f.predecessors cur with
      | [pred] =>
        match f.termOf pred with
        | .terminate => none
        | .br _ _ => foldPredicates n pred
        | .condBr cond trueDest _ _ _ =>
          if f.definedInEntry cond then
            (foldPredicates n pred).map ((cond, trueDest == cur) :: ·)
          else none
      | _ => none

/-- The action for an operation of a block. The operations with an effect are
those that the source names: returns, updates and commits. -/
def opAction (b : Nat) : Operation → Option OpAction
  | .guard _ _ _ _ => none
  | .plain op =>
    if op.operands.all f.definedInEntry then
      if op.kind.isPure then some ⟨false, [], []⟩
      else if effects op.kind then
        (f.foldPredicates f.blocks.length b).map fun ps =>
          ⟨true, ps.map Prod.fst, ps.map Prod.snd⟩
      else none
    else none

/-- The identity of the next operation that is created. -/
def nextId : OpId := (f.walk.map Operation.id).foldr max 0 + 1

/-- The operation that an action puts into the entry block. -/
def lifted (a : OpAction) (op : PlainOp) : Operation :=
  if a.guard then .guard f.nextId a.preds a.predAttrs op else .plain op

/-- Take an operation out of its block and put another one at the end of the
entry block. -/
def moveOp (b i : Nat) (o : Operation) : FuncOp :=
  { f with
    blocks := (f.blocks.modify b (fun blk => { blk with ops := blk.ops.eraseIdx i })).modify 0
      (fun blk => { blk with ops := blk.ops ++ [o] }) }

/-- The operations of a block that are left, the first of them at index `i`. The
actions are those for the function `f` before the block was changed; `r` is the
function now and whether it has changed. -/
def liftOps (b : Nat) : List Operation → Nat → FuncOp × Bool → FuncOp × Bool
  | [], _, r => r
  | o :: ops, i, r =>
    match f.opAction b o with
    | none => liftOps b ops (i + 1) r
    | some a => liftOps b ops i (r.1.moveOp b i (r.1.lifted a o.inner), true)

/-- A block without predecessors is left alone. -/
def liftBlock (b : Nat) : FuncOp × Bool :=
  if f.predecessors b = [] then (f, false) else f.liftOps b (f.opsOf b) 0 (f, false)

/-- `matchAndRewrite`: the changed function, and whether it has changed. -/
def matchAndRewrite : FuncOp × Bool :=
  (List.range f.blocks.length).foldl
    (fun r b => ((r.1.liftBlock b).1, r.2 || (r.1.liftBlock b).2)) (f, false)

/-- Apply the pattern until nothing changes. -/
def liftAll : Nat → FuncOp → FuncOp
  | 0, f => f
  | n + 1, f => if f.matchAndRewrite.2 then liftAll n f.matchAndRewrite.1 else f

section Moved

variable {f} {b i : Nat} {o : Operation}

theorem getElem?_moveOp (c : Nat) : (f.moveOp b i o).blocks[c]? = (f.blocks[c]?).map fun blk =>
      { blk with ops :=
        (if c = b then blk.ops.eraseIdx i else blk.ops) ++ if c = 0 then [o] else [] } := by
  simp only [moveOp, List.getElem?_modify, @eq_comm _ b c, @eq_comm _ 0 c]
  cases f.blocks[c]? with
  | none => rfl
  | some blk =>
    simp only [Option.map_some]
    split_ifs <;> simp

theorem opsOf_moveOp_zero (hb : b ≠ 0) (h : f.blocks ≠ []) :
    (f.moveOp b i o).opsOf 0 = f.opsOf 0 ++ [o] := by
  obtain ⟨blk, rest, hblocks⟩ := List.exists_cons_of_ne_nil h
  simp [opsOf, getElem?_moveOp, hblocks, hb.symm]

theorem opsOf_moveOp_self (hb : b ≠ 0) : (f.moveOp b i o).opsOf b = (f.opsOf b).eraseIdx i := by
  cases hblk : f.blocks[b]? with
  | none => simp [opsOf, getElem?_moveOp, hblk]
  | some blk => simp [opsOf, getElem?_moveOp, hblk, hb]

variable {c : Nat}

theorem opsOf_moveOp_of_ne (hb : c ≠ b) (h0 : c ≠ 0) : (f.moveOp b i o).opsOf c = f.opsOf c := by
  cases hblk : f.blocks[c]? with
  | none => simp [opsOf, getElem?_moveOp, hblk]
  | some blk => simp [opsOf, getElem?_moveOp, hblk, hb, h0]

@[simp] theorem argsOf_moveOp (c : Nat) : (f.moveOp b i o).argsOf c = f.argsOf c := by
  simp [argsOf, getElem?_moveOp, Function.comp_def]

@[simp] theorem termOf_moveOp (c : Nat) : (f.moveOp b i o).termOf c = f.termOf c := by
  simp [termOf, getElem?_moveOp, Function.comp_def]

@[simp] theorem edges_moveOp (c : Nat) : (f.moveOp b i o).edges c = f.edges c := by
  simp [edges]

theorem walk_moveOp {w : List Leg} (h : f.Walk c w) : (f.moveOp b i o).Walk c w := by
  induction h with
  | stop hterm => exact .stop (by rwa [termOf_moveOp])
  | go hedge _ ih => exact .go (by rwa [edges_moveOp]) ih

theorem walk_of_moveOp {w : List Leg} (h : (f.moveOp b i o).Walk c w) : f.Walk c w := by
  induction h with
  | stop hterm => exact .stop (by rwa [termOf_moveOp] at hterm)
  | go hedge _ ih => exact .go (by rwa [edges_moveOp] at hedge) ih

end Moved

end FuncOp

end Alkali
