import Alkali.Pipeline.Split

/-!
# The functions of a module

The passes that map a handler to a target read and set attributes of the functions
of a module. `functionSplitter` gives the two stages that it makes their
attributes. It never looks at blocks: the operations of all blocks are one list.
-/

namespace Alkali

/-- The identity of a function. -/
abbrev FuncId := Nat

/-- The values of the attribute `type`. -/
inductive FuncType
  | handler
  | controller
  deriving DecidableEq, Repr

/-- A function with its attributes. -/
structure ModuleFunc where
  id : FuncId
  func : FuncOp
  type : FuncType
  isExtern : Bool
  event : Option String
  atom : Option String
  generationIndex : Option Int
  instances : Option (List String)
  deriving DecidableEq, Repr

/-- The value of a C++ `int`. -/
def wrapInt (x : Int) : Int := x.bmod (2 ^ 32)

theorem wrapInt_of_lt {x : Int} (h : 0 ≤ x) (h' : x < 2 ^ 31) : wrapInt x = x := by
  rw [wrapInt, Int.bmod_def]
  omega

namespace ModuleFunc

variable (f : ModuleFunc)

/-- The handlers that the passes look at: `isHandler` and not `isExtern`. -/
def isStage : Bool := f.type == .handler && !f.isExtern

/-- The index of a handler that was never split is `1`. -/
def generation : Int := (f.generationIndex.map wrapInt).getD 1

/-- The attributes of the stages that `functionSplitter` makes: the source is a
clone, the sink a new handler. -/
def splitInto (sourceId sinkId : FuncId) (source sink : FuncOp) : ModuleFunc × ModuleFunc :=
  ({ f with
      id := sourceId, func := source
      generationIndex := some (wrapInt (f.generation * 2)) },
    { id := sinkId, func := sink, type := .handler, isExtern := false, event := none, atom := none
      generationIndex := some (wrapInt (f.generation * 2 + 1)), instances := none })

end ModuleFunc

end Alkali
