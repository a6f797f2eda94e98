import Alkali.Purity.Merge

/-!
# Operations that tell two objects apart

Something that is emitted to a buffer or written to a table is seen in a returned
value exactly if it is the same object.
-/

namespace Alkali.RefOp

open Function HeapState

variable {Val : Type} [Inhabited Val] [DecidableEq Val] {I : RefInterp Val} (v : Value)

/-- `ep2.return` of a value. -/
def returned : RefOp :=
  { kind := .base .ret, operands := [v], results := [], preds := [] }

/-- `ep2.emit` of a value to a buffer. -/
def emitted (buffer v : Value) : RefOp :=
  { kind := .emit, operands := [buffer, v], results := [], preds := [] }

variable (c : String) (z : Value)

/-- `ep2.constant` of an integer type. -/
def constantOf : RefOp :=
  { kind := .base (.constant c), operands := [], results := [(z, .int 32)], preds := [] }

/-- `ep2.update` of a local table. -/
def updated (table key v : Value) : RefOp :=
  { kind := .base (.update ""), operands := [table, key, v], results := [], preds := [] }

@[simp] theorem uses_returned : (returned v).uses = [v] := rfl

@[simp] theorem uses_emitted (b v : Value) : (emitted b v).uses = [b, v] := rfl

@[simp] theorem uses_constantOf : (constantOf c z).uses = [] := rfl

@[simp] theorem uses_updated (t k v : Value) : (updated t k v).uses = [t, k, v] := rfl

@[simp] theorem binds_returned : (returned v).binds = [] := rfl

@[simp] theorem binds_emitted (b v : Value) : (emitted b v).binds = [] := rfl

@[simp] theorem binds_constantOf : (constantOf c z).binds = [z] := rfl

@[simp] theorem binds_updated (t k v : Value) : (updated t k v).binds = [] := rfl

variable {w : HeapState Val} {x y : Value} {m n : Nat}

theorem trace_returned : ((returned v).step I w).trace = w.trace ++ [[w.shown (w.env v)]] := rfl

theorem step_emitted (hy : w.env y = [.addr n]) (v : Value) : (emitted y v).step I w = { w with
      buffers := update w.buffers n (w.content I (w.env v) :: w.buffers n) } := by
  rw [step_of_preds_nil rfl]
  simp [emitted, RefOp.args, RefKind.effect, setBuffer, bufferOf, withEnv, binds, hy]

theorem step_updated {k v : Value} {a b : Val} (hy : w.env y = [.addr n])
    (hk : w.env k = [.data a]) (hv : w.env v = [.data b]) :
    (updated y k v).step I w = { w with
      tables := update w.tables n
        (update (w.tables n) (I.pack [.data a]) (I.pack [.data b])) } := by
  rw [step_of_preds_nil rfl]
  simp [updated, RefOp.args, RefKind.effect, setEntry, withEnv, content, shown, binds, hy, hk, hv]

theorem step_constantOf : (constantOf c z).step I w =
      w.withEnv (update w.env z (I.eval (.constant c) [])) := by
  rw [step_of_preds_nil rfl]
  simp only [constantOf, RefOp.args, RefKind.effect, RefKind.value, binds, List.map_cons,
    List.map_nil]
  congr 1
  funext v
  by_cases hv : v = z
  · simp [setResults, hv]
  · simp [setResults, hv]

/-- What is returned of the object `m` after something was emitted to the object `n`. -/
theorem trace_emitted (hx : w.env x = [.addr m]) (hy : w.env y = [.addr n]) :
    ∃ c, (run I [emitted y y, returned x] w).trace = w.trace ++
      [[[.object (if m = n then c :: w.buffers m else w.buffers m) (w.tables m)]]] := by
  refine ⟨w.content I [.addr n], ?_⟩
  rw [run, step_emitted hy, run, run, trace_returned]
  by_cases h : m = n
  · simp [shown, hx, hy, h]
  · simp [shown, hx, h]

/-- The interpretation tells two constants apart. -/
def Distinguishes (I : RefInterp Val) : Prop :=
  ∃ c d a b, I.eval (.constant c) [] = [.data a] ∧ I.eval (.constant d) [] = [.data b] ∧
    I.pack [.data a] ≠ I.pack [.data b]

/-- What is returned of the object `n` after its entry and then that of the object
`m` for one key got different values. -/
theorem trace_updated {c d : String} {a b : Val} (hc : I.eval (.constant c) [] = [.data a])
    (hd : I.eval (.constant d) [] = [.data b]) {z z' : Value} (hz : z ≠ z')
    (hxz : x ≠ z ∧ x ≠ z') (hyz : y ≠ z ∧ y ≠ z') (hx : w.env x = [.addr m])
    (hy : w.env y = [.addr n]) :
    ∃ T : Val → Val,
      (run I [constantOf c z, constantOf d z', updated y z z, updated x z z', returned y] w).trace =
        w.trace ++ [[[.object (w.buffers n) T]]] ∧
      T (I.pack [.data a]) = if m = n then I.pack [.data b] else I.pack [.data a] := by
  have hconstants : ∀ ops, run I (constantOf c z :: constantOf d z' :: ops) w = run I ops
      (w.withEnv (update (update w.env z [.data a]) z' [.data b])) := fun ops => by
    rw [run, step_constantOf, run, step_constantOf, hc, hd]
    rfl
  rw [hconstants]
  generalize he : update (update w.env z [.data a]) z' [.data b] = e
  have hez : e z = [.data a] := by simp [← he, hz]
  have hez' : e z' = [.data b] := by simp [← he]
  have hex : e x = [.addr m] := by simp [← he, hxz, hx]
  have hey : e y = [.addr n] := by simp [← he, hyz, hy]
  rw [run, step_updated hey hez hez, run, step_updated hex hez hez', run, run, trace_returned]
  refine ⟨_, congrArg (fun v => w.trace ++ [[shown _ v]]) hey, ?_⟩
  by_cases h : m = n
  · simp [h]
  · simp [withEnv, h, Ne.symm h]

end Alkali.RefOp
