import Alkali.Linearize.Cse

/-!
# Patterns of the dialect

The canonicalizer applies the patterns of the dialect too. `GloablImportDedupPattern` replaces
an import by the first import of the same global. `BitCastOp::fold` and `BitCastTypeInfer`
replace a cast by its input or, if that is a constant, by another constant. The type
inference of lookups, updates and struct updates casts integers to the width of the table
or of the field.
-/

namespace Alkali

open List

/-- A cast to a type. -/
def castKind (ty : Ty) : OpKind := .compute ("bitcast " ++ reprStr ty)

structure PlainOp.IsCast (p : PlainOp) (v r : Value) (ty : Ty) : Prop where
  kind : p.kind = castKind ty
  operands : p.operands = [v]
  results : p.results = [(r, ty)]

namespace FuncOp

variable {f : FuncOp} {c j : Nat} {p : PlainOp} {σ : Value → Value}
variable {pre post : List Leg} {e : List Instr}

/-- The operands of an operation are available before it. -/
theorem SsaForm.available_operand (hf : f.SsaForm) (hp : (f.opsOf c)[j]? = some (.plain p))
    (hw : f.Walk 0 (pre ++ (c, e) :: post)) {v : Value} (hv : v ∈ p.operands) :
    v ∈ f.argsOf 0 ++ (f.codeTo pre c j).flatMap Instr.defs := by
  obtain ⟨Y, hcode, -⟩ := code_eraseOp_self hp (hf.acyclic.walk_nodup hw)
  have huses := hf.uses _ hw
  rw [hcode, instrsFrom_append] at huses
  exact huses.2.1 v (by simpa [Instr.uses, Operation.mem_uses])

variable {Val : Type} [Inhabited Val] [DecidableEq Val] {I : Interp Val}

/-- The function reaches an operation in a state. -/
def Reached (f : FuncOp) (I : Interp Val) (c j : Nat) (s : State Val) : Prop :=
  ∃ pre e post inputs cells, f.Walk 0 (pre ++ (c, e) :: post) ∧
    execInstrs I effects (f.codeTo pre c j) (initialState (f.argsOf 0) inputs cells) = some s

/-- Wherever an operation is reached, it computes a value. -/
def Computes (f : FuncOp) (I : Interp Val) (c j : Nat) (p : PlainOp) (v : Value) : Prop :=
  ∀ s, f.Reached I c j s → (I.eval p.kind (p.operands.map s.env)).getD 0 default = s.env v

/-- What reaches an operation reaches the place where it stood. -/
theorem SsaForm.reached_redirect (hf : f.SsaForm) (h : f.Redirects c j p σ) {s : State Val}
    (hs : f.Reached I c j s) : (f.redirect c j σ).Reached I c j s := by
  obtain ⟨pre, e, post, inputs, cells, hw, hs⟩ := hs
  obtain ⟨Y, hredirect, -, -⟩ := hf.redirect_at h hw
  have hpre : c ∉ pre.map Prod.fst := by
    have hnd := hf.acyclic.walk_nodup hw
    rw [map_append, map_cons] at hnd
    exact fun hmem => (nodup_append.mp hnd).2.2 c hmem c mem_cons_self rfl
  refine ⟨pre.map (renameLeg σ), e.map (Instr.rename σ), post.map (renameLeg σ), inputs, cells,
    ?_, ?_⟩
  · have hwalk := walk_rename (j := j) (c := c) (σ := σ) hw
    rwa [map_append, map_cons] at hwalk
  · have hto : (f.redirect c j σ).codeTo (pre.map (renameLeg σ)) c j = f.codeTo pre c j := by
      rw [codeTo, FuncOp.redirect, code_rename, code_eraseOp_skip hpre, opsOf_rename,
        opsOf_eraseOp_self, ← map_take, take_eraseIdx_eq_take_of_le _ _ _ (Nat.le_refl j), map_map]
      conv_rhs => rw [← hredirect.kept]
      rw [codeTo, map_append, map_map]
      rfl
    rw [hto, FuncOp.redirect, argsOf_rename, argsOf_eraseOp]
    exact hs

section Cast

variable {v r u : Value} {ty : Ty} (hp : (f.opsOf c)[j]? = some (.plain p))
  (hcast : p.IsCast v r ty)
include hp hcast

/-- The result of a cast can be replaced by a value that is available. -/
theorem redirects_cast (havail : ∀ pre e post, f.Walk 0 (pre ++ (c, e) :: post) →
      u ∈ f.argsOf 0 ++ (f.codeTo pre c j).flatMap Instr.defs) :
    f.Redirects c j p (replaceValue [r] [u]) where
  op := hp
  fixed := fun w hw => replaceValue_of_not_mem (by simpa [hcast.results] using hw)
  available := by
    intro pre e post hwalk w hw
    obtain rfl : w = r := by simpa [hcast.results] using hw
    simpa [replaceValue] using havail pre e post hwalk

/-- A cast can be replaced by its input. -/
theorem redirects_input (hf : f.SsaForm) : f.Redirects c j p (replaceValue [r] [v]) :=
  redirects_cast hp hcast fun _ _ _ hw =>
    hf.available_operand hp hw (by simp [hcast.operands])

omit hp in
/-- The value that takes the place of the result is what the cast computes. -/
theorem renamed_cast {s : State Val}
    (h : (I.eval p.kind (p.operands.map s.env)).getD 0 default = s.env u) :
    Renamed (replaceValue [r] [u]) (p.step I effects s) s := by
  have hpure : p.kind.isPure := by
    rw [hcast.kind]
    rfl
  have houts : p.kind.outputs I (p.operands.map s.env) s.cells =
      I.eval p.kind (p.operands.map s.env) := by
    rw [hcast.kind]
    rfl
  refine ⟨fun w => ?_, ?_, ?_⟩
  · rw [PlainOp.step_env, houts, hcast.results]
    by_cases hw : w = r
    · subst hw
      simpa [replaceValue, setResults] using h.symm
    · rw [replaceValue_of_not_mem (by simpa using hw), setResults_of_not_mem (by simpa using hw)]
  · rw [PlainOp.step_cells, OpKind.write, OpKind.writes_of_isPure hpure]
  · rw [PlainOp.step_trace, PlainOp.recorded, OpKind.effects_of_isPure hpure]
    simp

end Cast

end FuncOp

end Alkali
