import Alkali.MLIRGen.StraightLine

/-!
# Declarations, assignments and extractions

Each of them keeps the agreement of the symbol table with the store.
-/

namespace Alkali

open Fallible

section Steps

variable {D : Type} {M : ValueModel D} {structMap : StructMap} {st : GenState} {store : Store D}
variable {decl : VarType} {type : Ty} {head : String}

theorem Agrees.exists_declare (h : Agrees M structMap st store) {name : String}
    (hnew : st.symbolTable.lookup name = none) (value : SsaValue) (hrvalue : value.IsRValue)
    (hdecl : decl.name = "" ∨ getVarType structMap decl = .ok value.type) :
    ∃ st', st.declare name decl value = .ok st' ∧
      Agrees M structMap st' (store.declare name decl value.type (M.denote value)) := by
  simp only [GenState.declare, hnew]
  refine ⟨_, rfl, h.next, ?_⟩
  intro x decl' type hscope
  by_cases hx : x = name
  · subst hx
    simp only [Store.declare, Function.update_self, Option.some.injEq, Prod.mk.injEq] at hscope
    obtain ⟨rfl, rfl⟩ := hscope
    exact ⟨_, ScopedTable.lookup_insert_self .., rfl, rfl, rfl, by simp [Store.declare], hrvalue,
      hdecl⟩
  · simp only [Store.declare, Function.update_of_ne hx] at hscope ⊢
    rw [ScopedTable.lookup_insert_of_ne _ hx]
    exact h.entries x decl' type hscope

/-- Assigning to a variable converts the value to the type of the variable. -/
theorem Agrees.exists_update (h : Agrees M structMap st store) {x : String}
    (hscope : store.scope x = some (decl, type)) (value : SsaValue)
    (htype : Assignable value.type type) (hblock : value.isBlockArg → value.type = type)
    (hrvalue : value.IsRValue) :
    ∃ st', st.update x value = .ok st' ∧ Agrees M structMap st'
      (store.set x (M.convert value.type type (M.denote value))) := by
  obtain ⟨entry, hent, hagr⟩ := h.entries x decl type hscope
  obtain ⟨v, hcast, hvtype, hvalue, hv⟩ := exists_tryCast (M := M) htype hblock
  have hglobal : ∀ name ty, v ≠ .globalOp name ty := by
    rcases hv with rfl | rfl
    · exact hrvalue.not_global
    · exact nofun
  have href : ∀ ref, v.type ≠ .contextRef ref := by
    rw [hvtype, ← hagr.value_type]
    exact hagr.rvalue.not_ref
  simp only [GenState.update, hent, hagr.type_eq, hcast]
  refine ⟨_, rfl, h.next, ?_⟩
  intro y decl' type' hscope'
  by_cases hy : y = x
  · subst hy
    obtain ⟨rfl, rfl⟩ := Prod.mk.inj (Option.some.inj (hscope.symm.trans hscope'))
    refine ⟨_, ScopedTable.lookup_insert_self .., hagr.decl_eq, rfl, hvtype, ?_,
      ⟨hglobal, href⟩, hagr.declared⟩
    simpa [Store.set] using hvalue
  · simp only [Store.set, Function.update_of_ne hy] at hscope' ⊢
    rw [ScopedTable.lookup_insert_of_ne _ hy]
    exact h.entries y decl' type' hscope'

theorem genAssign_of_rebindable {target : Expr} {lhs rhs : SsaValue} {st' : GenState}
    (h : lhs.rebindable) (hupd : st.updateTarget target rhs = .ok st') :
    genAssign st target lhs rhs = .ok (rhs, st') := by
  have hassign : genAssign st target lhs rhs =
      (do let st ← st.updateTarget target rhs; .ok (rhs, st)) := by
    cases lhs <;> first | rfl | cases h
  rw [hassign, hupd]
  rfl

/-- The operands of an assignment to a variable. -/
theorem exists_castConstant_assign {lv v : SsaValue} (hlv : lv.rebindable)
    (hassign : Assignable v.type lv.type) :
    ∃ lhs rhs, castConstant lv v = .ok (lhs, rhs) ∧ lhs.rebindable ∧
      (rhs = v ∨ rhs = .bitCastOp v lv.type ∧
        M.denote rhs = M.convert v.type lv.type (M.denote v)) := by
  unfold castConstant
  split_ifs with hl hr
  · have hint : v.type.isInt := by
      rcases hassign with heq | hints
      · rw [heq, lv.type_of_isConstant hl]
        rfl
      · exact hints.1
    obtain ⟨lhs, hcast, _, _, hlhs⟩ := exists_tryCast_constant (M := M) hl hint
    refine ⟨lhs, v, by rw [hcast]; rfl, ?_, Or.inl rfl⟩
    rcases hlhs with rfl | rfl
    · exact hlv
    · rfl
  · obtain ⟨rhs, hcast, _, hdenote, hrhs⟩ := exists_tryCast (M := M) hassign
      fun hblock => absurd hblock (v.not_isBlockArg_of_isConstant hr)
    exact ⟨lv, rhs, by rw [hcast]; rfl, hlv, hrhs.imp_right fun h => ⟨h, hdenote⟩⟩
  · exact ⟨lv, v, rfl, hlv, Or.inl rfl⟩

section

variable (h : Agrees M structMap st store) (hm : structMap.WellFormed)
include h hm

variable {source : Ty} {e : Expr} {d : D}

theorem Agrees.exists_assignVariable (hscope : store.scope head = some (decl, type))
    (heval : evalExpr M structMap store e = some (source, d)) (hassign : Assignable source type)
    (hrebind : ∀ value, st.value? head = some value → value.rebindable)
    (hsafe : SafeExpr structMap st.symbolTable e) (hblock : e.isBlockArgIn st → source = type) :
    ∃ value st', genExpr structMap (.assign (.path head []) e) st = .ok (value, st') ∧
      Agrees M structMap st' (store.set head (M.convert source type d)) := by
  obtain ⟨entry, hent, hagr⟩ := h.entries head decl type hscope
  have hhead : genExpr structMap (.path head []) st = .ok (entry.value, st) :=
    genExpr_path.mpr ⟨by simp [getPath, hent, getFields], rfl⟩
  obtain ⟨v, hv, rfl, rfl, hrvalue, -, hblockArg, -⟩ := h.exists_genExpr hm heval hsafe
  obtain ⟨lhs, rhs, hcast, hlhs, hrhs⟩ := exists_castConstant_assign (M := M)
    (hrebind _ (by simp [GenState.value?, hent])) (hagr.value_type ▸ hassign)
  rw [hagr.value_type] at hrhs
  obtain ⟨st', hupd, hst'⟩ : ∃ st', st.update head rhs = .ok st' ∧
      Agrees M structMap st' (store.set head (M.convert v.type type (M.denote v))) := by
    rcases hrhs with rfl | ⟨rfl, hdenote⟩
    · exact h.exists_update hscope _ hassign (fun hb => hblock (hblockArg hb)) hrvalue
    · rw [← hdenote, ← M.convert_self type (M.denote (.bitCastOp v type))]
      exact h.exists_update hscope _ (Or.inl rfl) (by rintro ⟨⟩)
        ⟨by rintro _ _ ⟨⟩, hagr.value_type ▸ hagr.rvalue.not_ref⟩
  refine ⟨rhs, st', genExpr_assign.mpr ⟨entry.value, st, hhead, v, st, hv, lhs, rhs, ?_, ?_⟩, hst'⟩
  · rw [hrvalue.toRValue]
    exact hcast
  · rw [hrvalue.toRValue]
    exact genAssign_of_rebindable hlhs hupd

theorem Agrees.exists_assignField {field : String} {steps : List (Nat × Ty)}
    (hresolve : store.resolve structMap head [field] = some (type, steps))
    (heval : evalExpr M structMap store e = some (source, d)) (hassign : Assignable source type)
    (hsafe : SafeExpr structMap st.symbolTable e) (hconst : e.isConstantIn st ∨ source = type) :
    ∃ value st', genExpr structMap (.assign (.path head [field]) e) st = .ok (value, st') ∧
      Agrees M structMap st'
        (store.set head (M.setPath (store.value head) steps (M.convert source type d))) := by
  obtain ⟨decl, varType, hscope, hsteps, hend⟩ := (Store.resolve_eq_some _).mp hresolve
  obtain ⟨_, _, _, _, _, index, _, fieldType, rest, _, _, _, _, _, hrest, rfl⟩ :=
    declaredSteps_cons hsteps
  cases hrest
  obtain rfl : fieldType = type := hend
  obtain ⟨entry, hent, hagr⟩ := h.entries head decl varType hscope
  obtain ⟨value, hget, hvalue, _⟩ := h.exists_getPath hm hresolve
    (safePath_of_length_le _ _ (Nat.le_refl 1))
  obtain rfl : entry.value = value := by simpa [GenState.value?, hent] using hvalue
  obtain ⟨v, hv, rfl, rfl, hrvalue, -, -, hconstant⟩ := h.exists_genExpr hm heval hsafe
  obtain ⟨rhs, hcast, hdenote⟩ : ∃ rhs,
      castConstant (.structAccessOp entry.value index fieldType) v =
        .ok (.structAccessOp entry.value index fieldType, rhs) ∧
      M.denote rhs = M.convert v.type fieldType (M.denote v) := by
    have hlhs : (SsaValue.structAccessOp entry.value index fieldType).isConstant = false := rfl
    by_cases hv : v.isConstant
    · obtain ⟨rhs, hcast, _, hdenote, _⟩ := exists_tryCast (M := M) hassign
        fun hblock => absurd hblock (v.not_isBlockArg_of_isConstant hv)
      refine ⟨rhs, ?_, hdenote⟩
      simp [castConstant, hlhs, hv, SsaValue.type, hcast, bind, Except.bind]
    · have heq := hconst.resolve_left fun hc => hv (hconstant hc)
      refine ⟨v, ?_, by rw [heq, M.convert_self]⟩
      simp [castConstant, hlhs, hv]
  obtain ⟨st', hupd, hst'⟩ := h.exists_update hscope (.structUpdateOp entry.value index rhs)
    (Or.inl hagr.value_type) (by rintro ⟨⟩) ⟨by rintro _ _ ⟨⟩, hagr.rvalue.not_ref⟩
  refine ⟨.structUpdateOp entry.value index rhs, st', genExpr_assign.mpr
    ⟨_, st, genExpr_path.mpr ⟨hget, rfl⟩, v, st, hv,
      .structAccessOp entry.value index fieldType, rhs, ?_, ?_⟩, ?_⟩
  · rw [hrvalue.toRValue]
    exact hcast
  · rw [hrvalue.toRValue]
    exact bind_eq_ok.mpr ⟨st', hupd, rfl⟩
  · have hsame : (SsaValue.structUpdateOp entry.value index rhs).type = varType :=
      hagr.value_type
    rw [hsame, M.convert_self, ValueModel.denote, hdenote, hagr.denote_eq] at hst'
    exact hst'

theorem Agrees.exists_extract
    {caller : String} {callerFields : List String} {bufferType : Ty} {buffer : D}
    (hscope : store.scope head = some (decl, type))
    (heval : evalExpr M structMap store (.path caller callerFields) = some (bufferType, buffer))
    (hsafe : SafePath structMap st.symbolTable caller callerFields) :
    ∃ value st',
      genExpr structMap (.extract (caller :: callerFields) (.path head [])) st = .ok (value, st') ∧
      Agrees M structMap st' { store.set head (M.extract store.extracts buffer type) with
        extracts := store.extracts + 1 } := by
  obtain ⟨entry, hent, hagr⟩ := h.entries head decl type hscope
  have hhead : genExpr structMap (.path head []) st = .ok (entry.value, st) :=
    genExpr_path.mpr ⟨by simp [getPath, hent, getFields], rfl⟩
  obtain ⟨callerValue, hcaller, hgen⟩ := h.exists_genExpr hm heval hsafe
  obtain ⟨hpath, _⟩ := genExpr_path.mp hcaller
  have hnext : Agrees M structMap { st with next := st.next + 1 }
      { store with extracts := store.extracts + 1 } := ⟨congrArg (· + 1) h.next, h.entries⟩
  obtain ⟨st', hupd, hst'⟩ := hnext.exists_update hscope
    (.extractOp st.next callerValue entry.value.type)
    (Or.inl hagr.value_type) (by rintro ⟨⟩) ⟨by rintro _ _ ⟨⟩, hagr.rvalue.not_ref⟩
  refine ⟨_, st', genExpr_extract.mpr ⟨callerValue, hpath, entry.value, st, hhead, hupd, rfl⟩, ?_⟩
  have hsame : (SsaValue.extractOp st.next callerValue entry.value.type).type = type :=
    hagr.value_type
  rw [hsame, M.convert_self, ValueModel.denote, hgen.denote_eq, h.next, hagr.value_type] at hst'
  exact hst'

end

end Steps

end Alkali
