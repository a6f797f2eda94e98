import Alkali.MLIRGen.Evolves

/-!
# The assignments of expressions and declarations

Where every assignment is one that the generator gets right, generating an
expression makes exactly the assignments in it.
-/

namespace Alkali

open Fallible List

section

variable {structMap : StructMap} {st st₁ st' : GenState} {e : Expr} {value : SsaValue}

theorem Expr.generated_eq {r : SsaValue × GenState} (h : genExpr structMap e st = .ok r) :
    e.generated structMap st = r := by
  rw [generated, h]
  rfl

theorem GenState.Typed.evolves_next (htyped : st.Typed structMap) :
    Evolves structMap st { st with next := st.next + 1 } [] [] :=
  .of_eq htyped rfl rfl

/-- A method call updates a variable only if it sets a bit of it. -/
theorem evolves_genMethod {path : List String} {caller : SsaValue} {operands : List SsaValue}
    {method : Method} (htyped : st.Typed structMap)
    (hpath : method = .set → path.tail = [] ∧
      ∀ entry, st.symbolTable.lookup (path.headD "") = some entry → caller.type = entry.type)
    (h : genMethod path caller st method operands = .ok (value, st')) :
    Evolves structMap st st'
      (if method = .set then [⟨path.headD "", path.tail, value⟩] else []) [] := by
  unfold genMethod at h
  split at h
  · cases h
    exact evolves_toRValue htyped _ _
  · next key =>
    split at h
    · cases h
      have hfirst := evolves_toRValue htyped caller none
      have hload := hfirst.trans (evolves_toRValue hfirst.typed key none)
      exact hload.trans hload.typed.evolves_next
    · cases h
  · next key value =>
    cases h
    have hfirst := evolves_toRValue htyped caller none
    have hkey := hfirst.trans (evolves_toRValue hfirst.typed key none)
    exact hkey.trans (evolves_toRValue hkey.typed _ none)
  · next offset bit =>
      obtain ⟨htail, htype⟩ := hpath rfl
      split_ifs at h
      split at h
      · obtain ⟨st₂, hupd, hok⟩ := bind_eq_ok.mp h
        cases hok
        have hload := evolves_toRValue htyped bit (some (.int 1))
        have hop := hload.trans hload.typed.evolves_next
        rw [if_pos rfl, htail]
        refine hop.trans (evolves_update_of_type hop.typed ?_ hupd)
        intro entry hent
        rw [hop.same (by simp) (by simp)] at hent
        exact htype entry hent
      · cases h
  · split_ifs at h
    cases h
    exact .of_eq htyped rfl rfl
  · cases h

theorem evolves_genArgs (load : Bool) {args : List Expr} {values : List SsaValue}
    (ih : ∀ e ∈ args, ∀ {st st' value}, st.Typed structMap → e.WellAssigned structMap st →
      genExpr structMap e st = .ok (value, st') →
        Evolves structMap st st' (e.writes structMap st) [])
    (htyped : st.Typed structMap) (hwell : argsWellAssigned structMap load args st)
    (h : genArgs structMap load args st = .ok (values, st')) :
    Evolves structMap st st' (argsWrites structMap load args st) [] := by
  induction args generalizing st values with
  | nil =>
    cases h
    exact .of_eq htyped rfl rfl
  | cons e rest ihrest =>
    obtain ⟨hfirst, hrest⟩ := forall_mem_cons.mp ih
    rw [genArgs] at h
    obtain ⟨⟨v, st₁⟩, he, h⟩ := bind_eq_ok.mp h
    obtain ⟨⟨vs, st₂⟩, hvs, hok⟩ := bind_eq_ok.mp h
    cases hok
    rw [argsWellAssigned, Expr.generated_eq he] at hwell
    rw [argsWrites, Expr.generated_eq he]
    have hev := hfirst htyped hwell.1 he
    cases load with
    | false => exact hev.trans (ihrest hrest hev.typed hwell.2 hvs)
    | true =>
      have hload := evolves_toRValue hev.typed v none
      exact hev.trans (hload.trans (ihrest hrest hload.typed hwell.2 hvs))

variable (hm : structMap.WellFormed)
include hm

/-- Generating an expression makes its assignments. -/
theorem evolves_genExpr (htyped : st.Typed structMap) (hwell : e.WellAssigned structMap st)
    (h : genExpr structMap e st = .ok (value, st')) :
    Evolves structMap st st' (e.writes structMap st) [] := by
  induction e generalizing st st' value with
  | num n =>
    cases h
    exact .of_eq htyped rfl rfl
  | literal type =>
    cases h
    exact .of_eq htyped rfl rfl
  | path head fields =>
    obtain ⟨_, rfl⟩ := genExpr_path.mp h
    exact .of_eq htyped rfl rfl
  | binop op l r ihl ihr =>
    obtain ⟨lv, st₁, hl, rv, st₂, hr, _, _, _, _, _, rfl⟩ := genExpr_binop.mp h
    rw [Expr.WellAssigned, Expr.generated_eq hl] at hwell
    rw [Expr.writes, Expr.generated_eq hl]
    have hleft := ihl htyped hwell.1 hl
    have hload := evolves_toRValue hleft.typed lv none
    have hright := ihr hload.typed hwell.2 hr
    have hend := evolves_toRValue hright.typed rv (some (toRValue st₁ lv none).1.type)
    simpa using hleft.trans (hload.trans (hright.trans hend))
  | assign l r ihl ihr =>
    obtain ⟨lv, st₁, hl, rv, st₂, hr, _, _, hcast, h⟩ := genExpr_assign.mp h
    simp only [Expr.WellAssigned, Expr.generated_eq hl, Expr.generated_eq hr] at hwell
    simp only [Expr.writes, Expr.generated_eq hl, Expr.generated_eq hr]
    obtain ⟨hwl, hwr, hassign⟩ := hwell
    have hleft := ihl htyped hwl hl
    have hright := ihr hleft.typed hwr hr
    have hev := hright.trans (evolves_toRValue hright.typed rv (some lv.type))
    have hlast := evolves_genAssign hleft.typed hev hcast hm (by
      rintro head fields rfl
      obtain ⟨hget, rfl⟩ := genExpr_path.mp hl
      exact hget) hassign h
    simpa using hleft.trans (hev.trans hlast)
  | extract path target ih =>
    obtain ⟨caller, _, old, st₁, htgt, hupd, hvalue⟩ := genExpr_extract.mp h
    rw [hvalue] at hupd
    rw [Expr.writes, Expr.generated_eq h]
    have hev := ih htyped hwell.1 htgt
    have hnext := hev.typed.evolves_next
    refine hev.trans (hnext.trans (?_ : Evolves structMap _ st' _ []))
    cases target with
    | path head fields =>
      cases fields with
      | cons field fields => cases hwell.2
      | nil =>
        refine evolves_update_of_type hnext.typed ?_ hupd
        intro entry hent
        obtain ⟨hget, rfl⟩ := genExpr_path.mp htgt
        change st₁.symbolTable.lookup head = some entry at hent
        simp only [getPath, hent, getFields, Except.ok.injEq] at hget
        rw [← hvalue, SsaValue.type, ← hget, (htyped _ _ hent).value_type]
    | num | literal | binop | assign | extract | call | init =>
      cases hupd
      exact .of_eq hnext.typed rfl rfl
  | call path method args ih =>
    have hgen := Expr.generated_eq h
    rw [genExpr] at h
    cases hcaller : getCaller structMap st.symbolTable path with
    | error failure =>
      rw [hcaller] at h
      cases failure with
      | abort reason => cases h
      | error message =>
        obtain ⟨_, _, h⟩ := bind_eq_ok.mp h
        cases h
    | ok caller =>
      rw [hcaller] at h
      obtain ⟨⟨operands, st₁⟩, hargs, h⟩ := bind_eq_ok.mp h
      rw [Expr.writes, hgen]
      have hev := evolves_genArgs false (fun e he _ _ _ => ih e he) htyped hwell.1 hargs
      refine hev.trans (evolves_genMethod hev.typed ?_ h)
      intro hset
      refine ⟨hwell.2 hset, ?_⟩
      intro entry hent
      cases path with
      | nil => cases hcaller
      | cons head fields =>
        obtain rfl : fields = [] := hwell.2 hset
        obtain ⟨v₀, hent₀⟩ := hev.exists_entry_before hent
        rw [headD_cons] at hent₀
        simp only [getCaller, getPath, hent₀, getFields, Except.ok.injEq] at hcaller
        rw [← hcaller, (htyped _ _ hent₀).value_type]
  | init type args ih =>
    obtain ⟨type, _, h⟩ := bind_eq_ok.mp h
    split at h
    · next values st₁ hargs =>
        cases h
        have hev := evolves_genArgs true (fun e he _ _ _ => ih e he) htyped hwell hargs
        simpa [Expr.writes] using hev.trans hev.typed.evolves_next
    · cases h

theorem evolves_genDecl {name : String} {type : VarType} {init : Option Expr}
    (htyped : st.Typed structMap)
    (hwell : (Stmt.decl name type init).WellAssigned structMap st)
    (h : genDecl structMap name type init st = .ok st') :
    Evolves structMap st st' ((Stmt.decl name type init).writes structMap st) [name] := by
  cases init with
  | none =>
    obtain ⟨varType, htype, h⟩ := bind_eq_ok.mp h
    exact evolves_declare htyped (Or.inr htype) h
  | some e =>
    obtain ⟨⟨value, st₁⟩, he, h⟩ := bind_eq_ok.mp h
    have hev := evolves_genExpr hm htyped hwell he
    obtain ⟨hdecl, hdeclare⟩ : (type.name = "" ∨ getVarType structMap type = .ok value.type) ∧
        st₁.declare name type value = .ok st' := by
      split_ifs at h with hauto
      · exact ⟨Or.inl hauto, h⟩
      · obtain ⟨varType, htype, h⟩ := bind_eq_ok.mp h
        split_ifs at h with heq
        exact ⟨Or.inr (heq ▸ htype), h⟩
    simpa [Stmt.writes] using hev.trans (evolves_declare hev.typed hdecl hdeclare)

end

end Alkali
