import Alkali.MLIRGen.Assignments

/-!
# What generating code does to the symbol table

Code generation declares new names in the innermost scope and gives assigned
variables their new values, which the update table of the branch records. An
assignment to a context field is a store and leaves both tables alone.
-/

namespace Alkali

open Fallible List

/-- The value of a variable has the variable's type, which is the declared one. -/
structure Entry.Typed (structMap : StructMap) (entry : Entry) : Prop where
  value_type : entry.value.type = entry.type
  declared : entry.decl.name = "" ∨ getVarType structMap entry.decl = .ok entry.type

def GenState.Typed (structMap : StructMap) (st : GenState) : Prop :=
  ∀ x entry, st.symbolTable.lookup x = some entry → entry.Typed structMap

/-- The update table after the variables `A` were updated. -/
def TablesEvolve (st st' : GenState) (A : List String) : Prop :=
  match st.updateTables with
  | [] => st'.updateTables = []
  | top :: rest => ∃ top', st'.updateTables = top' :: rest ∧
      ∀ x, top'.find x = if x ∈ A then st'.value? x else top.find x

/-- Code was generated that makes the assignments `log` and declares the variables `D`. -/
structure Evolves (structMap : StructMap) (st st' : GenState) (log : List VarWrite)
    (D : List String) : Prop where
  scopes : st'.symbolTable.leave = st.symbolTable.leave
  tables : TablesEvolve st st' (log.map VarWrite.name)
  lookup : ∀ x, x ∉ D → st'.symbolTable.lookup x =
    (st.symbolTable.lookup x).map (Entry.assignAll structMap x log)
  fresh : ∀ x ∈ D, st.symbolTable.lookup x = none ∧ st'.symbolTable.lookup x ≠ none
  visible : ∀ x ∈ log.map VarWrite.name, st'.symbolTable.lookup x ≠ none
  typed : st'.Typed structMap

section Values

theorem SsaValue.convertTo_of_type {value : SsaValue} {type : Ty} (h : value.type = type) :
    value.convertTo type = value :=
  if_neg fun hconv => hconv.2.2 h

theorem SsaValue.type_convertTo {value : SsaValue} {type : Ty} (h : Assignable value.type type) :
    (value.convertTo type).type = type := by
  by_cases heq : value.type = type
  · rw [convertTo_of_type heq, heq]
  · obtain ⟨hsrc, htgt⟩ := h.resolve_left heq
    rw [convertTo, if_pos ⟨hsrc, htgt, heq⟩]
    rfl

theorem tryCast_eq_ok {value v : SsaValue} {type : Ty} (h : tryCast value type = .ok v) :
    v = value.convertTo type := by
  unfold tryCast at h
  split at h
  · next w w' hw =>
      split_ifs at h with hww
      · cases h
        exact (SsaValue.convertTo_of_type (hww ▸ hw)).symm
      · cases h
        exact (if_pos ⟨by simp [hw, Ty.isInt], rfl, by simp [hw, hww]⟩).symm
  · next hnot =>
      cases h
      refine (if_neg fun hconv => ?_).symm
      obtain ⟨w, hw⟩ := Ty.isInt_iff.mp hconv.1
      obtain ⟨w', hw'⟩ := Ty.isInt_iff.mp hconv.2.1
      exact hnot w w' hw hw'

end Values

section Entries

/-- An assignment changes the value of a variable only. -/
theorem Entry.exists_assignAll (structMap : StructMap) (x : String) (log : List VarWrite)
    (entry : Entry) :
    ∃ value, entry.assignAll structMap x log = { entry with value := value } := by
  unfold assignAll
  induction log.filter (·.name = x) generalizing entry with
  | nil => exact ⟨entry.value, rfl⟩
  | cons w log ih =>
    obtain ⟨value, hvalue⟩ := ih (entry.assign structMap w)
    rw [foldl_cons, hvalue]
    unfold assign
    split <;> exact ⟨value, rfl⟩

variable {structMap : StructMap} {x : String} {log log' : List VarWrite} (entry : Entry)

theorem Entry.assignAll_append : entry.assignAll structMap x (log ++ log') =
    (entry.assignAll structMap x log).assignAll structMap x log' := by
  rw [assignAll, filter_append, foldl_append]
  rfl

theorem map_assignAll_of_notMem (h : x ∉ log.map VarWrite.name) (found : Option Entry) :
    found.map (Entry.assignAll structMap x log) = found := by
  have hnone : log.filter (·.name = x) = [] := by
    rw [filter_eq_nil_iff]
    rintro w hw hx
    exact h (mem_map.mpr ⟨w, hw, of_decide_eq_true hx⟩)
  cases found with
  | none => rfl
  | some entry => rw [Option.map_some, Entry.assignAll, hnone, foldl_nil]

theorem Entry.assignAll_singleton (w : VarWrite) :
    entry.assignAll structMap w.name [w] = entry.assign structMap w := by
  simp [assignAll]

end Entries

namespace Evolves

variable {structMap : StructMap} {st st' st'' : GenState} {log log' : List VarWrite}
  {D D' : List String}

theorem of_eq (htyped : st.Typed structMap) (hsyms : st'.symbolTable = st.symbolTable)
    (htabs : st'.updateTables = st.updateTables) : Evolves structMap st st' [] [] where
  scopes := by rw [hsyms]
  tables := by
    unfold TablesEvolve
    cases htop : st.updateTables with
    | nil => exact htabs.trans htop
    | cons top rest => exact ⟨top, htabs.trans htop, by simp⟩
  lookup x _ := by
    rw [hsyms, map_assignAll_of_notMem (by simp)]
  fresh := by simp
  visible := by simp
  typed x := by
    rw [hsyms]
    exact htyped x

variable (h : Evolves structMap st st' log D)
include h

theorem lookup_eq_none_iff {x : String} (hx : x ∉ D) :
    st'.symbolTable.lookup x = none ↔ st.symbolTable.lookup x = none := by
  rw [h.lookup x hx, Option.map_eq_none_iff]

/-- A variable that is not assigned keeps its entry. -/
theorem same {x : String} (hx : x ∉ log.map VarWrite.name) (hD : x ∉ D) :
    st'.symbolTable.lookup x = st.symbolTable.lookup x := by
  rw [h.lookup x hD, map_assignAll_of_notMem hx]

theorem trans (h' : Evolves structMap st' st'' log' D') :
    Evolves structMap st st'' (log ++ log') (D ++ D') := by
  have hold : ∀ x, st'.symbolTable.lookup x ≠ none → x ∉ D' := fun x hx hD =>
    hx (h'.fresh x hD).1
  constructor
  · exact h'.scopes.trans h.scopes
  · have htabs := h.tables
    have htabs' := h'.tables
    unfold TablesEvolve at htabs htabs' ⊢
    cases htop : st.updateTables with
    | nil =>
      simp only [htop] at htabs ⊢
      simpa only [htabs] using htabs'
    | cons top rest =>
      simp only [htop] at htabs ⊢
      obtain ⟨top', htop', hfind⟩ := htabs
      simp only [htop'] at htabs'
      obtain ⟨top'', htop'', hfind'⟩ := htabs'
      refine ⟨top'', htop'', ?_⟩
      intro x
      rw [hfind', hfind, map_append]
      by_cases hA' : x ∈ log'.map VarWrite.name
      · simp [hA']
      · by_cases hA : x ∈ log.map VarWrite.name
        · have hsame := h'.same hA' (hold x (h.visible x hA))
          simp [hA, hA', GenState.value?, hsame]
        · simp [hA, hA']
  · intro x hx
    simp only [mem_append, not_or] at hx
    rw [h'.lookup x hx.2, h.lookup x hx.1, Option.map_map]
    exact congrArg (Option.map · _) (funext fun entry => (entry.assignAll_append).symm)
  · intro x hx
    by_cases hD : x ∈ D
    · obtain ⟨hnone, hsome⟩ := h.fresh x hD
      refine ⟨hnone, ?_⟩
      rwa [Ne, h'.lookup_eq_none_iff (hold x hsome)]
    · have hD' : x ∈ D' := by simpa [hD] using hx
      obtain ⟨hnone, hsome⟩ := h'.fresh x hD'
      exact ⟨(h.lookup_eq_none_iff hD).mp hnone, hsome⟩
  · intro x hx
    rw [map_append, mem_append] at hx
    by_cases hA' : x ∈ log'.map VarWrite.name
    · exact h'.visible x hA'
    · have hvisible := h.visible x (hx.resolve_right hA')
      rwa [Ne, h'.lookup_eq_none_iff (hold x hvisible)]
  · exact h'.typed

end Evolves

section Steps

variable {structMap : StructMap} {st st' : GenState} (htyped : st.Typed structMap)
include htyped

/-- An update makes an assignment if its value is the one that the variable then has. -/
theorem evolves_update {w : VarWrite} {value : SsaValue} (h : st.update w.name value = .ok st')
    (hvalue : ∀ entry v, st.symbolTable.lookup w.name = some entry →
      tryCast value entry.type = .ok v →
        entry.assign structMap w = { entry with value := v } ∧ v.type = entry.type) :
    Evolves structMap st st' [w] [] := by
  unfold GenState.update at h
  split at h
  · cases h
  · next entry hent =>
      obtain ⟨v, hcast, hst'⟩ := bind_eq_ok.mp h
      cases hst'
      obtain ⟨hassign, htype⟩ := hvalue entry v hent hcast
      constructor
      · simp
      · unfold TablesEvolve
        cases htop : st.updateTables with
        | nil => simp
        | cons top rest =>
          refine ⟨_, rfl, ?_⟩
          intro y
          by_cases hy : y = w.name
          · simp [hy, OrderedMap.find_insertOrAssign, GenState.value?]
          · simp [hy, OrderedMap.find_insertOrAssign]
      · intro y _
        by_cases hy : y = w.name
        · subst hy
          rw [ScopedTable.lookup_insert_self, hent, Option.map_some, Entry.assignAll_singleton,
            hassign]
        · rw [ScopedTable.lookup_insert_of_ne _ hy, map_assignAll_of_notMem (by simpa using hy)]
      · simp
      · simp
      · intro y entry' hlookup
        by_cases hy : y = w.name
        · subst hy
          rw [ScopedTable.lookup_insert_self] at hlookup
          cases hlookup
          exact ⟨htype, (htyped _ _ hent).declared⟩
        · rw [ScopedTable.lookup_insert_of_ne _ hy] at hlookup
          exact htyped y entry' hlookup

/-- An update with a value of the variable's type. -/
theorem evolves_update_of_type {x : String} {value : SsaValue}
    (htype : ∀ entry, st.symbolTable.lookup x = some entry → value.type = entry.type)
    (h : st.update x value = .ok st') : Evolves structMap st st' [⟨x, [], value⟩] [] := by
  refine evolves_update htyped h ?_
  intro entry v hent hcast
  have hconv := SsaValue.convertTo_of_type (htype entry hent)
  obtain rfl : v = value := (tryCast_eq_ok hcast).trans hconv
  refine ⟨?_, htype entry hent⟩
  simp [Entry.assign, declaredSteps, SsaValue.setPath, endType, hconv]

theorem evolves_declare {x : String} {decl : VarType} {value : SsaValue}
    (hdecl : decl.name = "" ∨ getVarType structMap decl = .ok value.type)
    (h : st.declare x decl value = .ok st') : Evolves structMap st st' [] [x] := by
  unfold GenState.declare at h
  split at h
  · cases h
  · next hnone =>
      cases h
      constructor
      · simp
      · unfold TablesEvolve
        cases htop : st.updateTables with
        | nil => rfl
        | cons top rest => exact ⟨top, rfl, by simp⟩
      · intro y hy
        simp only [mem_singleton] at hy
        rw [ScopedTable.lookup_insert_of_ne _ hy, map_assignAll_of_notMem (by simp)]
      · simp [hnone]
      · simp
      · intro y entry hlookup
        rw [ScopedTable.lookup_insert] at hlookup
        split_ifs at hlookup
        · cases hlookup
          exact ⟨rfl, hdecl⟩
        · exact htyped y entry hlookup

theorem evolves_toRValue (value : SsaValue) (ltype : Option Ty) :
    Evolves structMap st (toRValue st value ltype).2 [] [] := by
  unfold toRValue
  split
  · exact .of_eq htyped rfl rfl
  · split <;> exact .of_eq htyped rfl rfl

end Steps

section Assign

variable {structMap : StructMap} {st st₁ st' : GenState} {head : String}
  {lhs rhs lhs' rhs' value : SsaValue} {log : List VarWrite}

/-- The operands of an assignment: a constant on the right is cast. -/
theorem castConstant_eq_ok (h : castConstant lhs rhs = .ok (lhs', rhs')) :
    (lhs.isConstant = false → lhs' = lhs) ∧ (lhs.rebindable → lhs'.rebindable) ∧
      (rhs' = rhs ∧ (rhs.isConstant → lhs.isConstant) ∨
        rhs' = rhs.convertTo lhs.type ∧ rhs.isConstant) := by
  unfold castConstant at h
  split_ifs at h with hl hr
  · obtain ⟨v, hcast, hok⟩ := bind_eq_ok.mp h
    cases hok
    refine ⟨fun hl' => absurd hl (by simp [hl']), ?_, Or.inl ⟨rfl, fun _ => hl⟩⟩
    intro hrebind
    rw [tryCast_eq_ok hcast]
    unfold SsaValue.convertTo
    split_ifs
    · rfl
    · exact hrebind
  · obtain ⟨v, hcast, hok⟩ := bind_eq_ok.mp h
    cases hok
    exact ⟨fun _ => rfl, id, Or.inr ⟨tryCast_eq_ok hcast, hr⟩⟩
  · cases h
    exact ⟨fun _ => rfl, id, Or.inl ⟨rfl, fun hr' => absurd hr' hr⟩⟩

/-- A path of one field through a struct. -/
theorem getPath_field (hm : structMap.WellFormed) {table : SymbolTable} {entry : Entry}
    (hent : table.lookup head = some entry) (htyped : entry.Typed structMap) {field : String}
    (hget : getPath structMap table head [field] = .ok lhs) (hctx : lhs.isContextRef = false) :
    ∃ index type, lhs = .structAccessOp entry.value index type ∧
      declaredSteps structMap entry.decl [field] = some [(index, type)] := by
  simp only [getPath, hent] at hget
  have hvalue : entry.value.type ≠ .context := by
    intro hvalue
    rw [getFields, if_pos hvalue] at hget
    cases hget
    cases hctx
  obtain ⟨index, accessed, hindex, haccess, hrest⟩ := (getFields_cons hvalue).mp hget
  cases hrest
  obtain ⟨isEvent, elems, name, type, hstruct, helem, rfl⟩ := structAccess_eq_ok haccess
  obtain ⟨str, hstr, hmember⟩ := Option.bind_eq_some_iff.mp hindex
  simp only [getStructForName, hent] at hstr
  split_ifs at hstr with hname
  obtain ⟨⟨ty, _⟩, hfind, rfl⟩ := Option.map_eq_some_iff.mp hstr
  have hdecl := htyped.declared.resolve_left hname
  rw [← htyped.value_type, hstruct] at hdecl
  obtain ⟨_, str', hfind'⟩ := getVarType_eq_struct hdecl
  rw [hfind] at hfind'
  cases hfind'
  obtain ⟨_, elems', hty, hmap⟩ := hm _ _ _ hfind
  cases hty
  obtain ⟨hlt, _⟩ := findIdx?_eq_some_iff_getElem.mp hmember
  obtain ⟨type', hget', helem'⟩ := mapM_getElem? hmap (getElem?_eq_getElem hlt)
  rw [helem] at helem'
  cases helem'
  unfold getFieldType at hget'
  split_ifs at hget'
  refine ⟨index, type, rfl, ?_⟩
  simp [declaredSteps, hdecl, hfind, hmember, hlt, hget', Except.toOption]

/-- A variable later in the code, with the type and the declaration from before. -/
theorem Evolves.exists_entry (h : Evolves structMap st st₁ log []) {entry : Entry}
    (hent : st.symbolTable.lookup head = some entry) :
    ∃ v, st₁.symbolTable.lookup head = some { entry with value := v } := by
  obtain ⟨v, hv⟩ := entry.exists_assignAll structMap head log
  exact ⟨v, by rw [h.lookup head (by simp), hent, Option.map_some, hv]⟩

theorem Evolves.exists_entry_before (h : Evolves structMap st st₁ log []) {entry : Entry}
    (hent : st₁.symbolTable.lookup head = some entry) :
    ∃ v, st.symbolTable.lookup head = some { entry with value := v } := by
  rw [h.lookup head (by simp)] at hent
  obtain ⟨entry₀, hent₀, rfl⟩ := Option.map_eq_some_iff.mp hent
  obtain ⟨v, hv⟩ := entry₀.exists_assignAll structMap head log
  exact ⟨entry₀.value, by rw [hent₀, hv]⟩

section

variable (htyped : st.Typed structMap) (hev : Evolves structMap st st₁ log [])
  (hcast : castConstant lhs rhs = .ok (lhs', rhs'))
include htyped hev hcast

theorem evolves_assignVariable (hget : getPath structMap st.symbolTable head [] = .ok lhs)
    (hrebind : lhs.rebindable) (hassign : Assignable rhs.type lhs.type)
    (h : genAssign st₁ (.path head []) lhs' rhs' = .ok (value, st')) :
    Evolves structMap st₁ st' [⟨head, [], rhs⟩] [] := by
  obtain ⟨_, hlhs', hrhs'⟩ := castConstant_eq_ok hcast
  obtain ⟨hupd, -⟩ : st₁.update head rhs' = .ok st' ∧ value = rhs' := by
    have hgen := hlhs' hrebind
    cases lhs' <;> first
      | cases hgen; done
      | (obtain ⟨st₂, hst₂, hok⟩ := bind_eq_ok.mp h
         cases hok
         exact ⟨hst₂, rfl⟩)
  refine evolves_update hev.typed hupd ?_
  intro entry v hent hv
  obtain ⟨v₀, hent₀⟩ := hev.exists_entry_before hent
  have hlhs : lhs.type = entry.type := by
    simp only [getPath, hent₀, getFields, Except.ok.injEq] at hget
    rw [← hget, (htyped _ _ hent₀).value_type]
  rw [hlhs] at hassign hrhs'
  have hconv : v = rhs.convertTo entry.type := by
    rw [tryCast_eq_ok hv]
    rcases hrhs' with ⟨rfl, _⟩ | ⟨rfl, _⟩
    · rfl
    · exact SsaValue.convertTo_of_type (SsaValue.type_convertTo hassign)
  refine ⟨?_, by rw [hconv, SsaValue.type_convertTo hassign]⟩
  rw [hconv]
  rfl

theorem evolves_assignField (hm : structMap.WellFormed) {field : String}
    (hget : getPath structMap st.symbolTable head [field] = .ok lhs)
    (hctx : lhs.isContextRef = false) (hinput : lhs.input? = st₁.value? head)
    (hassign : rhs.type = lhs.type ∨ rhs.isConstant ∧ lhs.type.isInt)
    (h : genAssign st₁ (.path head [field]) lhs' rhs' = .ok (value, st')) :
    Evolves structMap st₁ st' [⟨head, [field], rhs⟩] [] := by
  obtain ⟨entry₀, hent₀⟩ : ∃ entry₀, st.symbolTable.lookup head = some entry₀ := by
    cases hent : st.symbolTable.lookup head with
    | none => simp [getPath, hent] at hget
    | some entry₀ => exact ⟨entry₀, rfl⟩
  obtain ⟨index, type, rfl, hsteps⟩ := getPath_field hm hent₀ (htyped _ _ hent₀) hget hctx
  obtain ⟨v₀, hent⟩ := hev.exists_entry hent₀
  obtain rfl : entry₀.value = v₀ := by simpa [SsaValue.input?, GenState.value?, hent] using hinput
  obtain ⟨hlhs', _, hrhs'⟩ := castConstant_eq_ok hcast
  cases hlhs' rfl
  have hconv : rhs' = rhs.convertTo type := by
    rcases hrhs' with ⟨rfl, hconst⟩ | ⟨hrhs', _⟩
    · have htype := hassign.resolve_right fun hc => Bool.false_ne_true (hconst hc.1)
      exact (SsaValue.convertTo_of_type htype).symm
    · exact hrhs'
  obtain ⟨st₂, hupd, hok⟩ := bind_eq_ok.mp h
  cases hok
  refine evolves_update hev.typed hupd ?_
  intro entry v hent' hv
  rw [hent] at hent'
  cases hent'
  have hvalue := (htyped _ _ hent₀).value_type
  obtain rfl := (tryCast_eq_ok hv).trans (SsaValue.convertTo_of_type hvalue)
  refine ⟨?_, hvalue⟩
  simp [Entry.assign, hsteps, SsaValue.setPath, endType, hconv]

theorem evolves_genAssign (hm : structMap.WellFormed) {target : Expr}
    (hget : ∀ head fields, target = .path head fields →
      getPath structMap st.symbolTable head fields = .ok lhs)
    (hwell : WellAssigned target lhs rhs st₁)
    (h : genAssign st₁ target lhs' rhs' = .ok (value, st')) :
    Evolves structMap st₁ st' (target.write lhs rhs) [] := by
  match target with
  | .path head [] =>
    obtain ⟨hrebind, hassign⟩ := hwell
    simpa [Expr.write] using
      evolves_assignVariable htyped hev hcast (hget _ _ rfl) hrebind hassign h
  | .path head (field :: fields) =>
    by_cases hctx : lhs.isContextRef
    · obtain ⟨hlhs', _⟩ := castConstant_eq_ok hcast
      cases lhs <;> first | cases hctx; done | skip
      cases hlhs' rfl
      cases h
      exact .of_eq hev.typed rfl rfl
    · obtain ⟨rfl, hinput, hassign⟩ := hwell.resolve_left hctx
      simpa [Expr.write, hctx] using evolves_assignField htyped hev hcast hm (hget _ _ rfl)
        (by simpa using hctx) hinput hassign h
  | .num _ | .literal _ | .binop _ _ _ | .assign _ _ | .extract _ _ | .call _ _ _ | .init _ _ =>
    unfold genAssign at h
    split at h
    · cases h
    all_goals
      cases h
      exact .of_eq hev.typed rfl rfl

end

end Assign

end Alkali
