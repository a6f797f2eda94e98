import Alkali.MLIRGen.Gen

/-!
# Paths into nested structs

The declarations of the structs give every step of a path its index and its
type. `getPath` takes the struct of a step from the variable that has the name
of the step before it, which is the right struct for the first step only.
-/

namespace Alkali

open Fallible

/-- The index and the type of every step of a path, as the declaration of the
struct reached so far gives them. -/
def declaredSteps (structMap : StructMap) : VarType → List String → Option (List (Nat × Ty))
  | _, [] => some []
  | varType, name :: fields =>
    match getVarType structMap varType with
    | .ok (.struct _ _ structName) => do
      let (_, str) ← structMap.lookup structName
      let index ← getMemberIndex str name
      let field ← str.structVars[index]?
      let type ← (getVarType structMap field.type).toOption
      let rest ← declaredSteps structMap field.type fields
      some ((index, type) :: rest)
    | _ => none

/-- Access the fields of a value one after another. -/
def accessPath : SsaValue → List (Nat × Ty) → SsaValue
  | value, [] => value
  | value, (index, type) :: steps => accessPath (.structAccessOp value index type) steps

/-- The variable with the name of a step has the next field at the declared index. -/
def StepsFound (structMap : StructMap) (table : SymbolTable) :
    String → List String → List (Nat × Ty) → Prop
  | prev, field :: fields, (index, _) :: steps =>
    (getStructForName structMap table prev).bind (getMemberIndex · field) = some index ∧
      StepsFound structMap table field fields steps
  | _, _, _ => True

/-- From the second field on, the variable with the name of the field before it
is declared with a struct that has the field at the declared index. -/
def FieldVariablesMatch (structMap : StructMap) (table : SymbolTable) :
    List String → List (Nat × Ty) → Prop
  | field :: fields, _ :: steps => StepsFound structMap table field fields steps
  | _, _ => True

section StructMaps

variable {m m' : StructMap}

/-- The entries of the first map are entries of the second. -/
def StructMap.Sub (m m' : StructMap) : Prop :=
  ∀ name e, m.lookup name = some e → m'.lookup name = some e

variable {t : VarType} {ty : Ty}

theorem getVarType_mono (h : m.Sub m') (ht : getVarType m t = .ok ty) :
    getVarType m' t = .ok ty := by
  fun_induction getVarType m t generalizing ty with
  | case1 => exact ht
  | case2 | case4 | case6 => cases ht
  | case3 key value size ihk ihv =>
    obtain ⟨kt, hkt, ht⟩ := bind_eq_ok.mp ht
    obtain ⟨vt, hvt, ht⟩ := bind_eq_ok.mp ht
    exact bind_eq_ok.mpr ⟨kt, ihk hkt, bind_eq_ok.mpr ⟨vt, ihv hvt, ht⟩⟩
  | case5 name params _ _ _ _ type hbuiltin =>
    simp_all [getVarType]
  | case7 name params _ _ _ _ hbuiltin type str hfind =>
    have hfind' := h name _ hfind
    simp_all [getVarType]

/-- A type is built in or a declared struct. -/
theorem getVarType_eq_ok (ht : getVarType m t = .ok ty) :
    (∀ isEvent elems name, ty ≠ .struct isEvent elems name) ∧ (∀ ref, ty ≠ .contextRef ref) ∨
      t.name ≠ "" ∧ ∃ str, m.lookup t.name = some (ty, str) := by
  rw [getVarType.eq_def] at ht
  split at ht
  · cases ht
    exact Or.inl ⟨nofun, nofun⟩
  · cases ht
  · obtain ⟨kt, _, ht⟩ := bind_eq_ok.mp ht
    obtain ⟨vt, _, ht⟩ := bind_eq_ok.mp ht
    cases ht
    exact Or.inl ⟨nofun, nofun⟩
  · cases ht
  · next n params _ _ _ _ =>
      split at ht
      · next hbuiltin =>
          cases ht
          revert hbuiltin
          fun_cases builtinType n <;> rintro ⟨⟩ <;> exact Or.inl ⟨nofun, nofun⟩
      · next hbuiltin =>
          split at ht
          · cases ht
          · next type str hfind =>
              cases ht
              refine Or.inr ⟨?_, str, hfind⟩
              rintro rfl
              cases hbuiltin

theorem getVarType_eq_struct {isEvent : Bool} {elems : List Ty} {name : String}
    (ht : getVarType m t = .ok (.struct isEvent elems name)) :
    t.name ≠ "" ∧ ∃ str, m.lookup t.name = some (.struct isEvent elems name, str) :=
  (getVarType_eq_ok ht).resolve_left fun h => h.1 _ _ _ rfl

/-- Every struct type has the types of the declared fields. -/
def StructMap.WellFormed (m : StructMap) : Prop :=
  ∀ name ty str, m.lookup name = some (ty, str) →
    str.name = name ∧ ∃ elems, ty = .struct str.isEvent elems name ∧
      str.structVars.mapM (getFieldType m) = .ok elems

theorem getFieldType_mono (h : m.Sub m') {field : StructField}
    (ht : getFieldType m field = .ok ty) : getFieldType m' field = .ok ty := by
  unfold getFieldType at ht ⊢
  split_ifs at ht ⊢
  exact getVarType_mono h ht

theorem StructMap.WellFormed.genStruct {str : StructAST} (h : m.WellFormed)
    (hgen : genStruct m str = .ok m') : m'.WellFormed := by
  unfold Alkali.genStruct at hgen
  split at hgen
  · cases hgen
  · next hnew =>
      obtain ⟨elems, helems, hm'⟩ := bind_eq_ok.mp hgen
      cases hm'
      have hsub : m.Sub (m ++ [(str.name, .struct str.isEvent elems str.name, str)]) := by
        intro name e he
        rw [List.lookup_append, he]
        rfl
      intro name ty str' hfind
      rw [List.lookup_append] at hfind
      cases hold : m.lookup name with
      | some e =>
        rw [hold] at hfind
        cases hfind
        obtain ⟨hname, elems', hty, hmap⟩ := h name ty str' hold
        exact ⟨hname, elems', hty, mapM_mono (fun _ _ => getFieldType_mono hsub) hmap⟩
      | none =>
        rw [hold, Option.none_or, List.lookup_cons] at hfind
        split at hfind
        · next heq =>
            cases hfind
            have hname := eq_of_beq heq
            subst hname
            exact ⟨rfl, elems, rfl, mapM_mono (fun _ _ => getFieldType_mono hsub) helems⟩
        · cases hfind

theorem genStructs_wellFormed {structs : List StructAST} (h : genStructs structs = .ok m) :
    m.WellFormed := by
  suffices hfold : ∀ m₀ : StructMap, m₀.WellFormed → structs.foldlM genStruct m₀ = .ok m →
      m.WellFormed from hfold [] (fun _ _ _ hfind => by cases hfind) h
  clear h
  induction structs with
  | nil =>
    intro m₀ hm₀ hgen
    cases hgen
    exact hm₀
  | cons str structs ih =>
    intro m₀ hm₀ hgen
    obtain ⟨m₁, hm₁, hgen⟩ := bind_eq_ok.mp hgen
    exact ih m₁ (hm₀.genStruct hm₁) hgen

end StructMaps

/-- The value that an access starts from. -/
def SsaValue.input? : SsaValue → Option SsaValue
  | structAccessOp input _ _ => some input
  | contextRefOp _ context => some context
  | _ => none

/-- The value that a number of accesses start from. -/
def SsaValue.start? (n : Nat) (value : SsaValue) : Option SsaValue :=
  (·.bind input?)^[n] (some value)

section Fields

variable {structMap : StructMap} {table : SymbolTable}
variable {value : SsaValue} {prev : String} {fields : List String} {t : VarType}
  {steps : List (Nat × Ty)}
variable {index : Nat} {result : SsaValue} {name : String}

theorem structAccess_eq_ok {input : SsaValue} (h : structAccess input index = .ok value) :
    ∃ isEvent elems name type, input.type = .struct isEvent elems name ∧
      elems[index]? = some type ∧ value = .structAccessOp input index type := by
  unfold structAccess at h
  split at h
  · next isEvent elems name htype =>
      split at h
      · next type hidx =>
          cases h
          exact ⟨isEvent, elems, name, type, htype, hidx, rfl⟩
      · cases h
  · cases h

theorem getFields_cons {field : String} (hctx : value.type ≠ .context) :
    getFields structMap table value prev (field :: fields) = .ok result ↔ ∃ index accessed,
        (getStructForName structMap table prev).bind (getMemberIndex · field) = some index ∧
        structAccess value index = .ok accessed ∧
        getFields structMap table accessed field fields = .ok result := by
  rw [getFields, if_neg hctx]
  cases hstr : getStructForName structMap table prev with
  | none => simp
  | some str =>
    cases hidx : getMemberIndex str field with
    | none => simp [hidx]
    | some index => simp [hidx, bind_eq_ok]

theorem start?_getFields (h : getFields structMap table value prev fields = .ok result) :
    result.start? fields.length = some value := by
  induction fields generalizing value prev with
  | nil =>
    cases h
    rfl
  | cons field fields ih =>
    rw [SsaValue.start?, List.length_cons, Function.iterate_succ_apply']
    by_cases hctx : value.type = .context
    · rw [getFields, if_pos hctx] at h
      rw [show (·.bind SsaValue.input?)^[fields.length] (some result) = _ from ih h]
      rfl
    · obtain ⟨index, accessed, _, haccess, hrest⟩ := (getFields_cons hctx).mp h
      obtain ⟨_, _, _, type, _, _, rfl⟩ := structAccess_eq_ok haccess
      rw [show (·.bind SsaValue.input?)^[fields.length] (some result) = _ from ih hrest]
      rfl

theorem start?_accessPath (value : SsaValue) (steps : List (Nat × Ty)) :
    (accessPath value steps).start? steps.length = some value := by
  induction steps generalizing value with
  | nil => rfl
  | cons step steps ih =>
    rw [SsaValue.start?, List.length_cons, Function.iterate_succ_apply', accessPath,
      show (·.bind SsaValue.input?)^[steps.length] (some (accessPath _ steps)) = _ from ih _]
    rfl

/-- The declared steps of a path, one by one. -/
theorem declaredSteps_cons (h : declaredSteps structMap t (name :: fields) = some steps) :
    ∃ isEvent elems structName ty str index field type rest,
      getVarType structMap t = .ok (.struct isEvent elems structName) ∧
      structMap.lookup structName = some (ty, str) ∧ getMemberIndex str name = some index ∧
      str.structVars[index]? = some field ∧ getVarType structMap field.type = .ok type ∧
      declaredSteps structMap field.type fields = some rest ∧ steps = (index, type) :: rest := by
  rw [declaredSteps] at h
  split at h
  · next isEvent elems structName htype =>
      simp only [Option.bind_eq_bind, Option.bind_eq_some_iff, Prod.exists] at h
      obtain ⟨ty, str, hstr, index, hidx, field, hfield, type, hft, rest, hrest, hsteps⟩ := h
      exact ⟨isEvent, elems, structName, ty, str, index, field, type, rest, htype, hstr, hidx,
        hfield, toOption_eq_some.mp hft, hrest, (Option.some.inj hsteps).symm⟩
  · cases h

theorem length_declaredSteps (h : declaredSteps structMap t fields = some steps) :
    steps.length = fields.length := by
  induction fields generalizing t steps with
  | nil =>
    cases h
    rfl
  | cons name fields ih =>
    obtain ⟨_, _, _, _, _, _, field, _, rest, _, _, _, _, _, hrest, rfl⟩ := declaredSteps_cons h
    simp [ih hrest]

variable (hm : structMap.WellFormed)
include hm

/-- The element types of a struct are the types of the declared fields. -/
theorem StructMap.WellFormed.element {isEvent : Bool} {elems : List Ty}
    (ht : getVarType structMap t = .ok (.struct isEvent elems name)) {ty : Ty} {str : StructAST}
    (hstr : structMap.lookup name = some (ty, str)) {field : StructField}
    (hfield : str.structVars[index]? = some field) {type : Ty}
    (htype : getVarType structMap field.type = .ok type) :
    t.name = name ∧ elems[index]? = some type := by
  obtain ⟨_, str', hfind⟩ := getVarType_eq_struct ht
  obtain ⟨_, elems', hty, hmap⟩ := hm _ _ _ hfind
  cases hty
  rw [hfind] at hstr
  cases hstr
  obtain ⟨type', hget, hidx⟩ := mapM_getElem? hmap hfield
  refine ⟨rfl, ?_⟩
  unfold getFieldType at hget
  split_ifs at hget
  rw [htype] at hget
  cases hget
  exact hidx

theorem getFields_accessPath_iff (ht : getVarType structMap t = .ok value.type)
    (hsteps : declaredSteps structMap t fields = some steps) :
    getFields structMap table value prev fields = .ok (accessPath value steps) ↔
      StepsFound structMap table prev fields steps := by
  induction fields generalizing t value prev steps with
  | nil =>
    cases hsteps
    simp [getFields, accessPath, StepsFound]
  | cons name fields ih =>
    obtain ⟨isEvent, elems, structName, ty, str, index, field, type, rest, hstruct, hstr, hidx,
      hfield, htype, hrest, rfl⟩ := declaredSteps_cons hsteps
    obtain ⟨_, helem⟩ := hm.element hstruct hstr hfield htype
    rw [ht, Except.ok.injEq] at hstruct
    have haccess : structAccess value index = .ok (.structAccessOp value index type) := by
      simp [structAccess, hstruct, helem]
    rw [getFields_cons (by simp [hstruct]), StepsFound, accessPath]
    constructor
    · rintro ⟨index', accessed, hfound, haccess', hget⟩
      have hstart := start?_getFields hget
      rw [← length_declaredSteps hrest, start?_accessPath] at hstart
      obtain ⟨_, _, _, _, _, _, haccessed⟩ := structAccess_eq_ok haccess'
      obtain rfl := Option.some.inj hstart
      cases haccessed
      exact ⟨hfound, (ih htype hrest).mp hget⟩
    · rintro ⟨hfound, hrestFound⟩
      exact ⟨index, _, hfound, haccess, (ih htype hrest).mpr hrestFound⟩

/-- The struct of the first step is that of the declaration of the variable. -/
theorem stepsFound_iff {head : String} {entry : Entry} (hhead : table.lookup head = some entry)
    (hsteps : declaredSteps structMap entry.decl fields = some steps) :
    StepsFound structMap table head fields steps ↔
      FieldVariablesMatch structMap table fields steps := by
  cases fields with
  | nil =>
    simp [StepsFound, FieldVariablesMatch]
  | cons name fields =>
    obtain ⟨isEvent, elems, structName, ty, str, index, field, type, rest, hstruct, hstr, hidx,
      hfield, hft, _, rfl⟩ := declaredSteps_cons hsteps
    obtain ⟨rfl, _⟩ := hm.element hstruct hstr hfield hft
    have hfirst : (getStructForName structMap table head).bind (getMemberIndex · name) =
        some index := by
      simp [getStructForName, hhead, (getVarType_eq_struct hstruct).1, hstr, hidx]
    simp only [StepsFound, FieldVariablesMatch, hfirst, true_and]

end Fields

/-- A path is resolved as the struct declarations say exactly if the variables
with the names of its inner fields happen to match. -/
theorem getPath_declared_iff {structs : List StructAST} {structMap : StructMap}
    {table : SymbolTable} {head : String} {entry : Entry} {fields : List String}
    {steps : List (Nat × Ty)} (hstructs : genStructs structs = .ok structMap)
    (hhead : table.lookup head = some entry)
    (htype : getVarType structMap entry.decl = .ok entry.value.type)
    (hsteps : declaredSteps structMap entry.decl fields = some steps) :
    getPath structMap table head fields = .ok (accessPath entry.value steps) ↔
      FieldVariablesMatch structMap table fields steps := by
  have hm := genStructs_wellFormed hstructs
  simp only [getPath, hhead]
  rw [getFields_accessPath_iff hm htype hsteps]
  exact stepsFound_iff hm hhead hsteps

/-- A packet whose header is a struct of its own. -/
def packetStructs : List StructAST :=
  [⟨false, "Header", [⟨"src", .mk "int" [], false⟩, ⟨"dst", .mk "long" [], false⟩]⟩,
    ⟨false, "Packet", [⟨"len", .mk "int" [], false⟩, ⟨"header", .mk "Header" [], false⟩]⟩]

def headerType : Ty := .struct false [.int 32, .int 64] "Header"

def packetType : Ty := .struct false [.int 32, headerType] "Packet"

def packetMap : StructMap := (genStructs packetStructs).toOption.getD []

/-- The packet as the first argument of a handler. -/
def packetEntry : Entry := ⟨.blockArg 0 packetType, packetType, .mk "Packet" []⟩

/-- A variable that has the name of the field. -/
def headerEntry : Entry := ⟨.initOp headerType, headerType, .mk "Header" []⟩

theorem getPath_declared_packet :
    getPath packetMap ⟨[[("header", headerEntry), ("p", packetEntry)]]⟩ "p" ["header", "dst"] =
      .ok (accessPath packetEntry.value [(1, headerType), (1, .int 64)]) := by
  have hstrs : genStructs packetStructs = .ok packetMap := rfl
  have hhead : (⟨[[("header", headerEntry), ("p", packetEntry)]]⟩ : SymbolTable).lookup "p" =
      some packetEntry := rfl
  exact (getPath_declared_iff hstrs hhead rfl rfl).mpr ⟨rfl, trivial⟩

theorem getPath_fails_packet : genStructs packetStructs = .ok packetMap ∧
      getVarType packetMap packetEntry.decl = .ok packetEntry.value.type ∧
      declaredSteps packetMap packetEntry.decl ["header", "dst"] =
        some [(1, headerType), (1, .int 64)] ∧
      getPath packetMap ⟨[[("p", packetEntry)]]⟩ "p" ["header", "dst"] =
        .error (.error "dot applied to a non-struct: header") :=
  ⟨rfl, rfl, rfl, rfl⟩

end Alkali
