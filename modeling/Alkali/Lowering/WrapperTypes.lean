import Alkali.Dialect.Types

/-!
# Wrapper types of handlers

`LowerStructAnalysis` makes a struct type for the input event of a handler and for each event that
it returns. The types are found by the names of the events, so that a name has one list of fields.
-/

namespace Alkali.LowerStructAnalysis

open List Function

/-- A handler: its parameters, and the structs that it returns. -/
structure Handler where
  event : String
  atom : Option String
  argTypes : List Ty
  returns : List (String × List Ty)

open Handler

/-- Leading atoms and contexts are no fields. -/
def fieldsOf (types : List Ty) : List Ty := types.dropWhile fun t => t = .atom || t = .context

namespace Handler

variable (h : Handler)

/-- The key of the handler in `ioTypes`. -/
def key : String × String := (h.event, h.atom.getD "")

/-- The fields of its own input event and of the events that it returns. -/
def ioFields : List (String × List Ty) :=
  (h.event, fieldsOf h.argTypes) :: h.returns.map fun r => (r.1, fieldsOf r.2)

end Handler

/-- The bodies of the identified structs of the context; one without a body is not initialized. -/
abbrev Bodies := String → Option (List Ty)

/-- `setBody` fails for a struct that is initialized. -/
def setBody (bodies : Bodies) (e : String × List Ty) : Bodies :=
  if bodies e.1 = none then update bodies e.1 (some e.2) else bodies

/-- `getIdentified`, and `setBody` if the body is empty. -/
def getStruct (bodies : Bodies) (e : String × List Ty) : Bodies :=
  if ((bodies e.1).getD []).length = 0 then setBody bodies e else bodies

/-- The structs of the context, and the names of the types of each handler. -/
structure Analysis where
  bodies : Bodies
  ioTypes : String × String → Option (List String)

namespace Analysis

/-- `ioTypes.insert`, which keeps what is there. -/
def insert (a : Analysis) (h : Handler) : Analysis where
  bodies := getStruct a.bodies (h.event, fieldsOf h.argTypes)
  ioTypes := if a.ioTypes h.key = none then update a.ioTypes h.key (some [h.event]) else a.ioTypes

/-- The type of a return. -/
def pushBack (k : String × String) (a : Analysis) (r : String × List Ty) : Analysis where
  bodies := getStruct a.bodies (r.1, fieldsOf r.2)
  ioTypes := update a.ioTypes k (some ((a.ioTypes k).getD [] ++ [r.1]))

def visit (a : Analysis) (h : Handler) : Analysis := h.returns.foldl (pushBack h.key) (a.insert h)

/-- The analysis of a module, from the structs that the context has already. -/
def run (bodies : Bodies) (handlers : List Handler) : Analysis :=
  handlers.foldl visit ⟨bodies, fun _ => none⟩

def getWrapperTypes (a : Analysis) (h : Handler) : List (String × List Ty) :=
  ((a.ioTypes h.key).getD []).map fun name => (name, (a.bodies name).getD [])

end Analysis

open Analysis

/-! ## The bodies of the structs -/

variable {bodies : Bodies} {e : String × List Ty} {es : List (String × List Ty)} {name : String}
  {fields : List Ty} {a : Analysis} {h : Handler} {handlers : List Handler}

theorem getStruct_eq : getStruct bodies e =
    if bodies e.1 = none then update bodies e.1 (some e.2) else bodies := by
  rw [getStruct, setBody]
  cases bodies e.1 <;> simp

/-- A body is the first one that is set. -/
theorem foldl_getStruct : es.foldl getStruct bodies name =
    (bodies name).or ((es.find? fun e => e.1 = name).map Prod.snd) := by
  induction es generalizing bodies with
  | nil => simp
  | cons e es ih =>
    rw [foldl_cons, ih, getStruct_eq, find?_cons]
    by_cases he : e.1 = name
    · subst he
      cases hb : bodies e.1 <;> simp [hb]
    · split_ifs <;> simp [he, update_of_ne (Ne.symm he)]

theorem exists_body (bodies : Bodies) (he : e ∈ es) :
    ∃ fields, es.foldl getStruct bodies e.1 = some fields ∧
      (bodies e.1 = some fields ∨ (e.1, fields) ∈ es) := by
  rw [foldl_getStruct]
  cases bodies e.1 with
  | some fields => exact ⟨fields, rfl, Or.inl rfl⟩
  | none =>
    have hsome : (es.find? fun e' => e'.1 = e.1).isSome := find?_isSome.mpr ⟨e, he, by simp⟩
    obtain ⟨⟨name, fields⟩, hfind⟩ := Option.isSome_iff_exists.mp hsome
    obtain rfl : name = e.1 := by simpa using find?_some hfind
    exact ⟨fields, by simp [hfind], Or.inr (mem_of_find?_eq_some hfind)⟩

theorem bodies_visit : (a.visit h).bodies = h.ioFields.foldl getStruct a.bodies := by
  have hrets : ∀ (rs : List (String × List Ty)) (a : Analysis),
      (rs.foldl (pushBack h.key) a).bodies =
        (rs.map fun r => (r.1, fieldsOf r.2)).foldl getStruct a.bodies := by
    intro rs
    induction rs with
    | nil => exact fun _ => rfl
    | cons r rs ih => exact fun a => ih (pushBack h.key a r)
  exact hrets h.returns _

theorem bodies_foldl_visit : (handlers.foldl visit a).bodies =
    (handlers.flatMap ioFields).foldl getStruct a.bodies := by
  induction handlers generalizing a with
  | nil => rfl
  | cons h handlers ih => rw [foldl_cons, ih, bodies_visit, flatMap_cons, foldl_append]

/-! ## The types of a handler -/

theorem ioTypes_visit (hnone : a.ioTypes h.key = none) :
    (a.visit h).ioTypes = update a.ioTypes h.key (some (h.ioFields.map Prod.fst)) := by
  have hrets : ∀ (rs : List (String × List Ty)) (names : List String) (a : Analysis),
      a.ioTypes h.key = some names → (rs.foldl (pushBack h.key) a).ioTypes =
        update a.ioTypes h.key (some (names ++ rs.map Prod.fst)) := by
    intro rs
    induction rs with
    | nil => intro names a hnms; simp [← hnms]
    | cons r rs ih =>
      intro names a hnms
      rw [foldl_cons, ih (names ++ [r.1]) _ (by simp [pushBack, hnms])]
      simp [pushBack]
  rw [visit, hrets h.returns [h.event] _ (by simp [Analysis.insert, hnone])]
  simp [Analysis.insert, hnone, ioFields, Function.comp_def]

theorem ioTypes_foldl_visit (hkeys : (handlers.map key).Nodup)
    (hnone : ∀ h ∈ handlers, a.ioTypes h.key = none) :
    (∀ k ∉ handlers.map key, (handlers.foldl visit a).ioTypes k = a.ioTypes k) ∧
      ∀ h ∈ handlers, (handlers.foldl visit a).ioTypes h.key = some (h.ioFields.map Prod.fst) := by
  induction handlers generalizing a with
  | nil => simp
  | cons g handlers ih =>
    obtain ⟨hg, hkeys⟩ := nodup_cons.mp hkeys
    obtain ⟨hgnone, hnone⟩ := forall_mem_cons.mp hnone
    have hvisit := ioTypes_visit hgnone
    have hne : ∀ h ∈ handlers, h.key ≠ g.key := fun h hh heq => hg (heq ▸ mem_map_of_mem hh)
    obtain ⟨hother, hmem⟩ := ih (a := a.visit g) hkeys fun h hh => by
      rw [hvisit, update_of_ne (hne h hh), hnone h hh]
    refine ⟨fun k hk => ?_, forall_mem_cons.mpr ⟨?_, hmem⟩⟩
    · rw [map_cons, mem_cons, not_or] at hk
      rw [foldl_cons, hother k hk.2, hvisit, update_of_ne hk.1]
    · rw [foldl_cons, hother _ hg, hvisit, update_self]

/-- The types of all handlers list their own fields if and only if a name stands for the same
fields wherever it occurs, and in the context. -/
theorem getWrapperTypes_eq_ioFields_iff (bodies : Bodies) (hkeys : (handlers.map key).Nodup) :
    (∀ h ∈ handlers, (run bodies handlers).getWrapperTypes h = h.ioFields) ↔
      ∀ h ∈ handlers, ∀ e ∈ h.ioFields, (∀ fields, bodies e.1 = some fields → fields = e.2) ∧
        ∀ h' ∈ handlers, ∀ e' ∈ h'.ioFields, e'.1 = e.1 → e'.2 = e.2 := by
  have hbody := fun h hh e he => exists_body (e := e) bodies
    (mem_flatMap.mpr ⟨h, hh, he⟩ : e ∈ handlers.flatMap ioFields)
  have hbodies : (run bodies handlers).bodies =
    (handlers.flatMap ioFields).foldl getStruct bodies := bodies_foldl_visit
  -- a handler gets the bodies of its own names
  have htypes : ∀ h ∈ handlers, (run bodies handlers).getWrapperTypes h = h.ioFields ↔
      ∀ e ∈ h.ioFields, (run bodies handlers).bodies e.1 = some e.2 := by
    intro h hh
    rw [getWrapperTypes, run, (ioTypes_foldl_visit hkeys fun _ _ => rfl).2 h hh, ← run]
    conv_lhs => rw [Option.getD_some, map_map]; rhs; rw [← map_id h.ioFields]
    refine map_inj_left.trans (forall₂_congr fun e he => ?_)
    obtain ⟨fields, hfields, -⟩ := hbody h hh e he
    simp [hbodies, hfields, Prod.ext_iff]
  refine (forall₂_congr htypes).trans ⟨fun hall h hh e he => ?_, fun hagree h hh e he => ?_⟩
  · refine ⟨fun fields hfields => ?_, fun h' hh' e' he' hname => ?_⟩
    · have hfirst := hall h hh e he
      rw [hbodies, foldl_getStruct, hfields, Option.some_or] at hfirst
      exact Option.some.inj hfirst
    · exact Option.some.inj ((hall h' hh' e' he').symm.trans (hname ▸ hall h hh e he))
  · obtain ⟨hctx, hother⟩ := hagree h hh e he
    obtain ⟨fields, hfields, hbody | hbody⟩ := hbody h hh e he
    · rw [hbodies, hfields, hctx fields hbody]
    · obtain ⟨h', hh', he'⟩ := mem_flatMap.mp hbody
      rw [hbodies, hfields]
      exact congrArg some (hother h' hh' _ he' rfl)

/-- A handler of an event for an atom; it returns another event. -/
def ofAtom (atom : String) (fields : List Ty) : Handler :=
  ⟨"RECV", some atom, [.context, .atom] ++ fields, [("SEND", [.context, .buffer])]⟩

theorem getWrapperTypes_same_fields :
    let handlers := [ofAtom "tcp" [.int 32], ofAtom "udp" [.int 32]]
    handlers.map (run (fun _ => none) handlers).getWrapperTypes = handlers.map ioFields :=
  map_congr_left ((getWrapperTypes_eq_ioFields_iff _ (by decide)).mpr
    (by simp [ofAtom, ioFields, fieldsOf]))

/-- The handler of the second atom gets the parameters of the first one. -/
theorem getWrapperTypes_other_fields :
    (run (fun _ => none) [ofAtom "tcp" [.int 32], ofAtom "udp" [.buffer]]).getWrapperTypes
        (ofAtom "udp" [.buffer]) = [("RECV", [.int 32]), ("SEND", [.buffer])] ∧
      (ofAtom "udp" [.buffer]).ioFields = [("RECV", [.buffer]), ("SEND", [.buffer])] := by
  decide

end Alkali.LowerStructAnalysis
