import Mathlib.Data.List.Dedup
import Mathlib.Data.List.Induction

/-!
# Memory classes of tables

`simpleGlobalMapping` puts the first tables that a function imports in local memory and the others
in cluster memory. The emitter keeps the memory class with the type of a table, and declares all
tables of a type in the class of the first one.
-/

namespace Alkali.TableMemory

open List Function

/-- A function: the globals that it imports in the order of the walk, and the tables of its own
with their types. -/
structure Func where
  instances : List String
  imports : List String
  localTables : List (String × String)
  deriving DecidableEq, Repr

/-- A `GlobalOp`; only a table has a table type. -/
structure Global where
  name : String
  tableType : Option String
  deriving DecidableEq, Repr

/-- The attributes `instances` of the globals. -/
abbrev Attrs := String → Option (List String)

/-- Map the import with the number `numTables` of a function. -/
def mapImport (localTableLimit : Nat) (f : Func) (attrs : Attrs) : String × Nat → Attrs
  | (name, numTables) => update attrs name (some (f.instances.map fun cu =>
      if numTables < localTableLimit then "lmem_" ++ cu else "cls_" ++ cu))

def simpleGlobalMapping (localTableLimit : Nat) (pipeline : List Func) : Attrs :=
  pipeline.foldl (fun attrs f => f.imports.zipIdx.foldl (mapImport localTableLimit f) attrs)
    fun _ => none

/-- The memory of a global: the text before the first underscore of its first instance. -/
def mem (attrs : Attrs) (name : String) : String :=
  match attrs name with
  | none => "cls"
  | some instances => String.ofList ((instances.headD "").toList.takeWhile (· != '_'))

structure Table where
  tableType : String
  isLocal : Bool
  name : String
  deriving DecidableEq, Repr

/-- The tables in the order of `CollectInfoAnalysis`: those of the functions, and the globals that
are imported. -/
def tables (pipeline : List Func) (globals : List Global) (isLocal : String → Bool) : List Table :=
  (pipeline.flatMap fun f => f.localTables.map fun t => ⟨t.1, true, t.2⟩) ++
    (globals.filter fun g => pipeline.any fun f => g.name ∈ f.imports).filterMap fun g =>
      g.tableType.map fun ty => ⟨ty, isLocal g.name, g.name⟩

/-- `tableInfos`: the memory class of a type, and the variables of the type. -/
abbrev TableInfos := String → Option (Bool × List String)

def addTable (infos : TableInfos) (t : Table) : TableInfos :=
  match infos t.tableType with
  | none => update infos t.tableType (some (t.isLocal, [t.name]))
  | some (isLocal, names) => update infos t.tableType (some (isLocal, names ++ [t.name]))

def tableInfos (ts : List Table) : TableInfos := ts.foldl addTable fun _ => none

/-- The header declares a table in its own memory class. -/
def Declared (infos : TableInfos) (t : Table) : Prop :=
  ∃ names, infos t.tableType = some (t.isLocal, names) ∧ t.name ∈ names

/-- The tables of a function in local memory. -/
def numLocal (globals : List Global) (isLocal : String → Bool) (f : Func) : Nat :=
  f.localTables.length + (f.imports.dedup.filter fun name =>
    isLocal name && globals.any fun g => g.name = name && g.tableType.isSome).length

/-- The last import of a global is among the first imports of its function. -/
def lastImportLocal (localTableLimit : Nat) (pipeline : List Func) (name : String) : Bool :=
  ((pipeline.flatMap fun f => f.imports.zipIdx).filter (·.1 = name)).getLast?.any
    (·.2 < localTableLimit)

variable {localTableLimit : Nat} {pipeline : List Func} {globals : List Global} {ts : List Table}
  {name : String}

theorem mem_mapImport {f : Func} (hf : f.instances ≠ []) (attrs : Attrs) (imp : String × Nat) :
    mem (mapImport localTableLimit f attrs imp) name = if imp.1 = name then
      if imp.2 < localTableLimit then "lmem" else "cls" else mem attrs name := by
  obtain ⟨cu, cus, hcus⟩ := exists_cons_of_ne_nil hf
  by_cases hname : imp.1 = name
  · rw [mem, mapImport, hname, update_self, hcus, if_pos rfl]
    split_ifs <;> simp
  · rw [mem, mapImport, update_of_ne (Ne.symm hname), if_neg hname, mem]

/-- The last import decides on the memory. -/
theorem mem_foldl_mapImport {f : Func} (hf : f.instances ≠ []) (attrs : Attrs)
    (imps : List (String × Nat)) : mem (imps.foldl (mapImport localTableLimit f) attrs) name =
      ((imps.filter (·.1 = name)).getLast?.map fun imp =>
        if imp.2 < localTableLimit then "lmem" else "cls").getD (mem attrs name) := by
  induction imps using reverseRecOn with
  | nil => rfl
  | append_singleton imps imp ih =>
    rw [foldl_concat, mem_mapImport hf, ih, filter_append, filter_singleton]
    by_cases hname : imp.1 = name <;> simp [hname]

theorem mem_simpleGlobalMapping (hinst : ∀ f ∈ pipeline, f.instances ≠ []) :
    (fun name => mem (simpleGlobalMapping localTableLimit pipeline) name == "lmem") =
      lastImportLocal localTableLimit pipeline := by
  funext name
  have hmem : mem (simpleGlobalMapping localTableLimit pipeline) name =
      (((pipeline.flatMap fun f => f.imports.zipIdx).filter (·.1 = name)).getLast?.map fun imp =>
        if imp.2 < localTableLimit then "lmem" else "cls").getD "cls" := by
    rw [simpleGlobalMapping]
    induction pipeline using reverseRecOn with
    | nil => rfl
    | append_singleton fs f ih =>
      rw [foldl_concat, mem_foldl_mapImport (hinst f (by simp)),
        ih fun f hf => hinst f (mem_append_left _ hf), flatMap_append, filter_append,
        flatMap_singleton, getLast?_append]
      cases (f.imports.zipIdx.filter (·.1 = name)).getLast? <;> rfl
  rw [hmem, lastImportLocal]
  cases ((pipeline.flatMap fun f => f.imports.zipIdx).filter (·.1 = name)).getLast? with
  | none => rfl
  | some imp => by_cases hlt : imp.2 < localTableLimit <;> simp [hlt]

/-- The entry of a type has the class of its first table. -/
theorem tableInfos_eq (ty : String) : tableInfos ts ty =
    (ts.filter (·.tableType = ty)).head?.map fun t =>
      (t.isLocal, (ts.filter (·.tableType = ty)).map Table.name) := by
  induction ts using reverseRecOn with
  | nil => rfl
  | append_singleton ts t ih =>
    rw [tableInfos, foldl_concat, ← tableInfos, addTable, filter_append, filter_singleton]
    by_cases hty : t.tableType = ty
    · subst hty
      rw [ih]
      cases hts : ts.filter (·.tableType = t.tableType) <;> simp
    · rw [decide_eq_false hty, cond_false, append_nil, ← ih]
      rcases tableInfos ts t.tableType with _ | ⟨isLocal, names⟩ <;>
      exact update_of_ne (Ne.symm hty) _ _

/-- All tables are declared in their own class if and only if tables of one type are in one
class. -/
theorem declared_iff : (∀ t ∈ ts, Declared (tableInfos ts) t) ↔
    ∀ t ∈ ts, ∀ t' ∈ ts, t.tableType = t'.tableType → t.isLocal = t'.isLocal := by
  constructor
  · intro h t ht t' ht' hty
    obtain ⟨names, hinfo, -⟩ := h t ht
    obtain ⟨names', hinfo', -⟩ := h t' ht'
    rw [hty, hinfo'] at hinfo
    exact (Prod.mk.inj (Option.some.inj hinfo)).1.symm
  · intro h t ht
    have hmem : t ∈ ts.filter (·.tableType = t.tableType) := mem_filter.mpr ⟨ht, by simp⟩
    obtain ⟨first, rest, hfirst⟩ := exists_cons_of_ne_nil (ne_nil_of_mem hmem)
    have hin : first ∈ ts.filter (·.tableType = t.tableType) := hfirst ▸ mem_cons_self
    obtain ⟨hts, hty⟩ := mem_filter.mp hin
    refine ⟨_, ?_, mem_map_of_mem hmem⟩
    rw [tableInfos_eq, hfirst, head?_cons, Option.map_some, h first hts t ht (by simpa using hty)]

/-- What the header declares after the mapping. -/
def InOwnMemory (localTableLimit : Nat) (pipeline : List Func) (globals : List Global) : Prop :=
  let isLocal name := mem (simpleGlobalMapping localTableLimit pipeline) name == "lmem"
  let ts := tables pipeline globals isLocal
  (∀ t ∈ ts, Declared (tableInfos ts) t) ∧
    ∀ f ∈ pipeline, numLocal globals isLocal f ≤ localTableLimit

/-- All tables are declared in their own class and no function has more than the limit in local
memory, if and only if this is so for the tables of the functions and the globals whose last import
is among the first ones, and tables of one type are in one class. -/
theorem inOwnMemory_iff (globals : List Global) (hinst : ∀ f ∈ pipeline, f.instances ≠ []) :
    InOwnMemory localTableLimit pipeline globals ↔
      let isLocal := lastImportLocal localTableLimit pipeline
      let ts := tables pipeline globals isLocal
      (∀ t ∈ ts, ∀ t' ∈ ts, t.tableType = t'.tableType → t.isLocal = t'.isLocal) ∧
        ∀ f ∈ pipeline, numLocal globals isLocal f ≤ localTableLimit := by
  simp only [InOwnMemory]
  rw [mem_simpleGlobalMapping hinst, declared_iff]

/-- A function that imports two tables of one type. -/
def twoTables : List Func := [⟨["cu1"], ["a", "b"], []⟩]

def twoGlobals : List Global := [⟨"a", some "struct table_i32_i32_16"⟩,
  ⟨"b", some "struct table_i32_i32_16"⟩]

theorem inOwnMemory_twoTables : InOwnMemory 2 twoTables twoGlobals :=
  (inOwnMemory_iff twoGlobals (by decide)).mpr (by decide)

/-- The second table is mapped to cluster memory and declared in local memory. -/
theorem not_inOwnMemory_twoTables :
    mem (simpleGlobalMapping 1 twoTables) "b" = "cls" ∧ ¬ InOwnMemory 1 twoTables twoGlobals := by
  refine ⟨by decide, fun h => ?_⟩
  obtain ⟨names, hinfo, -⟩ := h.1 ⟨"struct table_i32_i32_16", false, "b"⟩ (by decide)
  cases hinfo

end Alkali.TableMemory
