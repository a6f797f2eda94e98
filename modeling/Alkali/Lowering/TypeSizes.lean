import Alkali.Dialect.Types

/-!
# Sizes of types

Four functions compute the size of a type: two of the C back ends in bytes, the one of the FPGA
back end and the one of the buffer analysis in bits. A size is missing where the code asserts.
Sizes are not bounded: the 32-bit sums of the source overflow at 2 ^ 31 bits.
-/

namespace Alkali.TypeSizes

open List Option

mutual

/-- `getEP2TypeSize` of the buffer analysis. -/
def getEP2TypeSize : Ty → Option Nat
  | .int w => some w
  | .struct _ ts _ => sumFields ts
  | _ => none

def sumFields : List Ty → Option Nat
  | [] => some 0
  | t :: ts => (getEP2TypeSize t).bind fun n => (sumFields ts).map (n + ·)

end

mutual

/-- `GetValTypeAndSize` of the FPGA back end, for the elements that a struct may have. -/
def getValSize : Ty → Option Nat
  | .int w => some w
  | .struct _ ts _ => addSizes 0 ts
  | _ => none

/-- The loop of `getStructTotalSize`. -/
def addSizes (total : Nat) : List Ty → Option Nat
  | [] => some total
  | t :: ts => (getValSize t).bind fun n => addSizes (total + n) ts

end

variable (elements : List Ty)

def getStructTotalSize : Option Nat := addSizes 0 elements

/-- The position and the size of a field on the FPGA. -/
def getStructValOffset (index : Nat) : Option Nat := addSizes 0 (elements.take index)

def getStructValSize (index : Nat) : Option Nat := elements[index]?.bind getValSize

/-- The size of an element that is an integer. -/
def elementBytes : Ty → Option Nat
  | .int w => some (w / 8)
  | _ => none

/-- `calcSize` of `LowerEmitc`: the fields of a struct are integers. -/
def calcSizeEmitc : Ty → Option Nat
  | .int w => some (w / 8)
  | .struct _ ts _ => (ts.mapM elementBytes).map sum
  | _ => none

/-! ## Netronome -/

inductive LLVMType
  | int (width : Nat)
  | ptr
  | struct (body : List LLVMType)

mutual

/-- `calcSize` of `EmitNetronome`. -/
def calcSizeNetronome : LLVMType → Nat
  | .int w => w / 8
  | .ptr => 8
  | .struct body => calcSizesNetronome body

def calcSizesNetronome : List LLVMType → Nat
  | [] => 0
  | t :: ts => calcSizeNetronome t + calcSizesNetronome ts

end

/-- `__buf_t`. -/
def bufType : LLVMType := .struct [.ptr, .int 32]

/-- The LLVM type converter knows no type of the dialect. -/
def convertType : Ty → Option LLVMType
  | .int w => some (.int w)
  | _ => none

/-- `makeLLVMStruct`. -/
def makeLLVMStruct : Option LLVMType :=
  (elements.mapM convertType).map .struct

/-- A field of an event. -/
def convertField : Ty → Option LLVMType
  | .buffer => some bufType
  | .struct _ ts _ => makeLLVMStruct ts
  | t => convertType t

/-- The type that `CollectInfoAnalysis` makes of a type. -/
def collect : Ty → Option LLVMType
  | .struct true ts _ => (ts.mapM convertField).map .struct
  | .struct false ts _ => makeLLVMStruct ts
  | t => convertType t

/-! ## Agreement -/

variable (t : Ty)

/-- The sizes in bytes that are defined. -/
def bytesOf : List Nat :=
  (calcSizeEmitc t).toList ++ ((collect t).map calcSizeNetronome).toList

/-- All sizes that are defined are the same. -/
structure SizesAgree : Prop where
  bytes : ∀ m ∈ bytesOf t, ∀ n ∈ bytesOf t, m = n
  bits : getValSize t = getEP2TypeSize t
  same : ∀ n ∈ bytesOf t, ∀ total, getEP2TypeSize t = some total → 8 * n = total

/-- A struct ends with its last field. -/
def EndsWithLastField : Prop :=
  ∀ isEvent elements name index total, t = .struct isEvent elements name →
    index + 1 = elements.length → getStructTotalSize elements = some total →
      ∃ offset size, getStructValOffset elements index = some offset ∧
        getStructValSize elements index = some size ∧ offset + size = total

mutual

/-- The widths of all integers at any depth are whole bytes. -/
def WholeBytes : Ty → Prop
  | .int w => 8 ∣ w
  | .struct _ ts _ => WholeBytesList ts
  | _ => True

def WholeBytesList : List Ty → Prop
  | [] => True
  | t :: ts => WholeBytes t ∧ WholeBytesList ts

end

variable {ts : List Ty} {conv : Ty → Option LLVMType} {l : LLVMType} {n : Nat}

mutual

/-- Both sizes in bits are the same. -/
theorem getValSize_eq : ∀ t, getValSize t = getEP2TypeSize t
  | .int _ => rfl
  | .struct _ ts _ => by
    rw [getValSize, getEP2TypeSize, addSizes_eq]
    simp
  | .any | .none | .f64Tensor | .buffer | .bufferPool | .table _ _ _ | .atom | .context
  | .contextRef _ | .port _ _ | .opaqueType _ => rfl

theorem addSizes_eq : ∀ total ts, addSizes total ts = (sumFields ts).map (total + ·)
  | total, [] => rfl
  | total, t :: ts => by
    rw [addSizes, sumFields, getValSize_eq t]
    simp [addSizes_eq _ ts, Function.comp_def, Nat.add_assoc, Option.map_bind]

end

theorem sumFields_append {us : List Ty} : sumFields (ts ++ us) =
      (sumFields ts).bind fun m => (sumFields us).map (m + ·) := by
  induction ts with
  | nil => simp [sumFields]
  | cons t ts ih =>
    rw [cons_append, sumFields, sumFields, ih]
    cases getEP2TypeSize t <;> cases sumFields ts <;> cases sumFields us <;> simp [Nat.add_assoc]

theorem endsWithLastField : EndsWithLastField t := by
  rintro isEvent elements name index total rfl hidx htotal
  obtain rfl | ⟨front, last, rfl⟩ := eq_nil_or_concat elements
  · cases hidx
  obtain rfl : index = front.length := by simpa using hidx
  simp only [getStructTotalSize, addSizes_eq, concat_eq_append, Nat.zero_add, Option.map_id',
    sumFields_append] at htotal
  obtain ⟨offset, hoff, htotal⟩ := bind_eq_some_iff.mp htotal
  obtain ⟨size, hsize, rfl⟩ := map_eq_some_iff.mp htotal
  refine ⟨offset, size, by simpa [getStructValOffset, addSizes_eq] using hoff, ?_, rfl⟩
  cases hlast : getEP2TypeSize last with
  | none => simp [sumFields, hlast] at hsize
  | some n => simpa [getStructValSize, getValSize_eq, sumFields, hlast] using hsize

/-- Bytes never exceed the bits, and are all of them only if no width is cut off. -/
def Rounds (n total : Nat) (whole : Prop) : Prop :=
  8 * n ≤ total ∧ (8 * n = total ↔ whole)

/-- A conversion of the fields that rounds each of them rounds the struct. -/
theorem rounds_struct {total : Nat} (hconv : ∀ t l n, conv t = some l → getEP2TypeSize t = some n →
      Rounds (calcSizeNetronome l) n (WholeBytes t)) (hl : (ts.mapM conv).map .struct = some l)
    (htotal : sumFields ts = some total) :
    Rounds (calcSizeNetronome l) total (WholeBytesList ts) := by
  obtain ⟨ls, hls, rfl⟩ := map_eq_some_iff.mp hl
  clear hl
  rw [calcSizeNetronome]
  induction ts generalizing ls total with
  | nil =>
    cases hls
    cases htotal
    exact ⟨Nat.le_refl _, by simp [calcSizesNetronome, WholeBytesList]⟩
  | cons t ts ih =>
    rw [mapM_cons] at hls
    obtain ⟨l, hl, hls⟩ := bind_eq_some_iff.mp hls
    obtain ⟨rest, hrest, heq⟩ := bind_eq_some_iff.mp hls
    cases heq
    obtain ⟨n, hn, htotal⟩ := bind_eq_some_iff.mp htotal
    obtain ⟨m, hm, rfl⟩ := map_eq_some_iff.mp htotal
    obtain ⟨hhead, hwhole⟩ := hconv t l n hl hn
    obtain ⟨htail, hrestWhole⟩ := ih hm rest hrest
    rw [Rounds, calcSizesNetronome, WholeBytesList, ← hwhole, ← hrestWhole]
    omega

theorem rounds_convertType (l : LLVMType) (n : Nat) (hl : convertType t = some l)
    (hn : getEP2TypeSize t = some n) : Rounds (calcSizeNetronome l) n (WholeBytes t) := by
  cases t <;> cases hl
  cases hn
  rw [Rounds, calcSizeNetronome, WholeBytes]
  omega

theorem rounds_convertField (l : LLVMType) (n : Nat) (hl : convertField t = some l)
    (hn : getEP2TypeSize t = some n) : Rounds (calcSizeNetronome l) n (WholeBytes t) := by
  cases t with
  | struct => exact rounds_struct rounds_convertType hl hn
  | buffer => cases hn
  | int w => exact rounds_convertType (.int w) l n hl hn
  | _ => cases hl

theorem rounds_collect {t : Ty} (hl : collect t = some l) (hn : getEP2TypeSize t = some n) :
    Rounds (calcSizeNetronome l) n (WholeBytes t) := by
  cases t with
  | struct isEvent =>
    cases isEvent with
    | false => exact rounds_struct rounds_convertType hl hn
    | true => exact rounds_struct rounds_convertField hl hn
  | int w => exact rounds_convertType (.int w) l n hl hn
  | _ => cases hl

/-- Fields that `LowerEmitc` knows are converted one to one. -/
theorem mapM_of_elementBytes (hconv : ∀ w, conv (.int w) = some (.int w)) {ns : List Nat}
    (hns : ts.mapM elementBytes = some ns) :
    ((ts.mapM conv).map LLVMType.struct).map calcSizeNetronome = some ns.sum := by
  induction ts generalizing ns with
  | nil =>
    cases hns
    rfl
  | cons t ts ih =>
    rw [mapM_cons] at hns
    obtain ⟨n, hn, hns⟩ := bind_eq_some_iff.mp hns
    obtain ⟨rest, hrest, heq⟩ := bind_eq_some_iff.mp hns
    cases heq
    cases t <;> cases hn
    have htail := ih hrest
    cases hls : ts.mapM conv with
    | none => simp [hls] at htail
    | some ls => simp_all [mapM_cons, calcSizeNetronome, calcSizesNetronome]

/-- Each size in bytes is the one of the converted type. -/
theorem collect_of_mem_bytesOf {t : Ty} (hn : n ∈ bytesOf t) :
    (collect t).map calcSizeNetronome = some n := by
  rcases mem_append.mp hn with hn | hn
  · have hn := mem_toList.mp hn
    cases t with
    | int w => exact hn
    | struct isEvent ts name =>
      obtain ⟨ns, hns, rfl⟩ := map_eq_some_iff.mp hn
      cases isEvent <;> exact mapM_of_elementBytes (fun _ => rfl) hns
    | _ => cases hn
  · exact mem_toList.mp hn

/-- The sizes agree if and only if all widths are whole bytes, for a type that has a size in bytes
and one in bits. -/
theorem sizesAgree_iff (t : Ty) : SizesAgree t ∧ EndsWithLastField t ↔
      (bytesOf t ≠ [] → ∀ total, getEP2TypeSize t = some total → WholeBytes t) := by
  rw [and_iff_left (endsWithLastField t)]
  have hrounds : ∀ n ∈ bytesOf t, ∀ total, getEP2TypeSize t = some total →
      (8 * n = total ↔ WholeBytes t) := by
    intro n hn total htotal
    obtain ⟨l, hl, rfl⟩ := map_eq_some_iff.mp (collect_of_mem_bytesOf hn)
    exact (rounds_collect hl htotal).2
  constructor
  · intro h hdefined total htotal
    obtain ⟨n, hn⟩ := exists_mem_of_ne_nil _ hdefined
    exact (hrounds n hn total htotal).mp (h.same n hn total htotal)
  · intro h
    refine ⟨fun m hm n hn => ?_, getValSize_eq t, fun n hn total htotal => ?_⟩
    · have heq := (collect_of_mem_bytesOf hm).symm.trans (collect_of_mem_bytesOf hn)
      exact Option.some.inj heq
    · exact (hrounds n hn total htotal).mpr (h (ne_nil_of_mem hn) total htotal)

/-- Twelve bits are one byte for the C back ends. -/
theorem vlan_sizes : ¬ SizesAgree (.struct false [.int 4, .int 12] "vlan_t") := by
  intro h
  have hsame := h.same 1 (by decide) 16 (by decide)
  cases hsame

end Alkali.TypeSizes
