import Mathlib

open List

namespace Rag3db.Storage.UndoBuffer

def littleEndian : Nat → Nat → List UInt8
  | 0, _ => []
  | width + 1, value => UInt8.ofNat value :: littleEndian width (value / 256)

def ofLittleEndian (bytes : List UInt8) : Nat := bytes.foldr (fun byte value => byte.toNat + 256 * value) 0

@[simp] theorem length_littleEndian (width value : Nat) : (littleEndian width value).length = width := by
  induction width generalizing value with
  | zero => rfl
  | succ width ih => simp [littleEndian, ih]

theorem ofLittleEndian_littleEndian {width value : Nat} (h : value < 256 ^ width) :
    ofLittleEndian (littleEndian width value) = value := by
  induction width generalizing value with
  | zero => exact (Nat.lt_one_iff.mp h).symm
  | succ width ih =>
    have hrest : ofLittleEndian (littleEndian width (value / 256)) = value / 256 :=
      ih (Nat.div_lt_of_lt_mul (by rwa [Nat.pow_succ'] at h))
    show (UInt8.ofNat value).toNat + 256 * ofLittleEndian (littleEndian width (value / 256)) = value
    rw [hrest]
    exact Nat.mod_add_div value 256

inductive UndoRecordType
  | catalogEntry | sequenceEntry | updateInfo | insertInfo | deleteInfo | addColumn | indexChange

namespace UndoRecordType

def code : UndoRecordType → Nat
  | catalogEntry => 0
  | sequenceEntry => 1
  | updateInfo => 6
  | insertInfo => 7
  | deleteInfo => 8
  | addColumn => 9
  | indexChange => 10

def ofCode : Nat → Option UndoRecordType
  | 0 => some catalogEntry
  | 1 => some sequenceEntry
  | 6 => some updateInfo
  | 7 => some insertInfo
  | 8 => some deleteInfo
  | 9 => some addColumn
  | 10 => some indexChange
  | _ => none

/-- The size of the structure that follows the header. -/
def recordSize : UndoRecordType → Nat
  | addColumn => 8
  | catalogEntry => 16
  | sequenceEntry | indexChange => 24
  | updateInfo | insertInfo | deleteInfo => 32

theorem ofCode_code (t : UndoRecordType) : ofCode t.code = some t := by cases t <;> rfl

theorem code_lt (t : UndoRecordType) : t.code < 256 ^ 2 := by cases t <;> decide

theorem recordSize_lt (t : UndoRecordType) : t.recordSize < 256 ^ 4 := by cases t <;> decide

end UndoRecordType

/-- A record, with what the padding in its header holds. -/
structure Record where
  recordType : UndoRecordType
  padding : UInt8 × UInt8
  bytes : List UInt8
  length_bytes : bytes.length = recordType.recordSize

def headerSize : Nat := 8

/-- A header and a record as they lie in memory. -/
def Record.encode (r : Record) : List UInt8 :=
  littleEndian 2 r.recordType.code ++ [r.padding.1, r.padding.2] ++ littleEndian 4 r.recordType.recordSize ++ r.bytes

/-- A buffer with the bytes up to its current position. -/
structure UndoMemoryBuffer where
  data : List UInt8
  capacity : Nat

def UndoMemoryBuffer.canFit (b : UndoMemoryBuffer) (size : Nat) : Bool := b.data.length + size ≤ b.capacity

def initCapacity : Nat := 4096

def growCapacity (size capacity : Nat) : Nat :=
  if 0 < capacity ∧ capacity < size then growCapacity size (2 * capacity) else capacity
termination_by size - capacity

def createUndoRecord (size : Nat) (memoryBuffers : List UndoMemoryBuffer) : List UndoMemoryBuffer :=
  if memoryBuffers.getLast?.any (·.canFit size) then memoryBuffers
  else memoryBuffers ++ [⟨[], growCapacity size initCapacity⟩]

def create (memoryBuffers : List UndoMemoryBuffer) (r : Record) : List UndoMemoryBuffer :=
  (createUndoRecord (headerSize + r.recordType.recordSize) memoryBuffers).modifyLast
    fun b => { b with data := b.data ++ r.encode }

/-- The entries up to the end; what is no type of a record ends the program. -/
def entries (data : List UInt8) : Option (List (UndoRecordType × List UInt8)) :=
  if _ : data = [] then some []
  else (UndoRecordType.ofCode (ofLittleEndian (data.take 2))).bind fun recordType =>
    (entries ((data.drop headerSize).drop (ofLittleEndian ((data.drop 4).take 4)))).map
      ((recordType, (data.drop headerSize).take recordType.recordSize) :: ·)
termination_by data.length
decreasing_by
  have := length_pos_iff.mpr ‹_›
  simp only [length_drop, headerSize]
  omega

variable {σ : Type}

def commit (commitRecord : UndoRecordType → List UInt8 → σ → σ) (memoryBuffers : List UndoMemoryBuffer) (s : σ) :
    Option σ :=
  memoryBuffers.foldlM (fun s b => (entries b.data).map (·.foldl (fun s entry => commitRecord entry.1 entry.2 s) s)) s

def rollback (rollbackRecord : UndoRecordType → List UInt8 → σ → σ) (memoryBuffers : List UndoMemoryBuffer) (s : σ) :
    Option σ :=
  memoryBuffers.foldrM (fun b s => (entries b.data).map (·.foldr (fun entry s => rollbackRecord entry.1 entry.2 s) s)) s

theorem entries_encode (r : Record) (rest : List UInt8) :
    entries (r.encode ++ rest) = (entries rest).map ((r.recordType, r.bytes) :: ·) := by
  obtain ⟨recordType, padding, bytes, hbytes⟩ := r
  have hsplit : ∀ a b c d : List UInt8, a.length = 2 → b.length = 2 → c.length = 4 →
      ((a ++ b ++ c ++ d).take 2 = a ∧ ((a ++ b ++ c ++ d).drop 4).take 4 = c) ∧
        (a ++ b ++ c ++ d).drop headerSize = d := by
    intro a b c d ha hb hc
    have ha' : a.drop 8 = [] := drop_of_length_le (by omega)
    simp [headerSize, drop_append, take_append, ha, hb, hc, ha']
  obtain ⟨⟨hcode, hsize⟩, hrest⟩ := hsplit (littleEndian 2 recordType.code) [padding.1, padding.2]
    (littleEndian 4 recordType.recordSize) (bytes ++ rest) (by simp) rfl (by simp)
  rw [← append_assoc] at hcode hsize hrest
  rw [entries, dif_neg (by simp [Record.encode])]
  simp only [Record.encode, hcode, hsize, hrest]
  rw [ofLittleEndian_littleEndian recordType.code_lt, ofLittleEndian_littleEndian recordType.recordSize_lt,
    UndoRecordType.ofCode_code, Option.bind_some, ← hbytes, drop_left, take_left]

theorem entries_encodeAll (records : List Record) :
    entries (records.flatMap Record.encode) = some (records.map fun r => (r.recordType, r.bytes)) := by
  induction records with
  | nil => rw [entries]; rfl
  | cons r records ih => rw [flatMap_cons, entries_encode, ih]; rfl

/-- The buffers hold the records, in the order of their creation. -/
def Holds (memoryBuffers : List UndoMemoryBuffer) (records : List Record) : Prop :=
  ∃ parts : List (List Record), memoryBuffers.map (·.data) = parts.map (·.flatMap Record.encode) ∧
    parts.flatten = records

variable {memoryBuffers : List UndoMemoryBuffer} {records : List Record}

theorem Holds.create (h : Holds memoryBuffers records) (r : Record) :
    Holds (create memoryBuffers r) (records ++ [r]) := by
  obtain ⟨parts, hparts, rfl⟩ := h
  unfold UndoBuffer.create createUndoRecord
  split_ifs with hfit
  · -- behind the records of the last buffer
    obtain ⟨b, hlast, -⟩ := (Option.any_eq_true _ _).mp hfit
    obtain ⟨init, rfl⟩ := getLast?_eq_some_iff.mp hlast
    rw [map_append] at hparts
    obtain ⟨parts, last, rfl, hinit, hb⟩ := map_eq_append_iff.mp hparts.symm
    obtain ⟨part, rfl, hpart⟩ := map_eq_singleton_iff.mp hb
    rw [modifyLast_concat]
    exact ⟨parts ++ [part ++ [r]], by simp [hinit, ← hpart], by simp⟩
  · -- at the start of a new one
    rw [modifyLast_concat]
    exact ⟨parts ++ [[r]], by simp [hparts], by simp⟩

theorem holds_create (records : List Record) : Holds (records.foldl create []) records := by
  induction records using reverseRecOn with
  | nil => exact ⟨[], rfl, rfl⟩
  | append_singleton records r ih =>
    rw [foldl_append]
    exact ih.create r

theorem Holds.commit (h : Holds memoryBuffers records) (commitRecord : UndoRecordType → List UInt8 → σ → σ) (s : σ) :
    commit commitRecord memoryBuffers s = some (records.foldl (fun s r => commitRecord r.recordType r.bytes s) s) := by
  obtain ⟨parts, hparts, rfl⟩ := h
  induction memoryBuffers generalizing parts s with
  | nil =>
    obtain rfl := map_eq_nil_iff.mp hparts.symm
    rfl
  | cons b memoryBuffers ih =>
    obtain ⟨part, parts, rfl, hb, hrest⟩ := map_eq_cons_iff.mp hparts.symm
    rw [UndoBuffer.commit, foldlM_cons, show b.data = _ from hb.symm, entries_encodeAll, flatten_cons, foldl_append]
    simp only [Option.map_some, foldl_map]
    exact ih _ parts hrest.symm

theorem Holds.rollback (h : Holds memoryBuffers records) (rollbackRecord : UndoRecordType → List UInt8 → σ → σ)
    (s : σ) : rollback rollbackRecord memoryBuffers s =
      some (records.reverse.foldl (fun s r => rollbackRecord r.recordType r.bytes s) s) := by
  obtain ⟨parts, hparts, rfl⟩ := h
  induction memoryBuffers generalizing parts with
  | nil =>
    obtain rfl := map_eq_nil_iff.mp hparts.symm
    rfl
  | cons b memoryBuffers ih =>
    obtain ⟨part, parts, rfl, hb, hrest⟩ := map_eq_cons_iff.mp hparts.symm
    rw [UndoBuffer.rollback, foldrM_cons]
    have hlater := ih parts hrest.symm
    unfold UndoBuffer.rollback at hlater
    rw [hlater]
    simp [show b.data = _ from hb.symm, entries_encodeAll, foldr_map]

/-- A commit passes over the records once in the order of their creation, a
rollback once in the opposite order. -/
theorem commit_rollback_order (records : List Record)
    (commitRecord rollbackRecord : UndoRecordType → List UInt8 → σ → σ) (s : σ) :
    commit commitRecord (records.foldl create []) s =
        some (records.foldl (fun s r => commitRecord r.recordType r.bytes s) s) ∧
      rollback rollbackRecord (records.foldl create []) s =
        some (records.reverse.foldl (fun s r => rollbackRecord r.recordType r.bytes s) s) :=
  ⟨(holds_create records).commit commitRecord s, (holds_create records).rollback rollbackRecord s⟩

end Rag3db.Storage.UndoBuffer
