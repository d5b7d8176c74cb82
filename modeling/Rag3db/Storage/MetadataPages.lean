import Rag3db.Storage.FreeSpace

open List

namespace Rag3db.Storage

def pageSize : Nat := 4096

/-- The number of pages and how far the last is filled. -/
structure InMemFileWriter where
  pages : Nat := 0
  pageOffset : Nat := 0

namespace InMemFileWriter

variable (w : InMemFileWriter) (size remaining : Nat)

/-- One turn of the loop of `write`, and the bytes that remain. Where a new buffer
is needed, the last page is filled first. -/
def copy : InMemFileWriter × Nat :=
  if w.pages = 0 ∨ pageSize < w.pageOffset + size then
    let remaining := if w.pages = 0 then remaining else remaining - min size (pageSize - w.pageOffset)
    (⟨w.pages + 1, min remaining pageSize⟩, remaining - min remaining pageSize)
  else
    let toCopy := min remaining (pageSize - w.pageOffset)
    (⟨w.pages, w.pageOffset + toCopy⟩, remaining - toCopy)

/-- The loop; each turn copies a byte or more. -/
def copies : Nat → InMemFileWriter → Nat → InMemFileWriter
  | 0, w, _ => w
  | fuel + 1, w, remaining =>
    if 0 < remaining then copies fuel (w.copy size remaining).1 (w.copy size remaining).2 else w

def write : InMemFileWriter := copies size size w size

def getSize : Nat := pageSize * (w.pages - 1) + w.pageOffset

end InMemFileWriter

structure SerializePagesUsedTracker where
  numPagesUsed : Nat := 0
  numBytesUsedInPage : Nat := 0

def SerializePagesUsedTracker.updatePagesUsed (t : SerializePagesUsedTracker) (numBytesToAdd : Nat) :
    SerializePagesUsedTracker :=
  if pageSize < t.numBytesUsedInPage + numBytesToAdd then ⟨t.numPagesUsed + 1, numBytesToAdd⟩
  else { t with numBytesUsedInPage := t.numBytesUsedInPage + numBytesToAdd }

/-- A value of so many bytes, or a text for debugging. -/
inductive SerializedItem
  | value (size : Nat)
  | debuggingInfo (text : String)

namespace SerializedItem

def tracked : SerializedItem → Nat
  | value size => size
  | debuggingInfo text => 8 + text.utf8ByteSize

/-- The writes of a `Serializer`; texts are written in a debugging build only. -/
def writes (debugging : Bool) : SerializedItem → List Nat
  | value size => [size]
  | debuggingInfo text => if debugging then [8, text.utf8ByteSize] else []

end SerializedItem

namespace FreeSpaceManager

variable (fsm : FreeSpaceManager)

/-- The counter has 64 bits, an index or a number of pages 32. -/
def serializeInternal : List SerializedItem :=
  [.debuggingInfo "page_manager", .debuggingInfo "numEntries", .value 8, .debuggingInfo "entries"] ++
    fsm.serialize.tail.map fun _ => .value 4

def getMaxNumPagesForSerialization : Nat :=
  let ser := (fsm.serializeInternal.map SerializedItem.tracked).foldl SerializePagesUsedTracker.updatePagesUsed {}
  ser.numPagesUsed + if 0 < ser.numBytesUsedInPage then 1 else 0

def writeTo (debugging : Bool) (w : InMemFileWriter) : InMemFileWriter :=
  (fsm.serializeInternal.flatMap (SerializedItem.writes debugging)).foldl InMemFileWriter.write w

end FreeSpaceManager

/-- The pages allocated for the metadata, and the writer that holds them. -/
def serializeMetadata (debugging : Bool) (m : PageManager) (room : Nat) (metadataWriter : InMemFileWriter) :
    Nat × InMemFileWriter :=
  let numPages := metadataWriter.pages + m.freeSpaceManager.getMaxNumPagesForSerialization
  (numPages, (m.allocatePageRange numPages room).2.freeSpaceManager.writeTo debugging metadataWriter)

open InMemFileWriter SerializedItem SerializePagesUsedTracker FreeSpaceManager

variable {fsm fsm' : FreeSpaceManager} {w : InMemFileWriter} {size n k : Nat}

namespace InMemFileWriter

/-- A page is taken only for a byte to write. -/
def Filled (w : InMemFileWriter) : Prop := w.pageOffset ≤ pageSize ∧ (0 < w.pages ↔ 0 < w.pageOffset)

theorem copy_spec (h : Filled w) {remaining : Nat} (hpos : 0 < remaining) (hsize : remaining ≤ size)
    (hroom : remaining = size ∨ w.pageOffset = pageSize ∨ remaining = 0) :
    Filled (w.copy size remaining).1 ∧ (w.copy size remaining).2 < remaining ∧
      ((w.copy size remaining).1.pageOffset = pageSize ∨ (w.copy size remaining).2 = 0) ∧
      (w.copy size remaining).1.getSize + (w.copy size remaining).2 = w.getSize + remaining := by
  unfold copy Filled getSize at *
  split_ifs <;> simp only [pageSize] at * <;> omega

theorem copies_spec (h : Filled w) {fuel remaining : Nat} (hle : remaining ≤ fuel) (hsize : remaining ≤ size)
    (hroom : remaining = size ∨ w.pageOffset = pageSize ∨ remaining = 0) :
    Filled (copies size fuel w remaining) ∧ (copies size fuel w remaining).getSize = w.getSize + remaining := by
  induction fuel generalizing w remaining with
  | zero => exact ⟨h, by simp [copies, Nat.le_zero.mp hle]⟩
  | succ fuel ih =>
    unfold copies
    split_ifs with hpos
    · obtain ⟨hfilled, hlt, hroom', heq⟩ := copy_spec h hpos hsize hroom
      obtain ⟨hend, hrest⟩ := ih hfilled (by omega) (by omega) (.inr hroom')
      exact ⟨hend, hrest.trans heq⟩
    · exact ⟨h, by omega⟩

theorem writes_spec (h : Filled w) (sizes : List Nat) :
    Filled (sizes.foldl write w) ∧ (sizes.foldl write w).getSize = w.getSize + sizes.sum := by
  induction sizes generalizing w with
  | nil => exact ⟨h, rfl⟩
  | cons size sizes ih =>
    obtain ⟨hfilled, hsize⟩ : Filled (w.write size) ∧ (w.write size).getSize = w.getSize + size :=
      copies_spec h le_rfl le_rfl (.inl rfl)
    obtain ⟨hend, hrest⟩ := ih hfilled
    exact ⟨hend, by rw [foldl_cons, hrest, hsize, sum_cons, Nat.add_assoc]⟩

theorem Filled.pages_le_iff (h : Filled w) : w.pages ≤ k ↔ w.getSize ≤ pageSize * k := by
  simp only [Filled, getSize, pageSize] at *
  omega

end InMemFileWriter

namespace FreeSpaceManager

theorem length_serialize : fsm.serialize.tail.length = 2 * fsm.released.length := by
  have hlength : ∀ L, (serializeUncheckpointedEntries L).length = 2 * L.length := fun L => by
    simp [serializeUncheckpointedEntries, Nat.mul_comm]
  rw [serialize, tail_cons, serializeCheckpointedEntries_eq, length_append, hlength, hlength, released, entries,
    length_append, Nat.mul_add]

theorem serializeInternal_sublist (h : fsm'.released.length ≤ fsm.released.length) :
    fsm'.serializeInternal.Sublist fsm.serializeInternal := by
  refine Sublist.append_left ?_ _
  rw [map_const', map_const', replicate_sublist_replicate, length_serialize, length_serialize]
  omega

theorem sum_writes_le (debugging : Bool) : (fsm.serializeInternal.flatMap (writes debugging)).sum ≤
      (fsm.serializeInternal.map tracked).sum := by
  generalize fsm.serializeInternal = items
  induction items with
  | nil => exact le_rfl
  | cons item items ih =>
    rw [flatMap_cons, sum_append]
    refine Nat.add_le_add ?_ ih
    cases item with
    | value size => simp [writes, tracked]
    | debuggingInfo text => cases debugging <;> simp [writes, tracked]

theorem updatesPagesUsed_spec {t : SerializePagesUsedTracker} {sizes : List Nat} (hsizes : ∀ n ∈ sizes, n ≤ pageSize)
    (ht : t.numBytesUsedInPage ≤ pageSize) :
    let t' := sizes.foldl updatePagesUsed t
    t'.numBytesUsedInPage ≤ pageSize ∧ pageSize * t.numPagesUsed + t.numBytesUsedInPage + sizes.sum ≤
      pageSize * t'.numPagesUsed + t'.numBytesUsedInPage := by
  induction sizes generalizing t with
  | nil => exact ⟨ht, le_rfl⟩
  | cons n sizes ih =>
    obtain ⟨hn, hsizes⟩ := forall_mem_cons.mp hsizes
    have hstep : (t.updatePagesUsed n).numBytesUsedInPage ≤ pageSize ∧
        pageSize * t.numPagesUsed + t.numBytesUsedInPage + n ≤
          pageSize * (t.updatePagesUsed n).numPagesUsed + (t.updatePagesUsed n).numBytesUsedInPage := by
      unfold updatePagesUsed
      split_ifs <;> simp only [pageSize] at * <;> omega
    obtain ⟨hend, hrest⟩ := ih hsizes hstep.1
    rw [sum_cons, foldl_cons]
    omega

theorem sum_le_getMaxNumPagesForSerialization :
    (fsm.serializeInternal.map tracked).sum ≤ pageSize * fsm.getMaxNumPagesForSerialization := by
  have hsizes : ∀ n ∈ fsm.serializeInternal.map tracked, n ≤ pageSize := by
    simp [serializeInternal, tracked, pageSize]
    decide
  obtain ⟨hend, hsum⟩ := updatesPagesUsed_spec (t := {}) hsizes (Nat.zero_le _)
  unfold getMaxNumPagesForSerialization
  simp only [pageSize] at *
  split_ifs <;> omega

theorem length_insertEntry_le (entry : PageRange) (L : List PageRange) :
    (insertEntry entry L).length ≤ L.length + 1 := by
  induction L with
  | nil => simp [insertEntry]
  | cons e es ih =>
    unfold insertEntry
    split_ifs <;> simp [ih]

theorem length_addFreePages_le (entry : PageRange) :
    (fsm.addFreePages entry).released.length ≤ fsm.released.length + 1 := by
  have hmodify : ∀ (lists : List (List PageRange)) level,
      (lists.modify level (insertEntry entry)).flatten.length ≤ lists.flatten.length + 1 := by
    intro lists
    induction lists with
    | nil => simp
    | cons L lists ih =>
      intro level
      cases level with
      | zero =>
        have := length_insertEntry_le entry L
        simp only [modify_zero_cons, flatten_cons, length_append]
        omega
      | succ level =>
        have := ih level
        simp only [modify_succ_cons, flatten_cons, length_append]
        omega
  have := hmodify (fsm.resized (getLevel entry.numPages)) (getLevel entry.numPages)
  rw [show (fsm.resized (getLevel entry.numPages)).flatten = fsm.entries by simp [resized, entries]] at this
  simp only [released, length_append, addFreePages, entries] at this ⊢
  omega

theorem length_popFreePages_le {r : PageRange} (h : fsm.popFreePages n = some (r, fsm')) :
    fsm'.released.length ≤ fsm.released.length := by
  unfold popFreePages at h
  split_ifs at h
  obtain ⟨⟨level, entry⟩, hbound, hsplit⟩ := Option.map_eq_some_iff.mp h
  obtain ⟨L, hL, he, -⟩ := lowerBound_eq_some hbound
  have hperm : fsm.entries.Perm (entry :: (fsm.without level entry).entries) :=
    (flatten_modify_perm (a := [entry]) (b := []) hL (perm_cons_erase he).symm).symm
  have hlength : fsm.released.length = (fsm.without level entry).released.length + 1 :=
    (hperm.append_right fsm.uncheckpointedFreePageRanges).length_eq
  obtain ⟨-, rfl⟩ := Prod.mk.inj hsplit
  rw [hlength]
  split_ifs
  · exact length_addFreePages_le _
  · exact Nat.le_succ _

theorem pages_writeTo_le {debugging : Bool} (h : fsm'.released.length ≤ fsm.released.length) (hw : Filled w) :
    (fsm'.writeTo debugging w).pages ≤ w.pages + fsm.getMaxNumPagesForSerialization := by
  obtain ⟨hend, hsize⟩ := writes_spec hw (fsm'.serializeInternal.flatMap (writes debugging))
  refine hend.pages_le_iff.mpr (hsize.trans_le ?_)
  rw [Nat.mul_add]
  refine Nat.add_le_add (hw.pages_le_iff.mp le_rfl) ?_
  calc (fsm'.serializeInternal.flatMap (writes debugging)).sum
    _ ≤ (fsm'.serializeInternal.map tracked).sum := sum_writes_le debugging
    _ ≤ (fsm.serializeInternal.map tracked).sum :=
      ((serializeInternal_sublist h).map _).sum_le_sum fun _ _ => Nat.zero_le _
    _ ≤ pageSize * fsm.getMaxNumPagesForSerialization := sum_le_getMaxNumPagesForSerialization

end FreeSpaceManager

theorem length_allocatePageRange_le (m : PageManager) (numPages room : Nat) :
    (m.allocatePageRange numPages room).2.freeSpaceManager.released.length ≤ m.freeSpaceManager.released.length := by
  unfold PageManager.allocatePageRange
  cases h : m.freeSpaceManager.popFreePages numPages with
  | some popped => exact length_popFreePages_le h
  | none =>
    dsimp only [PageManager.addNewPages]
    split_ifs <;> exact le_rfl

/-- The pages reserved for the free lists suffice for them, however the
reservation changes them, and the pages allocated for all metadata suffice,
whatever has been written before the free lists. -/
theorem serializeMetadata_reserved (debugging : Bool) (m : PageManager) (room : Nat) (sizes : List Nat) :
    let metadataWriter := sizes.foldl write {}
    let pagesForPageManager := m.freeSpaceManager.getMaxNumPagesForSerialization
    let numPages := metadataWriter.pages + pagesForPageManager
    ((m.allocatePageRange numPages room).2.freeSpaceManager.writeTo debugging {}).pages ≤ pagesForPageManager ∧
      (serializeMetadata debugging m room metadataWriter).1 = numPages ∧
      (serializeMetadata debugging m room metadataWriter).2.pages ≤ numPages := by
  intro metadataWriter pagesForPageManager numPages
  have hle := length_allocatePageRange_le m numPages room
  have hempty : Filled {} := by simp [Filled]
  exact ⟨(pages_writeTo_le hle hempty).trans_eq (Nat.zero_add _), rfl,
    pages_writeTo_le hle (writes_spec hempty sizes).1⟩

end Rag3db.Storage
