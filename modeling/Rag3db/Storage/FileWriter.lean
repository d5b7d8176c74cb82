import Rag3db.Storage.MetadataPages

open List

namespace Rag3db.Storage

open InMemFileWriter (Filled getSize copy_spec)

/-- A buffer. A new one holds any bytes, for it is not set to zero. -/
abbrev Page := Fin pageSize → UInt8

def Page.memcpy (offset : Nat) (data : List UInt8) (p : Page) : Page := fun i =>
  if offset ≤ i then data.getD (i - offset) (p i) else p i

/-- An `InMemFileWriter` with its bytes, the last page first. -/
structure FilePages where
  pages : List Page := []
  pageOffset : Nat := 0

namespace FilePages

variable (fresh : Nat → Page) (size : Nat) (w : FilePages) (data : List UInt8)

/-- A copy of `n` bytes into the last page, if there is one. -/
def copied (n : Nat) : List Page := w.pages.modifyHead (Page.memcpy w.pageOffset (data.take n))

/-- Where a new buffer is needed, the last page is filled first. -/
def takeBuffer : FilePages × List UInt8 :=
  let toCopy := if w.pages.length = 0 then 0 else min size (pageSize - w.pageOffset)
  (⟨fresh w.pages.length :: w.copied data toCopy, 0⟩, data.drop toCopy)

def fill : FilePages × List UInt8 :=
  let toCopy := min data.length (pageSize - w.pageOffset)
  (⟨w.copied data toCopy, w.pageOffset + toCopy⟩, data.drop toCopy)

/-- One turn of the loop of `write`, and the bytes that remain. -/
def copy : FilePages × List UInt8 :=
  if w.pages.length = 0 ∨ pageSize < w.pageOffset + size then
    fill (w.takeBuffer fresh size data).1 (w.takeBuffer fresh size data).2
  else w.fill data

def copies : Nat → FilePages → List UInt8 → FilePages
  | 0, w, _ => w
  | fuel + 1, w, data =>
    if 0 < data.length then copies fuel (w.copy fresh size data).1 (w.copy fresh size data).2 else w

def write : FilePages := copies fresh data.length data.length w data

/-- What `flush` hands to a writer: whole pages, and of the last one up to the offset. -/
def flush : List UInt8 :=
  match w.pages with
  | [] => []
  | last :: before => before.reverse.flatMap ofFn ++ (ofFn last).take w.pageOffset

/-- A loop of `flush` to a range of pages, over the `n` indices from `i` on. -/
def writePages (startPageIdx : Nat) (page : Nat → Page) (i n : Nat) (file : Nat → Page) : Nat → Page :=
  (range' i n).foldl (fun file i => Function.update file (startPageIdx + i) (page i)) file

/-- `flush` to a range of pages: those of the writer, and zeroes on the pages too many. -/
def flushRange (startPageIdx numPages : Nat) (file : Nat → Page) : Nat → Page :=
  writePages startPageIdx (fun _ => 0) w.pages.length (numPages - w.pages.length)
    (writePages startPageIdx (w.pages.reverse.getD · 0) 0 w.pages.length file)

/-- What the sizes alone say of a writer. -/
def sizes : InMemFileWriter := ⟨w.pages.length, w.pageOffset⟩

variable {fresh size w data}

theorem writePages_apply (start : Nat) (page : Nat → Page) (i n : Nat) (file : Nat → Page) (p : Nat) :
    writePages start page i n file p = if start + i ≤ p ∧ p < start + i + n then page (p - start) else file p := by
  unfold writePages
  induction n generalizing i file with
  | zero => rw [if_neg (by omega)]; rfl
  | succ n ih =>
    rw [range'_succ, foldl_cons, ih, Function.update_apply]
    by_cases hp : p = start + i
    · rw [if_neg (by omega), if_pos hp, if_pos (by omega), hp, Nat.add_sub_cancel_left]
    · rw [if_neg hp]
      exact if_congr (by omega) rfl rfl

theorem flushRange_apply (start numPages : Nat) (file : Nat → Page) (p : Nat) : w.flushRange start numPages file p =
      if start + w.pages.length ≤ p ∧ p < start + w.pages.length + (numPages - w.pages.length) then 0
      else if start ≤ p ∧ p < start + w.pages.length then w.pages.reverse.getD (p - start) 0 else file p := by
  rw [flushRange, writePages_apply, writePages_apply]
  rfl

theorem sizes_copy : (w.copy fresh size data).1.sizes = (w.sizes.copy size data.length).1 ∧
    (w.copy fresh size data).2.length = (w.sizes.copy size data.length).2 := by
  unfold copy InMemFileWriter.copy sizes
  split_ifs <;> simp_all [fill, takeBuffer, copied, Nat.sub_sub]

theorem take_memcpy {offset : Nat} (p : Page) (data : List UInt8) (h : offset + data.length ≤ pageSize) :
    (ofFn (p.memcpy offset data)).take (offset + data.length) = (ofFn p).take offset ++ data := by
  refine ext_getElem (by simp; omega) fun i hi _ => ?_
  rw [length_take] at hi
  rw [getElem_take, List.getElem_ofFn, getElem_append]
  split_ifs with hoff <;> rw [length_take, length_ofFn] at hoff
  · rw [getElem_take, List.getElem_ofFn, Page.memcpy, if_neg (by simp; omega)]
  · rw [Page.memcpy, if_pos (by simp; omega), getD_eq_getElem _ _ (by simp; omega)]
    simp [show min offset pageSize = offset by omega]

theorem flush_copied (n : Nat) (hpages : w.pages ≠ []) (hn : n ≤ data.length) (h : w.pageOffset + n ≤ pageSize) :
    flush ⟨w.copied data n, w.pageOffset + n⟩ ++ data.drop n = w.flush ++ data := by
  obtain ⟨pages, offset⟩ := w
  cases pages with
  | nil => exact absurd rfl hpages
  | cons last before =>
    have htake := take_memcpy last (data.take n) (by simpa [hn] using h)
    rw [length_take_of_le hn] at htake
    simp [flush, copied, htake]

theorem flush_fill (hpages : w.pages ≠ []) (h : w.pageOffset ≤ pageSize) :
    (w.fill data).1.flush ++ (w.fill data).2 = w.flush ++ data :=
  flush_copied _ hpages (Nat.min_le_left _ _) (by omega)

theorem flush_copy (h : w.pageOffset ≤ pageSize) (hroom : data.length = size ∨ w.pageOffset = pageSize) :
    (w.copy fresh size data).1.flush ++ (w.copy fresh size data).2 = w.flush ++ data := by
  unfold copy
  split_ifs with hneed
  · rw [flush_fill (cons_ne_nil _ _) (Nat.zero_le _), takeBuffer]
    -- A new page follows a full one.
    have hpush : ∀ p pages, flush ⟨p :: pages, 0⟩ = flush ⟨pages, pageSize⟩ := fun p pages => by
      cases pages <;> simp [flush]
    rw [hpush]
    split_ifs with hpages
    · simp [length_eq_zero_iff.mp hpages, flush, copied]
    · rw [min_eq_right (show pageSize - w.pageOffset ≤ size by omega)]
      have hfull : flush ⟨w.copied data _, _⟩ ++ data.drop _ = _ :=
        flush_copied (pageSize - w.pageOffset) (by simpa using hpages) (by omega) (by omega)
      rwa [Nat.add_sub_cancel' h] at hfull
  · exact flush_fill (fun hnil => hneed (.inl (by simp [hnil]))) h

theorem flush_copies {fuel : Nat} (h : w.sizes.Filled) (hle : data.length ≤ fuel) (hsize : data.length ≤ size)
    (hroom : data.length = size ∨ w.pageOffset = pageSize ∨ data.length = 0) :
    (copies fresh size fuel w data).sizes.Filled ∧ (copies fresh size fuel w data).flush = w.flush ++ data := by
  induction fuel generalizing w data with
  | zero => exact ⟨h, by simp [copies, length_eq_zero_iff.mp (Nat.le_zero.mp hle)]⟩
  | succ fuel ih =>
    unfold copies
    split_ifs with hpos
    · obtain ⟨hfilled, hlt, hroom', -⟩ := copy_spec h hpos hsize hroom
      have hsizes : _ ∧ (w.copy fresh size data).2.length = _ := sizes_copy
      rw [← hsizes.1] at hfilled hroom'
      rw [← hsizes.2] at hlt hroom'
      rw [← flush_copy h.1 (hroom.imp_right fun h => h.resolve_right hpos.ne')]
      exact ih hfilled (by omega) (by omega) (.inr hroom')
    · exact ⟨h, by rw [length_eq_zero_iff.mp (Nat.eq_zero_of_not_pos hpos), append_nil]⟩

theorem flush_writes (h : w.sizes.Filled) (chunks : List (List UInt8)) :
    (chunks.foldl (write fresh) w).sizes.Filled ∧ (chunks.foldl (write fresh) w).flush = w.flush ++ chunks.flatten := by
  induction chunks generalizing w with
  | nil => exact ⟨h, by simp⟩
  | cons data chunks ih =>
    obtain ⟨hfilled, hflush⟩ := flush_copies h (le_refl data.length) le_rfl (.inl rfl)
    rw [flatten_cons, ← append_assoc, ← hflush]
    exact ih hfilled

theorem flush_eq_take (h : w.sizes.Filled) : w.flush.length = w.sizes.getSize ∧
    w.flush = (w.pages.reverse.flatMap ofFn).take w.sizes.getSize := by
  obtain ⟨pages, offset⟩ := w
  cases pages with
  | nil =>
    have hzero : offset = 0 := by simpa [sizes] using h.2
    simp [flush, sizes, getSize, hzero]
  | cons last before => simpa [flush, sizes, getSize, take_append, Nat.mul_comm] using h.1

/-- What is written comes out in order, on as few pages as hold it, and a larger range of
pages ends in zeroes. -/
theorem flush_concat (fresh : Nat → Page) (chunks : List (List UInt8)) (start extra : Nat) (file : Nat → Page) :
    let w := chunks.foldl (write fresh) {}
    let file' := w.flushRange start (w.pages.length + extra) file
    w.flush = chunks.flatten ∧
    w.pages.length = (chunks.flatten.length + pageSize - 1) / pageSize ∧
    (((range w.pages.length).map (file' <| start + ·)).flatMap ofFn).take chunks.flatten.length = chunks.flatten ∧
    ∀ i : Fin extra, file' (start + w.pages.length + i) = 0 := by
  intro w file'
  obtain ⟨hfilled, hflush⟩ : w.sizes.Filled ∧ w.flush = chunks.flatten :=
    flush_writes ⟨Nat.zero_le _, Iff.rfl⟩ chunks
  obtain ⟨hsize, htake⟩ := flush_eq_take hfilled
  have hpages : (range w.pages.length).map (file' <| start + ·) = w.pages.reverse := by
    refine ext_getElem (by simp) fun i hi hi' => ?_
    rw [length_map, length_range] at hi
    simp [file', flushRange_apply, hi]
  rw [hflush] at hsize htake
  refine ⟨hflush, ?_, by rw [hpages, hsize, ← htake], fun i => ?_⟩
  · simp only [Filled, getSize, sizes, pageSize] at *
    omega
  · show w.flushRange _ _ _ _ = _
    rw [flushRange_apply, if_pos (by omega)]

end FilePages

end Rag3db.Storage
