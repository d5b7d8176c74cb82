import Rag3db.Library.Transition
import Rag3db.Storage.PageManager

open List

namespace Rag3db.Storage

open PageRange

variable {r r' entry chunk : PageRange} {L L' : List PageRange} {p n : Nat} {fsm fsm' : FreeSpaceManager}

namespace PageRange

def times (r : PageRange) (p : Nat) : Nat :=
  if r.startPageIdx ≤ p ∧ p < r.startPageIdx + r.numPages then 1 else 0

def Disjoint (r r' : PageRange) : Prop := ∀ p, r.times p = 0 ∨ r'.times p = 0

def cut (r o : PageRange) : List PageRange :=
  [⟨o.startPageIdx, min o.endPageIdx r.startPageIdx - o.startPageIdx⟩,
    ⟨max o.startPageIdx r.endPageIdx, o.endPageIdx - max o.startPageIdx r.endPageIdx⟩].filter (·.numPages > 0)

theorem times_le_one (r : PageRange) (p : Nat) : r.times p ≤ 1 := by
  unfold times
  split_ifs <;> omega

theorem times_eq_zero_iff (r : PageRange) :
    r.times p = 0 ↔ ¬(r.startPageIdx ≤ p ∧ p < r.startPageIdx + r.numPages) := by
  simp [times]

end PageRange

def cover (L : List PageRange) (p : Nat) : Nat := (L.map (·.times p)).sum

section Cover

@[simp] theorem cover_nil : cover [] p = 0 := rfl

@[simp] theorem cover_cons : cover (r :: L) p = r.times p + cover L p := by simp [cover]

@[simp] theorem cover_append : cover (L ++ L') p = cover L p + cover L' p := by simp [cover]

theorem cover_perm (h : L.Perm L') : cover L p = cover L' p := (h.map _).sum_eq

theorem cover_eq_zero_iff : cover L p = 0 ↔ ∀ r ∈ L, r.times p = 0 := by
  simp [cover, List.sum_eq_zero_iff_forall_eq_nat]

theorem cover_erase (h : r ∈ L) : cover L p = r.times p + cover (L.erase r) p := by
  rw [cover_perm (perm_cons_erase h), cover_cons]

theorem times_le_cover (h : r ∈ L) : r.times p ≤ cover L p := by
  rw [cover_erase h]
  exact Nat.le_add_right _ _

theorem pairwise_disjoint_iff : L.Pairwise PageRange.Disjoint ↔ ∀ p, cover L p ≤ 1 := by
  induction L with
  | nil => simp
  | cons r L ih =>
    simp only [pairwise_cons, ih, cover_cons]
    refine ⟨fun ⟨hr, hL⟩ p => ?_, fun h => ⟨fun r' hr' p => ?_, fun p => ?_⟩⟩
    · rcases Nat.eq_zero_or_pos (r.times p) with hz | hpos
      · exact hz ▸ (Nat.zero_add _).symm ▸ hL p
      · rw [cover_eq_zero_iff.mpr fun r' hr' => (hr r' hr' p).resolve_left hpos.ne']
        exact r.times_le_one p
    · have := h p
      have := times_le_cover (p := p) hr'
      omega
    · have := h p
      omega

theorem cover_filter_pos : cover (L.filter (·.numPages > 0)) p = cover L p := by
  induction L with
  | nil => rfl
  | cons r L ih =>
    by_cases hr : r.numPages > 0
    · rw [filter_cons_of_pos (by simpa using hr), cover_cons, cover_cons, ih]
    · have hz : r.times p = 0 := by
        rw [r.times_eq_zero_iff]
        omega
      rw [filter_cons_of_neg (by simpa using hr), cover_cons, hz, ih, Nat.zero_add]

theorem cover_cut (r o : PageRange) : cover (r.cut o) p = if r.times p = 0 then o.times p else 0 := by
  have hr := r.times_eq_zero_iff (p := p)
  simp only [cut, cover_filter_pos, endPageIdx, cover_cons, cover_nil]
  split_ifs with h <;> simp only [times] <;> split_ifs <;> omega

theorem cover_flatMap_cut : cover (L.flatMap r.cut) p = if r.times p = 0 then cover L p else 0 := by
  induction L with
  | nil => simp
  | cons o L ih =>
    rw [flatMap_cons, cover_append, cover_cut, ih]
    split_ifs <;> rfl

end Cover

namespace FreeSpaceManager

def entries (fsm : FreeSpaceManager) : List PageRange := fsm.freeLists.flatten

theorem cover_insertEntry : cover (insertEntry entry L) p ≤ entry.times p + cover L p := by
  induction L with
  | nil => simp [insertEntry]
  | cons e es ih =>
    unfold insertEntry
    split_ifs <;> simp only [cover_cons] at * <;> omega

variable {lists : List (List PageRange)} {level : Nat}

theorem cover_modify {k : Nat} {f : List PageRange → List PageRange}
    (h : ∀ L, lists[level]? = some L → cover (f L) p ≤ k + cover L p) :
    cover (lists.modify level f).flatten p ≤ k + cover lists.flatten p := by
  induction lists generalizing level with
  | nil => simp
  | cons L lists ih =>
    cases level with
    | zero =>
      have := h L rfl
      simp only [modify_zero_cons, flatten_cons, cover_append]
      omega
    | succ level =>
      have := @ih level fun L' hL' => h L' (by simpa using hL')
      simp only [modify_succ_cons, flatten_cons, cover_append]
      omega

theorem cover_resized (fsm : FreeSpaceManager) (level : Nat) :
    cover (fsm.resized level).flatten p = cover fsm.entries p := by
  simp [resized, entries]

theorem cover_addFreePages (fsm : FreeSpaceManager) (entry : PageRange) (p : Nat) :
    cover (fsm.addFreePages entry).entries p ≤ entry.times p + cover fsm.entries p := by
  rw [← fsm.cover_resized (getLevel entry.numPages)]
  exact cover_modify fun L _ => cover_insertEntry

theorem flatten_modify_perm {α : Type} {lists : List (List α)} {f : List α → List α} {l : List α} {a b : List α}
    (hl : lists[level]? = some l) (hf : (a ++ f l).Perm (b ++ l)) :
    (a ++ (lists.modify level f).flatten).Perm (b ++ lists.flatten) := by
  induction lists generalizing level with
  | nil => simp at hl
  | cons l' lists ih =>
    cases level with
    | zero =>
      obtain rfl : l' = l := by simpa using hl
      simpa using hf.append_right lists.flatten
    | succ level =>
      refine (perm_append_comm_assoc a l' _).trans ?_
      exact ((ih (by simpa using hl)).append_left l').trans (perm_append_comm_assoc l' b _)

theorem cover_modify_erase (hL : lists[level]? = some L) (he : entry ∈ L) :
    cover lists.flatten p = entry.times p + cover (lists.modify level (·.erase entry)).flatten p := by
  exact (cover_perm (flatten_modify_perm (a := [entry]) (b := []) hL (List.perm_cons_erase he).symm)).symm

theorem lowerBound_eq_some (h : fsm.lowerBound n = some (level, entry)) :
    ∃ L, fsm.freeLists[level]? = some L ∧ entry ∈ L ∧ n ≤ entry.numPages := by
  obtain ⟨l, -, hl⟩ := exists_of_findSome?_eq_some h
  obtain ⟨e, he, hle⟩ := Option.map_eq_some_iff.mp hl
  obtain ⟨rfl, rfl⟩ := Prod.mk.inj hle
  have hmem := mem_of_find?_eq_some he
  have hcmp : e.entryCmp ⟨0, n⟩ = false := by simpa using find?_some he
  cases hL : fsm.freeLists[l]? with
  | none => simp [hL] at hmem
  | some L =>
    refine ⟨L, rfl, by simpa [hL] using hmem, ?_⟩
    unfold entryCmp at hcmp
    split_ifs at hcmp with heq
    · exact heq.ge
    · exact Nat.not_lt.mp (by simpa using hcmp)

theorem cover_splitPageRange (fsm : FreeSpaceManager) (p : Nat) (hn : n ≤ chunk.numPages) :
    (fsm.splitPageRange chunk n).1.times p + cover (fsm.splitPageRange chunk n).2.entries p ≤
      chunk.times p + cover fsm.entries p := by
  unfold splitPageRange
  split_ifs with hlt
  · have hadd := fsm.cover_addFreePages ⟨chunk.startPageIdx + n, chunk.numPages - n⟩ p
    simp only [times] at hadd ⊢
    split_ifs at hadd ⊢ <;> omega
  · simp only [times]
    split_ifs <;> omega

theorem cover_popFreePages (h : fsm.popFreePages n = some (r, fsm')) :
    r.times p + cover fsm'.entries p ≤ cover fsm.entries p ∧
      fsm'.uncheckpointedFreePageRanges = fsm.uncheckpointedFreePageRanges := by
  unfold popFreePages at h
  split_ifs at h
  obtain ⟨⟨level, entry⟩, hbound, hsplit⟩ := Option.map_eq_some_iff.mp h
  obtain ⟨L, hL, he, hn⟩ := lowerBound_eq_some hbound
  have herase := cover_modify_erase (p := p) hL he
  have hcover := cover_splitPageRange { fsm with
    freeLists := fsm.freeLists.modify level (·.erase entry), numEntries := fsm.numEntries - 1 } p hn
  dsimp only at hsplit
  rw [hsplit] at hcover
  refine ⟨?_, ?_⟩
  · exact hcover.trans_eq herase.symm
  · obtain rfl : _ = fsm' := congrArg Prod.snd hsplit
    unfold splitPageRange
    split_ifs <;> rfl

theorem cover_handleLastPageRange (numPagesInFile : Nat) :
    cover (fsm.handleLastPageRange r numPagesInFile).1.entries p + (⟨(fsm.handleLastPageRange r numPagesInFile).2,
        numPagesInFile - (fsm.handleLastPageRange r numPagesInFile).2⟩ : PageRange).times p ≤
      r.times p + cover fsm.entries p := by
  unfold handleLastPageRange
  split_ifs with hend
  · simp only [times, endPageIdx] at hend ⊢
    split_ifs <;> omega
  · have hnone : (⟨numPagesInFile, numPagesInFile - numPagesInFile⟩ : PageRange).times p = 0 := by
      simp [times]
    rw [hnone]
    exact fsm.cover_addFreePages r p

theorem cover_mergeSorted (numPagesInFile : Nat) (fsm : FreeSpaceManager) (prevEntry : PageRange)
    (rest : List PageRange) :
    cover (mergeSorted numPagesInFile fsm prevEntry rest).1.entries p +
      (⟨(mergeSorted numPagesInFile fsm prevEntry rest).2,
        numPagesInFile - (mergeSorted numPagesInFile fsm prevEntry rest).2⟩ : PageRange).times p ≤
      prevEntry.times p + cover rest p + cover fsm.entries p := by
  induction rest generalizing fsm prevEntry with
  | nil => exact cover_handleLastPageRange numPagesInFile
  | cons entry rest ih =>
    unfold mergeSorted
    rw [cover_cons]
    split_ifs with hadjacent
    · refine (ih _ _).trans ?_
      unfold endPageIdx at hadjacent
      simp only [times]
      split_ifs <;> omega
    · have hadd := fsm.cover_addFreePages prevEntry p
      have := ih (fsm.addFreePages prevEntry) entry
      omega

theorem cover_finalizeCheckpoint (fsm : FreeSpaceManager) (numPagesInFile p : Nat) :
    cover (fsm.finalizeCheckpoint numPagesInFile).1.entries p + (⟨(fsm.finalizeCheckpoint numPagesInFile).2,
        numPagesInFile - (fsm.finalizeCheckpoint numPagesInFile).2⟩ : PageRange).times p ≤
      cover fsm.uncheckpointedFreePageRanges p + cover fsm.entries p := by
  have hperm := perm_insertionSort (fun a b : PageRange => a.startPageIdx ≤ b.startPageIdx)
    (fsm.uncheckpointedFreePageRanges ++ fsm.freeLists.flatten)
  have hcover := cover_perm (p := p) hperm
  rw [cover_append] at hcover
  unfold finalizeCheckpoint mergePageRanges
  cases hsorted : (fsm.uncheckpointedFreePageRanges ++ fsm.freeLists.flatten).insertionSort
      (·.startPageIdx ≤ ·.startPageIdx) with
  | nil =>
    have hnone : (⟨numPagesInFile, numPagesInFile - numPagesInFile⟩ : PageRange).times p = 0 := by
      simp [times]
    simp only [hnone]
    exact Nat.le_add_left _ _
  | cons prevEntry rest =>
    rw [hsorted, cover_cons] at hcover
    have hmerged := cover_mergeSorted (p := p) numPagesInFile { fsm with freeLists := [], numEntries := 0 }
      prevEntry rest
    rw [hcover] at hmerged
    exact hmerged

end FreeSpaceManager

end Rag3db.Storage
