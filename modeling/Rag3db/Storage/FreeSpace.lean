import Rag3db.Storage.PageOwnership

open List Option

namespace Rag3db.Storage

open Library.Transition PageRange

variable {L rest : List PageRange} {a b c entry r prevEntry : PageRange} {level n p numPagesInFile : Nat}
  {fsm fsm' : FreeSpaceManager}

def pages (L : List PageRange) : Set Nat := {p | ∃ r ∈ L, r.startPageIdx ≤ p ∧ p < r.endPageIdx}

theorem mem_pages_iff : p ∈ pages L ↔ 0 < cover L p := by
  rw [Nat.pos_iff_ne_zero, ne_eq, cover_eq_zero_iff]
  simp [pages, times, endPageIdx]

theorem nodup_of_cover (hpos : ∀ r ∈ L, 0 < r.numPages) (honce : ∀ p, cover L p ≤ 1) : L.Nodup := by
  refine (pairwise_disjoint_iff.mpr honce).imp_of_mem fun {a b} ha _ hab => ?_
  rintro rfl
  have := hpos a ha
  have := (hab a.startPageIdx).elim id id
  rw [times_eq_zero_iff] at this
  omega

namespace PageRange

theorem entryCmp_trans (h : a.entryCmp b = true) (h' : b.entryCmp c = true) : a.entryCmp c = true := by
  unfold entryCmp at *
  split_ifs at * <;> simp only [decide_eq_true_eq] at * <;> omega

theorem eq_of_entryCmp (h : ¬ a.entryCmp b = true) (h' : ¬ b.entryCmp a = true) : a = b := by
  obtain ⟨s, n⟩ := a
  obtain ⟨s', n'⟩ := b
  unfold entryCmp at *
  split_ifs at * <;> simp only [decide_eq_true_eq, mk.injEq] at * <;> omega

end PageRange

namespace FreeSpaceManager

theorem insertEntry_spec (hs : L.Pairwise fun a b => a.entryCmp b) (hn : entry ∉ L) :
    (insertEntry entry L).Perm (entry :: L) ∧ (insertEntry entry L).Pairwise fun a b => a.entryCmp b := by
  induction L with
  | nil => exact ⟨.refl _, by simp [insertEntry]⟩
  | cons e es ih =>
    obtain ⟨he, hes⟩ := pairwise_cons.mp hs
    obtain ⟨hne, hn⟩ := not_or.mp (mem_cons.not.mp hn)
    obtain ⟨hperm, hsorted⟩ := ih hes hn
    unfold insertEntry
    split_ifs with hlt hgt
    · refine ⟨.refl _, pairwise_cons.mpr ⟨fun x hx => ?_, hs⟩⟩
      rcases mem_cons.mp hx with rfl | hx
      · exact hlt
      · exact entryCmp_trans hlt (he x hx)
    · refine ⟨(hperm.cons e).trans (.swap _ _ _), pairwise_cons.mpr ⟨fun x hx => ?_, hsorted⟩⟩
      rcases mem_cons.mp (hperm.mem_iff.mp hx) with rfl | hx
      · exact hgt
      · exact he x hx
    · exact absurd (eq_of_entryCmp hlt hgt) hne

/-- Each list is in order and holds the ranges of its size class. -/
def Leveled (fsm : FreeSpaceManager) : Prop :=
  ∀ l L, fsm.freeLists[l]? = some L → (L.Pairwise fun a b => a.entryCmp b) ∧ ∀ e ∈ L, getLevel e.numPages = l

theorem addFreePages_spec (h : Leveled fsm) (hn : entry ∉ fsm.entries) :
    Leveled (fsm.addFreePages entry) ∧ (fsm.addFreePages entry).entries.Perm (entry :: fsm.entries) := by
  set level := getLevel entry.numPages with hlevel
  have hsized : ∀ l L, (fsm.resized level)[l]? = some L →
      (L.Pairwise fun a b => a.entryCmp b) ∧ ∀ e ∈ L, getLevel e.numPages = l := by
    intro l L hL
    unfold resized at hL
    rw [getElem?_append] at hL
    split_ifs at hL with hl
    · exact h l L hL
    · obtain rfl := eq_of_mem_replicate (mem_of_getElem? hL)
      simp
  have hflat : (fsm.resized level).flatten = fsm.entries := by simp [resized, entries]
  obtain ⟨L, hL⟩ : ∃ L, (fsm.resized level)[level]? = some L :=
    isSome_iff_exists.mp (by simp [resized]; omega)
  have hmem : entry ∉ L := fun he => hn (hflat ▸ mem_flatten_of_mem (mem_of_getElem? hL) he)
  obtain ⟨hperm, hsorted⟩ := insertEntry_spec (hsized level L hL).1 hmem
  refine ⟨fun l L' hL' => ?_, ?_⟩
  · simp only [addFreePages, getElem?_modify] at hL'
    split_ifs at hL' with hl
    · subst hl
      rw [hL] at hL'
      obtain rfl : insertEntry entry L = L' := by simpa using hL'
      refine ⟨hsorted, fun e he => ?_⟩
      rcases mem_cons.mp (hperm.mem_iff.mp he) with rfl | he
      · rfl
      · exact (hsized _ L hL).2 e he
    · exact hsized l L' (by simpa using hL')
  · exact hflat ▸ flatten_modify_perm (a := []) (b := [entry]) hL hperm

def released (fsm : FreeSpaceManager) : List PageRange := fsm.entries ++ fsm.uncheckpointedFreePageRanges

/-- The state between two calls: every range has pages, no page is in two of
them, and the counter tells the entries. -/
structure WellFormed (fsm : FreeSpaceManager) : Prop where
  leveled : Leveled fsm
  nonempty : ∀ r ∈ fsm.released, 0 < r.numPages
  once : ∀ p, cover fsm.released p ≤ 1
  count : fsm.numEntries = fsm.entries.length

theorem WellFormed.of_perm (hperm : fsm.released.Perm L) (hleveled : Leveled fsm) (hpos : ∀ r ∈ L, 0 < r.numPages)
    (honce : ∀ p, cover L p ≤ 1) (hcount : fsm.numEntries = fsm.entries.length) : WellFormed fsm where
  leveled := hleveled
  nonempty r hr := hpos r (hperm.mem_iff.mp hr)
  once p := (cover_perm hperm).trans_le (honce p)
  count := hcount

section

variable (h : WellFormed fsm) (hpos : 0 < entry.numPages) (hfresh : ∀ p, entry.times p + cover fsm.released p ≤ 1)

include h hpos hfresh

theorem WellFormed.addFreePages
    :
    WellFormed (fsm.addFreePages entry) ∧ (fsm.addFreePages entry).entries.Perm (entry :: fsm.entries) := by
  have hpos : ∀ r ∈ entry :: fsm.released, 0 < r.numPages := forall_mem_cons.mpr ⟨hpos, h.nonempty⟩
  have honce : ∀ p, cover (entry :: fsm.released) p ≤ 1 := fun p => cover_cons.trans_le (hfresh p)
  have hn : entry ∉ fsm.entries := fun he =>
    (nodup_cons.mp (nodup_of_cover hpos honce)).1 (mem_append_left _ he)
  obtain ⟨hleveled, hperm⟩ := addFreePages_spec h.leveled hn
  refine ⟨.of_perm (hperm.append_right _) hleveled hpos honce ?_, hperm⟩
  rw [hperm.length_eq, length_cons, ← h.count]
  rfl

theorem WellFormed.addUncheckpointedFreePages
    : WellFormed (fsm.addUncheckpointedFreePages entry) := by
  have hperm : (fsm.addUncheckpointedFreePages entry).released.Perm (entry :: fsm.released) :=
    (Perm.of_eq (append_assoc ..).symm).trans (perm_append_singleton entry fsm.released)
  exact .of_perm hperm h.leveled (forall_mem_cons.mpr ⟨hpos, h.nonempty⟩) (fun p => cover_cons.trans_le (hfresh p))
    h.count

end

theorem WellFormed.rollbackCheckpoint (h : WellFormed fsm) : WellFormed fsm.rollbackCheckpoint := by
  refine .of_perm (.of_eq (append_nil _)) h.leveled
    (fun r hr => h.nonempty r (mem_append_left _ hr)) (fun p => ?_) h.count
  exact (Nat.le_add_right _ _).trans (cover_append.symm.trans_le (h.once p))

theorem lowerBound_isSome (h : Leveled fsm) (hr : r ∈ fsm.entries) (hn : 0 < n) (hle : n ≤ r.numPages) :
    (fsm.lowerBound n).isSome := by
  obtain ⟨L, hL, hrL⟩ := mem_flatten.mp hr
  obtain ⟨l, hl, hget⟩ := getElem_of_mem hL
  have hlevel := (h l L (by simp [hl, hget])).2 r hrL
  have hmono : getLevel n ≤ l := by
    rw [← hlevel, getLevel, getLevel, if_neg (by omega), if_neg (by omega)]
    simpa [Nat.log2_eq_log_two] using Nat.log_mono_right hle
  refine findSome?_isSome_iff.mpr ⟨l, by simp; omega, ?_⟩
  simp only [isSome_map, find?_isSome]
  refine ⟨r, by simpa [hl, hget] using hrL, ?_⟩
  unfold entryCmp
  split_ifs <;> simp
  omega

def without (fsm : FreeSpaceManager) (level : Nat) (entry : PageRange) : FreeSpaceManager :=
  { fsm with freeLists := fsm.freeLists.modify level (·.erase entry), numEntries := fsm.numEntries - 1 }

theorem WellFormed.without (h : WellFormed fsm) (hL : fsm.freeLists[level]? = some L) (he : entry ∈ L) :
    WellFormed (fsm.without level entry) ∧ fsm.entries.Perm (entry :: (fsm.without level entry).entries) := by
  have hperm : fsm.entries.Perm (entry :: (fsm.without level entry).entries) :=
    (flatten_modify_perm (a := [entry]) (b := []) hL (perm_cons_erase he).symm).symm
  have hall : fsm.released.Perm (entry :: (fsm.without level entry).released) := hperm.append_right _
  refine ⟨⟨fun l L' hL' => ?_, fun r hr => ?_, fun p => ?_, ?_⟩, hperm⟩
  · simp only [FreeSpaceManager.without, getElem?_modify] at hL'
    split_ifs at hL' with hl
    · subst hl
      rw [hL] at hL'
      obtain rfl : L.erase entry = L' := by simpa using hL'
      obtain ⟨hs, hlevel⟩ := h.leveled _ L hL
      exact ⟨hs.sublist erase_sublist, fun e he => hlevel e (mem_of_mem_erase he)⟩
    · exact h.leveled l L' (by simpa using hL')
  · exact h.nonempty r (hall.mem_iff.mpr (mem_cons_of_mem _ hr))
  · have := h.once p
    rw [cover_perm hall] at this
    exact (Nat.le_add_left _ _).trans this
  · have hlength := hperm.length_eq
    rw [← h.count] at hlength
    exact Nat.sub_eq_of_eq_add hlength

theorem WellFormed.splitPageRange {chunk : PageRange} (h : WellFormed fsm) (hn : 0 < n) (hle : n ≤ chunk.numPages)
    (hfresh : ∀ p, chunk.times p + cover fsm.released p ≤ 1) :
    WellFormed (fsm.splitPageRange chunk n).2 ∧ ∀ p, (fsm.splitPageRange chunk n).1.times p +
      cover (fsm.splitPageRange chunk n).2.entries p = chunk.times p + cover fsm.entries p := by
  unfold FreeSpaceManager.splitPageRange
  split_ifs with hlt
  · obtain ⟨hwf, hperm⟩ := h.addFreePages
      (show 0 < (⟨chunk.startPageIdx + n, chunk.numPages - n⟩ : PageRange).numPages from Nat.sub_pos_of_lt hlt)
      fun p => by
        have := hfresh p
        simp only [times] at this ⊢
        split_ifs at this ⊢ <;> omega
    refine ⟨hwf, fun p => ?_⟩
    rw [cover_perm hperm, cover_cons]
    simp only [times]
    split_ifs <;> omega
  · obtain rfl : chunk.numPages = n := by omega
    exact ⟨h, fun p => rfl⟩

theorem WellFormed.popFreePages (h : WellFormed fsm) (hpop : fsm.popFreePages n = some (r, fsm')) :
    WellFormed fsm' ∧ r.numPages = n ∧ ∀ p, r.times p + cover fsm'.entries p = cover fsm.entries p := by
  unfold FreeSpaceManager.popFreePages at hpop
  split_ifs at hpop with hn
  obtain ⟨⟨level, entry⟩, hbound, hsplit⟩ := map_eq_some_iff.mp hpop
  obtain ⟨L, hL, he, hle⟩ := lowerBound_eq_some hbound
  obtain ⟨hwf, hperm⟩ := h.without hL he
  obtain ⟨hwf', hcover⟩ := hwf.splitPageRange (Nat.pos_of_ne_zero hn) hle fun p =>
    (cover_cons.symm.trans (cover_perm (hperm.append_right _)).symm).trans_le (h.once p)
  obtain ⟨rfl, rfl⟩ := Prod.mk.inj hsplit
  exact ⟨hwf', rfl, fun p => by rw [cover_perm hperm]; exact hcover p⟩

/-- A request for some pages is refused only when no free range is long enough;
the pages it is given were free, and they alone are so no more. A request for no
page is always refused. -/
theorem popFreePages_exact (h : WellFormed fsm) : fsm.popFreePages 0 = none ∧ ∀ n, 0 < n →
      (fsm.popFreePages n = none ↔ ∀ r ∈ fsm.entries, r.numPages < n) ∧
      ∀ r fsm', fsm.popFreePages n = some (r, fsm') →
        r.numPages = n ∧ pages [r] ⊆ pages fsm.entries ∧ pages fsm'.entries = pages fsm.entries \ pages [r] := by
  refine ⟨if_pos rfl, fun n hn => ⟨⟨fun hnone r hr => ?_, fun hshort => ?_⟩, fun r fsm' hpop => ?_⟩⟩
  · by_contra hle
    obtain ⟨x, hx⟩ := isSome_iff_exists.mp (lowerBound_isSome h.leveled hr hn (not_lt.mp hle))
    simp [popFreePages, hn.ne', hx] at hnone
  · cases hpop : fsm.popFreePages n with
    | none => rfl
    | some popped =>
      unfold popFreePages at hpop
      split_ifs at hpop
      obtain ⟨⟨level, entry⟩, hbound, -⟩ := map_eq_some_iff.mp hpop
      obtain ⟨L, hL, he, hle⟩ := lowerBound_eq_some hbound
      exact absurd (hshort entry (mem_flatten_of_mem (mem_of_getElem? hL) he)) (not_lt.mpr hle)
  · obtain ⟨hwf, hlength, hcover⟩ := h.popFreePages hpop
    refine ⟨hlength, fun p hp => ?_, Set.ext fun p => ?_⟩
    · rw [mem_pages_iff, cover_cons, cover_nil] at *
      have := hcover p
      omega
    · have := hcover p
      have := h.once p
      rw [Set.mem_sdiff]
      simp only [released, mem_pages_iff, cover_cons, cover_nil, cover_append] at *
      omega

theorem wellFormed_empty : WellFormed {} :=
  .of_perm .nil (fun l L hL => by simp at hL) (by simp) (by simp) rfl

theorem wellFormed_five : WellFormed (addFreePages {} ⟨3, 5⟩) :=
  (wellFormed_empty.addFreePages (by decide) (times_le_one _)).1

/-- Two of five pages that are free. -/
theorem popFreePages_exact_five : (addFreePages {} ⟨3, 5⟩).popFreePages 6 = none ∧
    ∃ fsm', (addFreePages {} ⟨3, 5⟩).popFreePages 2 = some (⟨3, 2⟩, fsm') ∧
      pages fsm'.entries = pages [⟨3, 5⟩] \ pages [⟨3, 2⟩] :=
  ⟨((popFreePages_exact wellFormed_five).2 6 (by decide)).1.mpr (by decide), _, rfl,
    (((popFreePages_exact wellFormed_five).2 2 Nat.two_pos).2 _ _ rfl).2.2⟩

/-- A request for no page is refused, whatever is free. -/
theorem popFreePages_none : (addFreePages {} ⟨3, 5⟩).popFreePages 0 = none ∧
    ∃ r ∈ (addFreePages {} ⟨3, 5⟩).entries, 0 ≤ r.numPages :=
  ⟨rfl, ⟨3, 5⟩, by decide, Nat.zero_le _⟩

section Merge

/-- The ranges that the loop of `mergePageRanges` adds, and the last one. -/
def coalesce : PageRange → List PageRange → List PageRange × PageRange
  | prevEntry, [] => ([], prevEntry)
  | prevEntry, entry :: rest =>
    if prevEntry.endPageIdx = entry.startPageIdx then
      coalesce { prevEntry with numPages := prevEntry.numPages + entry.numPages } rest
    else (prevEntry :: (coalesce entry rest).1, (coalesce entry rest).2)

theorem mergeSorted_eq (fsm : FreeSpaceManager) (prevEntry : PageRange) (rest : List PageRange) :
    mergeSorted numPagesInFile fsm prevEntry rest =
      ((coalesce prevEntry rest).1.foldl addFreePages fsm).handleLastPageRange (coalesce prevEntry rest).2
        numPagesInFile := by
  induction rest generalizing fsm prevEntry with
  | nil => rfl
  | cons entry rest ih =>
    unfold mergeSorted coalesce
    split_ifs with hadjacent
    · exact ih _ _
    · exact ih _ _

theorem coalesce_spec (hs : (prevEntry :: rest).Pairwise fun a b => a.endPageIdx ≤ b.startPageIdx)
    (hpos : ∀ r ∈ prevEntry :: rest, 0 < r.numPages) :
    let merged := (coalesce prevEntry rest).1 ++ [(coalesce prevEntry rest).2]
    (merged.Pairwise fun a b => a.endPageIdx < b.startPageIdx) ∧
    (∀ r ∈ merged, 0 < r.numPages ∧ prevEntry.startPageIdx ≤ r.startPageIdx) ∧
    ∀ p, cover merged p = cover (prevEntry :: rest) p := by
  induction rest generalizing prevEntry with
  | nil => simpa [coalesce] using hpos
  | cons entry rest ih =>
    obtain ⟨hprev, hs⟩ := pairwise_cons.mp hs
    obtain ⟨hentry, hrest⟩ := pairwise_cons.mp hs
    obtain ⟨hp, hpos⟩ := forall_mem_cons.mp hpos
    obtain ⟨he, hpos'⟩ := forall_mem_cons.mp hpos
    unfold coalesce
    split_ifs with hadjacent
    · have hend : (⟨prevEntry.startPageIdx, prevEntry.numPages + entry.numPages⟩ : PageRange).endPageIdx =
          entry.endPageIdx := by
        simp only [endPageIdx] at hadjacent ⊢
        omega
      obtain ⟨hgap, hmem, hcover⟩ := @ih { prevEntry with numPages := prevEntry.numPages + entry.numPages }
        (pairwise_cons.mpr ⟨fun r hr => hend ▸ hentry r hr, hrest⟩)
        (forall_mem_cons.mpr ⟨Nat.add_pos_left hp _, hpos'⟩)
      refine ⟨hgap, hmem, fun p => (hcover p).trans ?_⟩
      simp only [cover_cons, times, endPageIdx] at hadjacent ⊢
      split_ifs <;> omega
    · obtain ⟨hgap, hmem, hcover⟩ := ih hs hpos
      have hle := hprev entry mem_cons_self
      have hstart : prevEntry.startPageIdx ≤ prevEntry.endPageIdx := Nat.le_add_right _ _
      refine ⟨pairwise_cons.mpr ⟨fun r hr => ?_, hgap⟩, fun r hr => ?_, fun p => ?_⟩
      · have := (hmem r hr).2
        omega
      · rcases mem_cons.mp hr with rfl | hr
        · exact ⟨hp, le_rfl⟩
        · have := hmem r hr
          omega
      · rw [cons_append, cover_cons, hcover p]
        exact cover_cons.symm

theorem foldl_addFreePages_spec (h : Leveled fsm) (hn : (L ++ fsm.entries).Nodup) :
    let fsm' := L.foldl addFreePages fsm
    Leveled fsm' ∧ fsm'.entries.Perm (L ++ fsm.entries) ∧ fsm'.numEntries = fsm.numEntries + L.length ∧
      fsm'.uncheckpointedFreePageRanges = fsm.uncheckpointedFreePageRanges := by
  induction L generalizing fsm with
  | nil => exact ⟨h, .refl _, rfl, rfl⟩
  | cons entry L ih =>
    obtain ⟨hentry, hn⟩ := nodup_cons.mp hn
    obtain ⟨hleveled, hperm⟩ := addFreePages_spec h fun he => hentry (mem_append_right _ he)
    have hmiddle : (L ++ (fsm.addFreePages entry).entries).Perm (entry :: (L ++ fsm.entries)) :=
      (hperm.append_left L).trans perm_middle
    obtain ⟨hleveled', hperm', hcount, hscheduled⟩ := ih hleveled (hmiddle.nodup_iff.mpr (hn.cons hentry))
    refine ⟨hleveled', hperm'.trans hmiddle, hcount.trans ?_, hscheduled⟩
    simp only [addFreePages, length_cons]
    omega

theorem pairwise_of_sorted (hs : L.Pairwise fun a b => a.startPageIdx ≤ b.startPageIdx)
    (hpos : ∀ r ∈ L, 0 < r.numPages) (honce : ∀ p, cover L p ≤ 1) :
    L.Pairwise fun a b => a.endPageIdx ≤ b.startPageIdx := by
  refine (hs.and (pairwise_disjoint_iff.mpr honce)).imp_of_mem fun {a b} _ hb hab => ?_
  have hb := hpos b hb
  rcases hab.2 b.startPageIdx with h | h <;> rw [times_eq_zero_iff] at h
  · unfold endPageIdx
    omega
  · omega

theorem apart_of_gap (hgap : L.Pairwise fun a b => a.endPageIdx < b.startPageIdx) (hpos : ∀ r ∈ L, 0 < r.numPages) :
    ∀ a ∈ L, ∀ b ∈ L, a.endPageIdx ≠ b.startPageIdx := by
  have hrefl : ∀ r ∈ L, r.endPageIdx ≠ r.startPageIdx := fun r hr => by
    have := hpos r hr
    unfold endPageIdx
    omega
  have hflip : L.Pairwise fun a b => b.endPageIdx ≠ a.startPageIdx := hgap.imp fun {a b} hab => by
    unfold endPageIdx at *
    omega
  exact fun a ha b hb => (hgap.imp fun hab => hab.ne).forall_of_forall_of_flip hrefl hflip ha hb

theorem cover_le_one_of_gap (hgap : L.Pairwise fun a b => a.endPageIdx < b.startPageIdx) (p : Nat) : cover L p ≤ 1 := by
  refine pairwise_disjoint_iff.mp (hgap.imp fun {a b} hab p => ?_) p
  simp only [times_eq_zero_iff, endPageIdx] at hab ⊢
  omega

theorem wellFormed_rebuilt (fsm : FreeSpaceManager) (hpos : ∀ r ∈ L, 0 < r.numPages) (honce : ∀ p, cover L p ≤ 1) :
    let fsm' := L.foldl addFreePages { fsm with freeLists := [], numEntries := 0 }
    WellFormed { fsm' with uncheckpointedFreePageRanges := [] } ∧ fsm'.entries.Perm L := by
  obtain ⟨hleveled, hperm, hcount, -⟩ := foldl_addFreePages_spec
    (show Leveled { fsm with freeLists := [], numEntries := 0 } from fun l L hL => by simp at hL)
    (by simpa [entries] using nodup_of_cover hpos honce)
  rw [show L ++ ({ fsm with freeLists := [], numEntries := 0 } : FreeSpaceManager).entries = L from
    append_nil L] at hperm
  refine ⟨.of_perm (.trans (.of_eq (append_nil _)) hperm) hleveled hpos honce ?_, hperm⟩
  exact hcount.trans ((Nat.zero_add _).trans hperm.length_eq.symm)

/-- What is left after a checkpoint: ranges with a gap between any two of them,
for all the free pages but those that were cut off the file. -/
theorem WellFormed.finalizeCheckpoint (h : WellFormed fsm) (numPagesInFile : Nat) :
    let (fsm', numPages) := fsm.finalizeCheckpoint numPagesInFile
    WellFormed fsm' ∧ (∃ kept, fsm'.entries.Perm kept ∧ kept.Pairwise fun a b => a.endPageIdx < b.startPageIdx) ∧
    numPages ≤ numPagesInFile ∧
    ∀ p, cover fsm'.entries p + (⟨numPages, numPagesInFile - numPages⟩ : PageRange).times p = cover fsm.released p := by
  set all := (fsm.uncheckpointedFreePageRanges ++ fsm.freeLists.flatten).insertionSort
    (fun a b : PageRange => a.startPageIdx ≤ b.startPageIdx) with hall
  have hperm : all.Perm fsm.released :=
    (perm_insertionSort _ _).trans perm_append_comm
  have hpos : ∀ r ∈ all, 0 < r.numPages := fun r hr => h.nonempty r (hperm.mem_iff.mp hr)
  have honce : ∀ p, cover all p ≤ 1 := fun p => (cover_perm hperm).trans_le (h.once p)
  have hsorted := pairwise_of_sorted (pairwise_insertionSort _ _) hpos honce
  have hnone : ∀ p, (⟨numPagesInFile, 0⟩ : PageRange).times p = 0 := by simp [times]
  unfold FreeSpaceManager.finalizeCheckpoint mergePageRanges
  rw [← hall]
  cases he : all with
  | nil =>
    obtain ⟨hentries, hscheduled⟩ := append_eq_nil_iff.mp (nil_perm.mp (he ▸ hperm))
    have hnil : ({ fsm with uncheckpointedFreePageRanges := [] } : FreeSpaceManager).entries = [] := hentries
    refine ⟨.of_perm (.of_eq (append_nil _ |>.trans hnil)) h.leveled (by simp) (by simp) h.count,
      ⟨[], .of_eq hnil, .nil⟩, le_rfl, fun p => ?_⟩
    simp [hnil, released, hentries, hscheduled, hnone]
  | cons prevEntry rest =>
    rw [← hall, he] at hsorted
    rw [he] at hpos hperm
    obtain ⟨hgap, hmem, hcover⟩ := coalesce_spec hsorted hpos
    dsimp only
    rw [mergeSorted_eq]
    unfold handleLastPageRange
    split_ifs with hend
    · have hinit := (pairwise_append.mp hgap).1
      obtain ⟨hwf, hkept⟩ := wellFormed_rebuilt fsm (fun r hr => (hmem r (mem_append_left _ hr)).1)
        (cover_le_one_of_gap hinit)
      refine ⟨hwf, ⟨_, hkept, hinit⟩, Nat.min_le_left _ _, fun p => ?_⟩
      rw [← cover_perm hperm, ← hcover p, cover_append]
      refine congrArg₂ (· + ·) (cover_perm hkept) ?_
      simp only [endPageIdx] at hend
      simp only [cover_cons, cover_nil, times]
      split_ifs <;> omega
    · obtain ⟨hwf, hkept⟩ := wellFormed_rebuilt fsm (fun r hr => (hmem r hr).1) (cover_le_one_of_gap hgap)
      rw [foldl_append] at hwf hkept
      refine ⟨hwf, ⟨_, hkept, hgap⟩, le_rfl, fun p => ?_⟩
      rw [← cover_perm hperm, ← hcover p, Nat.sub_self, hnone]
      exact cover_perm hkept

end Merge

theorem serializeCheckpointedEntries_eq (freeLists : List (List PageRange)) :
    serializeCheckpointedEntries freeLists = serializeUncheckpointedEntries freeLists.flatten := by
  induction freeLists with
  | nil => rfl
  | cons list freeLists ih =>
    rw [serializeCheckpointedEntries, ih]
    induction list with
    | nil => rfl
    | cons entry list ihl =>
      rw [foldr_cons, ihl]
      rfl

theorem deserializeEntries_eq (fsm : FreeSpaceManager) (L : List PageRange) :
    fsm.deserializeEntries L.length (serializeUncheckpointedEntries L) = some (L.foldl addFreePages fsm) := by
  induction L generalizing fsm with
  | nil => rfl
  | cons entry L ih => exact ih (fsm.addFreePages entry)

theorem WellFormed.deserialize (h : WellFormed fsm) : ∃ fsm', deserialize {} fsm.serialize = some fsm' ∧
    WellFormed fsm' ∧ fsm'.uncheckpointedFreePageRanges = [] ∧ fsm'.entries.Perm fsm.released := by
  have hread : FreeSpaceManager.deserialize {} fsm.serialize =
      some (fsm.released.foldl FreeSpaceManager.addFreePages {}) := by
    have hvalues : serializeCheckpointedEntries fsm.freeLists ++
        serializeUncheckpointedEntries fsm.uncheckpointedFreePageRanges =
          serializeUncheckpointedEntries fsm.released := by
      rw [serializeCheckpointedEntries_eq]
      exact flatMap_append.symm
    rw [serialize, h.count, ← length_append, hvalues]
    exact deserializeEntries_eq {} fsm.released
  obtain ⟨-, -, -, hscheduled⟩ := foldl_addFreePages_spec
    (show Leveled {} from fun l L hL => by simp at hL) (by simpa [entries] using nodup_of_cover h.nonempty h.once)
  obtain ⟨hwf, hperm⟩ := wellFormed_rebuilt {} h.nonempty h.once
  refine ⟨_, hread, .of_perm ?_ hwf.leveled h.nonempty h.once hwf.count, hscheduled, hperm⟩
  rw [released, hscheduled]
  exact (Perm.of_eq (append_nil _)).trans hperm

end FreeSpaceManager

end Rag3db.Storage
