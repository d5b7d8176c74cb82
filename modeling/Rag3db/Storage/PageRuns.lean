import Rag3db.Storage.PageOwnership

open List Option

namespace Rag3db.Storage

open Library.Transition FreeSpaceManager PageRange

/-- The page manager, the ranges that somebody has been given and has not freed,
and the optimistic allocators of the transactions. -/
structure PageRun where
  manager : PageManager := {}
  owned : List PageRange := []
  allocators : List OptimisticAllocator := []

inductive PageAction
  | allocatePageRange (numPages room : Nat)
  | freePageRange (block : PageRange)
  | freeImmediatelyRewritablePageRange (block : PageRange)
  | addOptimisticAllocator
  | allocateOptimistically (allocator numPages room : Nat)
  | commit (allocator : Nat)
  | rollback (allocator : Nat)
  | finalizeCheckpoint
  | rollbackCheckpoint

namespace PageRun

variable (s : PageRun)

def owns (block : PageRange) : Bool :=
  (List.range' block.startPageIdx block.numPages).all fun p => cover s.owned p > 0

def settled (block : PageRange) : Bool :=
  (List.range' block.startPageIdx block.numPages).all fun p =>
    cover (s.allocators.flatMap (·.optimisticallyAllocatedPages)) p = 0

def step : PageAction → Option PageRun
  | .allocatePageRange numPages room =>
    let (pageRange, manager) := s.manager.allocatePageRange numPages room
    some { s with manager, owned := pageRange.toList ++ s.owned }
  | .freePageRange block =>
    if s.owns block then some { s with
      manager := s.manager.freePageRange block
      owned := s.owned.flatMap block.cut }
    else none
  | .freeImmediatelyRewritablePageRange block =>
    if s.owns block then some { s with
      manager := s.manager.freeImmediatelyRewritablePageRange block
      owned := s.owned.flatMap block.cut }
    else none
  | .addOptimisticAllocator => some { s with allocators := s.allocators ++ [{}] }
  | .allocateOptimistically i numPages room => s.allocators[i]?.map fun a =>
    let (pageRange, a', manager) := a.allocatePageRange s.manager numPages room
    { manager, owned := pageRange.toList ++ s.owned, allocators := s.allocators.set i a' }
  | .commit i => s.allocators[i]?.map fun a => { s with allocators := s.allocators.set i a.commit }
  | .rollback i => s.allocators[i]?.map fun a =>
    let (a', manager) := a.rollback s.manager
    { manager
      owned := a.optimisticallyAllocatedPages.foldl (fun owned block => owned.flatMap block.cut) s.owned
      allocators := s.allocators.set i a' }
  | .finalizeCheckpoint => some { s with manager := s.manager.finalizeCheckpoint }
  | .rollbackCheckpoint => some { s with manager := s.manager.rollbackCheckpoint }

/-- Whether pages are freed only after the allocator that took them has come to its end. -/
def orderly : PageAction → Bool
  | .freePageRange block | .freeImmediatelyRewritablePageRange block => s.settled block
  | _ => true

def free : List PageRange := s.manager.freeSpaceManager.entries

def scheduled : List PageRange := s.manager.freeSpaceManager.uncheckpointedFreePageRanges

def optimistic : List PageRange := s.allocators.flatMap (·.optimisticallyAllocatedPages)

/-- Each page of the file has at most one place. -/
structure Inv (s : PageRun) : Prop where
  once : ∀ p, cover s.free p + cover s.scheduled p + cover s.owned p ≤ 1
  within : ∀ p, s.manager.numPages ≤ p → cover s.free p + cover s.scheduled p + cover s.owned p = 0
  optimistic : ∀ p, cover s.optimistic p ≤ cover s.owned p

variable {s} {s' init : PageRun} {block r : PageRange} {p n room i : Nat} {m m' : PageManager}
  {pageRange : Option PageRange}

theorem allocatePageRange_spec (h : m.allocatePageRange n room = (pageRange, m')) :
    m'.freeSpaceManager.uncheckpointedFreePageRanges = m.freeSpaceManager.uncheckpointedFreePageRanges ∧
    m.numPages ≤ m'.numPages ∧ ∀ p, cover pageRange.toList p + cover m'.freeSpaceManager.entries p ≤
        cover m.freeSpaceManager.entries p + (⟨m.numPages, m'.numPages - m.numPages⟩ : PageRange).times p := by
  unfold PageManager.allocatePageRange at h
  cases hpop : m.freeSpaceManager.popFreePages n with
  | some popped =>
    rw [hpop] at h
    obtain ⟨rfl, rfl⟩ := Prod.mk.inj h
    refine ⟨(cover_popFreePages (p := 0) hpop).2, le_rfl, fun p => ?_⟩
    have hcover := (cover_popFreePages (p := p) hpop).1
    simp only [toList_some, cover_cons, cover_nil]
    omega
  | none =>
    simp only [hpop, PageManager.addNewPages] at h
    split_ifs at h with hroom
    · obtain ⟨rfl, rfl⟩ := Prod.mk.inj h
      refine ⟨rfl, Nat.le_add_right _ _, fun p => ?_⟩
      simp only [map_some, toList_some, cover_cons, cover_nil, Nat.add_sub_cancel_left]
      omega
    · obtain ⟨rfl, rfl⟩ := Prod.mk.inj h
      exact ⟨rfl, Nat.le_add_right _ _, fun p => by simp⟩

theorem mem_range_of_times {block : PageRange} (h : block.times p ≠ 0) :
    p ∈ List.range' block.startPageIdx block.numPages := by
  rw [ne_eq, block.times_eq_zero_iff, not_not] at h
  exact mem_range'_1.mpr h

theorem one_le_of_owns (h : s.owns block = true) (hp : block.times p ≠ 0) : 0 < cover s.owned p :=
  of_decide_eq_true (all_eq_true.mp h p (mem_range_of_times hp))

theorem optimistic_of_settled (h : s.settled block = true) (hp : block.times p ≠ 0) : cover s.optimistic p = 0 :=
  of_decide_eq_true (all_eq_true.mp h p (mem_range_of_times hp))

variable {allocators : List OptimisticAllocator}

theorem Inv.allocate (h : Inv s) (hm : s.manager.allocatePageRange n room = (pageRange, m'))
    (ho : ∀ p, cover (allocators.flatMap (·.optimisticallyAllocatedPages)) p ≤
      cover pageRange.toList p + cover s.optimistic p) :
    Inv { s with manager := m', owned := pageRange.toList ++ s.owned, allocators } := by
  obtain ⟨hscheduled, hle, hcover⟩ := allocatePageRange_spec hm
  refine ⟨fun p => ?_, fun p hp => ?_, fun p => ?_⟩
  · have honce := h.once p
    have hwithin := h.within p
    have hp := hcover p
    simp only [free, scheduled, hscheduled, cover_append, times] at *
    split_ifs at hp <;> omega
  · have hwithin := h.within p (hle.trans hp)
    have hp' := hcover p
    simp only [free, scheduled, hscheduled, cover_append, times] at *
    split_ifs at hp' <;> omega
  · have hold := h.optimistic p
    have hnew := ho p
    simp only [PageRun.optimistic, cover_append] at *
    omega

theorem Inv.free_block {m' : PageManager} (h : Inv s) (howns : s.owns block = true) (hsettled : s.settled block = true)
    (hpages : m'.numPages = s.manager.numPages)
    (hcover : ∀ p, cover m'.freeSpaceManager.entries p +
      cover m'.freeSpaceManager.uncheckpointedFreePageRanges p ≤ block.times p + cover s.free p + cover s.scheduled p) :
    Inv { s with manager := m', owned := s.owned.flatMap block.cut } := by
  refine ⟨fun p => ?_, fun p hp => ?_, fun p => ?_⟩
  · have honce := h.once p
    have hp := hcover p
    have hle := block.times_le_one p
    have howned := one_le_of_owns howns (p := p)
    simp only [free, scheduled, cover_flatMap_cut] at *
    split_ifs <;> omega
  · have hwithin := h.within p (hpages ▸ hp)
    have hp' := hcover p
    have howned := one_le_of_owns howns (p := p)
    simp only [free, scheduled, cover_flatMap_cut] at *
    split_ifs <;> omega
  · have hold := h.optimistic p
    have hnone := optimistic_of_settled hsettled (p := p)
    simp only [PageRun.optimistic, cover_flatMap_cut] at *
    split_ifs <;> omega

variable {a : OptimisticAllocator}

theorem cover_set (p : Nat) (a' : OptimisticAllocator) (h : allocators[i]? = some a) :
    cover ((allocators.set i a').flatMap (·.optimisticallyAllocatedPages)) p + cover a.optimisticallyAllocatedPages p =
      cover (allocators.flatMap (·.optimisticallyAllocatedPages)) p + cover a'.optimisticallyAllocatedPages p := by
  induction allocators generalizing i with
  | nil => simp at h
  | cons b allocators ih =>
    cases i with
    | zero =>
      obtain rfl : b = a := by simpa using h
      simp only [set_cons_zero, flatMap_cons, cover_append]
      omega
    | succ i =>
      have := @ih i (by simpa using h)
      simp only [set_cons_succ, flatMap_cons, cover_append]
      omega

theorem foldl_freeImmediately_spec (blocks : List PageRange) (m : PageManager) :
    let m' := blocks.foldl (·.freeImmediatelyRewritablePageRange ·) m
    m'.numPages = m.numPages ∧
    m'.freeSpaceManager.uncheckpointedFreePageRanges = m.freeSpaceManager.uncheckpointedFreePageRanges ∧
    ∀ p, cover m'.freeSpaceManager.entries p ≤ cover blocks p + cover m.freeSpaceManager.entries p := by
  induction blocks generalizing m with
  | nil => exact ⟨rfl, rfl, fun p => by simp⟩
  | cons block blocks ih =>
    obtain ⟨hpages, hscheduled, hcover⟩ := ih (m.freeImmediatelyRewritablePageRange block)
    refine ⟨hpages, hscheduled, fun p => (hcover p).trans ?_⟩
    have hadd := m.freeSpaceManager.cover_addFreePages block p
    have hentries : (m.freeImmediatelyRewritablePageRange block).freeSpaceManager.entries =
      (m.freeSpaceManager.addFreePages block).entries := rfl
    rw [hentries, cover_cons]
    omega

theorem cover_foldl_cut (blocks owned : List PageRange) :
    cover (blocks.foldl (fun owned block => owned.flatMap block.cut) owned) p =
      if cover blocks p = 0 then cover owned p else 0 := by
  induction blocks generalizing owned with
  | nil => simp
  | cons block blocks ih =>
    rw [foldl_cons, ih, cover_flatMap_cut, cover_cons]
    split_ifs <;> omega

theorem Inv.rollback (h : Inv s) (ha : s.allocators[i]? = some a) :
    Inv { manager := (a.rollback s.manager).2
          owned := a.optimisticallyAllocatedPages.foldl (fun owned block => owned.flatMap block.cut) s.owned
          allocators := s.allocators.set i (a.rollback s.manager).1 } := by
  obtain ⟨hpages, hscheduled, hcover⟩ := foldl_freeImmediately_spec a.optimisticallyAllocatedPages s.manager
  have hset := fun p => cover_set p {} ha
  have hown : ∀ p, cover a.optimisticallyAllocatedPages p ≤ cover s.owned p := fun p => by
    have hold := h.optimistic p
    have hset := hset p
    simp only [PageRun.optimistic, cover_nil] at *
    omega
  refine ⟨fun p => ?_, fun p hp => ?_, fun p => ?_⟩
  · have honce := h.once p
    have hp := hcover p
    have howned := hown p
    simp only [free, scheduled, OptimisticAllocator.rollback, hscheduled, cover_foldl_cut] at *
    split_ifs <;> omega
  · have hwithin := h.within p (hpages ▸ hp)
    have hp' := hcover p
    have howned := hown p
    simp only [free, scheduled, OptimisticAllocator.rollback, hscheduled, cover_foldl_cut] at *
    split_ifs <;> omega
  · have hold := h.optimistic p
    have honce := h.once p
    have hset := hset p
    simp only [PageRun.optimistic, OptimisticAllocator.rollback, cover_foldl_cut, cover_nil] at *
    split_ifs <;> omega

theorem Inv.finalizeCheckpoint (h : Inv s) : Inv { s with manager := s.manager.finalizeCheckpoint } := by
  have hcover := s.manager.freeSpaceManager.cover_finalizeCheckpoint s.manager.numPages
  have hnone : ∀ p, cover s.manager.finalizeCheckpoint.freeSpaceManager.uncheckpointedFreePageRanges p = 0 :=
    fun _ => rfl
  refine ⟨fun p => ?_, fun p hp => ?_, h.optimistic⟩
  · have honce := h.once p
    have hp := hcover p
    simp only [free, scheduled, hnone] at *
    simp only [PageManager.finalizeCheckpoint] at *
    omega
  · have honce := h.once p
    have hwithin := h.within p
    have hp' := hcover p
    simp only [free, scheduled, hnone] at *
    simp only [PageManager.finalizeCheckpoint, times] at *
    split_ifs at hp' <;> omega

theorem Inv.step {a : PageAction} (h : Inv s) (hs : guarded orderly PageRun.step s a = some s') : Inv s' := by
  obtain ⟨horderly, hs⟩ := guarded_eq_some.mp hs
  cases a with
  | allocatePageRange n room =>
    cases hs
    exact h.allocate rfl fun p => Nat.le_add_left _ _
  | freePageRange block =>
    obtain ⟨howns, hs⟩ := ite_none_right_eq_some.mp hs
    cases hs
    refine h.free_block howns horderly rfl fun p => ?_
    simp only [PageManager.freePageRange, addUncheckpointedFreePages, cover_append, cover_cons,
      cover_nil, free, scheduled, entries]
    omega
  | freeImmediatelyRewritablePageRange block =>
    obtain ⟨howns, hs⟩ := ite_none_right_eq_some.mp hs
    cases hs
    refine h.free_block howns horderly rfl fun p => ?_
    exact Nat.add_le_add_right (s.manager.freeSpaceManager.cover_addFreePages block p) _
  | addOptimisticAllocator =>
    cases hs
    exact ⟨h.once, h.within, fun p => by simpa [PageRun.optimistic] using h.optimistic p⟩
  | allocateOptimistically i n room =>
    obtain ⟨a, ha, rfl⟩ := map_eq_some_iff.mp hs
    suffices hnext : Inv { s with
        manager := (s.manager.allocatePageRange n room).2
        owned := (s.manager.allocatePageRange n room).1.toList ++ s.owned
        allocators := s.allocators.set i (a.allocatePageRange s.manager n room).2.1 } from hnext
    refine h.allocate (Prod.eta (s.manager.allocatePageRange n room)).symm fun p => ?_
    have hset := cover_set p (a.allocatePageRange s.manager n room).2.1 ha
    have hnew : cover (a.allocatePageRange s.manager n room).2.1.optimisticallyAllocatedPages p ≤
        cover a.optimisticallyAllocatedPages p + cover (s.manager.allocatePageRange n room).1.toList p := by
      simp only [OptimisticAllocator.allocatePageRange]
      split_ifs <;> simp
    unfold PageRun.optimistic
    omega
  | commit i =>
    obtain ⟨a, ha, rfl⟩ := map_eq_some_iff.mp hs
    refine ⟨h.once, h.within, fun p => ?_⟩
    have hset := cover_set p a.commit ha
    have hnone : cover a.commit.optimisticallyAllocatedPages p = 0 := rfl
    have hold := h.optimistic p
    unfold PageRun.optimistic at hold ⊢
    dsimp only
    omega
  | rollback i =>
    obtain ⟨a, ha, rfl⟩ := map_eq_some_iff.mp hs
    exact h.rollback ha
  | finalizeCheckpoint =>
    cases hs
    exact h.finalizeCheckpoint
  | rollbackCheckpoint =>
    cases hs
    have hscheduled : ∀ p, cover ({ s with manager := s.manager.rollbackCheckpoint } : PageRun).scheduled p = 0 :=
      fun _ => rfl
    have hfree : ∀ p, cover ({ s with manager := s.manager.rollbackCheckpoint } : PageRun).free p = cover s.free p :=
      fun _ => rfl
    refine ⟨fun p => ?_, fun p hp => ?_, h.optimistic⟩
    · have honce := h.once p
      rw [hscheduled, hfree]
      dsimp only
      omega
    · have hwithin := h.within p hp
      rw [hscheduled, hfree]
      dsimp only
      omega

/-- A file whose pages have one place each, before the first transaction. -/
structure Sound (s : PageRun) : Prop where
  disjoint : (s.free ++ s.scheduled ++ s.owned).Pairwise PageRange.Disjoint
  within : ∀ r ∈ s.free ++ s.scheduled ++ s.owned, r.numPages = 0 ∨ r.endPageIdx ≤ s.manager.numPages
  idle : s.allocators = []

theorem Sound.inv (h : Sound s) : Inv s := by
  have honce := pairwise_disjoint_iff.mp h.disjoint
  simp only [cover_append] at honce
  refine ⟨honce, fun p hp => ?_, fun p => ?_⟩
  · rw [← cover_append, ← cover_append, cover_eq_zero_iff]
    intro r hr
    rw [times_eq_zero_iff]
    have hwithin := h.within r hr
    unfold endPageIdx at hwithin
    omega
  · simp [PageRun.optimistic, h.idle]

/-- As long as no page is freed whose optimistic allocator is still open, the
free ranges, those that wait for a checkpoint and those that belong to somebody
have no page in common, and nobody is given a page that belongs to another. -/
theorem page_ranges_disjoint (hinit : Sound init) (h : Reachable (guarded orderly step) init s) :
    (s.free ++ s.scheduled ++ s.owned).Pairwise PageRange.Disjoint ∧
    ∀ n room r m', s.manager.allocatePageRange n room = (some r, m') → ∀ o ∈ s.owned, r.Disjoint o := by
  have hinv : Inv s := h.invariant hinit.inv fun _ _ _ hi hs => hi.step hs
  refine ⟨pairwise_disjoint_iff.mpr fun p => ?_, fun n room r m' hm o ho p => ?_⟩
  · simpa only [cover_append] using hinv.once p
  · have hnext := (hinv.allocate hm fun p => Nat.le_add_left _ _).once p
    simp only [toList_some, cover_append, cover_cons] at hnext
    have hle := times_le_cover (p := p) ho
    omega

section Runs

/-- A page that an optimistic allocator took is freed before the allocator is
rolled back, and so twice: it is given to two owners. -/
theorem page_given_twice :
    (run step {} [.addOptimisticAllocator, .allocateOptimistically 0 1 8, .freePageRange ⟨0, 1⟩, .rollback 0]).map
      (fun s => (s.free, s.scheduled, s.owned)) = some ([⟨0, 1⟩], [⟨0, 1⟩], []) ∧
    (run step {} [.addOptimisticAllocator, .allocateOptimistically 0 1 8, .allocatePageRange 1 7, .freePageRange ⟨0, 1⟩,
      .rollback 0, .allocatePageRange 1 7, .finalizeCheckpoint, .allocatePageRange 1 7]).map (·.owned) =
        some [⟨0, 1⟩, ⟨0, 1⟩, ⟨1, 1⟩] := by
  decide +kernel

theorem sound_new : Sound {} := ⟨by simp [free, scheduled, entries], by
  simp [free, scheduled, entries], rfl⟩

/-- Two pages are free behind a page that somebody has. -/
theorem page_ranges_disjoint_split :
    ∃ s, run (guarded orderly step) {} [.allocatePageRange 4 8, .freePageRange ⟨1, 2⟩, .finalizeCheckpoint] = some s ∧
      s.free = [⟨1, 2⟩] ∧ (s.free ++ s.scheduled ++ s.owned).Pairwise PageRange.Disjoint := by
  have hrun : (run (guarded orderly step) {} [.allocatePageRange 4 8, .freePageRange ⟨1, 2⟩, .finalizeCheckpoint]).any
      (fun s => s.free = [⟨1, 2⟩]) = true := by
    decide +kernel
  obtain ⟨s, hs, hfree⟩ := (any_eq_true _ _).mp hrun
  exact ⟨s, hs, of_decide_eq_true hfree, (page_ranges_disjoint sound_new (Reachable.init.run hs)).1⟩

end Runs

end PageRun

end Rag3db.Storage
