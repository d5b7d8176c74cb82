import Rag3db.Storage.PageRuns

open List

namespace Rag3db.Storage

open Library.Transition

/-- What a checkpoint asks of the page manager, and when it first changes what is served. -/
inductive CheckpointCall
  | scan
  | markChangedMemory
  | allocatePageRange (numPages room : Nat)
  | freePageRange (block : PageRange)
  deriving DecidableEq

/-- The work on a node group: the pages of its new block, and those that its old blocks give back. -/
structure GroupWork where
  allDeleted : Bool
  flushed : List (Nat × Nat)
  retired : List PageRange

/-- `NodeGroup::checkpoint`: the rows are copied into memory before anything is written. -/
def GroupWork.calls (w : GroupWork) : List CheckpointCall :=
  (if w.allDeleted then [.markChangedMemory] else [.scan, .markChangedMemory]) ++
    (w.flushed.map (fun f => .allocatePageRange f.1 f.2) ++ .markChangedMemory :: w.retired.map .freePageRange)

inductive TableWork
  | node (hasChanges : Bool) (groups : List GroupWork) (indexes : List CheckpointCall)
  | rel (hasChanges : Bool) (directedRelData : List CheckpointCall)

def TableWork.calls : TableWork → List CheckpointCall
  | node hasChanges groups indexes =>
    if hasChanges then groups.flatMap GroupWork.calls ++ .markChangedMemory :: indexes else []
  | rel hasChanges directedRelData => if hasChanges then .markChangedMemory :: directedRelData else []

/-- The tables, the pages of those that have been dropped, and the catalog, the metadata and the header. -/
structure CheckpointWork where
  tables : List TableWork
  dropped : List (List PageRange)
  metadata : List CheckpointCall

/-- `Checkpointer::writeCheckpoint` up to the end of its work on the pages. -/
def CheckpointWork.calls (w : CheckpointWork) : List CheckpointCall :=
  w.tables.flatMap TableWork.calls ++
    (w.dropped.flatMap (fun blocks => .markChangedMemory :: blocks.map .freePageRange) ++
      .markChangedMemory :: w.metadata)

/-- The page manager after some calls, and the pages that have been handed out. -/
def PageManager.answer : PageManager → List CheckpointCall → PageManager × List PageRange
  | m, [] => (m, [])
  | m, .scan :: calls | m, .markChangedMemory :: calls => m.answer calls
  | m, .allocatePageRange numPages room :: calls =>
    let (pageRange, m) := m.allocatePageRange numPages room
    let (m, taken) := m.answer calls
    (m, pageRange.toList ++ taken)
  | m, .freePageRange block :: calls => (m.freePageRange block).answer calls

/-- What the page manager is to be after a checkpoint that has been refused. -/
structure PageRun.Restored (s : PageRun) (taken : List PageRange) (m : PageManager) : Prop where
  free : ∀ p, 0 < cover s.free p → 0 < cover m.freeSpaceManager.entries p
  scheduled : ∀ p, 0 < cover s.scheduled p → 0 < cover m.freeSpaceManager.uncheckpointedFreePageRanges p
  taken : ∀ p, 0 < cover taken p → 0 < cover m.freeSpaceManager.entries p
  owned : ∀ p, 0 < cover s.owned p → cover m.freeSpaceManager.entries p = 0

section Calls

variable {calls l l' : List CheckpointCall}

/-- Nothing is asked of the page manager before memory is marked as changed. -/
def Marked (l : List CheckpointCall) : Prop :=
  ∀ calls, calls <+: l → .markChangedMemory ∉ calls → ∀ c ∈ calls, c = .scan

theorem Marked.nil : Marked [] := fun calls h _ => by simp [prefix_nil.mp h]

theorem Marked.mark : Marked (.markChangedMemory :: l) := by
  intro calls h hmark
  cases calls with
  | nil => simp
  | cons c calls => exact absurd ((cons_prefix_cons.mp h).1 ▸ mem_cons_self) hmark

theorem Marked.scan (h : Marked l) : Marked (.scan :: l) := by
  intro calls hp hmark
  cases calls with
  | nil => simp
  | cons c calls =>
    obtain ⟨rfl, hrest⟩ := cons_prefix_cons.mp hp
    exact forall_mem_cons.mpr ⟨rfl, h calls hrest fun hm => hmark (mem_cons_of_mem _ hm)⟩

theorem Marked.append (h : Marked l) (h' : Marked l') : Marked (l ++ l') := by
  intro calls hp hmark
  rcases prefix_or_prefix_of_prefix hp (prefix_append l l') with hl | ⟨rest, rfl⟩
  · exact h calls hl hmark
  · rw [mem_append, not_or] at hmark
    have hrest := h' rest ((prefix_append_right_inj l).mp hp) hmark.2
    exact forall_mem_append.mpr ⟨h l (prefix_refl l) hmark.1, hrest⟩

theorem Marked.flatMap {α : Type} {f : α → List CheckpointCall} (xs : List α) (h : ∀ x ∈ xs, Marked (f x)) :
    Marked (xs.flatMap f) := by
  induction xs with
  | nil => exact .nil
  | cons x xs ih =>
    exact (h x mem_cons_self).append (ih fun y hy => h y (mem_cons_of_mem _ hy))

theorem GroupWork.marked (w : GroupWork) : Marked w.calls := by
  unfold GroupWork.calls
  split_ifs
  · exact .mark
  · exact .scan .mark

theorem TableWork.marked (w : TableWork) : Marked w.calls := by
  cases w with
  | node hasChanges groups indexes =>
    simp only [TableWork.calls]
    split_ifs
    · exact (Marked.flatMap groups fun g _ => g.marked).append .mark
    · exact .nil
  | rel hasChanges directedRelData =>
    simp only [TableWork.calls]
    split_ifs
    · exact .mark
    · exact .nil

theorem CheckpointWork.marked (w : CheckpointWork) : Marked w.calls :=
  (Marked.flatMap w.tables fun t _ => t.marked).append ((Marked.flatMap w.dropped fun _ _ => .mark).append .mark)

theorem PageManager.answer_scans (m : PageManager) (h : ∀ c ∈ calls, c = .scan) : m.answer calls = (m, []) := by
  induction calls with
  | nil => rfl
  | cons c calls ih =>
    obtain ⟨rfl, hrest⟩ := forall_mem_cons.mp h
    exact ih hrest

end Calls

namespace PageRun

variable {init s : PageRun} {calls : List CheckpointCall}

/-- A checkpoint that fails before it has changed anything leaves the page
manager as it was if and only if no page waits for it to be freed. -/
theorem refused_checkpoint_restored_iff (hinit : Sound init) (h : Reachable (guarded orderly step) init s)
    (w : CheckpointWork) (hcalls : calls <+: w.calls) (hrefused : .markChangedMemory ∉ calls) :
    s.Restored (s.manager.answer calls).2 (s.manager.answer calls).1.rollbackCheckpoint ↔
      ∀ p, cover s.scheduled p = 0 := by
  have hinv : Inv s := h.invariant hinit.inv fun _ _ _ hi hs => hi.step hs
  rw [s.manager.answer_scans (w.marked calls hcalls hrefused)]
  refine ⟨fun hrestored p => Nat.eq_zero_of_not_pos fun hp => ?_, fun hnone => ⟨fun p hp => hp, ?_, ?_, ?_⟩⟩
  · exact absurd (hrestored.scheduled p hp) (by simp [PageManager.rollbackCheckpoint,
      FreeSpaceManager.rollbackCheckpoint])
  · exact fun p hp => absurd (hnone p) hp.ne'
  · exact fun p hp => absurd hp (by simp)
  · intro p hp
    have honce := hinv.once p
    have hfree : cover s.manager.rollbackCheckpoint.freeSpaceManager.entries p = cover s.free p := rfl
    dsimp only
    omega

section Runs

def copyOnly : CheckpointWork := ⟨[.node true [⟨false, [(1, 8)], []⟩] []], [], []⟩

/-- The pages of a column whose addition was rolled back are lost with a checkpoint that is refused. -/
theorem scheduled_pages_lost : [CheckpointCall.scan] <+: copyOnly.calls ∧
    (run step {} [.allocatePageRange 4 8, .freePageRange ⟨1, 2⟩]).map (fun s => (s.scheduled, s.owned)) =
      some ([⟨1, 2⟩], [⟨0, 1⟩, ⟨3, 1⟩]) ∧
    (run step {} [.allocatePageRange 4 8, .freePageRange ⟨1, 2⟩]).map (fun s =>
      let m := (s.manager.answer [.scan]).1.rollbackCheckpoint
      (m.freeSpaceManager.entries, m.freeSpaceManager.uncheckpointedFreePageRanges,
        m.finalizeCheckpoint.freeSpaceManager.entries, m.finalizeCheckpoint.numPages)) = some ([], [], [], 4) := by
  decide +kernel

/-- Free pages stay free. -/
theorem refused_checkpoint_restored_free :
    ∃ s, run (guarded orderly step) {} [.allocatePageRange 4 8, .freePageRange ⟨1, 2⟩, .finalizeCheckpoint] = some s ∧
      s.free = [⟨1, 2⟩] ∧
      s.Restored (s.manager.answer [.scan]).2 (s.manager.answer [.scan]).1.rollbackCheckpoint := by
  have hrun : (run (guarded orderly step) {} [.allocatePageRange 4 8, .freePageRange ⟨1, 2⟩, .finalizeCheckpoint]).any
      (fun s => s.free = [⟨1, 2⟩] && decide (s.scheduled = [])) = true := by
    decide +kernel
  obtain ⟨s, hs, hstate⟩ := (Option.any_eq_true _ _).mp hrun
  obtain ⟨hfree, hscheduled⟩ := (Bool.and_eq_true _ _).mp hstate
  refine ⟨s, hs, of_decide_eq_true hfree, ?_⟩
  refine (refused_checkpoint_restored_iff sound_new (Reachable.init.run hs) copyOnly (by decide) (by decide)).mpr ?_
  rw [of_decide_eq_true hscheduled]
  exact fun _ => rfl

end Runs

end PageRun

end Rag3db.Storage
