import Rag3db.Storage.FreeSpace

open List Option

namespace Rag3db.Storage

open Library.Transition PageRange FreeSpaceManager

namespace PageManager

def released (m : PageManager) : List PageRange := m.freeSpaceManager.released

def inUse (m : PageManager) (block : PageRange) : Bool :=
  0 < block.numPages && (List.range' block.startPageIdx block.numPages).all fun p => cover m.released p = 0

variable {m : PageManager} {block : PageRange}

theorem fresh_of_inUse (h : WellFormed m.freeSpaceManager) (hb : m.inUse block = true) :
    0 < block.numPages ∧ ∀ p, block.times p + cover m.released p ≤ 1 := by
  obtain ⟨hpos, hall⟩ := Bool.and_eq_true_iff.mp hb
  refine ⟨of_decide_eq_true hpos, fun p => ?_⟩
  by_cases hp : block.times p = 0
  · rw [hp, Nat.zero_add]
    exact h.once p
  · rw [times_eq_zero_iff, not_not] at hp
    have : cover m.released p = 0 := of_decide_eq_true (all_eq_true.mp hall p (mem_range'_1.mpr hp))
    rw [this]
    exact block.times_le_one p

theorem wellFormed_allocatePageRange (h : WellFormed m.freeSpaceManager) (numPages room : Nat) :
    WellFormed (m.allocatePageRange numPages room).2.freeSpaceManager := by
  unfold PageManager.allocatePageRange
  cases hpop : m.freeSpaceManager.popFreePages numPages with
  | some popped => exact (h.popFreePages hpop).1
  | none =>
    unfold addNewPages
    dsimp only
    split_ifs <;> exact h

/-- What the file has beyond the extent of the header is free. -/
def returnOwnerlessPages (m : PageManager) (numDataPages : Nat) : PageManager :=
  if m.numPages ≤ numDataPages then m
  else m.freeImmediatelyRewritablePageRange ⟨numDataPages, m.numPages - numDataPages⟩

end PageManager

/-- The page manager, and what is on disk: the pages of the file, and of the last
checkpoint the extent that it wrote to the header and the free lists that stand
in the metadata. -/
structure DatabaseFile where
  manager : PageManager
  numPagesInFile : Nat
  numDataPages : Nat
  metadata : Option (List Nat) := none

/-- The calls that change the free space. A block is freed by somebody who uses
its pages, as the catalog and the metadata of the checkpoint before are by a
checkpoint that rewrites them. -/
inductive SpaceAction
  | allocatePageRange (numPages room : Nat)
  | freePageRange (block : PageRange)
  | freeImmediatelyRewritablePageRange (block : PageRange)
  | writePage (pageIdx : Nat)
  | writeCheckpoint (hasChanges : Bool)
  | rollbackCheckpoint
  | readCheckpoint

namespace DatabaseFile

variable (f : DatabaseFile)

/-- The header takes the first page. -/
def new : DatabaseFile := { manager := { numPages := 1 }, numPagesInFile := 1, numDataPages := 1 }

/-- The end of a checkpoint. The metadata is written again only if there is none,
if the tables or the catalog have changed, or if the page manager has; the extent
is written each time. The page manager cuts a free tail off its count of the
pages, not off the file. -/
def writeCheckpoint (hasChanges : Bool) : DatabaseFile :=
  { f with
    metadata :=
      if f.metadata.isNone || hasChanges || f.manager.version ≠ 0 then some f.manager.freeSpaceManager.serialize
      else f.metadata
    numDataPages := f.manager.numPages
    manager := { f.manager.finalizeCheckpoint with version := 0 } }

/-- The database is opened again to be written. -/
def readCheckpoint : Option DatabaseFile :=
  (f.metadata.elim (some {}) (deserialize {})).map fun fsm =>
    { f with
      manager := PageManager.returnOwnerlessPages { freeSpaceManager := fsm, numPages := f.numPagesInFile }
        f.numDataPages }

def step : SpaceAction → Option DatabaseFile
  | .allocatePageRange numPages room => some { f with manager := (f.manager.allocatePageRange numPages room).2 }
  | .freePageRange block =>
    if f.manager.inUse block then some { f with manager := f.manager.freePageRange block } else none
  | .freeImmediatelyRewritablePageRange block =>
    if f.manager.inUse block then some { f with manager := f.manager.freeImmediatelyRewritablePageRange block }
    else none
  | .writePage pageIdx =>
    if pageIdx < f.manager.numPages then some { f with numPagesInFile := max f.numPagesInFile (pageIdx + 1) }
    else none
  | .writeCheckpoint hasChanges => some (f.writeCheckpoint hasChanges)
  | .rollbackCheckpoint => some { f with manager := f.manager.rollbackCheckpoint }
  | .readCheckpoint => f.readCheckpoint

/-- What the stored free lists are read as. -/
def stored : PageManager := { freeSpaceManager := (f.metadata.elim (some {}) (deserialize {})).getD {} }

/-- A database is opened only while no stored free range reaches beyond the extent
into the rest of the file. -/
def unlisted : SpaceAction → Bool
  | .readCheckpoint =>
    f.numPagesInFile ≤ f.numDataPages || f.stored.inUse ⟨f.numDataPages, f.numPagesInFile - f.numDataPages⟩
  | _ => true

variable {f} {f' : DatabaseFile}

structure Inv (f : DatabaseFile) : Prop where
  free : WellFormed f.manager.freeSpaceManager
  metadata : ∃ fsm, f.metadata.elim (some {}) (deserialize {}) = some fsm ∧ WellFormed fsm

theorem Inv.writeCheckpoint (h : Inv f) (hasChanges : Bool) : Inv (f.writeCheckpoint hasChanges) := by
  refine ⟨(h.free.finalizeCheckpoint f.manager.numPages).1, ?_⟩
  unfold DatabaseFile.writeCheckpoint
  dsimp only
  split_ifs
  · obtain ⟨fsm, hread, hwf, -⟩ := h.free.deserialize
    exact ⟨fsm, hread, hwf⟩
  · exact h.metadata

theorem Inv.readCheckpoint (h : Inv f) (hopen : f.unlisted .readCheckpoint = true)
    (hs : f.readCheckpoint = some f') : Inv f' := by
  obtain ⟨fsm, hread, hwf⟩ := h.metadata
  obtain ⟨fsm', hread', rfl⟩ := map_eq_some_iff.mp hs
  cases hread.symm.trans hread'
  refine ⟨?_, h.metadata⟩
  unfold PageManager.returnOwnerlessPages
  split_ifs with hle
  · exact hwf
  · have hstored : f.stored = { freeSpaceManager := fsm } := by rw [stored, hread, getD_some]
    rw [unlisted, Bool.or_eq_true, decide_eq_true_iff, hstored] at hopen
    obtain ⟨hpos, hfresh⟩ := PageManager.fresh_of_inUse hwf (hopen.resolve_left hle)
    exact (hwf.addFreePages hpos hfresh).1

theorem Inv.step {a : SpaceAction} (h : Inv f) (hs : guarded unlisted DatabaseFile.step f a = some f') : Inv f' := by
  obtain ⟨hg, hs⟩ := guarded_eq_some.mp hs
  cases a with
  | allocatePageRange n room =>
    cases hs
    exact ⟨PageManager.wellFormed_allocatePageRange h.free n room, h.metadata⟩
  | freePageRange block =>
    obtain ⟨hb, hs⟩ := ite_none_right_eq_some.mp hs
    cases hs
    obtain ⟨hpos, hfresh⟩ := PageManager.fresh_of_inUse h.free hb
    exact ⟨h.free.addUncheckpointedFreePages hpos hfresh, h.metadata⟩
  | freeImmediatelyRewritablePageRange block =>
    obtain ⟨hb, hs⟩ := ite_none_right_eq_some.mp hs
    cases hs
    obtain ⟨hpos, hfresh⟩ := PageManager.fresh_of_inUse h.free hb
    exact ⟨(h.free.addFreePages hpos hfresh).1, h.metadata⟩
  | writePage pageIdx =>
    obtain ⟨-, hs⟩ := ite_none_right_eq_some.mp hs
    cases hs
    exact ⟨h.free, h.metadata⟩
  | writeCheckpoint hasChanges =>
    cases hs
    exact h.writeCheckpoint hasChanges
  | rollbackCheckpoint =>
    cases hs
    exact ⟨h.free.rollbackCheckpoint, h.metadata⟩
  | readCheckpoint => exact h.readCheckpoint hg hs

theorem inv_of_reachable (h : Reachable (guarded unlisted step) new f) : Inv f :=
  h.invariant ⟨wellFormed_empty, {}, rfl, wellFormed_empty⟩ fun _ _ _ hf hs => hf.step hs

/-- Storing the free space and reading it back keeps the free pages, with those
that waited for the checkpoint. -/
theorem deserialize_serialize (h : Reachable (guarded unlisted step) new f) :
    ∃ fsm, deserialize {} f.manager.freeSpaceManager.serialize = some fsm ∧
      pages fsm.entries = pages f.manager.released ∧ fsm.uncheckpointedFreePageRanges = [] := by
  obtain ⟨fsm, hread, -, hscheduled, hperm⟩ := (inv_of_reachable h).free.deserialize
  refine ⟨fsm, hread, Set.ext fun p => ?_, hscheduled⟩
  rw [mem_pages_iff, mem_pages_iff, cover_perm hperm]
  rfl

section Runs

/-- Two tables and their metadata, stored by two checkpoints; the metadata moves
behind the tables. -/
def stocked : List SpaceAction :=
  [.allocatePageRange 1 8, .allocatePageRange 2 8, .writePage 3, .writeCheckpoint true,
    .allocatePageRange 4 8, .allocatePageRange 5 8, .writePage 12,
    .freePageRange ⟨2, 2⟩, .allocatePageRange 2 8, .writePage 14, .writeCheckpoint true]

/-- The second table is dropped, and the checkpoint stores the tail of the file
as free and cuts it off. -/
def dropped : List SpaceAction :=
  stocked ++ [.freePageRange ⟨8, 5⟩, .freePageRange ⟨13, 2⟩, .allocatePageRange 2 8, .writeCheckpoint true]

theorem deserialize_serialize_stocked :
    ∃ f, run (guarded unlisted step) new (stocked ++ [.freePageRange ⟨8, 5⟩]) = some f ∧
      f.manager.freeSpaceManager.serialize = [2, 2, 2, 8, 5] ∧
      ∃ fsm, deserialize {} f.manager.freeSpaceManager.serialize = some fsm ∧
        pages fsm.entries = pages f.manager.released := by
  obtain ⟨f, hrun, h⟩ : ∃ f, run (guarded unlisted step) new (stocked ++ [.freePageRange ⟨8, 5⟩]) = some f ∧
      decide (f.manager.freeSpaceManager.serialize = [2, 2, 2, 8, 5]) = true :=
    (any_eq_true _ _).mp (by decide +kernel)
  obtain ⟨fsm, hread, hpages, -⟩ := deserialize_serialize (Reachable.init.run hrun)
  exact ⟨f, hrun, of_decide_eq_true h, fsm, hread, hpages⟩

/-- The metadata moves behind the first table, back and behind it again, so that
the dropped table is the whole tail. -/
def moved : List SpaceAction :=
  [.allocatePageRange 1 8, .allocatePageRange 2 8, .writePage 3, .writeCheckpoint true,
    .allocatePageRange 2 8, .freePageRange ⟨2, 2⟩, .allocatePageRange 2 8, .writePage 7, .writeCheckpoint true,
    .allocatePageRange 5 8, .writePage 12, .freePageRange ⟨6, 2⟩, .allocatePageRange 2 8, .writeCheckpoint true,
    .freePageRange ⟨8, 5⟩, .freePageRange ⟨2, 2⟩, .allocatePageRange 2 8, .writeCheckpoint true]

/-- The opening frees the tail as the range that the stored lists have already.
The set keeps one of the two and the counter counts both, so that whatever stands
behind the free lists is read as a free range. -/
theorem free_range_counted_twice : ∃ f, run step new (moved ++ [.writeCheckpoint false, .readCheckpoint]) = some f ∧
      (f.manager.released = [⟨2, 2⟩, ⟨8, 5⟩] && f.manager.freeSpaceManager.serialize = [3, 2, 2, 8, 5] &&
        (deserialize {} f.manager.freeSpaceManager.serialize).isNone &&
        (deserialize {} (f.manager.freeSpaceManager.serialize ++ [20, 3])).any fun fsm =>
          fsm.entries.contains ⟨20, 3⟩) = true :=
  (any_eq_true _ _).mp (by decide +kernel)

end Runs

end DatabaseFile

end Rag3db.Storage
