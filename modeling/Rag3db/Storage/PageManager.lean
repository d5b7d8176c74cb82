import Mathlib

namespace Rag3db.Storage

structure PageRange where
  startPageIdx : Nat
  numPages : Nat
  deriving DecidableEq

namespace PageRange

def endPageIdx (r : PageRange) : Nat := r.startPageIdx + r.numPages

/-- Shorter ranges come first, and of two ranges of one length the one that starts first. -/
def entryCmp (a b : PageRange) : Bool :=
  if a.numPages = b.numPages then a.startPageIdx < b.startPageIdx else a.numPages < b.numPages

end PageRange

/-- Free ranges by the exponent of their length, each list in the order of `entryCmp`. -/
structure FreeSpaceManager where
  freeLists : List (List PageRange) := []
  uncheckpointedFreePageRanges : List PageRange := []
  numEntries : Nat := 0

namespace FreeSpaceManager

/-- The exponent of the largest power of two up to `numPages`; the trailing zeros of 0 are all 32 bits. -/
def getLevel (numPages : Nat) : Nat := if numPages = 0 then 32 else numPages.log2

/-- The insertion into a sorted set, which holds no entry twice. -/
def insertEntry (entry : PageRange) : List PageRange → List PageRange
  | [] => [entry]
  | e :: es =>
    if entry.entryCmp e then entry :: e :: es
    else if e.entryCmp entry then e :: insertEntry entry es
    else e :: es

variable (fsm : FreeSpaceManager)

def resized (level : Nat) : List (List PageRange) :=
  fsm.freeLists ++ List.replicate (level + 1 - fsm.freeLists.length) []

def addFreePages (entry : PageRange) : FreeSpaceManager :=
  let level := getLevel entry.numPages
  { fsm with
    freeLists := (fsm.resized level).modify level (insertEntry entry)
    numEntries := fsm.numEntries + 1 }

def addUncheckpointedFreePages (entry : PageRange) : FreeSpaceManager :=
  { fsm with uncheckpointedFreePageRanges := fsm.uncheckpointedFreePageRanges ++ [entry] }

def rollbackCheckpoint : FreeSpaceManager := { fsm with uncheckpointedFreePageRanges := [] }

/-- The level and the entry at which the search for `numPages` pages ends. -/
def lowerBound (numPages : Nat) : Option (Nat × PageRange) :=
  let level := getLevel numPages
  (List.range' level (fsm.freeLists.length - level)).findSome? fun l =>
    ((fsm.freeLists.getD l []).find? fun e => !e.entryCmp ⟨0, numPages⟩).map fun e => (l, e)

/-- The first pages of a range; the others go back to the free lists. -/
def splitPageRange (chunk : PageRange) (numRequiredPages : Nat) : PageRange × FreeSpaceManager :=
  (⟨chunk.startPageIdx, numRequiredPages⟩,
    if numRequiredPages < chunk.numPages then
      fsm.addFreePages ⟨chunk.startPageIdx + numRequiredPages, chunk.numPages - numRequiredPages⟩
    else fsm)

def popFreePages (numPages : Nat) : Option (PageRange × FreeSpaceManager) :=
  if numPages = 0 then none
  else (fsm.lowerBound numPages).map fun (level, entry) =>
    splitPageRange { fsm with
      freeLists := fsm.freeLists.modify level (·.erase entry)
      numEntries := fsm.numEntries - 1 } entry numPages

/-- The walk of a `FreeEntryIterator`: the list it stands in, and then the lists
behind it. -/
def serializeCheckpointedEntries : List (List PageRange) → List Nat
  | [] => []
  | list :: freeLists =>
    list.foldr (fun entry values => entry.startPageIdx :: entry.numPages :: values)
      (serializeCheckpointedEntries freeLists)

def serializeUncheckpointedEntries (uncheckpointedEntries : List PageRange) : List Nat :=
  uncheckpointedEntries.flatMap fun entry => [entry.startPageIdx, entry.numPages]

def serialize : List Nat :=
  (fsm.numEntries + fsm.uncheckpointedFreePageRanges.length) :: (serializeCheckpointedEntries fsm.freeLists ++
      serializeUncheckpointedEntries fsm.uncheckpointedFreePageRanges)

def deserializeEntries : FreeSpaceManager → Nat → List Nat → Option FreeSpaceManager
  | fsm, 0, _ => some fsm
  | fsm, numEntries + 1, startPageIdx :: numPages :: values =>
    deserializeEntries (fsm.addFreePages ⟨startPageIdx, numPages⟩) numEntries values
  | _, _ + 1, _ => none

def deserialize : List Nat → Option FreeSpaceManager
  | [] => none
  | numEntries :: values => fsm.deserializeEntries numEntries values

/-- The range at the end of the file is cut off; what is left of the file is returned with the free lists. -/
def handleLastPageRange (pageRange : PageRange) (numPagesInFile : Nat) : FreeSpaceManager × Nat :=
  if pageRange.endPageIdx = numPagesInFile then (fsm, min numPagesInFile pageRange.startPageIdx)
  else (fsm.addFreePages pageRange, numPagesInFile)

def mergeSorted (numPagesInFile : Nat) : FreeSpaceManager → PageRange → List PageRange → FreeSpaceManager × Nat
  | fsm, prevEntry, [] => fsm.handleLastPageRange prevEntry numPagesInFile
  | fsm, prevEntry, entry :: rest =>
    if prevEntry.endPageIdx = entry.startPageIdx then
      mergeSorted numPagesInFile fsm { prevEntry with numPages := prevEntry.numPages + entry.numPages } rest
    else mergeSorted numPagesInFile (fsm.addFreePages prevEntry) entry rest

def mergePageRanges (newInitialEntries : List PageRange) (numPagesInFile : Nat) : FreeSpaceManager × Nat :=
  match (newInitialEntries ++ fsm.freeLists.flatten).insertionSort (·.startPageIdx ≤ ·.startPageIdx) with
  | [] => (fsm, numPagesInFile)
  | prevEntry :: rest => mergeSorted numPagesInFile { fsm with freeLists := [], numEntries := 0 } prevEntry rest

def finalizeCheckpoint (numPagesInFile : Nat) : FreeSpaceManager × Nat :=
  let merged := fsm.mergePageRanges fsm.uncheckpointedFreePageRanges numPagesInFile
  ({ merged.1 with uncheckpointedFreePageRanges := [] }, merged.2)

end FreeSpaceManager

/-- The pages for which there are frames: the size of the memory region over that of a page. -/
def maxNumPages : Nat := 2 ^ 31

structure PageManager where
  freeSpaceManager : FreeSpaceManager := {}
  numPages : Nat := 0
  version : Nat := 0

namespace PageManager

variable (m : PageManager)

/-- New pages at the end of the file, one after the other. There are frames for
`room` of them; the next one raises an exception. -/
def addNewPages (numNewPages room : Nat) : Option Nat × PageManager :=
  let room := min room (maxNumPages - m.numPages)
  if numNewPages ≤ room then (some m.numPages, { m with numPages := m.numPages + numNewPages })
  else (none, { m with numPages := m.numPages + room })

def allocatePageRange (numPages room : Nat) : Option PageRange × PageManager :=
  match m.freeSpaceManager.popFreePages numPages with
  | some (pageRange, fsm) => (some pageRange, { m with freeSpaceManager := fsm, version := m.version + 1 })
  | none =>
    let (startPageIdx, m) := m.addNewPages numPages room
    (startPageIdx.map fun start => ⟨start, numPages⟩, m)

def freePageRange (entry : PageRange) : PageManager :=
  { m with freeSpaceManager := m.freeSpaceManager.addUncheckpointedFreePages entry, version := m.version + 1 }

def freeImmediatelyRewritablePageRange (entry : PageRange) : PageManager :=
  { m with freeSpaceManager := m.freeSpaceManager.addFreePages entry, version := m.version + 1 }

def finalizeCheckpoint : PageManager :=
  let (fsm, numPages) := m.freeSpaceManager.finalizeCheckpoint m.numPages
  { m with freeSpaceManager := fsm, numPages }

def rollbackCheckpoint : PageManager := { m with freeSpaceManager := m.freeSpaceManager.rollbackCheckpoint }

end PageManager

/-- The pages that a `COPY` has written before its transaction commits. -/
structure OptimisticAllocator where
  optimisticallyAllocatedPages : List PageRange := []

namespace OptimisticAllocator

variable (a : OptimisticAllocator) (m : PageManager)

def allocatePageRange (numPages room : Nat) : Option PageRange × OptimisticAllocator × PageManager :=
  let (pageRange, m) := m.allocatePageRange numPages room
  (pageRange,
    ⟨if numPages > 0 then a.optimisticallyAllocatedPages ++ pageRange.toList else a.optimisticallyAllocatedPages⟩, m)

def freePageRange (_ : OptimisticAllocator) (block : PageRange) : PageManager := m.freePageRange block

def rollback : OptimisticAllocator × PageManager :=
  ({}, a.optimisticallyAllocatedPages.foldl (·.freeImmediatelyRewritablePageRange ·) m)

def commit (_ : OptimisticAllocator) : OptimisticAllocator := {}

end OptimisticAllocator

end Rag3db.Storage
