import Rag3db.Library.Registers
import Rag3db.Library.Transition

namespace Rag3db.Weaver

/-- The name of an index and of a file in it. -/
abbrev BlobKey := String × String

abbrev Blob := List UInt8

abbrev Blobs := AList fun _ : BlobKey => Blob

structure FlushStats where
  savesReceived : Nat
  bytesReceived : Nat
  savesPushed : Nat
  bytesPushed : Nat

structure Pending where
  writes : Blobs := ∅
  savesReceived : Nat := 0
  bytesReceived : Nat := 0

/-- The three calls that look into the buffer and then into the store. -/
inductive BlobRead
  | load
  | existence
  | blobLen

/-- What a call has answered. Reads and listings also say how many writes there
had been when they began. -/
inductive BlobReply
  | saved
  | deleted
  | flushed (stats : FlushStats)
  | loaded (key : BlobKey) (start : Nat) (data : Option Blob)
  | found (key : BlobKey) (start : Nat) (there : Bool)
  | length (key : BlobKey) (start : Nat) (bytes : Option Nat)
  | listed (index : String) (start : Nat) (names : List String)
  | failed (e : String)

def BlobRead.answer (kind : BlobRead) (key : BlobKey) (start : Nat) (data : Option Blob) : BlobReply :=
  match kind with
  | .load => .loaded key start data
  | .existence => .found key start data.isSome
  | .blobLen => .length key start (data.map List.length)

/-- Where the call of a thread is: what it does next is under the lock of the
buffer or one call to the store below. -/
inductive BlobCall
  | idle
  | reading (kind : BlobRead) (key : BlobKey) (start : Nat)
  | deleting (key : BlobKey) (dropped : Option Blob)
  | listing (index : String) (start : Nat)
  | merging (index : String) (start : Nat) (names : List String)
  | flushing (left backup : List (BlobKey × Blob)) (stats : FlushStats)
  | restoring (backup : List (BlobKey × Blob)) (stats : FlushStats) (e : String)
  | answered (reply : BlobReply)

inductive BlobAction
  | save (key : BlobKey) (data : Blob)
  | read (kind : BlobRead) (key : BlobKey)
  | delete (key : BlobKey)
  | list (index : String)
  | flush
  | inner (answer : Except String Unit)
  | push (n : Nat) (answer : Except String Unit)
  | go

/-- The buffer, the store below, the calls of all threads, and the writes that
have taken effect; `base` is what the store held at the start. -/
structure BlobSystem where
  base : BlobKey → Option Blob
  pending : Pending
  inner : Blobs
  calls : Nat → BlobCall
  log : List (BlobKey × Option Blob)

namespace BlobSystem

def start (inner : Blobs) : BlobSystem where
  base key := inner.lookup key
  pending := {}
  inner := inner
  calls _ := .idle
  log := []

variable (s : BlobSystem)

def become (t : Nat) (call : BlobCall) : BlobSystem := { s with calls := Function.update s.calls t call }

def save (t : Nat) (key : BlobKey) (data : Blob) : BlobSystem :=
  { s with
    pending :=
      { writes := s.pending.writes.insert key data
        savesReceived := s.pending.savesReceived + 1
        bytesReceived := s.pending.bytesReceived + data.length }
    log := (key, some data) :: s.log
    calls := Function.update s.calls t (.answered .saved) }

def read (t : Nat) (kind : BlobRead) (key : BlobKey) : BlobSystem :=
  match s.pending.writes.lookup key with
  | some data => s.become t (.answered (kind.answer key s.log.length (some data)))
  | none => s.become t (.reading kind key s.log.length)

def delete (t : Nat) (key : BlobKey) : BlobSystem :=
  { s with
    pending := { s.pending with writes := s.pending.writes.erase key }
    calls := Function.update s.calls t (.deleting key (s.pending.writes.lookup key)) }

/-- The store has deleted the key. A write that has come in since stands. -/
def deleteInner (t : Nat) (key : BlobKey) : BlobSystem :=
  { s with
    inner := s.inner.erase key
    log := if (s.pending.writes.lookup key).isSome then s.log else (key, none) :: s.log
    calls := Function.update s.calls t (.answered .deleted) }

def files (blobs : Blobs) (index : String) : List String := (blobs.keys.filter (·.1 = index)).map (·.2)

def merge (t : Nat) (index : String) (began : Nat) (names : List String) : BlobSystem :=
  let all := names ++ (files s.pending.writes index).filter (· ∉ names)
  s.become t (.answered (.listed index began (all.insertionSort (· ≤ ·))))

def items (blobs : Blobs) : List (BlobKey × Blob) := blobs.entries.map fun e => (e.1, e.2)

def flush (t : Nat) : BlobSystem :=
  let taken := items s.pending.writes
  let stats : FlushStats := ⟨s.pending.savesReceived, s.pending.bytesReceived, 0, 0⟩
  { s with
    pending := {}
    calls := Function.update s.calls t (if taken.isEmpty then .answered (.flushed stats)
      else
        .flushing taken taken
          { stats with savesPushed := taken.length, bytesPushed := (taken.map fun p => p.2.length).sum }) }

def insertAll (blobs : Blobs) (pushed : List (BlobKey × Blob)) : Blobs :=
  pushed.foldl (fun b p => b.insert p.1 p.2) blobs

/-- `n` of the taken blobs reach the store in one call: one at a time, or all
where the store takes them in a batch. -/
def push (t n : Nat) (left backup : List (BlobKey × Blob)) (stats : FlushStats) : BlobSystem :=
  { s with
    inner := insertAll s.inner (left.take n)
    calls := Function.update s.calls t
      (if (left.drop n).isEmpty then .answered (.flushed stats) else .flushing (left.drop n) backup stats) }

def orInsert (blobs : Blobs) (p : BlobKey × Blob) : Blobs :=
  if (blobs.lookup p.1).isSome then blobs else blobs.insert p.1 p.2

/-- After a failure everything goes back, but where a write is newer. -/
def restore (t : Nat) (backup : List (BlobKey × Blob)) (stats : FlushStats) (e : String) : BlobSystem :=
  { s with
    pending :=
      { writes := backup.foldl orInsert s.pending.writes
        savesReceived := s.pending.savesReceived + stats.savesReceived
        bytesReceived := s.pending.bytesReceived + stats.bytesReceived }
    calls := Function.update s.calls t (.answered (.failed e)) }

def begin (t : Nat) : BlobAction → Option BlobSystem
  | .save key data => some (s.save t key data)
  | .read kind key => some (s.read t kind key)
  | .delete key => some (s.delete t key)
  | .list index => some (s.become t (.listing index s.log.length))
  | .flush => some (s.flush t)
  | _ => none

def step : Nat × BlobAction → Option BlobSystem
  | (t, a) =>
    match s.calls t, a with
    | .idle, a => s.begin t a
    | .answered _, a => s.begin t a
    | .reading kind key began, .inner (.ok _) =>
      some (s.become t (.answered (kind.answer key began (s.inner.lookup key))))
    | .deleting key _, .inner (.ok _) => some (s.deleteInner t key)
    | .listing index began, .inner (.ok _) => some (s.become t (.merging index began (files s.inner index)))
    | .merging index began names, .go => some (s.merge t index began names)
    | .flushing left backup stats, .push n (.ok _) =>
      if 0 < n then some (s.push t n left backup stats) else none
    | .flushing _ backup stats, .push _ (.error e) => some (s.become t (.restoring backup stats e))
    | .restoring backup stats e, .go => some (s.restore t backup stats e)
    | .reading .., .inner (.error e) => some (s.become t (.answered (.failed e)))
    | .deleting .., .inner (.error e) => some (s.become t (.answered (.failed e)))
    | .listing .., .inner (.error e) => some (s.become t (.answered (.failed e)))
    | _, _ => none

end BlobSystem

end Rag3db.Weaver
