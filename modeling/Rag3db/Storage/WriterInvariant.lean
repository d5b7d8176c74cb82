import Rag3db.Storage.WriterRuns

open List

namespace Rag3db.Storage

variable {α : Type} {s s' : TableRun α} {x y : Writer α} {V : Set Nat} {id : Nat}

namespace Writer

def own (x : Writer α) : Set Nat :=
  match x.progress with
  | .raised (some stamp) => {x.id, stamp}
  | _ => {x.id}

theorem id_mem_own : x.id ∈ x.own := by
  unfold own
  split <;> simp

theorem own_of_working (h : x.progress = .working) : x.own = {x.id} := by simp [own, h]

/-- A record of a transaction that works: it has put no row into the table yet. -/
def Pending (x : Writer α) (table : NodeTable α) : UndoRecord → Prop
  | .insertInfo _ _ _ => False
  | .deleteInfo idx row n => n = 1 ∧ table.Deleted x.id x.snapshot.startTS idx row
  | .updateInfo _ _ _ _ version => version = x.id

theorem Pending.good {table : NodeTable α} {record : UndoRecord} (h : x.Pending table record) :
    record.Good x.own x.id x.snapshot.startTS table := by
  cases record with
  | insertInfo => exact h.elim
  | deleteInfo => exact ⟨h.1, h.2.holds id_mem_own⟩
  | updateInfo => exact h

/-- The transaction neither writes nor sees any of the versions. -/
structure Foreign (V : Set Nat) (x : Writer α) : Prop where
  own : ∀ v ∈ x.own, v ∉ V
  seen : ∀ v ≤ x.snapshot.startTS, v ∉ V

theorem Foreign.sees (h : Foreign V x) : ∀ v ∈ V, x.snapshot.sees v = false := by
  intro v hv
  by_contra hs
  rcases x.snapshot.sees_iff.mp (by simpa using hs) with rfl | hle
  · exact h.own _ id_mem_own hv
  · exact h.seen v hle hv

end Writer

namespace TableRun

/-- The numbers that the transaction manager has handed out. -/
structure Numbered (s : TableRun α) : Prop where
  time : s.lastTimestamp < startTransactionId
  issued : startTransactionId ≤ s.lastTransactionID ∧ s.lastTransactionID < invalidTransaction
  nodup : (s.active.map Writer.id).Nodup
  bounds : ∀ x ∈ s.active, startTransactionId ≤ x.id ∧ x.id ≤ s.lastTransactionID ∧ x.snapshot.startTS ≤ s.lastTimestamp
  stamped : ∀ x ∈ s.active, ∀ ts, x.progress = .raised (some ts) → 0 < ts ∧ ts ≤ s.lastTimestamp ∧
    ∀ y ∈ s.active, y.id ≠ x.id → y.snapshot.startTS < ts

/-- Where the rows of the transaction are whose commit has raised. -/
structure Unwindable (s : TableRun α) (r : Option (Writer α)) : Prop where
  raised : ∀ x, r = some x ↔ x ∈ s.active ∧ x.progress ≠ .working
  unwinds : ∃ start total, Unwinds (r.elim ∅ Writer.own) start total s.table (r.elim [] Writer.undoBuffer)

/-- What every careful step keeps. -/
structure Inv (s : TableRun α) : Prop extends Numbered s where
  sound : s.table.SoundBut ∅
  dated : ∀ {idx row : Nat} {c : Cell α}, s.table.cell idx row = some c → c.insertion ≤ s.lastTimestamp ∨
    startTransactionId ≤ c.insertion ∧ c.insertion ≤ s.lastTransactionID ∧
      ∀ x ∈ s.active, x.progress = .working → c.insertion ≠ x.id
  updates : s.table.Updates fun creator version => creator ≤ s.lastTransactionID ∧
    ∀ x ∈ s.active, creator = x.id → version ∈ x.own
  records : ∀ x ∈ s.active, ∀ record ∈ x.undoBuffer, record.Good x.own x.id x.snapshot.startTS s.table
  pending : ∀ x ∈ s.active, x.progress = .working → ∀ record ∈ x.undoBuffer, x.Pending s.table record
  unwindable : ∃ r, s.Unwindable r

section Active

theorem writer_eq_some (h : s.writer id = some x) : x ∈ s.active ∧ x.id = id :=
  ⟨mem_of_find?_eq_some h, by simpa using find?_some h⟩

theorem act_eq_some {f : Writer α → Option (TableRun α)} (h : (s.writer id).bind f = some s') :
    ∃ x ∈ s.active, x.id = id ∧ f x = some s' := by
  obtain ⟨x, hfind, hf⟩ := Option.bind_eq_some_iff.mp h
  exact ⟨x, (writer_eq_some hfind).1, (writer_eq_some hfind).2, hf⟩

theorem mem_put (hx : y ∈ s.put x) : y ∈ s.active ∧ y.id ≠ x.id ∨ y = x := by
  obtain ⟨z, hz, rfl⟩ := mem_map.mp hx
  split_ifs with hid
  · exact .inr rfl
  · exact .inl ⟨hz, hid⟩

theorem mem_put_of_ne (hy : y.id ≠ x.id) : y ∈ s.put x ↔ y ∈ s.active := by
  refine ⟨fun h => ?_, fun h => mem_map.mpr ⟨y, h, if_neg hy⟩⟩
  rcases mem_put h with ⟨hm, -⟩ | rfl
  · exact hm
  · exact absurd rfl hy

theorem mem_put_self (hy : y ∈ s.active) (hid : y.id = x.id) : x ∈ s.put x :=
  mem_map.mpr ⟨y, hy, if_pos hid⟩

theorem put_ids : (s.put x).map Writer.id = s.active.map Writer.id := by
  rw [put, map_map]
  refine map_congr_left fun y _ => ?_
  simp only [Function.comp]
  split_ifs with hid
  · exact hid.symm
  · rfl

theorem mem_clear : y ∈ s.clear id ↔ y ∈ s.active ∧ y.id ≠ id := by
  simp [clear]

theorem clear_nodup (h : (s.active.map Writer.id).Nodup) : ((s.clear id).map Writer.id).Nodup :=
  h.sublist (filter_sublist.map _)

theorem Numbered.eq_of_id (h : Numbered s) (hx : x ∈ s.active) (hy : y ∈ s.active) (hid : x.id = y.id) :
    x = y := inj_on_of_nodup_map h.nodup hx hy hid

theorem Numbered.own_ne (h : Numbered s) (hx : x ∈ s.active) {v : Nat} (hv : v ∈ x.own) :
    v ≠ 0 ∧ v ≠ invalidTransaction := by
  have hb := h.bounds x hx
  have hi := h.issued
  have hpos : 0 < startTransactionId := by decide
  unfold Writer.own at hv
  split at hv
  case h_1 ts hp =>
    have hts := h.stamped x hx ts hp
    have ht := h.time
    rcases hv with rfl | rfl <;> omega
  case h_2 =>
    obtain rfl : v = x.id := hv
    omega

end Active

end TableRun

end Rag3db.Storage
