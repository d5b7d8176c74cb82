import Rag3db.Storage.Cells
import Rag3db.Storage.CommitSteps

open List Option

namespace Rag3db.Storage

open Written ChunkedNodeGroup NodeTable

variable {α : Type} {bs : List (ChunkedNodeGroup α)} {b b₀ b₂ b₃ : ChunkedNodeGroup α}
  {g₀ g₃ : NodeGroup α} {T₀ : NodeTable α} {r t : Snapshot} {i k row column commitTS : Nat} {value : α}

section Stamped

def ChunkedNodeGroup.stampedValue (b : ChunkedNodeGroup α) (creator version rowInChunk column : Nat) : Option α :=
  (b.chain column (rowInChunk / vectorCapacity)).findSome? fun u =>
    if u.creator = creator ∧ u.version = version then u.values (rowInChunk % vectorCapacity) else none

def NodeGroup.stampedValue (g : NodeGroup α) (creator version row column : Nat) : Option α :=
  (findChunkedGroupIdx g.chunkedGroups row).bind fun found => g.chunkedGroups[found.1]?.bind fun b =>
    b.stampedValue creator version (row - b.startRowIdx) column

def NodeTable.stampedValue (table : NodeTable α) (creator version offset column : Nat) : Option α :=
  (table.group (offset / nodeGroupSize)).stampedValue creator version (offset % nodeGroupSize) column

theorem findSome?_undone {chain₀ chain : List (VectorUpdateInfo α)} {U : List UndoRecord} {idx j v : Nat}
    (hpos : 0 < commitTS) (hts : commitTS < startTransactionId) (ht : startTransactionId ≤ t.id)
    (hold : ∀ u ∈ chain₀, u.version ≠ t.id ∧ u.creator ≠ t.id)
    (h : OwnHead t.id (committing t.id commitTS U idx j column v) chain₀ chain) :
    ((chain.eraseP (·.version = t.id)).findSome? fun u => if r.sees u.version then u.values k else none) =
      (if commitTS ≤ r.startTS then chain.findSome? fun u =>
        if u.creator = t.id ∧ u.version = commitTS then u.values k else none else none).or
        (chain₀.findSome? fun u => if r.sees u.version then u.values k else none) := by
  have herase : chain₀.eraseP (·.version = t.id) = chain₀ :=
    eraseP_of_forall_not fun u hu => by simpa using (hold u hu).1
  have hnone : (chain₀.findSome? fun u =>
      if u.creator = t.id ∧ u.version = commitTS then u.values k else none) = none := by
    rw [findSome?_eq_none_iff]
    intro u hu
    rw [if_neg fun hc => (hold u hu).2 hc.1]
  rcases h with rfl | ⟨u, rfl, hc, hu⟩
  · simp [herase, hnone]
  · by_cases hv : u.version = t.id
    · have hne : u.version ≠ commitTS := by omega
      rw [eraseP_cons_of_pos (by simpa using hv)]
      simp [hne, hnone]
    · have hstamp : u.version = commitTS := hu.resolve_right fun he => hv he.1
      have hsees := r.sees_commit hpos hts
      rw [eraseP_cons_of_neg (by simpa using hv), herase]
      by_cases hle : commitTS ≤ r.startTS
      · cases hval : u.values k <;> simp [hstamp, hsees, hle, hc, hval, hnone]
      · simp [hstamp, hsees, hle]

end Stamped

section Undone

variable {M₃ : Nat → Prop} {U : List UndoRecord} {idx j : Nat}

/-- What a reader finds in a row after the rollback: the value it had, or the one
that the commit has stamped. -/
def afterRollback (commitTS : Nat) (r : Snapshot) (stamped : Option α) (value : α) : α :=
  if commitTS ≤ r.startTS then stamped.getD value else value

theorem block_lookup_undone (hpos : 0 < commitTS) (hts : commitTS < startTransactionId)
    (ht : startTransactionId ≤ t.id) (hdata : (b₀.columns column).data.length = b₀.numRows)
    (hold : ∀ v, ∀ u ∈ b₀.chain column v, u.version ≠ t.id ∧ u.creator ≠ t.id)
    (h₃ : ChunkedNodeGroup.Kept t.id (fun k d => d = b₀.deletion k) M₃
      (fun column v chain => chain = (b₂.chain column v).eraseP (·.version = t.id)) b₀ b₃)
    (h₂ : ∀ v, OwnHead t.id (committing t.id commitTS U idx j column v) (b₀.chain column v)
      (b₂.chain column v)) (hk : k < b₀.numRows) :
    b₃.lookup r k column = (b₀.lookup r k column).map
      (afterRollback commitTS r (b₂.stampedValue t.id commitTS k column)) := by
  have hrow : b₃.isSelected r k = b₀.isSelected r k := by
    have hk₃ := hk.trans_le h₃.rows
    simp only [isSelected_eq, hk, hk₃, row, Row.visible, h₃.insertion k hk, h₃.deletion k hk]
  obtain ⟨y, hy⟩ : ∃ y, (b₀.columns column).data[k]? = some y := ⟨_, List.getElem?_eq_getElem (hdata ▸ hk)⟩
  have hy₃ : (b₃.columns column).data[k]? = some y := by
    obtain ⟨rest, hrest⟩ := h₃.data column
    rw [← hrest, List.getElem?_append_left (hdata.symm ▸ hk), hy]
  have hchain := findSome?_undone (r := r) (k := k % vectorCapacity) hpos hts ht (hold (k / vectorCapacity))
    (h₂ (k / vectorCapacity))
  rw [← h₃.chain column (k / vectorCapacity)] at hchain
  unfold ChunkedNodeGroup.lookup
  rw [hrow]
  split_ifs with hsel
  · unfold ColumnChunk.lookup UpdateInfo.lookup afterRollback ChunkedNodeGroup.stampedValue
    rw [hy, hy₃, show (b₃.columns column).updateInfo.updates (k / vectorCapacity) =
      b₃.chain column (k / vectorCapacity) from rfl, hchain]
    by_cases hle : commitTS ≤ r.startTS
    · simp only [hle, if_true]
      cases (b₂.chain column (k / vectorCapacity)).findSome? fun u => if u.creator = t.id ∧
          u.version = commitTS then u.values (k % vectorCapacity) else none with
      | none =>
        simp only [Option.getD_none, Option.map_id']
        rfl
      | some x => simp
    · simp only [hle, if_false, Option.map_id']
      rfl
  · rfl

theorem old_of_undone {D : Nat → Nat → Nat → Prop} {M : Nat → Nat → Prop}
    {Q : Nat → Nat → Nat → List (VectorUpdateInfo α) → Prop} (h₀ : Layout g₀.chunkedGroups)
    (h₃ : NodeGroup.Kept t.id D M Q g₀ g₃) (hend : endOf g₃.chunkedGroups ≤ endOf g₀.chunkedGroups)
    (hb₃ : g₃.chunkedGroups[i]? = some b₃) (hk : k < b₃.numRows) :
    HasRow g₀.chunkedGroups (b₃.startRowIdx + k) := by
  have hle := h₃.laid.layout.endOf_le hb₃
  cases hbs : g₀.chunkedGroups with
  | nil =>
    have hzero : endOf ([] : List (ChunkedNodeGroup α)) = 0 := rfl
    rw [hbs] at hend
    omega
  | cons first rest =>
    have hfirst : g₀.chunkedGroups[0]? = some first := by rw [hbs]; rfl
    have hlow : first.startRowIdx ≤ b₃.startRowIdx := by
      cases i with
      | zero => exact (h₃.block hfirst hb₃).start.ge
      | succ i =>
        have hlt : 0 < g₃.chunkedGroups.length :=
          Nat.zero_lt_of_lt (List.getElem?_eq_some_iff.mp hb₃).1
        have hzero : g₃.chunkedGroups[0]? = some g₃.chunkedGroups[0] := getElem?_eq_getElem hlt
        have hstart := (h₃.block hfirst hzero).start
        have horder := h₃.laid.end_le_start hzero hb₃ (Nat.succ_pos i)
        omega
    rw [hbs] at h₀ hend
    obtain ⟨j, k₀, b₀, -, hb₀, hrow, hk₀⟩ := h₀.find_lt_endOf (r := b₃.startRowIdx + k)
      (hlow.trans (Nat.le_add_right _ _)) (by omega)
    exact ⟨j, b₀, k₀, hb₀, hk₀, hrow⟩

theorem group_lookup_undone {T₂ : NodeTable α} (hpos : 0 < commitTS) (hts : commitTS < startTransactionId)
    (ht : startTransactionId ≤ t.id) (hT₀ : T₀.Ready t.id commitTS)
    (h₂ : NodeGroup.Kept t.id (deletions T₀ U idx) (marks T₀ U idx)
      (updates t.id (committing t.id commitTS U) T₀ idx) (T₀.group idx) (T₂.group idx))
    (h₃ : NodeGroup.Kept t.id (deletions T₀ [] idx) (marks T₀ [] idx)
      (TransactionState.undone t.id T₂ idx) (T₀.group idx) g₃)
    (hend : endOf g₃.chunkedGroups ≤ endOf (T₀.group idx).chunkedGroups) :
    g₃.lookup r row column = ((T₀.group idx).lookup r row column).map
      (afterRollback commitTS r ((T₂.group idx).stampedValue t.id commitTS row column)) := by
  have hsettled := hT₀.settled idx
  have hlayout := hsettled.laid.blocks.layout
  unfold NodeGroup.lookup NodeGroup.groupsFor
  rw [h₃.generations]
  cases hgen : (T₀.group idx).previousGenerations.find? (r.startTS < ·.checkpointTS) with
  | some generation =>
    -- the blocks of an older checkpoint are nobody's to change
    have holder := hT₀.older idx generation (mem_of_find?_eq_some hgen)
    have hlt : r.startTS < generation.checkpointTS := by simpa using find?_some hgen
    have hid : afterRollback commitTS r ((T₂.group idx).stampedValue t.id commitTS row column) = id := by
      funext x
      exact if_neg (by omega)
    rw [hid, Option.map_id]
    rfl
  | none =>
    show lookupIn g₃.chunkedGroups r row column = (lookupIn (T₀.group idx).chunkedGroups r row column).map _
    by_cases hmem : HasRow (T₀.group idx).chunkedGroups row
    · obtain ⟨i, b₀, k, hb₀, hk, rfl⟩ := hmem
      obtain ⟨b₂, hb₂⟩ := h₂.kept hb₀ (Nat.zero_lt_of_lt hk)
      obtain ⟨b₃, hb₃⟩ := h₃.kept hb₀ (Nat.zero_lt_of_lt hk)
      have hkept₂ := h₂.block hb₀ hb₂
      have hkept₃ := h₃.block hb₀ hb₃
      have hstamped : (T₂.group idx).stampedValue t.id commitTS (b₀.startRowIdx + k) column =
          b₂.stampedValue t.id commitTS k column := by
        simp [NodeGroup.stampedValue, h₂.find hb₀ hb₂ hk, hb₂, hkept₂.start]
      rw [lookupIn_of_mem hlayout hb₀ hk, hstamped, ← hkept₃.start,
        lookupIn_of_mem h₃.laid.layout hb₃ (hk.trans_le hkept₃.rows)]
      refine block_lookup_undone hpos hts ht ((hsettled.sound hb₀).data column)
        (fun v => hT₀.updates hb₀ column v) (hkept₃.mono (fun k _ d hd => (hd b₀ hb₀).2 (by simp))
          (fun _ _ => id) fun c v chain hq => ?_) (fun v => hkept₂.chain column v b₀ hb₀) hk
      rw [hq, chainAt, hb₂]
    · rw [lookupIn_of_not_mem hlayout hmem]
      refine lookupIn_of_not_mem h₃.laid.layout ?_
      rintro ⟨i, b₃, k, hb₃, hk, rfl⟩
      exact hmem (old_of_undone hlayout h₃ hend hb₃ hk)

end Undone

namespace TransactionState

variable {s₁ s₂ : TransactionState α} {ops : List (Operation α)} {offset : Nat}

/-- What a reader sees after the rollback, wherever the commit was interrupted. -/
theorem lookup_rollback (hpos : 0 < commitTS) (hts : commitTS < startTransactionId)
    (ht : startTransactionId ≤ t.id) (hT₀ : T₀.Ready t.id commitTS)
    (hops : executeAll t ops { table := T₀ } = .ok s₁) (hcommit : s₂ ∈ (commit t.id commitTS).points s₁) :
    s₂.rollback.table.lookup r offset column = (T₀.lookup r offset column).map
      (afterRollback commitTS r (s₂.table.stampedValue t.id commitTS offset column)) := by
  have hid : t.id ≠ invalidTransaction := t.id_lt.ne
  have hne : commitTS ≠ t.id := by omega
  have hbetween := (between_initial hT₀ hid).executeAll hT₀ hops
  have hfailed := (commit_triple hT₀ hid).points hbetween hbetween.toBegun.committing hcommit
  have hundone := rollback_written hT₀ hid (hfailed.oneOwn hT₀) hfailed.own (hfailed.undoing hT₀ hne)
  rw [lookup_eq, lookup_eq]
  exact group_lookup_undone hpos hts ht hT₀ (hfailed.written.group _) (hundone.group _) (hundone.tail _)

section Example

def checkpointedBlock : ChunkedNodeGroup Nat where
  residencyState := .onDisk
  startRowIdx := 0
  capacity := 1
  numRows := 1
  columns := fun _ => { data := [5] }

def checkpointed : NodeTable Nat where
  nodeGroups := [{ numRows := 1, nextRowToAppend := 1, chunkedGroups := [checkpointedBlock] }]
  numTotalRows := 1

theorem checkpointed_block (idx : Nat) {i : Nat} {b : ChunkedNodeGroup Nat}
    (h : (checkpointed.group idx).chunkedGroups[i]? = some b) : b = checkpointedBlock := by
  cases idx with
  | zero =>
    cases i with
    | zero => exact (some.inj h).symm
    | succ i => simp [checkpointed, NodeTable.group] at h
  | succ idx => simp [checkpointed, NodeTable.group] at h

theorem laid_checkpointed (idx : Nat) : (checkpointed.group idx).Laid := by
  cases idx with
  | zero =>
    refine ⟨⟨layout_single, fun {b} hb => .inl ?_, by simp [checkpointed, NodeTable.group]⟩, rfl⟩
    rw [checkpointed_block 0 hb]
    rfl
  | succ idx => exact ⟨WellLaid.nil, rfl⟩

theorem sound_checkpointedBlock : checkpointedBlock.Sound where
  data _ := rfl
  versions _ {info} h := by simp [checkpointedBlock] at h
  tracked h := by simp [checkpointedBlock] at h
  fresh h := by simp [checkpointedBlock] at h

theorem ready_checkpointed {id : Nat} (hid : id ≠ invalidTransaction) (hpos : 0 < id) :
    checkpointed.Ready id commitTS where
  settled idx := {
    laid := laid_checkpointed idx
    sound := fun hb => checkpointed_block _ hb ▸ sound_checkpointedBlock
    present := fun hb k _ => by
      rw [checkpointed_block _ hb]
      exact (by decide : 0 ≠ invalidTransaction)
    foreign := fun hb k _ => by
      rw [checkpointed_block _ hb]
      exact hpos.ne }
  generations idx _ := by
    cases idx with
    | zero => rfl
    | succ idx => rfl
  older idx generation hg := by
    cases idx with
    | zero | succ idx => simp [checkpointed, NodeTable.group] at hg
  counted idx hrows := by
    cases idx with
    | zero => decide
    | succ idx => simp [checkpointed, NodeTable.group] at hrows
  undeleted hb k _ := by
    rw [checkpointed_block _ hb]
    exact hid.symm
  updates hb column v u hu := by
    rw [checkpointed_block _ hb] at hu
    simp [checkpointedBlock, chain] at hu

def writer : Snapshot where
  startTS := 1
  id := startTransactionId + 1
  startTS_lt := by decide
  id_lt := by decide
  id_start := by decide

def laterReader : Snapshot where
  startTS := 2
  id := startTransactionId + 2
  startTS_lt := by decide
  id_lt := by decide
  id_start := by decide

end Example

end TransactionState

end Rag3db.Storage
