import Rag3db.Library.Transition
import Rag3db.Storage.GroupCheckpoint
import Rag3db.Storage.GroupRollback

open List Option List.Sublist

namespace Rag3db.Storage

open Library.Transition NodeGroup

variable {α : Type}

/-- A node group, and the ranges of rows appended by writers that are open. -/
structure GroupRun (α : Type) where
  group : NodeGroup α
  pending : List (Nat × Nat) := []

inductive GroupAction (α : Type)
  | append (transactionID : Nat) (rows : List (Nat → α))
  | merge (block : ChunkedNodeGroup α)
  | commitInsert (range : Nat × Nat) (commitTS : Nat)
  | rollbackInsert (range : Nat × Nat)
  | delete (transactionID row : Nat)
  | commitDelete (row commitTS : Nat)
  | rollbackDelete (row : Nat)
  | update (t : Snapshot) (row columnID : Nat) (value : α)
  | updateInfo (chunkedGroupIdx columnID : Nat) (f : UpdateInfo α → UpdateInfo α)
  | checkpoint (checkpointTS oldestReaderTS : Nat)
  | refusedCheckpoint

namespace GroupRun

variable {s s' : GroupRun α} {a : GroupAction α} {range : Nat × Nat} {r : Nat}

def addRange (s : GroupRun α) (numRows : Nat) : List (Nat × Nat) :=
  if numRows = 0 then s.pending else s.pending ++ [(s.group.numRows, numRows)]

/-- A checkpoint waits for the writers. A COPY writes a block to disk if the
group has no rows. -/
def step (s : GroupRun α) : GroupAction α → Option (GroupRun α)
  | .append t rows => ((append t rows).result s.group).map fun g =>
    { group := g, pending := s.addRange rows.length }
  | .merge b =>
    if s.group.chunkedGroups.isEmpty ∧ s.group.numRows = 0 ∧ b.startRowIdx = 0 ∧ b.residencyState = .onDisk then
      some { group := s.group.merge b, pending := s.addRange b.numRows }
    else none
  | .commitInsert range commitTS =>
    if range ∈ s.pending then
      some {
        group := s.group.applyFuncToChunkedGroups (·.commitInsert commitTS) range.1 range.2
        pending := s.pending.erase range }
    else none
  | .rollbackInsert range =>
    if range ∈ s.pending then
      some { group := s.group.rollbackRange range.1 range.2, pending := s.pending.erase range }
    else none
  | .delete t row => (s.group.delete t row).toOption.map fun r => { s with group := r.1 }
  | .commitDelete row commitTS =>
    some { s with group := s.group.applyFuncToChunkedGroups (·.commitDelete commitTS) row 1 }
  | .rollbackDelete row =>
    some { s with group := s.group.applyFuncToChunkedGroups (·.rollbackDelete) row 1 }
  | .update t row columnID value =>
    (s.group.update t row columnID value).toOption.map fun r => { s with group := r.1 }
  | .updateInfo idx columnID f => some { s with group := s.group.modifyUpdateInfo idx columnID f }
  | .checkpoint checkpointTS oldestReaderTS =>
    if s.pending.isEmpty then
      (s.group.checkpoint checkpointTS oldestReaderTS).map fun g => { s with group := g }
    else none
  | .refusedCheckpoint =>
    if s.pending.isEmpty then some { s with group := s.group.refusedCheckpoint } else none

/-- What keeps the blocks in order: a checkpoint is refused only if no block in
memory is left open by it, and a rollback undoes the last rows, but not from the
start of a group that a checkpoint has emptied. -/
def careful (s : GroupRun α) : GroupAction α → Bool
  | .rollbackInsert range =>
    s.group.numRows ≤ range.1 + range.2 &&
      (range.1 = 0 || s.group.chunkedGroups.head?.all fun first => first.startRowIdx < range.1)
  | .refusedCheckpoint => s.group.chunkedGroups.getLast?.all fun b => b.residencyState = .onDisk
  | _ => true

/-- A group that is new, or read from disk. -/
inductive Initial : NodeGroup α → Prop
  | new : Initial {}
  | read (b : ChunkedNodeGroup α) (h : b.residencyState = .onDisk) : Initial
      { numRows := b.startRowIdx + b.numRows, nextRowToAppend := b.startRowIdx + b.numRows,
        chunkedGroups := [b] }

/-- What a reader of the group relies on. -/
structure Located (g : NodeGroup α) : Prop where
  contiguous : ∀ {i b b'}, g.chunkedGroups[i]? = some b → g.chunkedGroups[i + 1]? = some b' →
    b'.startRowIdx = b.startRowIdx + b.numRows
  found : ∀ row < g.numRows, (∀ first, g.chunkedGroups[0]? = some first → first.startRowIdx ≤ row) →
    ∃ i k b, findChunkedGroupIdx g.chunkedGroups row = some (i, k) ∧ g.chunkedGroups[i]? = some b ∧
      row = b.startRowIdx + k ∧ k < b.numRows

section Invariant

variable {g g' : NodeGroup α} {pending : List (Nat × Nat)} {numRows : Nat}

theorem located (h : g.Laid) : Located g where
  contiguous := h.blocks.layout.contiguous
  found row hrow hlow := by
    have hend := h.endOf
    cases hbs : g.chunkedGroups with
    | nil =>
      rw [hbs, endOf] at hend
      simp at hend
      omega
    | cons first rest =>
      have hlayout := h.blocks.layout
      rw [hbs] at hend hlayout
      exact hlayout.find_lt_endOf (hlow first (by rw [hbs]; rfl)) (by omega)

/-- The ranges of the open writers, in the order in which they were appended,
lie in the group. -/
structure Ranges (g : NodeGroup α) (pending : List (Nat × Nat)) : Prop where
  ordered : pending.Pairwise fun p q => p.1 + p.2 ≤ q.1
  within : ∀ p ∈ pending, firstRow g.chunkedGroups ≤ p.1 ∧ 0 < p.2 ∧ p.1 + p.2 ≤ g.numRows

theorem Ranges.nil : Ranges g [] := ⟨List.Pairwise.nil, by simp⟩

theorem Ranges.erase (h : Ranges g pending) : Ranges g (pending.erase range) :=
  ⟨h.ordered.sublist erase_sublist, fun p hp => h.within p (mem_of_mem_erase hp)⟩

theorem Ranges.congr (h : Ranges g pending) (hrows : g.numRows ≤ g'.numRows)
    (hfirst : firstRow g'.chunkedGroups ≤ firstRow g.chunkedGroups) : Ranges g' pending where
  ordered := h.ordered
  within p hp := by
    obtain ⟨hlow, hpos, hhigh⟩ := h.within p hp
    exact ⟨hfirst.trans hlow, hpos, hhigh.trans hrows⟩

theorem Ranges.concat (h : Ranges g' pending) (hle : ∀ p ∈ pending, p.1 + p.2 ≤ g.numRows)
    (hrows : g'.numRows = g.numRows + numRows) (hfirst : firstRow g'.chunkedGroups ≤ g.numRows) :
    Ranges g' (if numRows = 0 then pending else pending ++ [(g.numRows, numRows)]) := by
  split_ifs with hzero
  · exact h
  · refine ⟨pairwise_append.mpr ⟨h.ordered, pairwise_singleton .., ?_⟩, fun p hp => ?_⟩
    · rintro p hp q hq
      rw [mem_singleton.mp hq]
      exact hle p hp
    · rcases mem_append.mp hp with hp | hp
      · exact h.within p hp
      · rw [mem_singleton.mp hp]
        exact ⟨hfirst, Nat.pos_of_ne_zero hzero, hrows.ge⟩

theorem Ranges.before_last (h : Ranges g pending) (hmem : range ∈ pending)
    (hlast : g.numRows ≤ range.1 + range.2) : ∀ p ∈ pending.erase range, p.1 + p.2 ≤ range.1 := by
  induction pending with
  | nil => simp at hmem
  | cons q pending ih =>
    obtain ⟨hq, hordered⟩ := pairwise_cons.mp h.ordered
    have htail : Ranges g pending := ⟨hordered, fun p hp => h.within p (mem_cons_of_mem q hp)⟩
    by_cases hqr : q = range
    · subst hqr
      rw [erase_cons_head]
      intro p hp
      have hpq := hq p hp
      have hpin := htail.within p hp
      omega
    · have hmem' : range ∈ pending := (mem_cons.mp hmem).resolve_left (Ne.symm hqr)
      rw [erase_cons_tail (by simpa using hqr)]
      intro p hp
      rcases mem_cons.mp hp with rfl | hp
      · exact hq range hmem'
      · exact ih htail hmem' p hp

structure Inv (s : GroupRun α) : Prop where
  laid : s.group.Laid
  ranges : Ranges s.group s.pending

theorem inv_initial (h : Initial g) : Inv { group := g } := by
  cases h with
  | new => exact ⟨⟨WellLaid.nil, rfl⟩, Ranges.nil⟩
  | read b hdisk =>
    refine ⟨⟨⟨layout_single, fun {c} hc => ?_, by simp⟩, rfl⟩, Ranges.nil⟩
    obtain rfl : b = c := by simpa using hc
    exact .inl hdisk

theorem firstRow_le (h : g.Laid) : firstRow g.chunkedGroups ≤ g.numRows := by
  cases hbs : g.chunkedGroups with
  | nil => exact Nat.zero_le _
  | cons first rest =>
    have hle := h.blocks.layout.endOf_le (i := 0) (by rw [hbs]; rfl)
    rw [h.endOf] at hle
    exact (Nat.le_add_right _ _).trans hle

theorem Inv.sameRows (h : Inv s) (hs : NodeGroup.SameRows s.group g') (hp : pending.Sublist s.pending) :
    Inv { group := g', pending } := by
  have hrows : g'.numRows = s.group.numRows := by
    obtain ⟨-, bs, rfl⟩ := hs
    rfl
  refine ⟨h.laid.congr hs, ⟨h.ranges.ordered.sublist hp, fun p hp' => ?_⟩⟩
  have hin := h.ranges.within p (hp.subset hp')
  rwa [hs.firstRow, hrows]

theorem Inv.append {t : Nat} {rows : List (Nat → α)} (h : Inv s) (hs : s.step (.append t rows) = some s') : Inv s' := by
  obtain ⟨g', hg, rfl⟩ := map_eq_some_iff.mp hs
  obtain ⟨hfin, hg⟩ := ite_none_right_eq_some.mp hg
  cases hg
  have happ := (append_laid h.laid rows).ends rfl hfin
  have hkeep : Ranges ((append t rows s.group).last s.group) s.pending :=
    h.ranges.congr (by rw [happ.numRows]; omega) happ.first.le
  exact ⟨happ.laid, hkeep.concat (fun p hp => (h.ranges.within p hp).2.2) happ.numRows
    (happ.first.le.trans (firstRow_le h.laid))⟩

theorem Inv.merge {b : ChunkedNodeGroup α} (h : Inv s) (hs : s.step (.merge b) = some s') : Inv s' := by
  obtain ⟨⟨hempty, hzero, hstart, hdisk⟩, hs⟩ := ite_none_right_eq_some.mp hs
  cases hs
  have hbs : s.group.chunkedGroups = [] := isEmpty_iff.mp hempty
  have hblocks : (s.group.merge b).chunkedGroups = [b] := by simp [NodeGroup.merge, hbs]
  have hlaid : (s.group.merge b).Laid := by
    refine ⟨?_, ?_⟩
    · rw [hblocks]
      refine ⟨layout_single, fun {c} hc => ?_, by simp⟩
      obtain rfl : b = c := by simpa using hc
      exact .inl hdisk
    · rw [hblocks, endOf_single, hstart]
      simp [NodeGroup.merge, hzero]
  have hfirst : firstRow (s.group.merge b).chunkedGroups = 0 := by
    rw [hblocks]
    exact hstart
  have hkeep : Ranges (s.group.merge b) s.pending :=
    h.ranges.congr (Nat.le_add_right _ _) (hfirst.le.trans (Nat.zero_le _))
  exact ⟨hlaid, hkeep.concat (fun p hp => (h.ranges.within p hp).2.2) rfl (hfirst.le.trans (Nat.zero_le _))⟩

theorem Inv.rollbackInsert (h : Inv s) (hc : s.careful (.rollbackInsert range) = true)
    (hs : s.step (.rollbackInsert range) = some s') : Inv s' := by
  obtain ⟨hmem, hs⟩ := ite_none_right_eq_some.mp hs
  cases hs
  obtain ⟨hlow, hpos, hhigh⟩ := h.ranges.within range hmem
  simp only [careful, Bool.and_eq_true, Bool.or_eq_true, decide_eq_true_eq] at hc
  obtain ⟨hreach, hstart⟩ := hc
  obtain ⟨i, b, k, hb, hk, hrow, hblocks⟩ := rollbackInsert_blocks range.1 range.2 h.laid.blocks (by
      intro hnil
      have hend := h.laid.endOf
      rw [hnil] at hend
      simp only [endOf, getLast?_nil] at hend
      omega) (fun first hf => by
        rw [firstRow, head?_eq_getElem?, hf] at hlow
        exact hlow) (by rw [h.laid.endOf]; omega) (by rw [h.laid.endOf]; omega)
  obtain ⟨htrunc, hend⟩ := h.laid.blocks.truncateAt hb hk
  have hfirst := firstRow_truncateAt (k := k) hb
  have hlaid : (s.group.rollbackRange range.1 range.2).Laid := by
    obtain ⟨first, rest, hcons⟩ := exists_cons_of_ne_nil
      (show truncateAt s.group.chunkedGroups i b k ≠ [] by simp [truncateAt])
    rw [hcons] at htrunc hend hblocks hfirst
    obtain ⟨hwell, hkept⟩ := htrunc.rdropWhile_isEmpty
    refine ⟨hblocks ▸ hwell, ?_⟩
    show endOf (rollbackInsert _ _).chunkedGroups = range.1
    rw [hblocks]
    rcases hkept with ⟨hnil, hzero⟩ | hsame
    · -- a group that holds no row: the range starts at row 0, or behind the first block's start
      rcases hstart with hz | hall
      · rw [hnil, hz]
        rfl
      · obtain ⟨c, cs, hgroups⟩ := exists_cons_of_ne_nil (ne_nil_of_mem (mem_of_getElem? hb))
        rw [hgroups] at hall hfirst
        have hlt : c.startRowIdx < range.1 := by simpa using hall
        have hsame : first.startRowIdx = c.startRowIdx := hfirst
        omega
    · rw [hsame, hend, hrow]
  refine ⟨hlaid, ⟨h.ranges.erase.ordered, fun p hp => ?_⟩⟩
  have hbefore := h.ranges.before_last hmem hreach p hp
  obtain ⟨hplow, hppos, -⟩ := h.ranges.erase.within p hp
  refine ⟨?_, hppos, hbefore⟩
  show firstRow (rollbackInsert _ _).chunkedGroups ≤ p.1
  rw [hblocks]
  exact (firstRow_rdropWhile.trans hfirst.le).trans hplow

theorem sum_sealLast (bs : List (ChunkedNodeGroup α)) : numRowsOf (sealLast bs) = numRowsOf bs := by
  unfold sealLast
  cases hb : bs.getLast? with
  | none => rfl
  | some b =>
    simp only
    split_ifs
    · conv_rhs => rw [eq_dropLast_append hb]
      simp [numRowsOf, ChunkedNodeGroup.seal]
    · rfl

theorem sealLast_of_onDisk {bs : List (ChunkedNodeGroup α)}
    (h : (bs.getLast?.all fun b => b.residencyState = .onDisk) = true) : sealLast bs = bs := by
  unfold sealLast
  cases hb : bs.getLast? with
  | none => rfl
  | some b =>
    have hdisk : b.residencyState = .onDisk := by simpa [hb] using h
    simp [hdisk]

variable {first : ChunkedNodeGroup α}

theorem mergedGroup_start {groups : List (ChunkedNodeGroup α)} {info : VersionInfo}
    (h : first.residencyState = .onDisk ∨ first.Open ∧ first.startRowIdx = 0) :
    (mergedGroup first groups info).startRowIdx = first.startRowIdx := by
  unfold mergedGroup
  rcases h with hdisk | ⟨hopen, hzero⟩
  · simp [hdisk]
  · simp [hopen.inMemory, hzero]

theorem checkpointedGroup_end {rest : List (ChunkedNodeGroup α)} (h : g.Laid) (hbs : g.chunkedGroups = first :: rest) :
    (g.checkpointedGroup first (sealLast (first :: rest))).residencyState = .onDisk ∧
      (g.checkpointedGroup first (sealLast (first :: rest))).startRowIdx +
        (g.checkpointedGroup first (sealLast (first :: rest))).numRows = g.numRows := by
  simp only [checkpointedGroup]
  split_ifs
  · exact ⟨rfl, rfl⟩
  · have hblocks := h.blocks
    have hend := h.endOf
    rw [hbs] at hblocks hend
    have hsum := Layout.sum_numRows hblocks
    refine ⟨rfl, ?_⟩
    rw [mergedGroup_start (hblocks.first rfl)]
    exact (congrArg (first.startRowIdx + ·) (sum_sealLast (first :: rest))).trans (hsum.trans hend)

theorem Inv.checkpoint {checkpointTS oldestReaderTS : Nat} (h : Inv s)
    (hs : s.step (.checkpoint checkpointTS oldestReaderTS) = some s') : Inv s' := by
  obtain ⟨hnone, hs⟩ := ite_none_right_eq_some.mp hs
  obtain ⟨g', hg, rfl⟩ := map_eq_some_iff.mp hs
  unfold checkpoint at hg
  cases hbs : s.group.chunkedGroups with
  | nil => simp [hbs] at hg
  | cons first rest =>
    rw [hbs] at hg
    cases hg
    obtain ⟨hdisk, hend⟩ := checkpointedGroup_end h.laid hbs
    refine ⟨⟨⟨layout_single, fun {c} hc => ?_, by simp⟩, hend⟩, ?_⟩
    · obtain rfl : s.group.checkpointedGroup first (sealLast (first :: rest)) = c := by simpa using hc
      exact .inl hdisk
    · rw [isEmpty_iff.mp hnone]
      exact Ranges.nil

theorem Inv.refusedCheckpoint (h : Inv s) (hc : s.careful .refusedCheckpoint = true)
    (hs : s.step .refusedCheckpoint = some s') : Inv s' := by
  obtain ⟨-, hs⟩ := ite_none_right_eq_some.mp hs
  cases hs
  have hsame : s.group.refusedCheckpoint = s.group := by
    rw [refusedCheckpoint, sealLast_of_onDisk hc]
  rw [hsame]
  exact h

theorem eq_ok_of_toOption {ε β : Type} {x : Except ε β} {r : β} (h : x.toOption = some r) : x = .ok r := by
  cases x with
  | error e => simp [Except.toOption] at h
  | ok r' => exact congrArg Except.ok (some.inj h)

theorem Inv.step (h : Inv s) (hc : s.careful a = true) (hs : s.step a = some s') : Inv s' := by
  cases a with
  | append t rows => exact h.append hs
  | merge b => exact h.merge hs
  | commitInsert range commitTS =>
    obtain ⟨-, hs⟩ := ite_none_right_eq_some.mp hs
    cases hs
    exact h.sameRows (applyFuncToChunkedGroups_sameRows fun _ _ _ => rfl) erase_sublist
  | rollbackInsert range => exact h.rollbackInsert hc hs
  | delete t row =>
    obtain ⟨r, hr, rfl⟩ := map_eq_some_iff.mp hs
    exact h.sameRows (delete_sameRows (eq_ok_of_toOption hr)) (refl _)
  | commitDelete row commitTS | rollbackDelete row =>
    cases hs
    exact h.sameRows (applyFuncToChunkedGroups_sameRows fun _ _ _ => rfl) (refl _)
  | update t row columnID value =>
    obtain ⟨r, hr, rfl⟩ := map_eq_some_iff.mp hs
    exact h.sameRows (update_sameRows (eq_ok_of_toOption hr)) (refl _)
  | updateInfo idx columnID f =>
    cases hs
    exact h.sameRows modifyUpdateInfo_sameRows (refl _)
  | checkpoint checkpointTS oldestReaderTS => exact h.checkpoint hs
  | refusedCheckpoint => exact h.refusedCheckpoint hc hs

end Invariant

/-- The rows of a group lie one behind the other and are found where they lie, as
long as the steps are careful. -/
theorem blocks_located {g : NodeGroup α} (hinit : Initial g)
    (h : Reachable (guarded careful step) { group := g } s) : Located s.group := by
  have hinv : Inv s := h.invariant (inv_initial hinit) fun _ a _ hinv hs =>
    hinv.step (guarded_eq_some.mp hs).1 (guarded_eq_some.mp hs).2
  exact located hinv.laid

def carefulRun : List (GroupAction Nat) :=
  [.append 7 [fun _ => 1, fun _ => 2], .commitInsert (0, 2) 1, .checkpoint 1 1, .refusedCheckpoint,
    .append 8 [fun _ => 3], .append 9 [fun _ => 4], .rollbackInsert (3, 1), .commitInsert (2, 1) 2]

theorem blocks_located_carefulRun :
    ∃ s, run (guarded careful step) { group := {} } carefulRun = some s ∧ s.group.numRows = 3 ∧
      s.group.chunkedGroups.length = 2 ∧ Located s.group := by
  obtain ⟨s, hrun, hrows⟩ : ∃ s, run (guarded careful step) { group := {} } carefulRun = some s ∧
      s.group.numRows = 3 ∧ s.group.chunkedGroups.length = 2 := ⟨_, rfl, by decide⟩
  exact ⟨s, hrun, hrows.1, hrows.2, blocks_located .new (Reachable.init.run hrun)⟩

/-- A refused checkpoint seals a block that is not full and leaves it so: the
next append starts a block behind it. -/
def refusedRun : List (GroupAction Nat) :=
  [.append 7 [fun _ => 1], .commitInsert (0, 1) 1, .checkpoint 1 1, .append 8 [fun _ => 2],
    .commitInsert (1, 1) 2, .refusedCheckpoint, .append 9 [fun _ => 3], .commitInsert (2, 1) 3]

/-- The row behind it is then looked for in the sealed block, behind its rows. -/
theorem refusedRun_not_located :
    ∃ s, run step { group := {} } refusedRun = some s ∧ s.group.numRows = 3 ∧ ¬ Located s.group := by
  obtain ⟨s, hrun, hrows, hfind, hfirst, hblock⟩ : ∃ s, run step { group := {} } refusedRun = some s ∧
      s.group.numRows = 3 ∧ findChunkedGroupIdx s.group.chunkedGroups 2 = some (1, 1) ∧
      s.group.chunkedGroups[0]?.map (·.startRowIdx) = some 0 ∧
      s.group.chunkedGroups[1]?.map (·.numRows) = some 1 := ⟨_, rfl, by decide⟩
  refine ⟨s, hrun, hrows, fun h => ?_⟩
  obtain ⟨i, k, b, hf, hb, -, hk⟩ := h.found 2 (by omega) fun first hget => by
    have hzero : first.startRowIdx = 0 := by simpa [hget] using hfirst
    omega
  obtain ⟨rfl, rfl⟩ := Prod.mk.inj (some.inj (hfind.symm.trans hf))
  have hone : b.numRows = 1 := by simpa [hb] using hblock
  omega

end GroupRun

end Rag3db.Storage
