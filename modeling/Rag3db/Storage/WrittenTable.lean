import Rag3db.Storage.TableGroups

open List

namespace Rag3db.Storage

open NodeTable NodeGroup UpdateInfo

variable {α : Type} {t idx j : Nat} {T₀ T T' : NodeTable α} {U U' : List UndoRecord} {record : UndoRecord}

def insertsOf (nodeGroupIdx : Nat) (undoBuffer : List UndoRecord) : List (Nat × Nat) :=
  undoBuffer.filterMap fun record => match record with
    | .insertInfo g startRow numRows => if g = nodeGroupIdx then some (startRow, numRows) else none
    | _ => none

/-- Insertions, the last one first, whose rollback takes a group that ends at
the given row back to `start₀`. -/
def Undoes (start₀ : Nat) : List (Nat × Nat) → Nat → Prop
  | [], last => last ≤ start₀
  | (start, n) :: inserts, last => start₀ ≤ start ∧ last ≤ start + n ∧ Undoes start₀ inserts start

variable {inserts : List (Nat × Nat)} {start₀ last columnID vectorIdx : Nat}

theorem Undoes.mono {last' : Nat} (h : Undoes start₀ inserts last) (hle : last' ≤ last) :
    Undoes start₀ inserts last' := by
  cases inserts with
  | nil => exact hle.trans h
  | cons insert inserts => exact ⟨h.1, hle.trans h.2.1, h.2.2⟩

theorem Undoes.start_le {insert : Nat × Nat} (h : Undoes start₀ inserts last) (hmem : insert ∈ inserts) :
    start₀ ≤ insert.1 := by
  induction inserts generalizing last with
  | nil => simp at hmem
  | cons head inserts ih =>
    rcases mem_cons.mp hmem with rfl | hmem
    · exact h.1
    · exact ih h.2.2 hmem

theorem insertsOf_append : insertsOf idx (U ++ U') = insertsOf idx U ++ insertsOf idx U' :=
  filterMap_append

variable {startRow numRows : Nat}

theorem insertsOf_deleteInfo : insertsOf idx (U ++ [.deleteInfo j startRow numRows]) = insertsOf idx U := by
  simp [insertsOf]

theorem insertsOf_updateInfo {chunkedGroupIdx version : Nat} :
    insertsOf idx (U ++ [.updateInfo j chunkedGroupIdx columnID vectorIdx version]) = insertsOf idx U := by
  simp [insertsOf]

theorem insertsOf_insertInfo :
    insertsOf idx (U ++ [.insertInfo idx startRow numRows]) = insertsOf idx U ++ [(startRow, numRows)] := by
  simp [insertsOf]

theorem mem_insertsOf (h : .insertInfo idx startRow numRows ∈ U) : (startRow, numRows) ∈ insertsOf idx U :=
  mem_filterMap.mpr ⟨_, h, by simp⟩

def UndoRecord.nodeGroupIdx : UndoRecord → Nat
  | insertInfo g _ _ => g
  | deleteInfo g _ _ => g
  | updateInfo g _ _ _ _ => g

def UndoRecord.Own (t : Nat) : UndoRecord → Prop
  | insertInfo _ _ _ => True
  | deleteInfo _ _ numRows => numRows = 1
  | updateInfo _ _ _ _ version => version = t

theorem insertsOf_singleton_of_ne (h : record.nodeGroupIdx ≠ idx) : insertsOf idx [record] = [] := by
  cases record with
  | insertInfo g startRow numRows =>
    have hne : ¬ g = idx := h
    simp [insertsOf, hne]
  | deleteInfo | updateInfo => rfl

def deletions (T₀ : NodeTable α) (U : List UndoRecord) (idx i k deletion : Nat) : Prop :=
  ∀ b₀, (T₀.group idx).chunkedGroups[i]? = some b₀ →
    (.deleteInfo idx (b₀.startRowIdx + k) 1 ∈ U → b₀.deletion k = invalidTransaction) ∧
    (.deleteInfo idx (b₀.startRowIdx + k) 1 ∉ U → deletion = b₀.deletion k)

def marks (T₀ : NodeTable α) (U : List UndoRecord) (idx i k : Nat) : Prop :=
  ∀ b₀, (T₀.group idx).chunkedGroups[i]? = some b₀ → .deleteInfo idx (b₀.startRowIdx + k) 1 ∈ U

/-- A table to which a transaction has written, what its undo buffer tells.
`Q` tells the updates. -/
structure Written (t : Nat) (Q : Nat → Nat → Nat → Nat → List (VectorUpdateInfo α) → Prop)
    (T₀ T : NodeTable α) (U : List UndoRecord) : Prop where
  group : ∀ idx, NodeGroup.Kept t (deletions T₀ U idx) (marks T₀ U idx) (Q idx) (T₀.group idx) (T.group idx)
  tail : ∀ idx, Undoes (endOf (T₀.group idx).chunkedGroups) (insertsOf idx U).reverse
    (endOf (T.group idx).chunkedGroups)

/-- A table before the transaction `t` writes to it, which will commit at
`commitTS` if it does. -/
structure NodeTable.Ready (t commitTS : Nat) (T₀ : NodeTable α) : Prop where
  settled : ∀ idx, (T₀.group idx).Settled t
  generations : ∀ idx, (T₀.group idx).numRows = 0 → (T₀.group idx).previousGenerations = []
  older : ∀ idx, ∀ generation ∈ (T₀.group idx).previousGenerations, generation.checkpointTS ≤ commitTS
  counted : ∀ idx, 0 < (T₀.group idx).numRows → idx * nodeGroupSize + (T₀.group idx).numRows ≤ T₀.numTotalRows
  undeleted : ∀ {idx i : Nat} {b : ChunkedNodeGroup α}, (T₀.group idx).chunkedGroups[i]? = some b →
    ∀ k < b.numRows, b.deletion k ≠ t
  updates : ∀ {idx i : Nat} {b : ChunkedNodeGroup α}, (T₀.group idx).chunkedGroups[i]? = some b →
    ∀ column vectorIdx, ∀ u ∈ b.chain column vectorIdx, u.version ≠ t ∧ u.creator ≠ t

theorem NodeTable.Ready.layout {t commitTS : Nat} {T₀ : NodeTable α} (h : Ready t commitTS T₀) (idx : Nat) :
    Layout (T₀.group idx).chunkedGroups := (h.settled idx).laid.blocks.layout

namespace Written

variable {Q Q' : Nat → Nat → Nat → Nat → List (VectorUpdateInfo α) → Prop} {g : NodeGroup α}
  {R : Nat → Nat → Nat → List (VectorUpdateInfo α) → Prop}

section Records

theorem kept_records (hlayout : Layout (T₀.group idx).chunkedGroups)
    (h : NodeGroup.Kept t (deletions T₀ U idx) (marks T₀ U idx) R (T₀.group idx) g)
    (hdel : ∀ row < endOf (T₀.group idx).chunkedGroups, (.deleteInfo idx row 1 ∈ U ↔ .deleteInfo idx row 1 ∈ U')) :
    NodeGroup.Kept t (deletions T₀ U' idx) (marks T₀ U' idx) R (T₀.group idx) g := by
  have hrow : ∀ {i : Nat} {b₀ : ChunkedNodeGroup α}, (T₀.group idx).chunkedGroups[i]? = some b₀ →
      ∀ k < b₀.numRows, (.deleteInfo idx (b₀.startRowIdx + k) 1 ∈ U ↔
        .deleteInfo idx (b₀.startRowIdx + k) 1 ∈ U') := fun {i b₀} hb₀ k hk =>
    hdel _ (by have := hlayout.endOf_le hb₀; omega)
  refine h.mono (fun i b₀ hb₀ k hk d hd b hb => ?_) (fun i b₀ hb₀ k hk hm b hb => ?_) fun _ _ _ _ _ _ => id
  · cases hb₀.symm.trans hb
    rw [← hrow hb₀ k hk]
    exact hd _ hb₀
  · cases hb₀.symm.trans hb
    exact (hrow hb₀ k hk).mpr (hm _ hb₀)

theorem mem_append_of_ne (h : record.nodeGroupIdx ≠ idx) (row : Nat) :
    .deleteInfo idx row 1 ∈ U ↔ .deleteInfo idx row 1 ∈ U ++ [record] := by
  refine ⟨fun hm => mem_append_left _ hm, fun hm => (mem_append.mp hm).resolve_right fun hr => ?_⟩
  rw [← mem_singleton.mp hr] at h
  exact h rfl

end Records

variable (h : Written t Q T₀ T U)

include h

theorem mono (hQ : ∀ idx i b₀, (T₀.group idx).chunkedGroups[i]? = some b₀ →
    ∀ column vectorIdx chain, Q idx i column vectorIdx chain → Q' idx i column vectorIdx chain) :
    Written t Q' T₀ T U :=
  ⟨fun idx => (h.group idx).mono (fun _ _ _ _ _ _ => id) (fun _ _ _ _ _ => id) (hQ idx), h.tail⟩

theorem congr (hT : ∀ idx, T'.group idx = T.group idx) : Written t Q T₀ T' U :=
  ⟨fun idx => hT idx ▸ h.group idx, fun idx => hT idx ▸ h.tail idx⟩

variable (hlayout : ∀ idx, Layout (T₀.group idx).chunkedGroups)

include hlayout

theorem edit (idx : Nat) (hgroup : ∀ j, j ≠ idx → T'.group j = T.group j)
    (hdel : ∀ j, j ≠ idx → ∀ row, .deleteInfo j row 1 ∈ U ↔ .deleteInfo j row 1 ∈ U')
    (hins : ∀ j, j ≠ idx → insertsOf j U' = insertsOf j U)
    (hQ : ∀ j, j ≠ idx → ∀ i b₀, (T₀.group j).chunkedGroups[i]? = some b₀ → ∀ column vectorIdx chain,
      Q j i column vectorIdx chain → Q' j i column vectorIdx chain)
    (hkept : NodeGroup.Kept t (deletions T₀ U' idx) (marks T₀ U' idx) (Q' idx) (T₀.group idx) (T'.group idx))
    (htail : Undoes (endOf (T₀.group idx).chunkedGroups) (insertsOf idx U').reverse
      (endOf (T'.group idx).chunkedGroups)) : Written t Q' T₀ T' U' := by
  refine ⟨fun j => ?_, fun j => ?_⟩
  · by_cases hj : j = idx
    · exact hj ▸ hkept
    · rw [hgroup j hj]
      refine kept_records (hlayout j) ?_ fun row _ => hdel j hj row
      exact (h.group j).mono (fun _ _ _ _ _ _ => id) (fun _ _ _ _ _ => id) (hQ j hj)
  · by_cases hj : j = idx
    · exact hj ▸ htail
    · rw [hgroup j hj, hins j hj]
      exact h.tail j

theorem recorded (idx : Nat) (hrec : record.nodeGroupIdx = idx) (hgroup : ∀ j, j ≠ idx → T'.group j = T.group j)
    (hQ : ∀ j, j ≠ idx → ∀ i b₀, (T₀.group j).chunkedGroups[i]? = some b₀ → ∀ column vectorIdx chain,
      Q j i column vectorIdx chain → Q' j i column vectorIdx chain)
    (hkept : NodeGroup.Kept t (deletions T₀ (U ++ [record]) idx) (marks T₀ (U ++ [record]) idx) (Q' idx)
      (T₀.group idx) (T'.group idx))
    (htail : Undoes (endOf (T₀.group idx).chunkedGroups) (insertsOf idx (U ++ [record])).reverse
      (endOf (T'.group idx).chunkedGroups)) : Written t Q' T₀ T' (U ++ [record]) := by
  refine h.edit hlayout idx hgroup (fun j hj => mem_append_of_ne ?_) (fun j hj => ?_) hQ hkept htail
  · exact fun he => hj (he.symm.trans hrec)
  · rw [insertsOf_append, insertsOf_singleton_of_ne fun he => hj (he.symm.trans hrec), append_nil]

variable {f : NodeGroup α → NodeGroup α} {i : Nat}

theorem modify (hkept : idx < T.nodeGroups.length → NodeGroup.Kept t (deletions T₀ U idx) (marks T₀ U idx) (Q idx)
      (T₀.group idx) (f (T.group idx)))
    (hend : idx < T.nodeGroups.length → endOf (f (T.group idx)).chunkedGroups =
      endOf (T.group idx).chunkedGroups) : Written t Q T₀ (T.modifyNodeGroup idx f) U := by
  refine h.edit hlayout idx (fun j hj => ?_) (fun _ _ _ => Iff.rfl) (fun _ _ => rfl) (fun _ _ _ _ _ _ _ _ => id) ?_ ?_
  · rw [group_modifyNodeGroup, if_neg (by simp [hj])]
  · rw [group_modifyNodeGroup]
    split_ifs with hi
    · exact hkept hi.2
    · exact h.group idx
  · rw [group_modifyNodeGroup]
    split_ifs with hi
    · rw [hend hi.2]
      exact h.tail idx
    · exact h.tail idx

omit h

omit hlayout

section Delete

variable {row commitTS : Nat} {r : NodeGroup α × Bool}

theorem group_set (hi : idx < T.nodeGroups.length) : (T.modifyNodeGroup idx fun _ => g).group idx = g := by
  rw [group_modifyNodeGroup, if_pos ⟨rfl, hi⟩]

section

variable (hT₀ : T₀.Ready t commitTS) (h : Written t Q T₀ T U)

include hT₀ h

theorem delete (ht : t ≠ invalidTransaction)
    (hi : idx < T.nodeGroups.length) (hd : (T.group idx).delete t row = .ok r) :
    Written t Q T₀ (T.modifyNodeGroup idx fun _ => r.1) (U ++ [.deleteInfo idx row 1]) := by
  refine h.recorded (fun j => (hT₀.settled j).laid.blocks.layout) idx rfl (fun j hj => ?_)
    (fun _ _ _ _ _ _ _ _ => id) ?_ ?_
  · rw [group_modifyNodeGroup, if_neg fun hc => hj hc.1]
  · rw [group_set hi]
    refine (h.group idx).delete (fun i b₀ hb₀ k hk hne d hD b hb => ?_) ht hd
      (fun i b₀ hb₀ k hk hrow d hD hold b hb => ?_) (fun i b₀ hb₀ k hk hne hm b hb => ?_)
    · cases hb₀.symm.trans hb
      simpa [hne] using hD b₀ hb₀
    · cases hb₀.symm.trans hb
      refine ⟨fun _ => ?_, fun hnot => absurd (by simp [hrow]) hnot⟩
      by_cases hpending : .deleteInfo idx (b₀.startRowIdx + k) 1 ∈ U
      · exact (hD b₀ hb₀).1 hpending
      · rw [← (hD b₀ hb₀).2 hpending]
        refine hold.resolve_left fun hdt => ?_
        exact hT₀.undeleted hb₀ k hk (((hD b₀ hb₀).2 hpending).symm.trans hdt)
    · cases hb₀.symm.trans hb
      simpa [hne] using hm b₀ hb₀
  · rw [group_set hi, insertsOf_deleteInfo, ← (delete_sameRows hd).blocks.endOf]
    exact h.tail idx

theorem delete_own (ht : t ≠ invalidTransaction)
    (hrow : endOf (T₀.group idx).chunkedGroups ≤ row) (hd : (T.group idx).delete t row = .ok r) :
    Written t Q T₀ (T.modifyNodeGroup idx fun _ => r.1) U := by
  have hlayout := hT₀.layout
  refine h.modify hlayout (fun _ => ?_) fun _ => (delete_sameRows hd).blocks.endOf.symm
  refine (h.group idx).delete (fun _ _ _ _ _ _ _ => id) ht hd (fun i b₀ hb₀ k hk he => ?_) (fun _ _ _ _ _ _ => id)
  have hle := (hlayout idx).endOf_le hb₀
  omega

theorem record_own
    (hrow : endOf (T₀.group idx).chunkedGroups ≤ row) :
    Written t Q T₀ T (U ++ [.deleteInfo idx row 1]) := by
  have hlayout := hT₀.layout
  refine h.recorded hlayout idx rfl (fun _ _ => rfl) (fun _ _ _ _ _ _ _ _ => id) ?_ ?_
  · refine kept_records (hlayout idx) (h.group idx) fun row' hlt => ?_
    have hne : row' ≠ row := by omega
    simp [hne]
  · rw [insertsOf_deleteInfo]
    exact h.tail idx

end

end Delete

section Updates

def OwnHead (t : Nat) (P : VectorUpdateInfo α → Prop) (chain₀ chain : List (VectorUpdateInfo α)) : Prop :=
  chain = chain₀ ∨ ∃ u, chain = u :: chain₀ ∧ u.creator = t ∧ P u

def updates (t : Nat) (P : Nat → Nat → Nat → Nat → VectorUpdateInfo α → Prop) (T₀ : NodeTable α)
    (idx i column vectorIdx : Nat) (chain : List (VectorUpdateInfo α)) : Prop :=
  ∀ b₀, (T₀.group idx).chunkedGroups[i]? = some b₀ →
    OwnHead t (P idx i column vectorIdx) (b₀.chain column vectorIdx) chain

def executing (t : Nat) (U : List UndoRecord) (idx i column vectorIdx : Nat) (u : VectorUpdateInfo α) : Prop :=
  u.version = t ∧ .updateInfo idx i column vectorIdx t ∈ U

def committing (t commitTS : Nat) (U : List UndoRecord) (idx i column vectorIdx : Nat)
    (u : VectorUpdateInfo α) : Prop :=
  u.version = commitTS ∨ executing t U idx i column vectorIdx u

variable {chain chain₀ : List (VectorUpdateInfo α)} {P P' : VectorUpdateInfo α → Prop}
  {commitTS row columnID vectorIdx i : Nat} {value : α}

theorem OwnHead.mono (h : OwnHead t P chain₀ chain) (hP : ∀ u, P u → P' u) : OwnHead t P' chain₀ chain :=
  h.imp id fun ⟨u, hu, hc, hp⟩ => ⟨u, hu, hc, hP u hp⟩

theorem writeOwn_eq_none (h : ∀ u ∈ chain, u.version ≠ t) : writeOwn t row value chain = none := by
  induction chain with
  | nil => rfl
  | cons u chain ih =>
    have hrest := ih fun w hw => h w (mem_cons_of_mem u hw)
    simp [writeOwn, hrest, h u mem_cons_self]

theorem OwnHead.write (h : OwnHead t P chain₀ chain) (hP : ∀ u, P u → u.version = t)
    (hold : ∀ u ∈ chain₀, u.version ≠ t) (hP' : ∀ u, u.version = t → P' u) :
    OwnHead t P' chain₀ ((writeOwn t row value chain).getD ((VectorUpdateInfo.create t).write row value :: chain)) := by
  rcases h with rfl | ⟨u, rfl, hc, hp⟩
  · rw [writeOwn_eq_none hold]
    exact .inr ⟨_, rfl, rfl, hP' _ rfl⟩
  · have hwrite : writeOwn t row value (u :: chain₀) = some (u.write row value :: chain₀) := by
      simp [writeOwn, writeOwn_eq_none hold, hP u hp]
    rw [hwrite]
    exact .inr ⟨_, rfl, hc, hP' _ (hP u hp)⟩

theorem OwnHead.commit (h : OwnHead t P chain₀ chain) (hold : ∀ u ∈ chain₀, u.creator ≠ t)
    (hP' : ∀ u, u.version = commitTS → P' u) : OwnHead t P' chain₀ (chain.map fun u =>
      if u.creator = t then { u with version := commitTS } else u) := by
  have hsame : chain₀.map (fun u => if u.creator = t then { u with version := commitTS } else u) = chain₀ := by
    refine (map_congr_left fun u hu => ?_).trans (map_id _)
    rw [if_neg (hold u hu), id]
  rcases h with rfl | ⟨u, rfl, hc, -⟩
  · exact .inl hsame
  · rw [map_cons, hsame, if_pos hc]
    exact .inr ⟨_, rfl, hc, hP' _ rfl⟩

theorem update {tx : Snapshot} {r : NodeGroup α × Nat × Nat} (hT₀ : T₀.Ready tx.id commitTS)
    (h : Written tx.id (updates tx.id (executing tx.id U) T₀) T₀ T U) (hi : idx < T.nodeGroups.length)
    (hu : (T.group idx).update tx row columnID value = .ok r) :
    Written tx.id (updates tx.id (executing tx.id (U ++ [.updateInfo idx r.2.1 columnID r.2.2 tx.id])) T₀) T₀
      (T.modifyNodeGroup idx fun _ => r.1) (U ++ [.updateInfo idx r.2.1 columnID r.2.2 tx.id]) := by
  have hlayout := hT₀.layout
  have hmono : ∀ j i b₀, (T₀.group j).chunkedGroups[i]? = some b₀ → ∀ column vectorIdx chain,
      updates tx.id (executing tx.id U) T₀ j i column vectorIdx chain → updates tx.id (executing tx.id
        (U ++ [.updateInfo idx r.2.1 columnID r.2.2 tx.id])) T₀ j i column vectorIdx chain :=
    fun _ _ _ _ _ _ _ hq b₀ hb₀ => (hq b₀ hb₀).mono fun _ hp => ⟨hp.1, mem_append_left _ hp.2⟩
  have hsame := update_sameRows hu
  refine h.recorded hlayout idx rfl (fun j hj => ?_) (fun j _ => hmono j) ?_ ?_
  · rw [group_modifyNodeGroup, if_neg fun hc => hj hc.1]
  · rw [group_set hi]
    refine kept_records (U := U) (hlayout idx) ?_ fun _ _ => by simp
    obtain ⟨chunkedIdx, k, b, info, -, hb, hinfo, rfl⟩ := update_ok hu
    unfold UpdateInfo.update at hinfo
    simp only at hinfo
    split_ifs at hinfo
    obtain rfl := Except.ok.inj hinfo
    refine (h.group idx).setChain hsame hb rfl (fun i column v _ chain hq b₀ hb₀ => ?_) fun _ _ hq b₀ hb₀ => ?_
    · exact (hq b₀ hb₀).mono fun _ hp => ⟨hp.1, mem_append_left _ hp.2⟩
    · exact (hq b₀ hb₀).write (fun _ hp => hp.1) (fun u hu => (hT₀.updates hb₀ _ _ u hu).1) fun _ hv => ⟨hv, by simp⟩
  · rw [group_set hi, insertsOf_updateInfo, ← hsame.blocks.endOf]
    exact h.tail idx

end Updates

section Inserts

variable {startRow numRows commitTS : Nat}

theorem push_insert (hlayout : ∀ idx, Layout (T₀.group idx).chunkedGroups) (h : Written t Q T₀ T U)
    (hend : endOf (T.group idx).chunkedGroups = (T.group idx).numRows) :
    Written t Q T₀ T (U ++ [.insertInfo idx (T.group idx).numRows numRows]) := by
  refine h.recorded hlayout idx rfl (fun _ _ => rfl) (fun _ _ _ _ _ _ _ _ => id) ?_ ?_
  · exact kept_records (hlayout idx) (h.group idx) fun _ _ => by simp
  · rw [insertsOf_insertInfo, reverse_append]
    exact ⟨(h.group idx).counted, by omega, hend ▸ h.tail idx⟩

end Inserts

section Commit

variable {commitTS : Nat}

theorem modifyUpdateInfo {F : List (VectorUpdateInfo α) → List (VectorUpdateInfo α)}
    {D : Nat → Nat → Nat → Prop} {M : Nat → Nat → Prop}
    {R' : Nat → Nat → Nat → List (VectorUpdateInfo α) → Prop} {g₀ : NodeGroup α}
    (h : NodeGroup.Kept t D M R g₀ g)
    (hother : ∀ j column v, ¬ (j = i ∧ column = columnID ∧ v = vectorIdx) → ∀ chain,
      R j column v chain → R' j column v chain)
    (hnew : ∀ b₀, g₀.chunkedGroups[i]? = some b₀ → ∀ chain, R i columnID vectorIdx chain →
      R' i columnID vectorIdx (F chain)) :
    NodeGroup.Kept t D M R' g₀ (g.modifyUpdateInfo i columnID fun info =>
      info.setChain vectorIdx (F (info.updates vectorIdx))) := by
  cases hb : g.chunkedGroups[i]? with
  | none =>
    have hsame : (g.modifyUpdateInfo i columnID fun info =>
        info.setChain vectorIdx (F (info.updates vectorIdx))) = g := by
      have hle : g.chunkedGroups.length ≤ i := getElem?_eq_none_iff.mp hb
      simp [NodeGroup.modifyUpdateInfo, modify_eq_self hle]
    rw [hsame]
    refine { h with block := fun {j b₀ c} hb₀ hc => ?_ }
    refine (h.block hb₀ hc).mono (fun _ _ _ => id) (fun _ _ => id) fun column v => hother j column v ?_
    rintro ⟨rfl, -, -⟩
    simp [hb] at hc
  | some b =>
    exact h.setChain modifyUpdateInfo_sameRows hb (modify_eq_set hb) hother fun b₀ hb₀ => hnew b₀ hb₀ _

theorem commitRecord (hT₀ : T₀.Ready t commitTS)
    (h : Written t (updates t (committing t commitTS U) T₀) T₀ T U) (hmem : record ∈ U)
    (hown : record.Own t) :
    Written t (updates t (committing t commitTS U) T₀) T₀ (record.commitRecord commitTS T) U := by
  have hlayout := hT₀.layout
  cases record with
  | insertInfo g startRow numRows =>
    have hstart := (h.tail g).start_le (mem_reverse.mpr (mem_insertsOf hmem))
    exact h.modify hlayout (fun _ => (h.group g).commitInsert (hlayout g) hstart) fun _ =>
      (applyFuncToChunkedGroups_shape (f := (·.commitInsert commitTS)) fun _ _ _ => rfl).endOf.symm
  | deleteInfo g row numRows =>
    obtain rfl : numRows = 1 := hown
    refine h.modify hlayout (fun _ => (h.group g).commitDelete fun i b₀ hb₀ k hk hrow => ?_) fun _ =>
      (applyFuncToChunkedGroups_shape (f := (·.commitDelete commitTS)) fun _ _ _ => rfl).endOf.symm
    have hpending : .deleteInfo g (b₀.startRowIdx + k) 1 ∈ U := hrow ▸ hmem
    obtain ⟨b, hb⟩ := (h.group g).kept hb₀ (Nat.zero_lt_of_lt hk)
    have hinvalid := (((h.group g).block hb₀ hb).deletion k hk b₀ hb₀).1 hpending
    constructor
    · rintro b' hb'
      cases hb₀.symm.trans hb'
      exact hpending
    · rintro d b' hb'
      cases hb₀.symm.trans hb'
      exact ⟨fun _ => hinvalid, fun hnot => absurd hpending hnot⟩
  | updateInfo g i columnID vectorIdx version =>
    obtain rfl : version = t := hown
    refine h.modify hlayout (fun _ => ?_) fun _ => modifyUpdateInfo_sameRows.blocks.endOf.symm
    refine modifyUpdateInfo (h.group g) (fun _ _ _ _ _ => id) fun _ _ chain hq b₀ hb₀ => ?_
    exact (hq b₀ hb₀).commit (fun u hu => (hT₀.updates hb₀ _ _ u hu).2) fun _ hv => .inl hv

end Commit

section Rollback

variable {commitTS : Nat} {T₂ : NodeTable α}

def chainAt (T : NodeTable α) (idx i column vectorIdx : Nat) : List (VectorUpdateInfo α) :=
  match (T.group idx).chunkedGroups[i]? with
  | none => []
  | some b => b.chain column vectorIdx

def undoing (t : Nat) (T₂ : NodeTable α) (U : List UndoRecord) (idx i column vectorIdx : Nat)
    (chain : List (VectorUpdateInfo α)) : Prop :=
  (chain = chainAt T₂ idx i column vectorIdx ∧ ∀ u ∈ chain, u.version = t → .updateInfo idx i column vectorIdx t ∈ U) ∨
  chain = (chainAt T₂ idx i column vectorIdx).eraseP (·.version = t)

theorem drop (hT₀ : T₀.Ready t commitTS) (h : Written t Q T₀ T U)
    (hT : ∀ j, T'.group j = T.group j ∨ T'.group j = {} ∧ (T.group j).numRows = 0) :
    Written t Q T₀ T' U := by
  have hempty : ∀ j, (T.group j).numRows = 0 → endOf (T₀.group j).chunkedGroups = 0 := fun j hz => by
    have hle := (h.group j).counted
    omega
  refine ⟨fun j => ?_, fun j => ?_⟩
  · rcases hT j with hsame | ⟨hnone, hz⟩
    · rw [hsame]
      exact h.group j
    · have hend := hempty j hz
      have hrows : (T₀.group j).numRows = 0 := (hT₀.settled j).laid.endOf.symm.trans hend
      rw [hnone]
      refine ⟨WellLaid.nil, (hT₀.generations j hrows).symm, hend.le, Nat.zero_le _, by simp, ?_⟩
      intro i b₀ hb₀ hpos
      have hle := (hT₀.settled j).laid.blocks.layout.endOf_le hb₀
      omega
  · rcases hT j with hsame | ⟨hnone, -⟩
    · rw [hsame]
      exact h.tail j
    · rw [hnone]
      exact (h.tail j).mono (Nat.zero_le _)

def OneOwn (t : Nat) (T₀ T₂ : NodeTable α) : Prop :=
  ∀ {idx i : Nat} {b₀ : ChunkedNodeGroup α}, (T₀.group idx).chunkedGroups[i]? = some b₀ →
    ∀ column vectorIdx, ∀ u ∈ (chainAt T₂ idx i column vectorIdx).eraseP (·.version = t), u.version ≠ t

theorem undoing_of_ne {column : Nat} {chain : List (VectorUpdateInfo α)}
    (hne : record ≠ .updateInfo j i column vectorIdx t)
    (h : undoing t T₂ (U ++ [record]) j i column vectorIdx chain) :
    undoing t T₂ U j i column vectorIdx chain := by
  rcases h with ⟨rfl, hu⟩ | he
  · refine .inl ⟨rfl, fun u hmem hv => (mem_append.mp (hu u hmem hv)).resolve_right fun hr => ?_⟩
    exact hne (mem_singleton.mp hr).symm
  · exact .inr he

theorem unrecord (hlayout : ∀ idx, Layout (T₀.group idx).chunkedGroups)
    (h : Written t (undoing t T₂ (U ++ [record])) T₀ T (U ++ [record])) (hrec : record.nodeGroupIdx = idx)
    (hkept : idx < T.nodeGroups.length → NodeGroup.Kept t (deletions T₀ U idx) (marks T₀ U idx)
      (undoing t T₂ U idx) (T₀.group idx) (f (T.group idx)))
    (htail : idx < T.nodeGroups.length → Undoes (endOf (T₀.group idx).chunkedGroups)
      (insertsOf idx U).reverse (endOf (f (T.group idx)).chunkedGroups))
    (hgone : Undoes (endOf (T₀.group idx).chunkedGroups) (insertsOf idx U).reverse 0) :
    Written t (undoing t T₂ U) T₀ (T.modifyNodeGroup idx f) U := by
  refine h.edit hlayout idx (fun j hj => ?_) (fun j hj row => ?_) (fun j hj => ?_)
    (fun j hj i _ _ column v chain => undoing_of_ne ?_) ?_ ?_
  · rw [group_modifyNodeGroup, if_neg fun hc => hj hc.1]
  · exact (mem_append_of_ne (fun he => hj (he.symm.trans hrec)) row).symm
  · rw [insertsOf_append, insertsOf_singleton_of_ne fun he => hj (he.symm.trans hrec), append_nil]
  · rintro rfl
    exact hj hrec
  · rw [group_modifyNodeGroup]
    split_ifs with hi
    · exact hkept hi.2
    · -- a group that has gone had no old rows
      have hge : T.nodeGroups.length ≤ idx := Nat.not_lt.mp fun hlt => hi ⟨rfl, hlt⟩
      have hnone : T.group idx = {} := by simp [NodeTable.group, getElem?_eq_none hge]
      refine { h.group idx with block := fun {i b₀ b} hb₀ hb => ?_ }
      simp [hnone] at hb
  · rw [group_modifyNodeGroup]
    split_ifs with hi
    · exact htail hi.2
    · have hge : T.nodeGroups.length ≤ idx := Nat.not_lt.mp fun hlt => hi ⟨rfl, hlt⟩
      have hnone : T.group idx = {} := by simp [NodeTable.group, getElem?_eq_none hge]
      rw [hnone]
      exact hgone

section

variable (hT₀ : T₀.Ready t commitTS)

include hT₀

theorem rollback_insert (ht : t ≠ invalidTransaction)
    (h : Written t (undoing t T₂ (U ++ [.insertInfo idx startRow numRows])) T₀ T
      (U ++ [.insertInfo idx startRow numRows])) :
    Written t (undoing t T₂ U) T₀ ((UndoRecord.insertInfo idx startRow numRows).rollbackRecord T) U := by
  have hlayout := hT₀.layout
  have htail := h.tail idx
  rw [insertsOf_insertInfo, reverse_append] at htail
  obtain ⟨hstart, hend, hrest⟩ := htail
  have hkept : NodeGroup.Kept t (deletions T₀ U idx) (marks T₀ U idx) (undoing t T₂ U idx) (T₀.group idx)
      (T.group idx) := by
    refine kept_records (U := U ++ [.insertInfo idx startRow numRows]) (hlayout idx) ?_ fun row _ => by simp
    exact (h.group idx).mono (fun _ _ _ _ _ _ => id) (fun _ _ _ _ _ => id)
      fun i _ _ column v chain => undoing_of_ne (by simp)
  have hroll := hkept.rollbackRange (hT₀.settled idx) ht hstart hend
  refine drop hT₀ ?_ fun j => group_rollbackInsert
  exact h.unrecord hlayout rfl (fun _ => hroll.1) (fun _ => hrest.mono hroll.2) (hrest.mono (Nat.zero_le _))

theorem rollback_delete {row : Nat}
    (h : Written t (undoing t T₂ (U ++ [.deleteInfo idx row 1])) T₀ T (U ++ [.deleteInfo idx row 1])) :
    Written t (undoing t T₂ U) T₀ ((UndoRecord.deleteInfo idx row 1).rollbackRecord T) U := by
  have hlayout := hT₀.layout
  have hkept := (h.group idx).mono (fun _ _ _ _ _ _ => id) (fun _ _ _ _ _ => id)
    fun i _ _ column v chain => undoing_of_ne (by simp)
  have htail := h.tail idx
  rw [insertsOf_deleteInfo] at htail
  refine h.unrecord hlayout rfl (fun _ => ?_) (fun _ => ?_) (htail.mono (Nat.zero_le _))
  · refine hkept.rollbackDelete (fun i b₀ hb₀ k hk hne d hD b hb => ?_) (fun i b₀ hb₀ k hk hrow => ?_)
      (fun i b₀ hb₀ k hk hm b hb => mem_append_left _ (hm b hb))
    · cases hb₀.symm.trans hb
      simpa [hne] using hD b₀ hb₀
    · have hpending : .deleteInfo idx (b₀.startRowIdx + k) 1 ∈ U ++ [.deleteInfo idx row 1] := by
        simp [hrow]
      obtain ⟨b, hb⟩ := (h.group idx).kept hb₀ (Nat.zero_lt_of_lt hk)
      have hinvalid := (((h.group idx).block hb₀ hb).deletion k hk b₀ hb₀).1 hpending
      constructor
      · rintro b' hb'
        cases hb₀.symm.trans hb'
        exact hpending
      · rintro b' hb'
        cases hb₀.symm.trans hb'
        exact ⟨fun _ => hinvalid, fun _ => hinvalid.symm⟩
  · rwa [← (applyFuncToChunkedGroups_shape (f := (·.rollbackDelete)) fun _ _ _ => rfl).endOf]

theorem rollback_update (hone : OneOwn t T₀ T₂)
    (h : Written t (undoing t T₂ (U ++ [.updateInfo idx i columnID vectorIdx t])) T₀ T
      (U ++ [.updateInfo idx i columnID vectorIdx t])) :
    Written t (undoing t T₂ U) T₀ ((UndoRecord.updateInfo idx i columnID vectorIdx t).rollbackRecord T) U := by
  have hlayout := hT₀.layout
  have htail := h.tail idx
  rw [insertsOf_updateInfo] at htail
  refine h.unrecord hlayout rfl (fun _ => ?_) (fun _ => ?_) (htail.mono (Nat.zero_le _))
  · refine modifyUpdateInfo (kept_records (hlayout idx) (h.group idx) fun row _ => by simp)
      (fun j column v hne chain => undoing_of_ne ?_) (fun b₀ hb₀ chain hq => .inr ?_)
    · simpa [eq_comm] using hne
    · rcases hq with ⟨rfl, -⟩ | rfl
      · rfl
      · exact eraseP_of_forall_not fun u hu => by simpa using hone hb₀ _ _ u hu
  · rwa [← modifyUpdateInfo_sameRows.blocks.endOf]

theorem rollbackRecord (ht : t ≠ invalidTransaction) (hone : OneOwn t T₀ T₂)
    (h : Written t (undoing t T₂ (U ++ [record])) T₀ T (U ++ [record])) (hown : record.Own t) :
    Written t (undoing t T₂ U) T₀ (record.rollbackRecord T) U := by
  cases record with
  | insertInfo g startRow numRows => exact rollback_insert hT₀ ht h
  | deleteInfo g row numRows =>
    obtain rfl : numRows = 1 := hown
    exact rollback_delete hT₀ h
  | updateInfo g i columnID vectorIdx version =>
    obtain rfl : version = t := hown
    exact rollback_update hT₀ hone h

end

end Rollback

end Written

end Rag3db.Storage
