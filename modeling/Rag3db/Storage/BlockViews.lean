import Rag3db.Storage.Cells

open List Option

namespace Rag3db.Storage

open VectorVersionInfo UpdateInfo VectorUpdateInfo

variable {α : Type}

namespace VectorVersionInfo

variable {v : VectorVersionInfo} {V : Set Nat} {versions : Nat → Nat} {commitTS startRow numRows row k : Nat}

theorem setInsertCommitTS_spec (startRow numRows : Nat) (h : v.Tracked) (hne : commitTS ≠ invalidTransaction) :
    (v.setInsertCommitTS commitTS startRow numRows).Tracked ∧
      ∀ row, (v.setInsertCommitTS commitTS startRow numRows).insertion row = v.insertion row ∨
        (v.setInsertCommitTS commitTS startRow numRows).insertion row = commitTS ∧
          ((startRow ≤ row ∧ row < startRow + numRows) ∨ ∀ other, v.insertion row = v.insertion other) := by
  unfold setInsertCommitTS
  cases hs : v.isSameInsertionVersion with
  | true =>
    have hnone : v.insertedVersions = none := h.same.mpr (by simpa [isSameInsertionVersion] using hs)
    refine ⟨⟨h.status, by simp [hnone, hne]⟩, fun row => .inr ⟨?_, .inr fun other => ?_⟩⟩
    · simp [insertion, h.status, isSameInsertionVersion, hne]
    · simp [insertion, hs]
  | false =>
    have hsame : v.sameInsertionVersion = invalidTransaction := by simpa [isSameInsertionVersion] using hs
    obtain ⟨versions, hv⟩ : ∃ versions, v.insertedVersions = some versions := by
      cases hv : v.insertedVersions with
      | none => exact absurd hsame (h.same.mp hv)
      | some versions => exact ⟨versions, rfl⟩
    refine ⟨⟨h.status, by simp [hv, hsame]⟩, fun row => ?_⟩
    simp only [insertion, h.status, isSameInsertionVersion, hsame, hv]
    by_cases hin : startRow ≤ row ∧ row < startRow + numRows
    · exact .inr ⟨fill_of_mem hin, .inl hin⟩
    · exact .inl (fill_of_not_mem hin)

/-- A version for the whole vector stands for the array. -/
def Exclusive (v : VectorVersionInfo) : Prop :=
  v.sameInsertionVersion ≠ invalidTransaction → v.insertedVersions = none

theorem Tracked.exclusive (h : v.Tracked) : v.Exclusive := h.same.mpr

theorem insertion_fill_of_lt {numRows : Nat} (h : v.insertedVersions = some versions) (hrow : row < k) :
    ({ v with insertedVersions := some (fill versions k numRows invalidTransaction) } :
      VectorVersionInfo).insertion row = v.insertion row := by
  unfold insertion isSameInsertionVersion
  rw [h]
  simp only [getD_some, fill_of_not_mem (by omega : ¬ (k ≤ row ∧ row < k + numRows))]

theorem rollbackInsertions_same :
    (v.rollbackInsertions startRow numRows).sameInsertionVersion = invalidTransaction := by
  unfold rollbackInsertions
  cases hs : v.isSameInsertionVersion with
  | true =>
    simp only [↓reduceIte]
    split_ifs <;> rfl
  | false =>
    have hsame : v.sameInsertionVersion = invalidTransaction := by simpa [isSameInsertionVersion] using hs
    simp only [Bool.false_eq_true, ↓reduceIte]
    split_ifs <;> exact hsame

theorem rollbackInsertions_spec (numRows : Nat) (h : v.Exclusive) (hk : k < vectorCapacity) (hin : v.insertion k ∈ V)
    (hinvalid : invalidTransaction ∈ V) (hzero : 0 ∉ V) :
    (∃ versions, v.insertedVersions = some versions ∧ v.rollbackInsertions k numRows =
      { v with insertedVersions := some (fill versions k numRows invalidTransaction) }) ∨
    ∀ row < k, (v.rollbackInsertions k numRows).insertion row ∈ V ∧ v.insertion row ∈ V := by
  have hnot : v.insertionStatus ≠ .alwaysInserted := fun hs => hzero (by simpa [insertion, hs] using hin)
  cases hv : v.insertedVersions with
  | none =>
    have hgone : (v.rollbackInsertions k numRows).insertionStatus = .noInserted := by
      unfold rollbackInsertions
      cases hs : v.isSameInsertionVersion <;> simp [hv]
    refine .inr fun row _ => ⟨by simpa [insertion, hgone] using hinvalid, ?_⟩
    have hsame : v.insertion row = v.insertion k := by simp [insertion, hv, noVersions]
    exact hsame ▸ hin
  | some versions =>
    have hs : v.isSameInsertionVersion = false := by
      by_contra hc
      have hne : v.sameInsertionVersion ≠ invalidTransaction := by
        simpa [isSameInsertionVersion] using hc
      simp [h hne] at hv
    cases hany : hasAny (fill versions k numRows invalidTransaction) with
    | true =>
      simp [rollbackInsertions, hs, hv, erase, hany]
    | false =>
      have hgone : (v.rollbackInsertions k numRows).insertionStatus = .noInserted := by
        simp [rollbackInsertions, hs, hv, erase, hany]
      refine .inr fun row hrow => ⟨by simpa [insertion, hgone] using hinvalid, ?_⟩
      have hrowinv := eq_invalid_of_not_hasAny hany (hrow.trans hk)
      rw [fill_of_not_mem (by omega)] at hrowinv
      have hins : v.insertion row = invalidTransaction := by
        cases hstatus : v.insertionStatus with
        | alwaysInserted => exact absurd hstatus hnot
        | noInserted => simp [insertion, hstatus]
        | checkVersion => simp [insertion, hstatus, hs, hv, hrowinv]
      exact hins ▸ hinvalid

end VectorVersionInfo

namespace ChunkedNodeGroup

variable {b : ChunkedNodeGroup α} {V W : Set Nat} {v w : VectorVersionInfo} {i j k n t commitTS : Nat}

/-- The versions of a block that holds rows. -/
structure WellVersioned (b : ChunkedNodeGroup α) : Prop where
  versions : ∀ {j v}, b.vectorAt j = some v → v.Deletable ∧ v.insertionStatus ≠ .noInserted
  tracked : b.residencyState = .inMemory → 0 < b.numRows → ∃ v, b.vectorAt 0 = some v ∧ v.Tracked

/-- A block with its versions in order, as far as it holds rows of others than
those whose versions are in `V`. -/
structure SoundBut (V : Set Nat) (b : ChunkedNodeGroup α) : Prop where
  data : ∀ column, (b.columns column).data.length = b.numRows
  fresh : b.residencyState = .inMemory → b.numRows = 0 → b.WellVersioned ∧ b.vector.insertedVersions = none
  exclusive : 0 < b.numRows → b.residencyState = .inMemory → ∀ {v}, b.vectorAt 0 = some v → v.Exclusive
  versioned : ∀ k < b.numRows, b.insertion k ∉ V → b.WellVersioned

theorem SoundBut.mono (h : SoundBut W b) (hWV : W ⊆ V) : SoundBut V b :=
  ⟨h.data, h.fresh, h.exclusive, fun k hk hins => h.versioned k hk fun hm => hins (hWV hm)⟩

theorem SoundBut.wellVersioned (h : SoundBut ∅ b) (hb : 0 < b.numRows ∨ b.residencyState = .inMemory) :
    b.WellVersioned := by
  rcases Nat.eq_zero_or_pos b.numRows with hzero | hpos
  · exact (h.fresh (hb.resolve_left (by omega)) hzero).1
  · exact h.versioned 0 hpos (Set.notMem_empty _)

theorem SoundBut.sound (h : SoundBut ∅ b) : b.Sound where
  data := h.data
  versions hb {info} hinfo := by
    have hw := h.wellVersioned hb
    refine ⟨fun {j v} hv => ?_, fun {j v} hv => ?_⟩
    · exact (hw.versions (j := j) (by simp [vectorAt, hinfo, hv])).1
    · exact (hw.versions (j := j) (by simp [vectorAt, hinfo, hv])).2
  tracked hmem hpos := by
    obtain ⟨v, hv, ht⟩ := (h.wellVersioned (.inl hpos)).tracked hmem hpos
    obtain ⟨info, hinfo, hget⟩ := bind_eq_some_iff.mp hv
    exact ⟨info, v, hinfo, hget, ht⟩
  fresh hmem hzero := (h.fresh hmem hzero).2

theorem Sound.wellVersioned (h : b.Sound) (hb : 0 < b.numRows ∨ b.residencyState = .inMemory) : b.WellVersioned := by
  refine ⟨fun {j v} hv => ?_, fun hmem hpos => ?_⟩
  · obtain ⟨info, hinfo, hget⟩ := bind_eq_some_iff.mp hv
    have hw := h.versions hb hinfo
    exact ⟨hw.deletable hget, hw.inserted hget⟩
  · obtain ⟨info, v, hinfo, hget, ht⟩ := h.tracked hmem hpos
    exact ⟨v, by simp [vectorAt, hinfo, hget], ht⟩

theorem Sound.soundBut (h : b.Sound) : SoundBut V b where
  data := h.data
  fresh hmem hzero := ⟨h.wellVersioned (.inr hmem), h.fresh hmem hzero⟩
  exclusive hpos hmem {v} hv := by
    obtain ⟨u, hu, ht⟩ := (h.wellVersioned (.inl hpos)).tracked hmem hpos
    exact some.inj (hu.symm.trans hv) ▸ ht.exclusive
  versioned k hk _ := h.wellVersioned (.inl (Nat.zero_lt_of_lt hk))

section Vector

theorem cell_setVector (hins : k / vectorCapacity = j → w.insertion (k % vectorCapacity) = b.insertion k ∨
      w.insertion (k % vectorCapacity) ∈ V ∧ b.insertion k ∈ V)
    (hdel : k / vectorCapacity = j → w.deletion (k % vectorCapacity) = b.deletion k ∨
      w.deletion (k % vectorCapacity) ∈ V ∧ b.deletion k ∈ V ∨
      w.insertion (k % vectorCapacity) ∈ V ∧ b.insertion k ∈ V) :
    ((b.setVector j w).cell k).without V = (b.cell k).without V := by
  have hins' : ((b.setVector j w).cell k).insertion = (b.setVector j w).insertion k := rfl
  have hdel' : ((b.setVector j w).cell k).deletion = (b.setVector j w).deletion k := rfl
  rw [insertion_setVector] at hins'
  rw [deletion_setVector] at hdel'
  by_cases hk : k / vectorCapacity = j
  · rw [if_pos hk] at hins' hdel'
    rcases hdel hk with hd | hd | hd
    · refine Cell.without_congr ?_ (.inl (hdel'.trans hd)) rfl fun _ => rfl
      rw [hins']
      exact hins hk
    · refine Cell.without_congr ?_ (.inr ⟨by rw [hdel']; exact hd.1, hd.2⟩) rfl fun _ => rfl
      rw [hins']
      exact hins hk
    · rw [Cell.without_of_mem (hins' ▸ hd.1), Cell.without_of_mem hd.2]
  · rw [if_neg hk] at hins' hdel'
    exact Cell.without_congr (.inl hins') (.inl hdel') rfl fun _ => rfl

theorem WellVersioned.setVector (h : b.WellVersioned) (hw : w.Deletable ∧ w.insertionStatus ≠ .noInserted)
    (htracked : b.residencyState = .inMemory → 0 < b.numRows → j = 0 → w.Tracked) :
    (b.setVector j w).WellVersioned where
  versions {i v} hv := by
    rw [vectorAt_setVector] at hv
    split_ifs at hv
    · exact some.inj hv ▸ hw
    · exact h.versions hv
  tracked hmem hpos := by
    rw [vectorAt_setVector]
    by_cases hj : j = 0
    · exact ⟨w, by rw [if_pos hj.symm], htracked hmem hpos hj⟩
    · rw [if_neg (Ne.symm hj)]
      exact h.tracked hmem hpos

theorem vector_setVector : (b.setVector j w).vector = if j = 0 then w else b.vector := by
  unfold vector setVector VersionInfo.setVector
  by_cases hj : j = 0
  · simp [hj]
  · simp [hj, Ne.symm hj]

theorem isSome_setVector (h : (b.vectorAt i).isSome) : ((b.setVector j w).vectorAt i).isSome := by
  rw [vectorAt_setVector]
  split_ifs
  · rfl
  · exact h

theorem SoundBut.setVector (h : SoundBut V b) (hins : ∀ k < b.numRows, k / vectorCapacity = j → b.insertion k ∈ V →
      w.insertion (k % vectorCapacity) ∈ V)
    (hexclusive : 0 < b.numRows → b.residencyState = .inMemory → j = 0 → w.Exclusive)
    (hfresh : b.residencyState = .inMemory → b.numRows = 0 → j = 0 → w.insertedVersions = none)
    (hw : b.WellVersioned → w.Deletable ∧ w.insertionStatus ≠ .noInserted)
    (htracked : b.WellVersioned → b.residencyState = .inMemory → 0 < b.numRows → j = 0 → w.Tracked) :
    SoundBut V (b.setVector j w) where
  data := h.data
  fresh hmem hzero := by
    have hf := h.fresh hmem hzero
    refine ⟨hf.1.setVector (hw hf.1) (htracked hf.1), ?_⟩
    rw [vector_setVector]
    split_ifs with hj
    · exact hfresh hmem hzero hj
    · exact hf.2
  exclusive hpos hmem {v} hv := by
    rw [vectorAt_setVector] at hv
    split_ifs at hv with hj
    · exact some.inj hv ▸ hexclusive hpos hmem hj.symm
    · exact h.exclusive hpos hmem hv
  versioned k hk hout := by
    have hold : b.insertion k ∉ V := by
      intro hm
      rw [insertion_setVector] at hout
      split_ifs at hout with hkj
      · exact hout (hins k hk hkj hm)
      · exact hout hm
    have hv := h.versioned k hk hold
    exact hv.setVector (hw hv) (htracked hv)

end Vector

section Deletions

theorem delete_spec {r : ChunkedNodeGroup α × Bool} (h : SoundBut W b) (hversioned : b.WellVersioned)
    (ht : t ≠ invalidTransaction) (hd : b.delete t k = .ok r) :
    SoundBut W r.1 ∧ (b.deletion k = t ∨ b.deletion k = invalidTransaction) ∧ (∀ i, r.1.insertion i = b.insertion i) ∧
      ∀ i, r.1.deletion i = if i = k then t else b.deletion i := by
  obtain ⟨w, hr, hold, hw, hsame, hrows⟩ := delete_vector ht hd hversioned.versions
  have hvec : ∀ {v}, k / vectorCapacity = 0 → b.vectorAt 0 = some v →
      b.deletedVector (k / vectorCapacity) = v := fun hz hv =>
    deletedVector_of_some (hz ▸ hv) (hversioned.versions hv).2
  have htracked : b.residencyState = .inMemory → 0 < b.numRows → k / vectorCapacity = 0 → w.Tracked := by
    intro hmem hpos hz
    obtain ⟨v, hv, ht⟩ := hversioned.tracked hmem hpos
    exact hsame.tracked (hvec hz hv ▸ ht)
  rw [hr]
  refine ⟨h.setVector (fun i _ hi hm => (hrows i hi).1 ▸ hm)
    (fun hpos hmem hz => (htracked hmem hpos hz).exclusive) (fun hmem hzero hz => ?_) (fun _ => hw)
    fun _ => htracked, hold, fun i => ?_, fun i => ?_⟩
  · have hnone := (h.fresh hmem hzero).2
    rw [hsame.array]
    cases hv : b.vectorAt 0 with
    | none => rw [hz, deletedVector_of_none hv]
    | some v =>
      obtain ⟨info, hinfo, hget⟩ := bind_eq_some_iff.mp hv
      simpa [hvec hz hv, vector, hinfo, hget] using hnone
  · rw [insertion_setVector]
    split_ifs with hi
    · exact (hrows i hi).1
    · rfl
  · rw [deletion_setVector]
    split_ifs with hi hik hik
    · rw [(hrows i hi).2, if_pos hik]
    · rw [(hrows i hi).2, if_neg hik]
    · exact absurd (hik ▸ rfl) hi
    · rfl

theorem editDeletion_spec {F : VectorVersionInfo → Nat → Nat → VectorVersionInfo} (h : SoundBut W b)
    (hF : VectorVersionInfo.EditsDeletion F)
    (hk : k < b.numRows) (hv : b.vectorAt (k / vectorCapacity) = some v) :
    SoundBut W (b.onVersions F k 1) ∧ (∀ i, (b.onVersions F k 1).insertion i = b.insertion i) ∧
      (b.WellVersioned → ∀ i, i ≠ k → (b.onVersions F k 1).deletion i = b.deletion i) ∧
      (b.onVersions F k 1).deletion k = (F v (k % vectorCapacity) 1).deletion (k % vectorCapacity) ∧
      ∀ i, (b.vectorAt i).isSome → ((b.onVersions F k 1).vectorAt i).isSome := by
  have hsame := hF.insertions v (k % vectorCapacity)
  have hins : ∀ i, i / vectorCapacity = k / vectorCapacity →
      (F v (k % vectorCapacity) 1).insertion (i % vectorCapacity) = b.insertion i := fun i hi =>
    hsame.insertion.trans (insertion_of_vectorAt (hi ▸ hv)).symm
  rw [onVersions_row hv]
  refine ⟨h.setVector (fun i _ hi hm => hins i hi ▸ hm) (fun hpos hmem hz => ?_) (fun _ hzero => by omega)
    (fun hw => ?_) (fun hw hmem hpos hz => ?_), fun i => ?_, fun hw i hik => ?_,
    by rw [deletion_setVector, if_pos rfl], fun _ => isSome_setVector⟩
  · have hold := h.exclusive hpos hmem (hz ▸ hv)
    unfold VectorVersionInfo.Exclusive
    rw [hsame.same, hsame.array]
    exact hold
  · obtain ⟨hdel, hstatus⟩ := hw.versions hv
    exact ⟨hF.deletable _ _ hdel, hsame.status.trans_ne hstatus⟩
  · obtain ⟨u, hu, htracked⟩ := hw.tracked hmem hpos
    rw [hz] at hv
    exact hsame.tracked (some.inj (hu.symm.trans hv) ▸ htracked)
  · rw [insertion_setVector]
    split_ifs with hi
    · exact hins i hi
    · rfl
  · rw [deletion_setVector]
    split_ifs with hi
    · have hmod : i % vectorCapacity ≠ k % vectorCapacity := fun hm => hik (eq_of_div_mod hi hm)
      rw [hF.others _ _ _ (hw.versions hv).1 (Nat.mod_lt _ (by decide)) hmod, ← deletion_of_vectorAt (hi ▸ hv)]
    · rfl

end Deletions

section Insertions

theorem rows_first (hcap : b.numRows ≤ vectorCapacity) (hv : b.vectorAt 0 = some v) :
    (∀ i < b.numRows, i / vectorCapacity = 0 ∧ i % vectorCapacity = i) ∧
      ∀ i < b.numRows, b.insertion i = v.insertion i := by
  have hrow : ∀ i < b.numRows, i / vectorCapacity = 0 ∧ i % vectorCapacity = i := fun i hi =>
    ⟨Nat.div_eq_of_lt (by omega), Nat.mod_eq_of_lt (by omega)⟩
  refine ⟨hrow, fun i hi => ?_⟩
  rw [insertion_of_vectorAt ((hrow i hi).1 ▸ hv), (hrow i hi).2]

theorem commitInsert_spec (h : SoundBut ∅ b) (hn : n ≤ b.numRows - k)
    (hdisk : b.residencyState = .onDisk → b.numRows ≤ k)
    (hcap : b.residencyState = .inMemory → b.numRows ≤ vectorCapacity)
    (hV : ∀ i, k ≤ i → i < b.numRows → b.insertion i ∈ V)
    (hne : commitTS ≠ invalidTransaction) :
    SoundBut ∅ (b.commitInsert commitTS k n) ∧ (∀ i, (b.commitInsert commitTS k n).deletion i = b.deletion i) ∧
      (∀ j, (b.vectorAt j).isSome → ((b.commitInsert commitTS k n).vectorAt j).isSome) ∧
      ∀ i < b.numRows, (b.commitInsert commitTS k n).insertion i = b.insertion i ∨
        (b.commitInsert commitTS k n).insertion i = commitTS ∧ b.insertion i ∈ V := by
  rcases Nat.eq_zero_or_pos n with rfl | hpos
  · have hsame : b.commitInsert commitTS k 0 = b := onVersions_zero
    rw [hsame]
    exact ⟨h, fun _ => rfl, fun _ => id, fun _ _ => .inl rfl⟩
  have hk : k < b.numRows := by omega
  have hmem : b.residencyState = .inMemory := by
    cases hs : b.residencyState with
    | inMemory => rfl
    | onDisk => exact absurd (hdisk hs) (Nat.not_le.mpr hk)
  have hcap := hcap hmem
  have hw := h.versioned k hk (Set.notMem_empty _)
  obtain ⟨v, hv, htracked⟩ := hw.tracked hmem (by omega)
  have hset : b.commitInsert commitTS k n = b.setVector 0 (v.setInsertCommitTS commitTS k n) :=
    onVersions_first hv hpos.ne' (by omega)
  obtain ⟨hrow, hold⟩ := rows_first hcap hv
  obtain ⟨htracked', hins⟩ := setInsertCommitTS_spec k n htracked hne
  rw [hset]
  refine ⟨h.setVector (fun _ _ _ hm => absurd hm (Set.notMem_empty _)) (fun _ _ _ => htracked'.exclusive)
    (fun _ hzero => by omega)
    (fun hw => ⟨setInsertCommitTS_deletable (hw.versions hv).1, by simp [htracked'.status]⟩)
    (fun _ _ _ _ => htracked'), fun i => ?_, fun _ => isSome_setVector, fun i hi => ?_⟩
  · rw [deletion_setVector]
    split_ifs with hz
    · rw [setInsertCommitTS_deletion, ← deletion_of_vectorAt (hz ▸ hv)]
    · rfl
  · rw [insertion_setVector, if_pos (hrow i hi).1, (hrow i hi).2, hold i hi]
    rcases hins i with he | ⟨he, hin | hall⟩
    · exact .inl he
    · exact .inr ⟨he, hold i hi ▸ hV i hin.1 hi⟩
    · refine .inr ⟨he, ?_⟩
      rw [hall k, ← hold k hk]
      exact hV k le_rfl hk

theorem rollbackInsert_spec (h : SoundBut V b) (hpos : 0 < k) (hk : k < b.numRows)
    (hmem : b.residencyState = .inMemory) (hcap : b.numRows ≤ vectorCapacity)
    (hV : ∀ i, k ≤ i → i < b.numRows → b.insertion i ∈ V) (hinvalid : invalidTransaction ∈ V)
    (hzero : 0 ∉ V) :
    SoundBut V (b.rollbackInsert k (b.numRows - k)) ∧
      (∀ j, (b.vectorAt j).isSome → ((b.rollbackInsert k (b.numRows - k)).vectorAt j).isSome) ∧
      ∀ i < k, ((b.rollbackInsert k (b.numRows - k)).cell i).without V = (b.cell i).without V ∧
        ((b.rollbackInsert k (b.numRows - k)).insertion i ∉ V →
          (b.rollbackInsert k (b.numRows - k)).deletion i = b.deletion i) := by
  obtain ⟨v, hv⟩ : ∃ v, b.vectorAt 0 = some v := by
    cases hv : b.vectorAt 0 with
    | none =>
      have hins := hV k le_rfl hk
      rw [insertion_of_no_vector (by rwa [Nat.div_eq_of_lt (by omega)])] at hins
      exact absurd hins hzero
    | some v => exact ⟨v, rfl⟩
  obtain ⟨hrow, hold⟩ := rows_first hcap hv
  have hset : b.rollbackInsert k (b.numRows - k) =
      (b.setVector 0 (v.rollbackInsertions k (b.numRows - k))).truncate k := by
    have hfirst := onVersions_first (F := fun v => v.rollbackInsertions) hv (by omega : b.numRows - k ≠ 0)
      (by omega : k + (b.numRows - k) ≤ vectorCapacity)
    rw [rollbackInsert, if_neg (by omega), ← hfirst]
    rw [onVersions, hmem]
    rfl
  have hcell : ∀ i < k, ((b.setVector 0 (v.rollbackInsertions k (b.numRows - k))).truncate k).cell i =
      (b.setVector 0 (v.rollbackInsertions k (b.numRows - k))).cell i := fun i hi => by
    refine Cell.ext rfl rfl (funext fun column => ?_) rfl
    exact getElem?_take_of_lt hi
  have hcases := rollbackInsertions_spec (b.numRows - k)
    (h.exclusive (by omega) hmem hv) (by omega : k < vectorCapacity) (by rw [← hold k hk]; exact hV k le_rfl hk)
    hinvalid hzero
  rw [hset]
  refine ⟨?_, fun j hj => isSome_setVector hj, ?_⟩
  · refine ⟨fun column => ?_, fun _ hz => absurd hz hpos.ne', fun _ _ {w} hw => ?_, fun i hi hout => ?_⟩
    · show ((b.columns column).data.take k).length = k
      rw [length_take, h.data]
      omega
    · cases hw
      exact fun hne => absurd rollbackInsertions_same hne
    · have hi : i < k := hi
      have hout : (b.setVector 0 (v.rollbackInsertions k (b.numRows - k))).insertion i ∉ V := hout
      rw [insertion_setVector, if_pos (hrow i (by omega)).1, (hrow i (by omega)).2] at hout
      rcases hcases with ⟨versions, harray, heq⟩ | hall
      · have hins : v.insertion i ∉ V := by
          rw [heq, insertion_fill_of_lt harray hi] at hout
          exact hout
        have hw := h.versioned i (by omega) (hold i (by omega) ▸ hins)
        obtain ⟨hdel, hstatus⟩ := hw.versions hv
        have hset := hw.setVector (j := 0) (w := v.rollbackInsertions k (b.numRows - k))
          (by rw [heq]; exact ⟨⟨hdel.same, hdel.array⟩, hstatus⟩) fun hmem hrows _ => by
            obtain ⟨u, hu, ht⟩ := hw.tracked hmem hrows
            cases hv.symm.trans hu
            rw [heq]
            exact ⟨ht.status, by simpa [harray] using ht.same⟩
        exact ⟨hset.versions, fun hmem _ => hset.tracked hmem (show 0 < b.numRows by omega)⟩
      · exact absurd (hall i hi).1 hout
  · intro i hi
    have hdel : (b.setVector 0 (v.rollbackInsertions k (b.numRows - k))).insertion i ∉ V →
        (b.setVector 0 (v.rollbackInsertions k (b.numRows - k))).deletion i = b.deletion i := fun hout => by
      rw [insertion_setVector, if_pos (hrow i (by omega)).1, (hrow i (by omega)).2] at hout
      rw [deletion_setVector, if_pos (hrow i (by omega)).1]
      rcases hcases with ⟨versions, -, heq⟩ | hall
      · rw [heq, deletion_of_vectorAt ((hrow i (by omega)).1 ▸ hv)]
        rfl
      · exact absurd (hall i hi).1 hout
    refine ⟨?_, hdel⟩
    rw [hcell i hi]
    refine cell_setVector (fun _ => ?_) fun hz => ?_
    · rw [(hrow i (by omega)).2, hold i (by omega)]
      rcases hcases with ⟨versions, harray, heq⟩ | hall
      · exact .inl (by rw [heq, insertion_fill_of_lt harray hi])
      · exact .inr (hall i hi)
    · rcases hcases with ⟨versions, harray, heq⟩ | hall
      · refine .inl ?_
        rw [heq, deletion_of_vectorAt (hz ▸ hv)]
        rfl
      · rw [(hrow i (by omega)).2, hold i (by omega)]
        exact .inr (.inr (hall i hi))

end Insertions

section Cut

/-- The block `c` is left of the block `b` when rows of `V` at its end are rolled back. -/
structure Cut (V : Set Nat) (b c : ChunkedNodeGroup α) : Prop where
  start : c.startRowIdx = b.startRowIdx
  state : c.residencyState = b.residencyState
  onDisk : b.residencyState = .onDisk → c = b
  sound : c.SoundBut V
  rows : c.numRows ≤ b.numRows
  marks : ∀ {j}, (b.vectorAt j).isSome → (c.vectorAt j).isSome
  chain : ∀ column vectorIdx, c.chain column vectorIdx = b.chain column vectorIdx
  cell : ∀ {k}, k < c.numRows → (c.cell k).without V = (b.cell k).without V
  deletion : ∀ {k}, k < c.numRows → c.insertion k ∉ V → c.deletion k = b.deletion k

theorem SoundBut.cut (h : SoundBut V b) : Cut V b b :=
  ⟨rfl, rfl, fun _ => rfl, h, le_rfl, id, fun _ _ => rfl, fun _ => rfl, fun _ _ => rfl⟩

theorem rollbackInsert_chain {column vectorIdx : Nat} :
    (b.rollbackInsert k n).chain column vectorIdx = b.chain column vectorIdx := by
  unfold rollbackInsert
  split_ifs
  · rfl
  · cases b.residencyState <;> rfl

theorem cut_rollbackInsert (h : SoundBut V b) (hpos : 0 < k) (hdisk : b.residencyState = .onDisk → b.numRows ≤ k)
    (hcap : b.residencyState = .inMemory → b.numRows ≤ vectorCapacity)
    (hV : ∀ i, k ≤ i → i < b.numRows → b.insertion i ∈ V) (hinvalid : invalidTransaction ∈ V)
    (hzero : 0 ∉ V) : Cut V b (b.rollbackInsert k (b.numRows - k)) := by
  rcases Nat.lt_or_ge k b.numRows with hlt | hge
  · have hmem : b.residencyState = .inMemory := by
      cases hs : b.residencyState with
      | inMemory => rfl
      | onDisk => exact absurd (hdisk hs) (Nat.not_le.mpr hlt)
    obtain ⟨hsound, hmarks, hcell⟩ := rollbackInsert_spec h hpos hlt hmem (hcap hmem) hV hinvalid hzero
    have hshape := rollbackInsert_shape (b := b) (k := k) (n := b.numRows - k)
    have hrows := rollbackInsert_numRows (b := b) (k := k) (n := b.numRows - k)
    exact ⟨congrArg Shape.startRowIdx hshape, congrArg Shape.residencyState hshape,
      fun hs => absurd (hmem.symm.trans hs) (by simp), hsound, by omega, hmarks _,
      fun _ _ => rollbackInsert_chain, fun hj => (hcell _ (by omega)).1, fun hj => (hcell _ (by omega)).2⟩
  · rw [rollbackInsert_of_le hge]
    exact h.cut

end Cut

section Updates

open scoped Classical

variable {column vectorIdx : Nat} {chain : List (VectorUpdateInfo α)}

def setChain (b : ChunkedNodeGroup α) (column vectorIdx : Nat) (chain : List (VectorUpdateInfo α)) :
    ChunkedNodeGroup α :=
  b.setColumn column { b.columns column with
    updateInfo := (b.columns column).updateInfo.setChain vectorIdx chain }

theorem data_setChain (c : Nat) : ((b.setChain column vectorIdx chain).columns c).data = (b.columns c).data := by
  unfold setChain setColumn
  by_cases hc : c = column
  · subst hc
    simp
  · simp [hc]

theorem chain_setChain (c v : Nat) : (b.setChain column vectorIdx chain).chain c v =
    if c = column ∧ v = vectorIdx then chain else b.chain c v := by
  unfold ChunkedNodeGroup.chain ChunkedNodeGroup.setChain setColumn UpdateInfo.setChain
  by_cases hc : c = column
  · subst hc
    by_cases hv : v = vectorIdx
    · simp [hv]
    · simp [hv]
  · simp [hc]

theorem SoundBut.setChain (h : SoundBut W b) : SoundBut W (b.setChain column vectorIdx chain) where
  data c := by rw [data_setChain]; exact h.data c
  fresh := fun hmem hzero => ⟨⟨(h.fresh hmem hzero).1.versions, (h.fresh hmem hzero).1.tracked⟩, (h.fresh hmem hzero).2⟩
  exclusive := h.exclusive
  versioned k hk hins := ⟨(h.versioned k hk hins).versions, (h.versioned k hk hins).tracked⟩

theorem row_setChain : (b.setChain column vectorIdx chain).row k = b.row k :=
  Row.ext rfl rfl (funext fun c => by simp only [row, data_setChain])

theorem cell_setChain (hchain : chain.filter (·.version ∉ V) = (b.chain column vectorIdx).filter (·.version ∉ V)) :
    ((b.setChain column vectorIdx chain).cell k).without V = (b.cell k).without V := by
  have hrow : (b.setChain column vectorIdx chain).row k = b.row k := row_setChain
  refine Cell.without_congr (.inl (congrArg Row.insertion hrow)) (.inl (congrArg Row.deletion hrow))
    (congrArg Row.base hrow) fun c => ?_
  simp only [cell, chain_setChain, List.filter_map]
  split_ifs with hc
  · obtain ⟨rfl, hv⟩ := hc
    rw [hv]
    exact congrArg _ hchain
  · rfl

theorem writeOwn_eq_some {rowInVector : Nat} {value : α} {chain' : List (VectorUpdateInfo α)}
    (hw : writeOwn t rowInVector value chain = some chain') :
    ∃ newer u older, chain = newer ++ u :: older ∧ chain' = newer ++ u.write rowInVector value :: older ∧
      u.version = t := by
  induction chain generalizing chain' with
  | nil => cases hw
  | cons u chain ih =>
    unfold writeOwn at hw
    cases hrest : writeOwn t rowInVector value chain with
    | some rest =>
      obtain ⟨newer, w, older, rfl, rfl, ht⟩ := ih hrest
      simp only [hrest, Option.some.injEq] at hw
      exact ⟨u :: newer, w, older, rfl, hw.symm, ht⟩
    | none =>
      simp only [hrest] at hw
      split_ifs at hw with hu
      exact ⟨[], u, chain, rfl, (some.inj hw).symm, hu⟩

theorem filter_writeOwn (rowInVector : Nat) (value : α) (ht : t ∈ V) : ((writeOwn t rowInVector value chain).getD
      ((create t).write rowInVector value :: chain)).filter (·.version ∉ V) =
      chain.filter (·.version ∉ V) := by
  cases hw : writeOwn t rowInVector value chain with
  | none => exact filter_cons_of_neg (by simp [write, create, ht])
  | some chain' =>
    obtain ⟨newer, u, older, rfl, rfl, hu⟩ := writeOwn_eq_some hw
    simp [write, hu, ht]

theorem filter_commit (hts : commitTS ∈ V) (h : ∀ u ∈ chain, u.creator = t → u.version ∈ V) :
    (chain.map fun u => if u.creator = t then { u with version := commitTS } else u).filter (·.version ∉ V) =
      chain.filter (·.version ∉ V) := by
  induction chain with
  | nil => rfl
  | cons u chain ih =>
    have hrest := ih fun w hw => h w (mem_cons_of_mem u hw)
    rw [map_cons, filter_cons, filter_cons, hrest]
    by_cases hu : u.creator = t
    · simp [hu, hts, h u mem_cons_self hu]
    · simp [hu]

theorem filter_rollback (ht : t ∈ V) :
    (chain.eraseP (·.version = t)).filter (·.version ∉ V) = chain.filter (·.version ∉ V) := by
  induction chain with
  | nil => rfl
  | cons u chain ih =>
    by_cases hu : u.version = t
    · rw [eraseP_cons_of_pos (by simpa using hu), filter_cons_of_neg (by simpa [hu] using ht)]
    · rw [eraseP_cons_of_neg (by simpa using hu), filter_cons, filter_cons, ih]

end Updates

end ChunkedNodeGroup

end Rag3db.Storage
