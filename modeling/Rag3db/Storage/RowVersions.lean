import Rag3db.Storage.VersionInfo

open Option

namespace Rag3db.Storage

variable {t commitTS startRow numRows row : Nat} {versions : Nat → Nat}

theorem fill_of_mem {version : Nat} (h : startRow ≤ row ∧ row < startRow + numRows) :
    fill versions startRow numRows version row = version := if_pos h

theorem fill_of_not_mem {version : Nat} (h : ¬ (startRow ≤ row ∧ row < startRow + numRows)) :
    fill versions startRow numRows version row = versions row := if_neg h

theorem hasAny_of_ne (hrow : row < vectorCapacity) (h : versions row ≠ invalidTransaction) :
    hasAny versions = true := by
  simp only [hasAny, List.any_eq_true, List.mem_range, decide_eq_true_eq]
  exact ⟨row, hrow, h⟩

theorem eq_invalid_of_not_hasAny (h : hasAny versions = false) (hrow : row < vectorCapacity) :
    versions row = invalidTransaction := by
  by_contra hne
  exact absurd (hasAny_of_ne hrow hne) (by simp [h])

namespace VectorVersionInfo

variable {v w : VectorVersionInfo} {s : Snapshot}

def insertion (v : VectorVersionInfo) (row : Nat) : Nat :=
  match v.insertionStatus with
  | .alwaysInserted => 0
  | .noInserted => invalidTransaction
  | .checkVersion =>
    if v.isSameInsertionVersion then v.sameInsertionVersion else v.insertedVersions.getD noVersions row

def deletion (v : VectorVersionInfo) (row : Nat) : Nat :=
  match v.deletionStatus with
  | .noDeleted => invalidTransaction
  | .checkVersion =>
    if v.isSameDeletionVersion then v.sameDeletionVersion else v.deletedVersions.getD noVersions row

theorem isInserted_eq : v.isInserted s row = s.sees (v.insertion row) := by
  unfold isInserted insertion
  cases v.insertionStatus with
  | alwaysInserted | noInserted => simp
  | checkVersion => split_ifs <;> rfl

theorem isDeleted_eq : v.isDeleted s row = s.sees (v.deletion row) := by
  unfold isDeleted deletion
  cases v.deletionStatus with
  | noDeleted => simp
  | checkVersion => split_ifs <;> rfl

theorem isSelected_eq : v.isSelected s row = (s.sees (v.insertion row) && !s.sees (v.deletion row)) := by
  rw [← isInserted_eq, ← isDeleted_eq]
  unfold isSelected isInserted isDeleted
  cases v.insertionStatus <;> cases v.deletionStatus <;> simp

/-- The insertions are recorded, for the whole vector or row by row. -/
structure Tracked (v : VectorVersionInfo) : Prop where
  status : v.insertionStatus = .checkVersion
  same : v.insertedVersions = none ↔ v.sameInsertionVersion ≠ invalidTransaction

/-- The insertions are recorded row by row. -/
structure PerRow (v : VectorVersionInfo) (versions : Nat → Nat) : Prop where
  status : v.insertionStatus = .checkVersion
  array : v.insertedVersions = some versions
  same : v.sameInsertionVersion = invalidTransaction

/-- The deletions are recorded row by row, if there are any. -/
structure Deletable (v : VectorVersionInfo) : Prop where
  same : v.sameDeletionVersion = invalidTransaction
  array : v.deletedVersions = none ↔ v.deletionStatus = .noDeleted

theorem PerRow.tracked (h : v.PerRow versions) : v.Tracked :=
  ⟨h.status, by simp [h.array, h.same]⟩

theorem PerRow.insertion (h : v.PerRow versions) : v.insertion row = versions row := by
  simp [VectorVersionInfo.insertion, isSameInsertionVersion, h.status, h.array, h.same]

theorem Deletable.deletion (h : v.Deletable) : v.deletion row = v.deletedVersions.getD noVersions row := by
  unfold VectorVersionInfo.deletion
  cases hs : v.deletionStatus with
  | noDeleted => simp [h.array.mpr hs, noVersions]
  | checkVersion => simp [isSameDeletionVersion, h.same]

section Append

theorem append_eq (v : VectorVersionInfo) (t startRow numRows : Nat) : ∃ inserted same, v.append t startRow numRows =
    { v with insertionStatus := .checkVersion, insertedVersions := inserted, sameInsertionVersion := same } := by
  unfold append
  by_cases ht : t = v.sameInsertionVersion
  · exact ⟨_, _, if_pos ht⟩
  · rw [if_neg ht]
    cases v.insertedVersions with
    | none =>
      cases v.isSameInsertionVersion with
      | true => exact ⟨_, _, rfl⟩
      | false => exact ⟨_, _, rfl⟩
    | some versions => exact ⟨_, _, rfl⟩

theorem append_deletion : (v.append t startRow numRows).deletion row = v.deletion row := by
  obtain ⟨inserted, same, he⟩ := append_eq v t startRow numRows
  rw [he]
  rfl

theorem append_deletable (h : v.Deletable) : (v.append t startRow numRows).Deletable := by
  obtain ⟨inserted, same, he⟩ := append_eq v t startRow numRows
  rw [he]
  exact ⟨h.same, h.array⟩

theorem append_tracked (ht : t ≠ invalidTransaction) (h : v.Tracked ∨ v.insertedVersions = none) :
    (v.append t startRow numRows).Tracked := by
  unfold append
  by_cases hsame : t = v.sameInsertionVersion
  · rw [if_pos hsame]
    have hnone : v.insertedVersions = none := h.elim (fun h => h.same.mpr (hsame ▸ ht)) id
    exact ⟨rfl, by simp [hnone, ← hsame, ht]⟩
  · rw [if_neg hsame]
    cases hv : v.insertedVersions with
    | none =>
      cases hs : v.isSameInsertionVersion with
      | true => exact ⟨rfl, by simp⟩
      | false => exact ⟨rfl, by simp [ht]⟩
    | some versions =>
      have htracked : v.Tracked := h.resolve_right (by simp [hv])
      exact ⟨rfl, by simpa [hv] using htracked.same⟩

theorem append_perRow (h : v.Tracked) (ht : t ≠ v.sameInsertionVersion) (startRow numRows : Nat) :
    ∃ versions, (v.append t startRow numRows).PerRow versions ∧ ∀ row < startRow, versions row = v.insertion row := by
  unfold append
  rw [if_neg ht]
  cases hv : v.insertedVersions with
  | none =>
    have hsame := h.same.mp hv
    have hs : v.isSameInsertionVersion = true := by simp [isSameInsertionVersion, hsame]
    simp only [hs]
    refine ⟨_, ⟨rfl, rfl, rfl⟩, fun row hrow => ?_⟩
    rw [fill_of_not_mem (by omega), fill_of_mem (by omega)]
    simp [insertion, h.status, hs]
  | some versions =>
    have hsame : v.sameInsertionVersion = invalidTransaction := by
      have := h.same
      simpa [hv] using this
    refine ⟨_, ⟨rfl, rfl, hsame⟩, fun row hrow => ?_⟩
    rw [fill_of_not_mem (by omega)]
    simp [insertion, h.status, isSameInsertionVersion, hsame, hv]

end Append

section Insertions

theorem setInsertCommitTS_perRow (h : v.PerRow versions) (commitTS startRow numRows : Nat) :
    (v.setInsertCommitTS commitTS startRow numRows).PerRow (fill versions startRow numRows commitTS) := by
  have hsame : v.isSameInsertionVersion = false := by simp [isSameInsertionVersion, h.same]
  simp only [setInsertCommitTS, hsame]
  exact ⟨h.status, by simp [h.array], h.same⟩

theorem setInsertCommitTS_deletion : (v.setInsertCommitTS commitTS startRow numRows).deletion row = v.deletion row := by
  unfold setInsertCommitTS
  split_ifs <;> rfl

theorem setInsertCommitTS_deletable (h : v.Deletable) : (v.setInsertCommitTS commitTS startRow numRows).Deletable := by
  unfold setInsertCommitTS
  split_ifs <;> exact ⟨h.same, h.array⟩

/-- As long as a row outside the range is inserted, the array stays, and with
it the deletions. -/
theorem rollbackInsertions_eq (h : v.PerRow versions) (hrow : row < vectorCapacity)
    (hout : ¬ (startRow ≤ row ∧ row < startRow + numRows)) (hne : versions row ≠ invalidTransaction) :
    v.rollbackInsertions startRow numRows =
      { v with insertedVersions := some (fill versions startRow numRows invalidTransaction) } := by
  have hany : hasAny (fill versions startRow numRows invalidTransaction) = true :=
    hasAny_of_ne hrow (by rwa [fill_of_not_mem hout])
  have hsame : v.isSameInsertionVersion = false := by simp [isSameInsertionVersion, h.same]
  simp [rollbackInsertions, hsame, h.array, erase, hany]

end Insertions

section Deletions

theorem Deletable.not_same (h : v.Deletable) : v.isSameDeletionVersion = false := by
  simp [isSameDeletionVersion, h.same]

theorem delete_ok {b : Bool} (h : v.Deletable) (ht : t ≠ invalidTransaction) (hd : v.delete t startRow = .ok (w, b)) :
    (v.deletion startRow = t ∨ v.deletion startRow = invalidTransaction) ∧ w = { v with
        deletionStatus := .checkVersion
        deletedVersions := some (fill (v.deletedVersions.getD noVersions) startRow 1 t) } := by
  have hne : ¬ t = v.sameDeletionVersion := h.same ▸ ht
  have hsame := h.not_same
  rw [h.deletion]
  simp only [delete, if_false, hsame, Bool.false_eq_true] at hd
  split_ifs at hd with hown hinvalid
  · obtain ⟨rfl, rfl⟩ := Prod.mk.inj (Except.ok.inj hd)
    refine ⟨.inl hown, ?_⟩
    have hfill : fill (v.deletedVersions.getD noVersions) startRow 1 t = v.deletedVersions.getD noVersions := by
      funext row
      unfold fill
      split_ifs with hrow
      · rw [← hown, show row = startRow by omega]
      · rfl
    rw [hfill]
  · obtain ⟨rfl, rfl⟩ := Prod.mk.inj (Except.ok.inj hd)
    exact ⟨.inr (not_not.mp hinvalid), rfl⟩

theorem deletable_fill (versions : Nat → Nat) {status : DeletionStatus} (h : v.Deletable)
    (hs : status = .checkVersion) :
    ({ v with deletionStatus := status, deletedVersions := some versions } : VectorVersionInfo).Deletable :=
  ⟨h.same, by simp [hs]⟩

theorem setDeleteCommitTS_deletable (h : v.Deletable) : (v.setDeleteCommitTS commitTS startRow numRows).Deletable := by
  have hsame := h.not_same
  simp only [setDeleteCommitTS, hsame]
  exact ⟨h.same, by simp [h.array]⟩

theorem setDeleteCommitTS_deletion (h : v.Deletable) (hs : v.deletionStatus = .checkVersion) :
    (v.setDeleteCommitTS commitTS startRow numRows).deletion row =
      if startRow ≤ row ∧ row < startRow + numRows then commitTS else v.deletion row := by
  rw [(setDeleteCommitTS_deletable h).deletion, h.deletion]
  have hsame := h.not_same
  cases hv : v.deletedVersions with
  | none => simp [h.array.mp hv] at hs
  | some versions => simp [setDeleteCommitTS, hsame, hv, fill]

theorem rollbackDeletions_deletable (h : v.Deletable) : (v.rollbackDeletions startRow numRows).Deletable := by
  have hsame := h.not_same
  simp only [rollbackDeletions, hsame, Bool.false_eq_true, if_false]
  split_ifs with hnone
  · exact ⟨h.same, by simpa using hnone⟩
  · refine ⟨h.same, ?_⟩
    simp only [isNone_iff_eq_none] at hnone
    refine ⟨fun hc => absurd hc hnone, fun hs => absurd ?_ hnone⟩
    simp [h.array.mpr hs]

theorem rollbackDeletions_deletion (h : v.Deletable) (hrow : row < vectorCapacity) :
    (v.rollbackDeletions startRow numRows).deletion row =
      if startRow ≤ row ∧ row < startRow + numRows then invalidTransaction else v.deletion row := by
  rw [(rollbackDeletions_deletable h).deletion, h.deletion]
  have hsame := h.not_same
  have harray : (v.rollbackDeletions startRow numRows).deletedVersions =
      v.deletedVersions.bind (erase · startRow numRows) := by
    simp only [rollbackDeletions, hsame, Bool.false_eq_true, if_false]
    split_ifs <;> rfl
  rw [harray]
  cases v.deletedVersions with
  | none => simp [noVersions]
  | some versions =>
    simp only [bind_some, erase]
    change _ = fill versions startRow numRows invalidTransaction row
    cases hany : hasAny (fill versions startRow numRows invalidTransaction) with
    | true => rfl
    | false => simp [noVersions, eq_invalid_of_not_hasAny hany hrow]

end Deletions

end VectorVersionInfo

namespace VersionInfo

variable {info : VersionInfo} {v : VectorVersionInfo} {vectorIdx : Nat} {s : Snapshot}
  {f : VectorVersionInfo → Nat → Nat → VectorVersionInfo}

def insertion (info : VersionInfo) (row : Nat) : Nat :=
  match info.vectorsInfo (row / vectorCapacity) with
  | some v => v.insertion (row % vectorCapacity)
  | none => 0

def deletion (info : VersionInfo) (row : Nat) : Nat :=
  match info.vectorsInfo (row / vectorCapacity) with
  | some v => v.deletion (row % vectorCapacity)
  | none => invalidTransaction

theorem isSelected_eq : info.isSelected s row = (s.sees (info.insertion row) && !s.sees (info.deletion row)) := by
  unfold isSelected insertion deletion
  cases info.vectorsInfo (row / vectorCapacity) with
  | none => simp
  | some v => exact VectorVersionInfo.isSelected_eq

theorem onVectors_first (hn : numRows ≠ 0) (h : startRow + numRows ≤ vectorCapacity) :
    info.onVectors f startRow numRows = info.setVector 0 (f ((info.vectorsInfo 0).getD {}) startRow numRows) := by
  refine VersionInfo.ext (funext fun i => ?_)
  have hs : startRow / vectorCapacity = 0 := Nat.div_eq_of_lt (by omega)
  have he : (startRow + numRows - 1) / vectorCapacity = 0 := Nat.div_eq_of_lt (by omega)
  simp only [onVectors, if_neg hn, setVector, hs, he]
  by_cases hi : i = 0
  · subst hi
    simp only [le_refl, and_self, if_true]
    rw [Nat.mod_eq_of_lt (by omega), Nat.mod_eq_of_lt (by omega)]
    congr 2
    omega
  · rw [if_neg (by omega), if_neg hi]

theorem onVectors_row : info.onVectors f row 1 = info.setVector (row / vectorCapacity)
    (f ((info.vectorsInfo (row / vectorCapacity)).getD {}) (row % vectorCapacity) 1) := by
  refine VersionInfo.ext (funext fun i => ?_)
  simp only [onVectors, if_neg Nat.one_ne_zero, setVector, Nat.add_sub_cancel]
  by_cases hi : i = row / vectorCapacity
  · subst hi
    simp
  · rw [if_neg (by omega), if_neg hi]

theorem insertion_setVector : (info.setVector vectorIdx v).insertion row =
    if row / vectorCapacity = vectorIdx then v.insertion (row % vectorCapacity) else info.insertion row := by
  unfold insertion setVector
  by_cases h : row / vectorCapacity = vectorIdx <;> simp [h]

theorem deletion_setVector : (info.setVector vectorIdx v).deletion row =
    if row / vectorCapacity = vectorIdx then v.deletion (row % vectorCapacity) else info.deletion row := by
  unfold deletion setVector
  by_cases h : row / vectorCapacity = vectorIdx <;> simp [h]

/-- The vectors of a block whose rows are inserted, by whomever. -/
structure WellFormed (info : VersionInfo) : Prop where
  deletable : ∀ {vectorIdx v}, info.vectorsInfo vectorIdx = some v → v.Deletable
  inserted : ∀ {vectorIdx v}, info.vectorsInfo vectorIdx = some v → v.insertionStatus ≠ .noInserted

theorem WellFormed.setVector (h : info.WellFormed) (hd : v.Deletable) (hi : v.insertionStatus ≠ .noInserted) :
    (info.setVector vectorIdx v).WellFormed where
  deletable {i w} hw := by
    simp only [VersionInfo.setVector] at hw
    split_ifs at hw
    · exact some.inj hw ▸ hd
    · exact h.deletable hw
  inserted {i w} hw := by
    simp only [VersionInfo.setVector] at hw
    split_ifs at hw
    · exact some.inj hw ▸ hi
    · exact h.inserted hw

theorem wellFormed_empty : WellFormed {} := ⟨nofun, nofun⟩

end VersionInfo

end Rag3db.Storage
