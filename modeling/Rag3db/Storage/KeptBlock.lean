import Rag3db.Storage.GroupAppend

open Option

namespace Rag3db.Storage

open VectorVersionInfo VersionInfo

variable {α : Type}

namespace VectorVersionInfo

variable {v : VectorVersionInfo} {commitTS startRow numRows row : Nat}

theorem setDeleteCommitTS_deletion_of_not_mem (h : v.Deletable) (hrow : ¬ (startRow ≤ row ∧ row < startRow + numRows)) :
    (v.setDeleteCommitTS commitTS startRow numRows).deletion row = v.deletion row := by
  rw [(setDeleteCommitTS_deletable h).deletion, h.deletion]
  have hsame := h.not_same
  cases hv : v.deletedVersions with
  | none => simp [setDeleteCommitTS, hsame, hv]
  | some versions => simp [setDeleteCommitTS, hsame, hv, fill_of_not_mem hrow]

/-- The insertions of a vector, which deletions leave alone. -/
structure SameInsertions (v w : VectorVersionInfo) : Prop where
  status : w.insertionStatus = v.insertionStatus
  array : w.insertedVersions = v.insertedVersions
  same : w.sameInsertionVersion = v.sameInsertionVersion

variable {w : VectorVersionInfo}

theorem SameInsertions.insertion (h : SameInsertions v w) : w.insertion row = v.insertion row := by
  unfold VectorVersionInfo.insertion isSameInsertionVersion
  rw [h.status, h.array, h.same]

theorem SameInsertions.tracked (h : SameInsertions v w) (hv : v.Tracked) : w.Tracked :=
  ⟨h.status.trans hv.status, by rw [h.array, h.same]; exact hv.same⟩

theorem SameInsertions.perRow {versions : Nat → Nat} (h : SameInsertions v w) (hv : v.PerRow versions) :
    w.PerRow versions :=
  ⟨h.status.trans hv.status, h.array.trans hv.array, h.same.trans hv.same⟩

theorem setDeleteCommitTS_insertions : SameInsertions v (v.setDeleteCommitTS commitTS startRow numRows) := by
  unfold setDeleteCommitTS
  split_ifs <;> exact ⟨rfl, rfl, rfl⟩

theorem rollbackDeletions_insertions : SameInsertions v (v.rollbackDeletions startRow numRows) := by
  simp only [rollbackDeletions]
  split_ifs <;> exact ⟨rfl, rfl, rfl⟩

/-- What the end of a deletion does to the vector of the row. -/
structure EditsDeletion (F : VectorVersionInfo → Nat → Nat → VectorVersionInfo) : Prop where
  insertions : ∀ v i, SameInsertions v (F v i 1)
  deletable : ∀ v i, v.Deletable → (F v i 1).Deletable
  others : ∀ v i row, v.Deletable → row < vectorCapacity → row ≠ i → (F v i 1).deletion row = v.deletion row

theorem editsDeletion_commit : EditsDeletion fun v => v.setDeleteCommitTS commitTS where
  insertions _ _ := setDeleteCommitTS_insertions
  deletable _ _ := setDeleteCommitTS_deletable
  others _ _ _ hv _ hne := setDeleteCommitTS_deletion_of_not_mem hv (by omega)

theorem editsDeletion_rollback : EditsDeletion fun v => v.rollbackDeletions where
  insertions _ _ := rollbackDeletions_insertions
  deletable _ _ := rollbackDeletions_deletable
  others v i j hv hj hne := by rw [rollbackDeletions_deletion hv hj, if_neg (by omega)]

end VectorVersionInfo

namespace ChunkedNodeGroup

variable {b₀ b : ChunkedNodeGroup α} {t k n commitTS : Nat} {D D' : Nat → Nat → Prop} {M M' : Nat → Prop}
  {Q Q' : Nat → Nat → List (VectorUpdateInfo α) → Prop} {news : List (Nat → α)} {j : Nat}
  {v w : VectorVersionInfo}

def vectorAt (b : ChunkedNodeGroup α) (vectorIdx : Nat) : Option VectorVersionInfo :=
  b.versionInfo.bind fun info => info.vectorsInfo vectorIdx

theorem insertion_eq : b.insertion k =
    ((b.vectorAt (k / vectorCapacity)).map (·.insertion (k % vectorCapacity))).getD 0 := by
  unfold insertion vectorAt VersionInfo.insertion
  cases b.versionInfo with
  | none => rfl
  | some info => cases h : info.vectorsInfo (k / vectorCapacity) <;> simp [h]

theorem deletion_eq : b.deletion k =
    ((b.vectorAt (k / vectorCapacity)).map (·.deletion (k % vectorCapacity))).getD invalidTransaction := by
  unfold deletion vectorAt VersionInfo.deletion
  cases b.versionInfo with
  | none => rfl
  | some info => cases h : info.vectorsInfo (k / vectorCapacity) <;> simp [h]

theorem insertion_of_vectorAt (h : b.vectorAt (k / vectorCapacity) = some v) :
    b.insertion k = v.insertion (k % vectorCapacity) := by
  simp [insertion_eq, h]

theorem deletion_of_vectorAt (h : b.vectorAt (k / vectorCapacity) = some v) :
    b.deletion k = v.deletion (k % vectorCapacity) := by
  simp [deletion_eq, h]

theorem insertion_of_no_vector (h : b.vectorAt (k / vectorCapacity) = none) : b.insertion k = 0 := by
  simp [insertion_eq, h]

theorem deletion_of_no_vector (h : b.vectorAt (k / vectorCapacity) = none) : b.deletion k = invalidTransaction := by
  simp [deletion_eq, h]

theorem eq_of_div_mod {i : Nat} (hdiv : i / vectorCapacity = k / vectorCapacity)
    (hmod : i % vectorCapacity = k % vectorCapacity) : i = k := by
  rw [← Nat.div_add_mod i vectorCapacity, ← Nat.div_add_mod k vectorCapacity, hdiv, hmod]

def setVector (b : ChunkedNodeGroup α) (vectorIdx : Nat) (v : VectorVersionInfo) : ChunkedNodeGroup α :=
  { b with versionInfo := some ((b.versionInfo.getD {}).setVector vectorIdx v) }

theorem vectorAt_setVector (i : Nat) : (b.setVector j w).vectorAt i = if i = j then some w else b.vectorAt i := by
  unfold vectorAt setVector VersionInfo.setVector
  cases b.versionInfo with
  | none => simp
  | some info => simp

theorem insertion_setVector : (b.setVector j w).insertion k =
    if k / vectorCapacity = j then w.insertion (k % vectorCapacity) else b.insertion k := by
  rw [insertion_eq, insertion_eq, vectorAt_setVector]
  split_ifs <;> rfl

theorem deletion_setVector : (b.setVector j w).deletion k =
    if k / vectorCapacity = j then w.deletion (k % vectorCapacity) else b.deletion k := by
  rw [deletion_eq, deletion_eq, vectorAt_setVector]
  split_ifs <;> rfl

def onVersions (F : VectorVersionInfo → Nat → Nat → VectorVersionInfo) (b : ChunkedNodeGroup α) (k n : Nat) :
    ChunkedNodeGroup α :=
  { b with versionInfo := b.versionInfo.map fun info => info.onVectors F k n }

section OnVersions

variable {F : VectorVersionInfo → Nat → Nat → VectorVersionInfo}

theorem onVersions_zero : b.onVersions F k 0 = b := by
  simp [onVersions, onVectors]

theorem onVersions_row (hv : b.vectorAt (k / vectorCapacity) = some v) :
    b.onVersions F k 1 = b.setVector (k / vectorCapacity) (F v (k % vectorCapacity) 1) := by
  obtain ⟨info, hinfo, hget⟩ := bind_eq_some_iff.mp hv
  simp [onVersions, setVector, hinfo, onVectors_row, hget]

theorem onVersions_first (hv : b.vectorAt 0 = some v) (hn : n ≠ 0) (hle : k + n ≤ vectorCapacity) :
    b.onVersions F k n = b.setVector 0 (F v k n) := by
  obtain ⟨info, hinfo, hget⟩ := bind_eq_some_iff.mp hv
  simp [onVersions, setVector, hinfo, onVectors_first hn hle, hget]

end OnVersions

/-- Of the rows of `b₀`, those of `b` are what a transaction `t` makes of them:
rows may have been appended behind them, `D` tells the deletions, `Q` the
updates, and the vectors of the rows of `M` have version information. -/
structure Kept (t : Nat) (D : Nat → Nat → Prop) (M : Nat → Prop)
    (Q : Nat → Nat → List (VectorUpdateInfo α) → Prop) (b₀ b : ChunkedNodeGroup α) : Prop where
  start : b.startRowIdx = b₀.startRowIdx
  state : b.residencyState = b₀.residencyState
  rows : b₀.numRows ≤ b.numRows
  onDisk : b₀.residencyState = .onDisk → b.numRows = b₀.numRows
  data : ∀ column, (b₀.columns column).data <+: (b.columns column).data
  insertion : ∀ k < b₀.numRows, b.insertion k = b₀.insertion k
  deletion : ∀ k < b₀.numRows, D k (b.deletion k)
  marked : ∀ k < b₀.numRows, M k → (b.vectorAt (k / vectorCapacity)).isSome
  chain : ∀ column vectorIdx, Q column vectorIdx (b.chain column vectorIdx)
  versions : 0 < b₀.numRows → ∀ {j v}, b.vectorAt j = some v → v.Deletable ∧ v.insertionStatus ≠ .noInserted
  tracked : 0 < b₀.numRows → b₀.residencyState = .inMemory →
    ∃ v, b.vectorAt 0 = some v ∧ v.Tracked ∧ v.sameInsertionVersion ≠ t
  perRow : 0 < b₀.numRows → b₀.numRows < b.numRows → ∃ v versions, b.vectorAt 0 = some v ∧ v.PerRow versions

namespace Kept

theorem mono (h : Kept t D M Q b₀ b) (hD : ∀ k < b₀.numRows, ∀ d, D k d → D' k d)
    (hM : ∀ k < b₀.numRows, M' k → M k) (hQ : ∀ column vectorIdx chain, Q column vectorIdx chain →
      Q' column vectorIdx chain) : Kept t D' M' Q' b₀ b :=
  { h with
    deletion := fun k hk => hD k hk _ (h.deletion k hk)
    marked := fun k hk hm => h.marked k hk (hM k hk hm)
    chain := fun column vectorIdx => hQ _ _ _ (h.chain column vectorIdx) }

theorem setVector (h : Kept t D M Q b₀ b) (hw : 0 < b₀.numRows → w.Deletable ∧ w.insertionStatus ≠ .noInserted)
    (hins : ∀ k < b₀.numRows, k / vectorCapacity = j → w.insertion (k % vectorCapacity) = b.insertion k)
    (hdel : ∀ k < b₀.numRows, k / vectorCapacity = j → D' k (w.deletion (k % vectorCapacity)))
    (hother : ∀ k < b₀.numRows, k / vectorCapacity ≠ j → ∀ d, D k d → D' k d)
    (hM : ∀ k < b₀.numRows, k / vectorCapacity ≠ j → M' k → M k)
    (htracked : 0 < b₀.numRows → b₀.residencyState = .inMemory → j = 0 → w.Tracked ∧ w.sameInsertionVersion ≠ t)
    (hperRow : 0 < b₀.numRows → b₀.numRows < b.numRows → j = 0 → ∃ versions, w.PerRow versions) :
    Kept t D' M' Q b₀ (b.setVector j w) := by
  refine { h with
    insertion := fun k hk => ?_, deletion := fun k hk => ?_, marked := fun k hk hm => ?_
    versions := fun hpos {i u} hu => ?_, tracked := fun hpos hmem => ?_, perRow := fun hpos hlt => ?_ }
  · rw [insertion_setVector, ← h.insertion k hk]
    split_ifs with hj
    · exact hins k hk hj
    · rfl
  · rw [deletion_setVector]
    split_ifs with hj
    · exact hdel k hk hj
    · exact hother k hk hj _ (h.deletion k hk)
  · rw [vectorAt_setVector]
    split_ifs with hj
    · rfl
    · exact h.marked k hk (hM k hk hj hm)
  · rw [vectorAt_setVector] at hu
    split_ifs at hu
    · exact some.inj hu ▸ hw hpos
    · exact h.versions hpos hu
  · rw [vectorAt_setVector]
    split_ifs with hj
    · exact ⟨w, rfl, htracked hpos hmem hj.symm⟩
    · exact h.tracked hpos hmem
  · rw [vectorAt_setVector]
    split_ifs with hj
    · obtain ⟨versions, hv⟩ := hperRow hpos hlt hj.symm
      exact ⟨w, versions, rfl, hv⟩
    · exact h.perRow hpos hlt

end Kept

section Deletions

def deletedVector (b : ChunkedNodeGroup α) (vectorIdx : Nat) : VectorVersionInfo :=
  let v := ((b.versionInfo.getD {}).vectorsInfo vectorIdx).getD {}
  if v.insertionStatus = .noInserted then { v with insertionStatus := .alwaysInserted } else v

theorem deletedVector_of_some (hv : b.vectorAt j = some v) (hs : v.insertionStatus ≠ .noInserted) :
    b.deletedVector j = v := by
  obtain ⟨info, hinfo, hv⟩ := bind_eq_some_iff.mp hv
  simp [deletedVector, hinfo, hv, hs]

theorem deletedVector_of_none (hv : b.vectorAt j = none) :
    b.deletedVector j = { insertionStatus := .alwaysInserted } := by
  have hnone : (b.versionInfo.getD {}).vectorsInfo j = none := by
    cases hinfo : b.versionInfo with
    | none => rfl
    | some info => simpa [vectorAt, hinfo] using hv
  simp [deletedVector, hnone]

variable {r : ChunkedNodeGroup α × Bool}

theorem delete_eq (h : b.delete t k = .ok r) :
    ∃ w flag, (b.deletedVector (k / vectorCapacity)).delete t (k % vectorCapacity) = .ok (w, flag) ∧
      r.1 = b.setVector (k / vectorCapacity) w := by
  unfold ChunkedNodeGroup.delete VersionInfo.delete at h
  cases hd : (b.deletedVector (k / vectorCapacity)).delete t (k % vectorCapacity) with
  | error e =>
    rw [deletedVector] at hd
    simp [hd, Except.map] at h
  | ok p =>
    refine ⟨p.1, p.2, rfl, ?_⟩
    rw [deletedVector] at hd
    simp only [hd, Except.map, Except.ok.injEq] at h
    rw [← h]
    rfl

theorem deletedVector_spec (h : ∀ {v}, b.vectorAt j = some v → v.Deletable ∧ v.insertionStatus ≠ .noInserted) :
    (b.deletedVector j).Deletable ∧ (b.deletedVector j).insertionStatus ≠ .noInserted ∧
      ∀ k, k / vectorCapacity = j → (b.deletedVector j).insertion (k % vectorCapacity) = b.insertion k ∧
        (b.deletedVector j).deletion (k % vectorCapacity) = b.deletion k := by
  cases hv : b.vectorAt j with
  | none =>
    rw [deletedVector_of_none hv]
    refine ⟨⟨rfl, by simp⟩, by simp, fun k hk => ?_⟩
    rw [insertion_of_no_vector (hk ▸ hv), deletion_of_no_vector (hk ▸ hv)]
    exact ⟨rfl, rfl⟩
  | some v =>
    obtain ⟨hd, hs⟩ := h hv
    rw [deletedVector_of_some hv hs]
    refine ⟨hd, hs, fun k hk => ?_⟩
    rw [insertion_of_vectorAt (hk ▸ hv), deletion_of_vectorAt (hk ▸ hv)]
    exact ⟨rfl, rfl⟩

theorem delete_vector (ht : t ≠ invalidTransaction) (hd : b.delete t k = .ok r)
    (h : ∀ {v}, b.vectorAt (k / vectorCapacity) = some v → v.Deletable ∧ v.insertionStatus ≠ .noInserted) :
    ∃ w, r.1 = b.setVector (k / vectorCapacity) w ∧ (b.deletion k = t ∨ b.deletion k = invalidTransaction) ∧
      (w.Deletable ∧ w.insertionStatus ≠ .noInserted) ∧
      VectorVersionInfo.SameInsertions (b.deletedVector (k / vectorCapacity)) w ∧
      ∀ i, i / vectorCapacity = k / vectorCapacity → w.insertion (i % vectorCapacity) = b.insertion i ∧
        w.deletion (i % vectorCapacity) = if i = k then t else b.deletion i := by
  obtain ⟨w, flag, hw, hr⟩ := delete_eq hd
  obtain ⟨hdel, hstatus, hrows⟩ := deletedVector_spec h
  obtain ⟨hold, rfl⟩ := delete_ok hdel ht hw
  have hwd := deletable_fill (fill ((b.deletedVector (k / vectorCapacity)).deletedVersions.getD
    noVersions) (k % vectorCapacity) 1 t) hdel rfl
  refine ⟨_, hr, (hrows k rfl).2 ▸ hold, ⟨hwd, hstatus⟩, ⟨rfl, rfl, rfl⟩, fun i hi => ⟨(hrows i hi).1, ?_⟩⟩
  rw [hwd.deletion, getD_some]
  by_cases hik : i = k
  · rw [if_pos hik, hik, fill_of_mem ⟨le_rfl, Nat.lt_succ_self _⟩]
  · have hmod : i % vectorCapacity ≠ k % vectorCapacity := fun hm => hik (eq_of_div_mod hi hm)
    rw [if_neg hik, fill_of_not_mem (by omega), ← hdel.deletion, (hrows i hi).2]

namespace Kept

theorem of_empty {info : Option VersionInfo} (h : Kept t D M Q b₀ b) (hzero : b₀.numRows = 0) :
    Kept t D' M' Q b₀ { b with versionInfo := info } :=
  { h with
    insertion := fun k hk => by omega
    deletion := fun k hk => by omega
    marked := fun k hk => by omega
    versions := fun hpos => by omega
    tracked := fun hpos => by omega
    perRow := fun hpos => by omega }

theorem delete {u : Nat} (h : Kept t D M Q b₀ b) (hu : u ≠ invalidTransaction) (hd : b.delete u k = .ok r)
    (hk : k < b₀.numRows → b.deletion k = u ∨ b.deletion k = invalidTransaction → D' k u)
    (hother : ∀ i < b₀.numRows, i ≠ k → ∀ d, D i d → D' i d)
    (hM : ∀ i < b₀.numRows, i ≠ k → M' i → M i) : Kept t D' M' Q b₀ r.1 := by
  rcases Nat.eq_zero_or_pos b₀.numRows with hzero | hpos
  · obtain ⟨w, flag, -, hr⟩ := delete_eq hd
    rw [hr]
    exact h.of_empty hzero
  obtain ⟨w, hr, hold, hw, hsame, hrows⟩ := delete_vector hu hd (h.versions hpos)
  have hvec : ∀ {v}, k / vectorCapacity = 0 → b.vectorAt 0 = some v →
      b.deletedVector (k / vectorCapacity) = v := fun hz hv =>
    deletedVector_of_some (hz ▸ hv) (h.versions hpos hv).2
  rw [hr]
  refine h.setVector (fun _ => hw) (fun i _ hi => (hrows i hi).1)
    (fun i hi hv => ?_) (fun i hi hv => hother i hi fun he => hv (he ▸ rfl))
    (fun i hi hv => hM i hi fun he => hv (he ▸ rfl)) (fun _ hmem hz => ?_) (fun _ hlt hz => ?_)
  · rw [(hrows i hv).2]
    split_ifs with hik
    · subst hik
      exact hk hi hold
    · exact hother i hi hik _ (h.deletion i hi)
  · obtain ⟨v, hv, htracked, hne⟩ := h.tracked hpos hmem
    rw [hvec hz hv] at hsame
    exact ⟨hsame.tracked htracked, hsame.same.trans_ne hne⟩
  · obtain ⟨v, versions, hv, hper⟩ := h.perRow hpos hlt
    rw [hvec hz hv] at hsame
    exact ⟨versions, hsame.perRow hper⟩

theorem exists_vector (h : Kept t D M Q b₀ b) (hpos : 0 < b₀.numRows) (hk : k < b.numRows)
    (hcap : b₀.residencyState = .inMemory → b.numRows ≤ vectorCapacity) (hM : k < b₀.numRows → M k) :
    ∃ v, b.vectorAt (k / vectorCapacity) = some v := by
  cases hstate : b₀.residencyState with
  | inMemory =>
    obtain ⟨v, hv, -⟩ := h.tracked hpos hstate
    rw [Nat.div_eq_of_lt (hk.trans_le (hcap hstate))]
    exact ⟨v, hv⟩
  | onDisk =>
    have hold : k < b₀.numRows := (h.onDisk hstate) ▸ hk
    exact isSome_iff_exists.mp (h.marked k hold (hM hold))

theorem editDeletion {F : VectorVersionInfo → Nat → Nat → VectorVersionInfo} (h : Kept t D M Q b₀ b)
    (hF : VectorVersionInfo.EditsDeletion F)
    (hk : k < b.numRows) (hcap : b₀.residencyState = .inMemory → b.numRows ≤ vectorCapacity)
    (hM : k < b₀.numRows → M k)
    (hnew : ∀ v, v.Deletable → k < b₀.numRows → D' k ((F v (k % vectorCapacity) 1).deletion (k % vectorCapacity)))
    (hother : ∀ i < b₀.numRows, i ≠ k → ∀ d, D i d → D' i d) (hM' : ∀ i < b₀.numRows, M' i → M i) :
    Kept t D' M' Q b₀ (b.onVersions F k 1) := by
  rcases Nat.eq_zero_or_pos b₀.numRows with hzero | hpos
  · exact h.of_empty hzero
  obtain ⟨v, hv⟩ := h.exists_vector hpos hk hcap hM
  rw [onVersions_row hv]
  obtain ⟨hdel, hstatus⟩ := h.versions hpos hv
  have hsame := hF.insertions v (k % vectorCapacity)
  refine h.setVector (fun _ => ⟨hF.deletable _ _ hdel, hsame.status.trans_ne hstatus⟩)
    (fun i _ hi => hsame.insertion.trans (insertion_of_vectorAt (hi ▸ hv)).symm) (fun i hi hvi => ?_)
    (fun i hi hvi => hother i hi fun he => hvi (he ▸ rfl)) (fun i hi _ => hM' i hi)
    (fun _ hmem hz => ?_) (fun _ hlt hz => ?_)
  · by_cases hik : i = k
    · subst hik
      exact hnew v hdel hi
    · have hne : i % vectorCapacity ≠ k % vectorCapacity := fun hm => hik (eq_of_div_mod hvi hm)
      rw [hF.others _ _ _ hdel (Nat.mod_lt _ (by decide)) hne, ← deletion_of_vectorAt (hvi ▸ hv)]
      exact hother i hi hik _ (h.deletion i hi)
  · obtain ⟨u, hu, htracked, hne⟩ := h.tracked hpos hmem
    rw [hz] at hv
    cases hv.symm.trans hu
    exact ⟨hsame.tracked htracked, hsame.same.trans_ne hne⟩
  · obtain ⟨u, versions, hu, hper⟩ := h.perRow hpos hlt
    rw [hz] at hv
    cases hv.symm.trans hu
    exact ⟨versions, hsame.perRow hper⟩

end Kept

end Deletions

section Insertions

namespace Kept

variable (h : Kept t D M Q b₀ b)

include h

theorem append (ht : t ≠ invalidTransaction) (hopen : b.Open) (hne : news ≠ [])
    (hroom : b.numRows + news.length ≤ chunkedNodeGroupCapacity) : Kept t D M Q b₀ (b.append t news) := by
  have hroom' : b.numRows + news.length ≤ b.capacity := hopen.capacity ▸ hroom
  have hcap : b.capacity ≤ vectorCapacity := hopen.capacity.le
  have hmem : b₀.residencyState = .inMemory := h.state.symm.trans hopen.inMemory
  have hvec : (b.append t news).vectorAt 0 = some (b.vector.append t b.numRows news.length) := by
    rw [vectorAt, append_versionInfo hroom' hcap hne]
    simp [VersionInfo.setVector]
  have hrest : ∀ i, i ≠ 0 → (b.append t news).vectorAt i = b.vectorAt i := by
    intro i hi
    rw [vectorAt, append_versionInfo hroom' hcap hne]
    cases hinfo : b.versionInfo with
    | none | some info => simp [VersionInfo.setVector, vectorAt, hi, hinfo]
  have hold : 0 < b₀.numRows → ∃ v, b.vectorAt 0 = some v ∧ b.vector = v ∧ v.Tracked ∧ v.sameInsertionVersion ≠ t := by
    intro hpos
    obtain ⟨v, hv, htracked, hne⟩ := h.tracked hpos hmem
    obtain ⟨info, hinfo, hget⟩ := bind_eq_some_iff.mp hv
    exact ⟨v, hv, by simp [ChunkedNodeGroup.vector, hinfo, hget], htracked, hne⟩
  have hrows : (b.append t news).numRows = b.numRows + news.length := by rw [append_of_room hroom']
  refine ⟨?_, ?_, ?_, ?_, fun column => ?_, fun k hk => ?_, fun k hk => ?_, fun k hk hm => ?_,
    fun column vectorIdx => ?_, fun hpos {i v} hv => ?_, fun hpos _ => ?_, fun hpos _ => ?_⟩
  · exact h.start
  · exact h.state
  · have hle := h.rows
    omega
  · simp [hmem]
  · exact (h.data column).trans (List.prefix_append ..)
  · -- another transaction's rows are told apart from the new ones
    obtain ⟨v, hv, hvec', htracked, hne'⟩ := hold (Nat.zero_lt_of_lt hk)
    have hkb : k < b.numRows := hk.trans_le h.rows
    have hk0 : k / vectorCapacity = 0 := Nat.div_eq_of_lt (by omega)
    have hkm : k % vectorCapacity = k := Nat.mod_eq_of_lt (by omega)
    rw [← h.insertion k hk, insertion_of_vectorAt (hk0 ▸ hvec), insertion_of_vectorAt (hk0 ▸ hv), hkm,
      hvec', VectorVersionInfo.append_insertion_of_lt htracked hkb]
  · rw [append_deletion hroom' hcap hne]
    exact h.deletion k hk
  · by_cases hz : k / vectorCapacity = 0
    · rw [hz, hvec]
      rfl
    · rw [hrest _ hz]
      exact h.marked k hk hm
  · exact h.chain column vectorIdx
  · by_cases hi : i = 0
    · obtain ⟨u, hu, hvec', -, -⟩ := hold hpos
      rw [hi, hvec] at hv
      cases hv
      obtain ⟨inserted, same, he⟩ := VectorVersionInfo.append_eq b.vector t b.numRows news.length
      refine ⟨VectorVersionInfo.append_deletable ?_, by simp [he]⟩
      rw [hvec']
      exact (h.versions hpos hu).1
    · rw [hrest i hi] at hv
      exact h.versions hpos hv
  · obtain ⟨u, hu, hvec', htracked, hne'⟩ := hold hpos
    obtain ⟨versions, hper, -⟩ := VectorVersionInfo.append_perRow htracked hne'.symm b.numRows news.length
    rw [hvec, hvec']
    exact ⟨_, rfl, hper.tracked, hper.same.trans_ne ht.symm⟩
  · obtain ⟨u, hu, hvec', htracked, hne'⟩ := hold hpos
    obtain ⟨versions, hper, -⟩ := VectorVersionInfo.append_perRow htracked hne'.symm b.numRows news.length
    rw [hvec, hvec']
    exact ⟨_, versions, rfl, hper⟩

theorem inMemory (hlt : b₀.numRows < b.numRows) : b₀.residencyState = .inMemory := by
  cases hs : b₀.residencyState with
  | inMemory => rfl
  | onDisk => exact absurd (h.onDisk hs) hlt.ne'

theorem commitInsert (hk : b₀.numRows ≤ k) (hn : n ≤ b.numRows - k)
    (hcap : b₀.residencyState = .inMemory → b.numRows ≤ vectorCapacity) :
    Kept t D M Q b₀ (b.commitInsert commitTS k n) := by
  rcases Nat.eq_zero_or_pos n with rfl | hnpos
  · have hsame : b.commitInsert commitTS k 0 = b := onVersions_zero
    rwa [hsame]
  rcases Nat.eq_zero_or_pos b₀.numRows with hzero | hpos
  · exact h.of_empty hzero
  have hmem := h.inMemory (by omega)
  have hcap := hcap hmem
  obtain ⟨v, versions, hv, hper⟩ := h.perRow hpos (by omega)
  have hset : b.commitInsert commitTS k n = b.setVector 0 (v.setInsertCommitTS commitTS k n) :=
    onVersions_first hv hnpos.ne' (by omega)
  have hper' := setInsertCommitTS_perRow hper commitTS k n
  obtain ⟨hdel, hstatus⟩ := h.versions hpos hv
  rw [hset]
  refine h.setVector (fun _ => ⟨setInsertCommitTS_deletable hdel, by simp [hper'.status]⟩)
    (fun i hi hz => ?_) (fun i hi hz => ?_) (fun _ _ _ _ => id) (fun _ _ _ => id)
    (fun _ _ _ => ⟨hper'.tracked, ?_⟩) (fun _ _ _ => ⟨_, hper'⟩)
  · have him : i % vectorCapacity = i := Nat.mod_eq_of_lt (by omega)
    rw [insertion_of_vectorAt (hz ▸ hv), hper'.insertion, fill_of_not_mem (by omega), hper.insertion]
  · rw [setInsertCommitTS_deletion, ← deletion_of_vectorAt (hz ▸ hv)]
    exact h.deletion i hi
  · obtain ⟨u, hu, -, hne⟩ := h.tracked hpos hmem
    cases hv.symm.trans hu
    exact hper'.same.trans_ne (hper.same ▸ hne)

theorem truncate (hdata : ∀ column, (b₀.columns column).data.length = b₀.numRows) (hk : b₀.numRows ≤ k)
    (hkb : k ≤ b.numRows) (hmem : b₀.residencyState = .inMemory) : Kept t D M Q b₀ (b.truncate k) :=
  { h with
    rows := hk
    onDisk := by simp [hmem]
    data := fun column => List.prefix_take_iff.mpr ⟨h.data column, (hdata column).le.trans hk⟩
    perRow := fun hpos hlt => h.perRow hpos (hlt.trans_le hkb) }

theorem rollbackInsert (ht : t ≠ invalidTransaction) (hdata : ∀ column, (b₀.columns column).data.length = b₀.numRows)
    (hpresent : ∀ i < b₀.numRows, b₀.insertion i ≠ invalidTransaction) (hk : b₀.numRows ≤ k)
    (hn : k + n ≤ b.numRows) (hcap : b₀.residencyState = .inMemory → b.numRows ≤ vectorCapacity) :
    Kept t D M Q b₀ (b.rollbackInsert k n) := by
  rcases Nat.lt_or_ge k b.numRows with hlt | hge
  · have hmem := h.inMemory (hk.trans_lt hlt)
    have hundone : Kept t D M Q b₀ (b.onVersions (fun v => v.rollbackInsertions) k n) := by
      rcases Nat.eq_zero_or_pos n with rfl | hnpos
      · rwa [onVersions_zero]
      rcases Nat.eq_zero_or_pos b₀.numRows with hzero | hpos
      · exact h.of_empty hzero
      obtain ⟨v, versions, hv, hper⟩ := h.perRow hpos (by omega)
      have hcap := hcap hmem
      have hrow : versions 0 ≠ invalidTransaction := by
        have hins := h.insertion 0 hpos
        rw [insertion_of_vectorAt hv, hper.insertion] at hins
        exact hins ▸ hpresent 0 hpos
      have hroll := rollbackInsertions_eq hper (by decide : 0 < vectorCapacity) (by omega : ¬ (k ≤ 0 ∧ 0 < k + n)) hrow
      have hper' : ({ v with insertedVersions := some (fill versions k n invalidTransaction) } :
          VectorVersionInfo).PerRow (fill versions k n invalidTransaction) := ⟨hper.status, rfl, hper.same⟩
      obtain ⟨hdel, hstatus⟩ := h.versions hpos hv
      rw [onVersions_first hv hnpos.ne' (hn.trans hcap), hroll]
      refine h.setVector (fun _ => ⟨⟨hdel.same, hdel.array⟩, hstatus⟩) (fun i hi hz => ?_)
        (fun i hi hz => ?_) (fun _ _ _ _ => id) (fun _ _ _ => id)
        (fun _ _ _ => ⟨hper'.tracked, hper.same.trans_ne ht.symm⟩) (fun _ _ _ => ⟨_, hper'⟩)
      · have him : i % vectorCapacity = i := Nat.mod_eq_of_lt (by omega)
        rw [insertion_of_vectorAt (hz ▸ hv), hper'.insertion, fill_of_not_mem (by omega), hper.insertion]
      · have hold := h.deletion i hi
        rwa [deletion_of_vectorAt (hz ▸ hv)] at hold
    have hinMemory : b.residencyState = .inMemory := h.state.trans hmem
    have htrunc := hundone.truncate hdata hk hlt.le hmem
    unfold ChunkedNodeGroup.rollbackInsert
    rw [if_neg (by omega)]
    split
    · exact htrunc
    · simp_all
  · rwa [ChunkedNodeGroup.rollbackInsert, if_pos hge]

end Kept

end Insertions

section Updates

theorem Kept.setUpdates {column : Nat} {info : UpdateInfo α} (h : Kept t D M Q b₀ b)
    (hother : ∀ c vectorIdx, c ≠ column → ∀ chain, Q c vectorIdx chain → Q' c vectorIdx chain)
    (hnew : ∀ vectorIdx, Q' column vectorIdx (info.updates vectorIdx)) :
    Kept t D M Q' b₀ (b.setColumn column { b.columns column with updateInfo := info }) := by
  refine { h with data := fun c => ?_, chain := fun c vectorIdx => ?_ } <;> unfold setColumn
  · by_cases hc : c = column
    · subst hc
      simpa using h.data c
    · simpa [hc] using h.data c
  · unfold ChunkedNodeGroup.chain
    by_cases hc : c = column
    · subst hc
      simpa using hnew vectorIdx
    · simpa [hc, ChunkedNodeGroup.chain] using hother c vectorIdx hc _ (h.chain c vectorIdx)

end Updates

theorem Sound.kept (h : b.Sound) (hD : ∀ k < b.numRows, D k (b.deletion k)) (hM : ∀ k < b.numRows, ¬ M k)
    (hQ : ∀ column vectorIdx, Q column vectorIdx (b.chain column vectorIdx))
    (ht : t ≠ invalidTransaction) (hins : ∀ k < b.numRows, b.insertion k ≠ t) : Kept t D M Q b b where
  start := rfl
  state := rfl
  rows := le_rfl
  onDisk _ := rfl
  data _ := List.prefix_refl _
  insertion _ _ := rfl
  deletion := hD
  marked k hk hm := absurd hm (hM k hk)
  chain := hQ
  versions hpos {j v} hv := by
    obtain ⟨info, hinfo, hv⟩ := bind_eq_some_iff.mp hv
    exact ⟨(h.versions (.inl hpos) hinfo).deletable hv, (h.versions (.inl hpos) hinfo).inserted hv⟩
  tracked hpos hmem := by
    obtain ⟨info, v, hinfo, hv, htracked⟩ := h.tracked hmem hpos
    have hat : b.vectorAt 0 = some v := by simp [vectorAt, hinfo, hv]
    refine ⟨v, hat, htracked, fun hsame => ?_⟩
    refine hins 0 hpos ?_
    rw [insertion_of_vectorAt hat]
    simp [VectorVersionInfo.insertion, htracked.status, VectorVersionInfo.isSameInsertionVersion, hsame, ht]
  perRow _ hlt := absurd hlt (lt_irrefl _)

end ChunkedNodeGroup

end Rag3db.Storage
