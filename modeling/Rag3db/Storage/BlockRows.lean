import Rag3db.Storage.ChunkedNodeGroup
import Rag3db.Storage.RowVersions

namespace Rag3db.Storage

open VersionInfo VectorVersionInfo

variable {α : Type}

namespace VectorVersionInfo

variable {v : VectorVersionInfo} {t startRow numRows row : Nat}

theorem append_insertion_of_lt (h : v.Tracked) (hrow : row < startRow) :
    (v.append t startRow numRows).insertion row = v.insertion row := by
  by_cases ht : t = v.sameInsertionVersion
  · simp [append, insertion, if_pos ht, h.status]
    rfl
  · obtain ⟨versions, hper, hlt⟩ := append_perRow h ht startRow numRows
    rw [hper.insertion, hlt row hrow]

theorem append_insertion_of_mem (h : v.Tracked ∨ v.insertedVersions = none) (ht : t ≠ invalidTransaction)
    (hlow : startRow ≤ row) (hhigh : row < startRow + numRows) :
    (v.append t startRow numRows).insertion row = t := by
  unfold append
  by_cases hsame : t = v.sameInsertionVersion
  · simp [insertion, isSameInsertionVersion, ← hsame, ht]
  · rw [if_neg hsame]
    cases hv : v.insertedVersions with
    | none =>
      cases hs : v.isSameInsertionVersion with
      | false => simp [insertion, isSameInsertionVersion, ht]
      | true => simp [insertion, isSameInsertionVersion, fill, hlow, hhigh]
    | some versions =>
      have htracked : v.Tracked := h.resolve_right (by simp [hv])
      have hinv : v.sameInsertionVersion = invalidTransaction := by
        have := htracked.same
        simpa [hv] using this
      simp [insertion, isSameInsertionVersion, hinv, fill, hlow, hhigh]

end VectorVersionInfo

/-- A row, with the versions that tell who sees it. -/
@[ext] structure Row (α : Type) where
  insertion : Nat
  deletion : Nat
  base : Nat → Option α

def Row.visible (s : Snapshot) (row : Row α) : Bool := s.sees row.insertion && !s.sees row.deletion

namespace ChunkedNodeGroup

variable {b : ChunkedNodeGroup α} {s : Snapshot} {t k column : Nat} {news : List (Nat → α)}

def insertion (b : ChunkedNodeGroup α) (rowInChunk : Nat) : Nat :=
  match b.versionInfo with
  | none => 0
  | some info => info.insertion rowInChunk

def deletion (b : ChunkedNodeGroup α) (rowInChunk : Nat) : Nat :=
  match b.versionInfo with
  | none => invalidTransaction
  | some info => info.deletion rowInChunk

def row (b : ChunkedNodeGroup α) (rowInChunk : Nat) : Row α where
  insertion := b.insertion rowInChunk
  deletion := b.deletion rowInChunk
  base := fun column => (b.columns column).data[rowInChunk]?

def chain (b : ChunkedNodeGroup α) (column vectorIdx : Nat) : List (VectorUpdateInfo α) :=
  (b.columns column).updateInfo.updates vectorIdx

theorem isSelected_eq : b.isSelected s k = (decide (k < b.numRows) && (b.row k).visible s) := by
  unfold isSelected Row.visible row insertion deletion
  cases b.versionInfo with
  | none => simp
  | some info => simp only [VersionInfo.isSelected_eq]

def vector (b : ChunkedNodeGroup α) : VectorVersionInfo :=
  ((b.versionInfo.getD {}).vectorsInfo 0).getD {}

/-- A block with its versions in order. -/
structure Sound (b : ChunkedNodeGroup α) : Prop where
  data : ∀ column, (b.columns column).data.length = b.numRows
  versions : 0 < b.numRows ∨ b.residencyState = .inMemory → ∀ {info}, b.versionInfo = some info → info.WellFormed
  tracked : b.residencyState = .inMemory → 0 < b.numRows →
    ∃ info v, b.versionInfo = some info ∧ info.vectorsInfo 0 = some v ∧ v.Tracked
  fresh : b.residencyState = .inMemory → b.numRows = 0 → b.vector.insertedVersions = none

section Append

theorem Sound.vector (h : b.Sound) (hmem : b.residencyState = .inMemory) :
    b.vector.Tracked ∨ b.vector.insertedVersions = none ∧ b.numRows = 0 := by
  rcases Nat.eq_zero_or_pos b.numRows with hzero | hpos
  · exact .inr ⟨h.fresh hmem hzero, hzero⟩
  · obtain ⟨info, v, hinfo, hv, htracked⟩ := h.tracked hmem hpos
    simpa [ChunkedNodeGroup.vector, hinfo, hv] using .inl htracked

theorem insertion_eq_vector (h : b.Sound) (hmem : b.residencyState = .inMemory) (hk : k < b.numRows)
    (hcap : b.numRows ≤ vectorCapacity) : b.insertion k = b.vector.insertion k := by
  obtain ⟨info, v, hinfo, hv, -⟩ := h.tracked hmem (Nat.zero_lt_of_lt hk)
  have hk' := hk.trans_le hcap
  simp [insertion, ChunkedNodeGroup.vector, VersionInfo.insertion, hinfo, hv, Nat.div_eq_of_lt hk',
    Nat.mod_eq_of_lt hk']

theorem append_of_room (hroom : b.numRows + news.length ≤ b.capacity) : b.append t news = { b with
      columns := fun column => (b.columns column).append (news.map (· column))
      versionInfo := some ((b.versionInfo.getD {}).append t b.numRows news.length)
      numRows := b.numRows + news.length } := by
  rw [append, List.take_of_length_le (by omega)]

theorem append_versionInfo (hroom : b.numRows + news.length ≤ b.capacity)
    (hcap : b.capacity ≤ vectorCapacity) (hne : news ≠ []) :
    (b.append t news).versionInfo =
      some ((b.versionInfo.getD {}).setVector 0 (b.vector.append t b.numRows news.length)) := by
  have hlen : news.length ≠ 0 := by simpa using hne
  rw [append_of_room hroom]
  exact congrArg some (onVectors_first hlen (by omega))

section Room

variable (hroom : b.numRows + news.length ≤ b.capacity) (hcap : b.capacity ≤ vectorCapacity) (hne : news ≠ [])

include hroom hcap hne

theorem append_deletion : (b.append t news).deletion k = b.deletion k := by
  unfold deletion
  rw [append_versionInfo hroom hcap hne]
  simp only [VersionInfo.deletion_setVector, VectorVersionInfo.append_deletion]
  unfold ChunkedNodeGroup.vector
  cases hinfo : b.versionInfo with
  | none => simp [VersionInfo.deletion, VectorVersionInfo.deletion]
  | some info =>
    split_ifs with hk
    · unfold VersionInfo.deletion
      cases hv : info.vectorsInfo 0 with
      | none => simp [hk, hv, VectorVersionInfo.deletion]
      | some v => simp [hk, hv]
    · rfl

variable (h : b.Sound) (hmem : b.residencyState = .inMemory)

include h hmem

theorem append_insertion_of_lt (hk : k < b.numRows) : (b.append t news).insertion k = b.insertion k := by
  have hkc : k < vectorCapacity := by omega
  rw [insertion_eq_vector h hmem hk (by omega)]
  unfold insertion
  rw [append_versionInfo hroom hcap hne]
  simp only [VersionInfo.insertion_setVector, Nat.div_eq_of_lt hkc, Nat.mod_eq_of_lt hkc]
  exact VectorVersionInfo.append_insertion_of_lt ((h.vector hmem).resolve_right fun hz => by omega) hk

theorem append_insertion_of_mem (ht : t ≠ invalidTransaction) (hlow : b.numRows ≤ k)
    (hhigh : k < b.numRows + news.length) : (b.append t news).insertion k = t := by
  have hkc : k < vectorCapacity := by omega
  unfold insertion
  rw [append_versionInfo hroom hcap hne]
  simp only [insertion_setVector, Nat.div_eq_of_lt hkc, Nat.mod_eq_of_lt hkc]
  exact VectorVersionInfo.append_insertion_of_mem ((h.vector hmem).imp_right (·.1)) ht hlow hhigh

theorem append_row_of_lt (hk : k < b.numRows) : (b.append t news).row k = b.row k := by
  refine Row.ext ?_ ?_ (funext fun column => ?_)
  · exact append_insertion_of_lt hroom hcap hne h hmem hk
  · exact append_deletion hroom hcap hne
  · exact List.getElem?_append_left (by rwa [h.data])

theorem Sound.append (ht : t ≠ invalidTransaction) : (b.append t news).Sound := by
  have hlen : 0 < news.length := List.length_pos_iff.mpr hne
  have hvec := h.vector hmem
  refine ⟨fun column => ?_, fun _ {info} hinfo => ?_, fun _ _ => ?_, fun _ hzero => ?_⟩
  · rw [append_of_room hroom]
    simp [ColumnChunk.append, h.data]
  · rw [append_versionInfo hroom hcap hne] at hinfo
    cases hinfo
    obtain ⟨inserted, same, he⟩ := append_eq b.vector t b.numRows news.length
    refine VersionInfo.WellFormed.setVector ?_ ?_ (by simp [he])
    · cases hb : b.versionInfo with
      | none => exact wellFormed_empty
      | some info => exact h.versions (.inr hmem) hb
    · refine append_deletable ?_
      unfold ChunkedNodeGroup.vector
      cases hb : b.versionInfo with
      | none => exact ⟨rfl, by simp⟩
      | some info =>
        cases hv : info.vectorsInfo 0 with
        | none => simpa [hv] using ⟨rfl, by simp⟩
        | some v => simpa [hv] using (h.versions (.inr hmem) hb).deletable hv
  · refine ⟨_, b.vector.append t b.numRows news.length, append_versionInfo hroom hcap hne, rfl, ?_⟩
    exact append_tracked ht (hvec.imp_right And.left)
  · rw [append_of_room hroom] at hzero
    simp only at hzero
    omega

end Room

end Append

end ChunkedNodeGroup

end Rag3db.Storage
