import Rag3db.Storage.GroupShape

open List

namespace Rag3db.Storage

open ChunkedNodeGroup

variable {α : Type} {bs rest : List (ChunkedNodeGroup α)} {b c first : ChunkedNodeGroup α}
  {g : NodeGroup α} {i k n start : Nat}

theorem rdropWhile_append_of_all {β : Type} {p : β → Bool} {l m : List β} (h : ∀ x ∈ m, p x = true) :
    (l ++ m).rdropWhile p = l.rdropWhile p := by
  induction m using List.reverseRecOn with
  | nil => simp
  | append_singleton m x ih =>
    rw [← append_assoc, rdropWhile_concat_pos _ _ _ (h x (by simp))]
    exact ih fun y hy => h y (by simp [hy])

variable {l : List (ChunkedNodeGroup α)}

theorem WellLaid.init (h : WellLaid (l ++ [c])) : WellLaid l := by
  have hget : ∀ {i b}, l[i]? = some b → (l ++ [c])[i]? = some b := fun {i b} hb => by
    rwa [getElem?_append_left (getElem?_eq_some_iff.mp hb).1]
  refine ⟨⟨fun {f b r i} he hb => ?_, fun {f b r i} he hb hi => ?_, fun {f b r i} he hb => ?_⟩,
    fun hb => h.first (hget hb), fun hb => h.open_succ (hget hb)⟩ <;> subst he
  · exact h.layout.start (cons_append ..) (by
      rwa [List.getElem?_append_left (List.getElem?_eq_some_iff.mp hb).1])
  · exact h.layout.full (cons_append ..) (by
      rwa [List.getElem?_append_left (List.getElem?_eq_some_iff.mp hb).1]) (by simp; omega)
  · exact h.layout.bound (cons_append ..) (by
      rwa [List.getElem?_append_left (List.getElem?_eq_some_iff.mp hb).1])

theorem Layout.start_last (h : Layout (l ++ [c])) (hne : l ≠ []) : c.startRowIdx = endOf l := by
  obtain ⟨init, b, rfl⟩ := eq_nil_or_concat l |>.resolve_left hne
  rw [concat_eq_append] at *
  rw [endOf_append]
  exact h.contiguous (i := init.length) (by simp) (by simp)

theorem Layout.sum_numRows (h : WellLaid (first :: rest)) :
    first.startRowIdx + ((first :: rest).map (·.numRows)).sum = endOf (first :: rest) := by
  induction rest using List.reverseRecOn with
  | nil => simp [endOf]
  | append_singleton rest c ih =>
    rw [← cons_append] at h ⊢
    have hstart := h.layout.start_last (by simp)
    rw [endOf_append, hstart, ← ih h.init]
    simp [Nat.add_assoc]

theorem WellLaid.rdropWhile_isEmpty (h : WellLaid (first :: rest)) : WellLaid ((first :: rest).rdropWhile (·.isEmpty)) ∧
      ((first :: rest).rdropWhile (·.isEmpty) = [] ∧ endOf (first :: rest) = first.startRowIdx ∨
        endOf ((first :: rest).rdropWhile (·.isEmpty)) = endOf (first :: rest)) := by
  induction rest using List.reverseRecOn with
  | nil =>
    rw [rdropWhile_singleton]
    split_ifs with hempty
    · have hzero : first.numRows = 0 := by simpa [ChunkedNodeGroup.isEmpty] using hempty
      exact ⟨WellLaid.nil, .inl ⟨rfl, by simp [endOf, hzero]⟩⟩
    · exact ⟨h, .inr rfl⟩
  | append_singleton rest c ih =>
    rw [← cons_append] at h ⊢
    rw [rdropWhile_concat]
    split_ifs with hempty
    · have hzero : c.numRows = 0 := by simpa [ChunkedNodeGroup.isEmpty] using hempty
      have hend : endOf (first :: rest ++ [c]) = endOf (first :: rest) := by
        rw [endOf_append, h.layout.start_last (by simp), hzero, Nat.add_zero]
      rw [hend]
      exact ih h.init
    · exact ⟨h, .inr rfl⟩

namespace ChunkedNodeGroup

theorem rollbackInsert_numRows : (b.rollbackInsert k n).numRows = min b.numRows k := by
  unfold rollbackInsert
  split_ifs with hk
  · omega
  · cases b.residencyState with
    | inMemory => simp only [truncate]; omega
    | onDisk => simp only; omega

theorem rollbackInsert_of_le (h : b.numRows ≤ k) : b.rollbackInsert k n = b := if_pos h

theorem rollbackInsert_shape : (b.rollbackInsert k n).shape = { b.shape with numRows := min b.numRows k } := by
  have hrows := rollbackInsert_numRows (b := b) (k := k) (n := n)
  unfold shape
  rw [hrows]
  unfold rollbackInsert
  split_ifs with hk
  · rfl
  · cases b.residencyState with
    | inMemory => simp [truncate]
    | onDisk => simp

end ChunkedNodeGroup

theorem applyFrom_rollbackInsert (h : b.numRows - k + (rest.map (·.numRows)).sum ≤ n) :
    applyFrom rollbackInsert (b :: rest) k n =
      b.rollbackInsert k (b.numRows - k) :: rest.map fun c => c.rollbackInsert 0 c.numRows := by
  induction rest generalizing b k n with
  | nil =>
    unfold applyFrom
    by_cases hn : n = 0
    · rw [if_pos hn, rollbackInsert_of_le (by omega)]
      rfl
    · rw [if_neg hn]
      simp only [map_nil, sum_nil, Nat.add_zero] at h
      simp [applyFrom, Nat.min_eq_right h]
  | cons c rest ih =>
    simp only [map_cons, sum_cons] at h
    unfold applyFrom
    by_cases hn : n = 0
    · rw [if_pos hn, rollbackInsert_of_le (by omega)]
      have hrest := ih (b := c) (k := 0) (n := 0) (by omega)
      simp only [applyFrom, if_true, Nat.sub_zero] at hrest
      rw [map_cons, ← hrest]
    · rw [if_neg hn]
      have hmin : min n (b.numRows - k) = b.numRows - k := Nat.min_eq_right (by omega)
      simp only [hmin]
      rw [ih (by omega), map_cons, Nat.sub_zero]

theorem getElem?_take_concat (hb : bs[i]? = some b) : bs.take (i + 1) = bs.take i ++ [b] := by
  obtain ⟨hlt, rfl⟩ := List.getElem?_eq_some_iff.mp hb
  exact List.take_succ_eq_append_getElem hlt

theorem WellLaid.take (h : WellLaid bs) (n : Nat) : WellLaid (bs.take n) := by
  induction bs using List.reverseRecOn with
  | nil => simpa using WellLaid.nil
  | append_singleton l c ih =>
    rcases Nat.lt_or_ge l.length n with hn | hn
    · rwa [take_of_length_le (by simp; omega)]
    · rw [take_append_of_le_length hn]
      exact ih h.init

def truncateAt (bs : List (ChunkedNodeGroup α)) (i : Nat) (b : ChunkedNodeGroup α) (k : Nat) :
    List (ChunkedNodeGroup α) :=
  bs.take i ++ [b.rollbackInsert k (b.numRows - k)]

theorem firstRow_rdropWhile {p : ChunkedNodeGroup α → Bool} : firstRow (bs.rdropWhile p) ≤ firstRow bs := by
  cases hd : bs.rdropWhile p with
  | nil => exact Nat.zero_le _
  | cons first rest =>
    obtain ⟨dropped, hbs⟩ := rdropWhile_prefix p bs
    rw [← hbs, hd]
    exact le_rfl

theorem firstRow_truncateAt (hb : bs[i]? = some b) : firstRow (truncateAt bs i b k) = firstRow bs := by
  have hstart : (b.rollbackInsert k (b.numRows - k)).startRowIdx = b.startRowIdx :=
    congrArg Shape.startRowIdx rollbackInsert_shape
  cases bs with
  | nil => simp at hb
  | cons first rest =>
    cases i with
    | zero =>
      obtain rfl : first = b := by simpa using hb
      exact hstart
    | succ i => rfl

theorem WellLaid.truncateAt (h : WellLaid bs) (hb : bs[i]? = some b) (hk : k ≤ b.numRows) :
    WellLaid (truncateAt bs i b k) ∧ endOf (Storage.truncateAt bs i b k) = b.startRowIdx + k := by
  have hshape := rollbackInsert_shape (b := b) (k := k) (n := b.numRows - k)
  have hstart : (b.rollbackInsert k (b.numRows - k)).startRowIdx = b.startRowIdx :=
    congrArg Shape.startRowIdx hshape
  have hres : (b.rollbackInsert k (b.numRows - k)).residencyState = b.residencyState :=
    congrArg Shape.residencyState hshape
  have hrows : (b.rollbackInsert k (b.numRows - k)).numRows = k := by
    rw [rollbackInsert_numRows]
    omega
  have hopen : b.Open → (b.rollbackInsert k (b.numRows - k)).Open := fun ho =>
    ⟨hres.trans ho.inMemory, (congrArg Shape.capacity hshape).trans ho.capacity,
      (congrArg Shape.isSealed hshape).trans ho.unsealed, by have := ho.bound; omega⟩
  constructor
  · unfold Storage.truncateAt
    have htake := h.take (i + 1)
    rw [getElem?_take_concat hb] at htake
    cases i with
    | zero =>
      refine ⟨layout_single, fun {c} hc => ?_, by simp⟩
      obtain rfl : b.rollbackInsert k (b.numRows - k) = c := by simpa using hc
      exact (h.first hb).imp (fun hd => hres.trans hd) fun ho => ⟨hopen ho.1, hstart.trans ho.2⟩
    | succ i => exact htake.last_of_open (hopen (h.open_succ hb)) hstart (h.open_succ hb)
  · rw [Storage.truncateAt, endOf_append, hstart, hrows]

theorem applyFuncToChunkedGroups_rollbackInsert_of_le (h : WellLaid g.chunkedGroups)
    (hend : endOf g.chunkedGroups ≤ start) :
    (g.applyFuncToChunkedGroups rollbackInsert start n).chunkedGroups = g.chunkedGroups := by
  unfold NodeGroup.applyFuncToChunkedGroups
  cases hf : findChunkedGroupIdx g.chunkedGroups start with
  | none => rfl
  | some found =>
    obtain ⟨b, hb, hrow, hk⟩ := h.layout.mem_of_find hf
    have hle := h.layout.endOf_le hb
    have hlast : g.chunkedGroups.drop found.1 = [b] := by
      obtain ⟨hi, rfl⟩ := List.getElem?_eq_some_iff.mp hb
      rw [List.drop_eq_getElem_cons hi, List.drop_of_length_le (by omega)]
    have hsame : b.numRows ≤ found.2 := by omega
    simp only [hlast, applyFrom, rollbackInsert_of_le hsame, ite_self]
    rw [← hlast, List.take_append_drop]

theorem rollbackInsert_blocks (start n : Nat) (h : WellLaid g.chunkedGroups) (hne : g.chunkedGroups ≠ [])
    (hlow : ∀ first, g.chunkedGroups[0]? = some first → first.startRowIdx ≤ start)
    (hhigh : start ≤ endOf g.chunkedGroups) (hreach : endOf g.chunkedGroups ≤ start + n) :
    ∃ i b k, g.chunkedGroups[i]? = some b ∧ k ≤ b.numRows ∧ start = b.startRowIdx + k ∧
      ((g.applyFuncToChunkedGroups rollbackInsert start n).rollbackInsert
        start).chunkedGroups = (truncateAt g.chunkedGroups i b k).rdropWhile (·.isEmpty) := by
  obtain ⟨first, rest, hbs⟩ := List.exists_cons_of_ne_nil hne
  rw [hbs] at h hhigh hreach
  have hlow := hlow first (by rw [hbs]; rfl)
  rcases Nat.lt_or_ge start (endOf (first :: rest)) with hlt | hge
  · obtain ⟨i, k, b, hf, hb, hrow, hk⟩ := h.layout.find_lt_endOf hlow hlt
    refine ⟨i, b, k, hbs ▸ hb, hk.le, hrow, ?_⟩
    have hdrop : (first :: rest).drop i = b :: (first :: rest).drop (i + 1) := by
      obtain ⟨hi, rfl⟩ := List.getElem?_eq_some_iff.mp hb
      exact List.drop_eq_getElem_cons hi
    have hsum : b.numRows - k + (((first :: rest).drop (i + 1)).map (·.numRows)).sum ≤ n := by
      have htotal := Layout.sum_numRows h
      have htake := Layout.sum_numRows (h.take (i + 1) : WellLaid (first :: rest.take i))
      have hend : endOf (first :: rest.take i) = b.startRowIdx + b.numRows := by
        have := getElem?_take_concat hb
        rw [List.take_succ_cons] at this
        rw [this, endOf_append]
      have hsplit : ((first :: rest).map (·.numRows)).sum = ((first :: rest.take i).map (·.numRows)).sum +
            (((first :: rest).drop (i + 1)).map (·.numRows)).sum := by
        rw [← List.sum_append]
        simp
      omega
    simp only [NodeGroup.applyFuncToChunkedGroups, hbs, hf]
    rw [hdrop, applyFrom_rollbackInsert hsum, List.append_cons]
    refine rdropWhile_append_of_all fun c hc => ?_
    obtain ⟨c', -, rfl⟩ := List.mem_map.mp hc
    simp [ChunkedNodeGroup.isEmpty, ChunkedNodeGroup.rollbackInsert_numRows]
  · -- nothing lies behind the range's start
    obtain ⟨init, b, hb⟩ := (List.eq_nil_or_concat (first :: rest)).resolve_left (by simp)
    rw [List.concat_eq_append] at hb
    have hend : endOf (first :: rest) = b.startRowIdx + b.numRows := by rw [hb, endOf_append]
    have hget : (first :: rest)[init.length]? = some b := by rw [hb]; simp
    refine ⟨init.length, b, b.numRows, hbs ▸ hget, le_rfl, by omega, ?_⟩
    have happly := applyFuncToChunkedGroups_rollbackInsert_of_le (n := n) (hbs.symm ▸ h : WellLaid g.chunkedGroups)
      (hbs.symm ▸ hge : endOf g.chunkedGroups ≤ start)
    simp only [NodeGroup.rollbackInsert, happly, truncateAt, hbs]
    rw [rollbackInsert_of_le le_rfl, hb]
    simp

end Rag3db.Storage
