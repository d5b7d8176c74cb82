import Rag3db.Storage.GroupCheckpoint
import Rag3db.Storage.GroupRollback
import Rag3db.Storage.KeptBlock

open List Option

namespace Rag3db.Storage

open Library.Interruptible VectorVersionInfo

variable {α β : Type} {bs : List (ChunkedNodeGroup α)} {b c : ChunkedNodeGroup α} {g : NodeGroup α} {p : β → Bool}
  {l : List β} {x : β}
  {i j k n row start : Nat} {f : ChunkedNodeGroup α → Nat → Nat → ChunkedNodeGroup α}

theorem WellLaid.numRows_le (h : WellLaid bs) (hb : bs[i]? = some b) (hmem : b.residencyState = .inMemory) :
    b.numRows ≤ chunkedNodeGroupCapacity := by
  cases i with
  | zero =>
    rcases h.first hb with hd | ⟨ho, -⟩
    · simp [hmem] at hd
    · exact ho.bound
  | succ i => exact (h.open_succ hb).bound

theorem WellLaid.end_le_start (h : WellLaid bs) (hb : bs[i]? = some b) (hc : bs[j]? = some c) (hij : i < j) :
    b.startRowIdx + b.numRows ≤ c.startRowIdx := by
  have htake := h.take (j + 1)
  rw [getElem?_take_concat hc] at htake
  have hb' : (bs.take j)[i]? = some b := by rwa [getElem?_take_of_lt hij]
  rw [htake.layout.start_last (ne_nil_of_mem (mem_of_getElem? hb'))]
  exact (h.take j).layout.endOf_le hb'

theorem applyFrom_getElem? (hb : bs[j]? = some b) :
    (applyFrom f bs k n)[j]? = some b ∨ ∃ m ≤ b.numRows - (if j = 0 then k else 0),
      (applyFrom f bs k n)[j]? = some (f b (if j = 0 then k else 0) m) := by
  induction bs generalizing j k n with
  | nil => simp at hb
  | cons c bs ih =>
    unfold applyFrom
    by_cases hn : n = 0
    · rw [if_pos hn]
      exact .inl hb
    · rw [if_neg hn]
      cases j with
      | zero =>
        obtain rfl : c = b := by simpa using hb
        exact .inr ⟨min n (c.numRows - k), Nat.min_le_right .., rfl⟩
      | succ j =>
        have hj := ih (k := 0) (n := n - min n (c.numRows - k)) hb
        simpa using hj

theorem applyFrom_one (hf : ∀ b k, f b k 0 = b) :
    applyFrom f (b :: bs) k 1 = if k < b.numRows then f b k 1 :: bs else b :: applyFrom f bs 0 1 := by
  rw [applyFrom, if_neg Nat.one_ne_zero]
  split_ifs with hk
  · have hmin : min 1 (b.numRows - k) = 1 := by omega
    simp only [hmin]
    cases bs <;> simp [applyFrom]
  · have hmin : min 1 (b.numRows - k) = 0 := by omega
    simp only [hmin, hf]

namespace NodeGroup

theorem applyFuncToChunkedGroups_frame (f : ChunkedNodeGroup α → Nat → Nat → ChunkedNodeGroup α)
    (start n : Nat) : OnlyBlocks g (g.applyFuncToChunkedGroups f start n) := by
  unfold applyFuncToChunkedGroups
  cases findChunkedGroupIdx g.chunkedGroups start with
  | none => exact ⟨_, rfl⟩
  | some found => exact ⟨_, rfl⟩

theorem getElem?_take_append {l : List (ChunkedNodeGroup α)} (hi : i ≤ bs.length) :
    (bs.take i ++ l)[j]? = if j < i then bs[j]? else l[j - i]? := by
  split_ifs with hj
  · rw [getElem?_append_left (by rw [length_take]; omega), getElem?_take_of_lt hj]
  · rw [getElem?_append_right (by simp; omega), length_take, Nat.min_eq_left hi]

theorem applyFuncToChunkedGroups_getElem? (f : ChunkedNodeGroup α → Nat → Nat → ChunkedNodeGroup α)
    (start n : Nat) (h : WellLaid g.chunkedGroups) (hb : g.chunkedGroups[j]? = some b) :
    (g.applyFuncToChunkedGroups f start n).chunkedGroups[j]? = some b ∨
      ∃ k m, (g.applyFuncToChunkedGroups f start n).chunkedGroups[j]? = some (f b k m) ∧
        start ≤ b.startRowIdx + k ∧ m ≤ b.numRows - k := by
  unfold applyFuncToChunkedGroups
  cases hfind : findChunkedGroupIdx g.chunkedGroups start with
  | none => exact .inl hb
  | some found =>
    obtain ⟨c, hc, hstart, hk⟩ := h.layout.mem_of_find hfind
    have hlen : found.1 < g.chunkedGroups.length := (List.getElem?_eq_some_iff.mp hc).1
    simp only [getElem?_take_append hlen.le]
    split_ifs with hj
    · exact .inl hb
    · have hdrop : (g.chunkedGroups.drop found.1)[j - found.1]? = some b := by
        rw [getElem?_drop, Nat.add_sub_cancel' (by omega), hb]
      rcases applyFrom_getElem? hdrop with hsame | ⟨m, hm, hres⟩
      · exact .inl hsame
      · refine .inr ⟨_, m, hres, ?_, hm⟩
        split_ifs with hz
        · have hjf : j = found.1 := by omega
          subst hjf
          cases hc.symm.trans hb
          exact hstart.le
        · have hlast : found.2 < c.numRows := by
            have hjlen : j < g.chunkedGroups.length := (List.getElem?_eq_some_iff.mp hb).1
            exact hk.resolve_right (by omega)
          have hle := h.end_le_start hc hb (by omega)
          omega

theorem applyFuncToChunkedGroups_one (h : WellLaid g.chunkedGroups) (hf : ∀ b k, f b k 0 = b)
    (hb : g.chunkedGroups[j]? = some b) :
    (g.applyFuncToChunkedGroups f row 1).chunkedGroups[j]? =
      some (if b.startRowIdx ≤ row ∧ row < b.startRowIdx + b.numRows then f b (row - b.startRowIdx) 1
        else b) := by
  unfold applyFuncToChunkedGroups
  cases hfind : findChunkedGroupIdx g.chunkedGroups row with
  | none =>
    rw [if_neg, hb]
    rintro ⟨hlow, hhigh⟩
    have hmem := h.layout.find_of_mem hb (k := row - b.startRowIdx) (by omega)
    rw [Nat.add_sub_cancel' hlow, hfind] at hmem
    simp at hmem
  | some found =>
    obtain ⟨c, hc, hrow, hk⟩ := h.layout.mem_of_find hfind
    have hlen : found.1 < g.chunkedGroups.length := (List.getElem?_eq_some_iff.mp hc).1
    have hjlen : j < g.chunkedGroups.length := (List.getElem?_eq_some_iff.mp hb).1
    simp only [getElem?_take_append hlen.le]
    have hdrop : g.chunkedGroups.drop found.1 = c :: g.chunkedGroups.drop (found.1 + 1) := by
      obtain ⟨hi, rfl⟩ := List.getElem?_eq_some_iff.mp hc
      exact List.drop_eq_getElem_cons hi
    rcases Nat.lt_trichotomy j found.1 with hlt | rfl | hgt
    · have hle := h.end_le_start hb hc hlt
      rw [if_pos hlt, hb, if_neg (by omega)]
    · obtain rfl := Option.some.inj (hc.symm.trans hb)
      rw [if_neg (lt_irrefl _), Nat.sub_self, hdrop, applyFrom_one hf]
      by_cases hin : found.2 < c.numRows
      · rw [if_pos hin, if_pos (by omega), List.getElem?_cons_zero, hrow, Nat.add_sub_cancel_left]
      · rw [if_neg hin, if_neg (by omega), List.getElem?_cons_zero]
    · have hin : found.2 < c.numRows := hk.resolve_right (by omega)
      have hle := h.end_le_start hc hb hgt
      rw [if_neg (by omega), hdrop, applyFrom_one hf, if_pos hin, if_neg (by omega)]
      obtain ⟨d, hd⟩ : ∃ d, j - found.1 = d + 1 := ⟨j - found.1 - 1, by omega⟩
      rw [hd, List.getElem?_cons_succ, List.getElem?_drop, ← hb]
      congr 1
      omega

end NodeGroup

theorem getElem?_of_rdropWhile (h : (l.rdropWhile p)[i]? = some x) : l[i]? = some x := by
  obtain ⟨dropped, hl⟩ := rdropWhile_prefix p l
  rw [← hl, List.getElem?_append_left (List.getElem?_eq_some_iff.mp h).1, h]

theorem rdropWhile_getElem? (h : l[i]? = some x) (hp : p x = false) : (l.rdropWhile p)[i]? = some x := by
  induction l using List.reverseRecOn with
  | nil => simp at h
  | append_singleton l y ih =>
    rw [rdropWhile_concat]
    split_ifs with hy
    · rcases getElem?_concat_eq_some h with h | ⟨-, rfl⟩
      · exact ih h
      · simp [hp] at hy
    · exact h

theorem getElem?_truncateAt (hb : bs[i]? = some b) : (truncateAt bs i b k)[j]? =
    if j < i then bs[j]? else if j = i then some (b.rollbackInsert k (b.numRows - k)) else none := by
  rw [truncateAt, NodeGroup.getElem?_take_append (List.getElem?_eq_some_iff.mp hb).1.le]
  have hj : ¬ j < i → (j - i = 0 ↔ j = i) := by omega
  split_ifs <;> simp_all

theorem WellLaid.of_find (h : WellLaid bs) (hf : findChunkedGroupIdx bs row = some (i, k))
    (hb : bs[i]? = some b) : 0 < b.numRows ∨ b.residencyState = .inMemory := by
  cases i with
  | zero =>
    refine .inl ?_
    cases bs with
    | nil => simp at hb
    | cons first rest =>
      obtain rfl : first = b := by simpa using hb
      unfold findChunkedGroupIdx at hf
      simp only at hf
      split_ifs at hf with hlow hin
      · exact Nat.zero_lt_of_lt hin
      · exact absurd (Prod.mk.inj (some.inj hf)).1 (Nat.succ_ne_zero _)
  | succ i => exact .inr (h.open_succ hb).inMemory

namespace NodeGroup

variable {t commitTS : Nat} {g₀ g' : NodeGroup α} {b₀ : ChunkedNodeGroup α} {D D' : Nat → Nat → Nat → Prop}
  {r : NodeGroup α × Bool}
  {M M' : Nat → Nat → Prop} {Q Q' : Nat → Nat → Nat → List (VectorUpdateInfo α) → Prop}

/-- A group before a transaction writes to it. -/
structure Settled (t : Nat) (g₀ : NodeGroup α) : Prop where
  laid : g₀.Laid
  sound : ∀ {i : Nat} {b : ChunkedNodeGroup α}, g₀.chunkedGroups[i]? = some b → b.Sound
  present : ∀ {i : Nat} {b : ChunkedNodeGroup α}, g₀.chunkedGroups[i]? = some b → ∀ k < b.numRows,
    b.insertion k ≠ invalidTransaction
  foreign : ∀ {i : Nat} {b : ChunkedNodeGroup α}, g₀.chunkedGroups[i]? = some b → ∀ k < b.numRows, b.insertion k ≠ t

/-- The rows of `g₀` in `g`, block by block. -/
structure Kept (t : Nat) (D : Nat → Nat → Nat → Prop) (M : Nat → Nat → Prop)
    (Q : Nat → Nat → Nat → List (VectorUpdateInfo α) → Prop) (g₀ g : NodeGroup α) : Prop where
  laid : WellLaid g.chunkedGroups
  generations : g.previousGenerations = g₀.previousGenerations
  counted : endOf g₀.chunkedGroups ≤ g.numRows
  first : firstRow g.chunkedGroups ≤ endOf g₀.chunkedGroups
  block : ∀ {i : Nat} {b₀ b : ChunkedNodeGroup α}, g₀.chunkedGroups[i]? = some b₀ →
    g.chunkedGroups[i]? = some b → ChunkedNodeGroup.Kept t (D i) (M i) (Q i) b₀ b
  kept : ∀ {i : Nat} {b₀ : ChunkedNodeGroup α}, g₀.chunkedGroups[i]? = some b₀ → 0 < b₀.numRows →
    ∃ b, g.chunkedGroups[i]? = some b

theorem delete_block {b' : ChunkedNodeGroup α} (hd : g.delete t row = .ok r)
    (hlaid : WellLaid g.chunkedGroups) (hb : g.chunkedGroups[i]? = some b)
    (hb' : r.1.chunkedGroups[i]? = some b') :
    (∃ k w, row = b.startRowIdx + k ∧ b.delete t k = .ok w ∧ b' = w.1 ∧
      (0 < b.numRows ∨ b.residencyState = .inMemory)) ∨
      b' = b ∧ ∀ k < b.numRows, row ≠ b.startRowIdx + k := by
  obtain ⟨idx, k, c, w, hfind, hc, hblock, rfl⟩ := delete_ok hd
  obtain ⟨c', hc', hrow, -⟩ := hlaid.layout.mem_of_find hfind
  cases hc.symm.trans hc'
  rw [hrow, Nat.add_sub_cancel_left] at hblock
  rcases getElem?_set_eq_some hb' with ⟨rfl, rfl⟩ | ⟨hi, hold⟩
  · cases hb.symm.trans hc
    exact .inl ⟨k, w, hrow, hblock, rfl, hlaid.of_find hfind hb⟩
  · refine .inr ⟨some.inj (hold.symm.trans hb), ?_⟩
    rintro j hj rfl
    rw [hlaid.layout.find_of_mem hb hj] at hfind
    exact hi (Prod.mk.inj (some.inj hfind)).1

namespace Kept

theorem mono (h : Kept t D M Q g₀ g) (hD : ∀ i b₀, g₀.chunkedGroups[i]? = some b₀ → ∀ k < b₀.numRows, ∀ d,
      D i k d → D' i k d)
    (hM : ∀ i b₀, g₀.chunkedGroups[i]? = some b₀ → ∀ k < b₀.numRows, M' i k → M i k)
    (hQ : ∀ i b₀, g₀.chunkedGroups[i]? = some b₀ → ∀ column vectorIdx chain, Q i column vectorIdx chain →
      Q' i column vectorIdx chain) : Kept t D' M' Q' g₀ g :=
  { h with block := fun hb₀ hb => (h.block hb₀ hb).mono (hD _ _ hb₀) (hM _ _ hb₀) (hQ _ _ hb₀) }

theorem of_sameRows (h : Kept t D M Q g₀ g) (hs : SameRows g g')
    (hblock : ∀ i b₀ b b', g₀.chunkedGroups[i]? = some b₀ → g.chunkedGroups[i]? = some b →
      g'.chunkedGroups[i]? = some b' → ChunkedNodeGroup.Kept t (D i) (M i) (Q i) b₀ b →
      ChunkedNodeGroup.Kept t (D' i) (M' i) (Q' i) b₀ b') : Kept t D' M' Q' g₀ g' := by
  have hfirst := hs.firstRow
  obtain ⟨hshape, bs, rfl⟩ := hs
  refine ⟨h.laid.congr hshape, h.generations, h.counted, hfirst.le.trans h.first, fun {i b₀ b'} hb₀ hb' => ?_,
    fun {i b₀} hb₀ hpos => ?_⟩
  · obtain ⟨b, hb, -⟩ := hshape.getElem? hb'
    exact hblock i b₀ b b' hb₀ hb hb' (h.block hb₀ hb)
  · obtain ⟨b, hb⟩ := h.kept hb₀ hpos
    obtain ⟨b', hb', -⟩ := hshape.symm.getElem? hb
    exact ⟨b', hb'⟩

theorem cap (h : Kept t D M Q g₀ g) (hb₀ : g₀.chunkedGroups[i]? = some b₀) (hb : g.chunkedGroups[i]? = some b)
    (hmem : b₀.residencyState = .inMemory) : b.numRows ≤ vectorCapacity :=
  h.laid.numRows_le hb ((h.block hb₀ hb).state.trans hmem)

theorem commitInsert (h : Kept t D M Q g₀ g) (hlayout : Layout g₀.chunkedGroups)
    (hstart : endOf g₀.chunkedGroups ≤ start) :
    Kept t D M Q g₀ (g.applyFuncToChunkedGroups (·.commitInsert commitTS) start n) := by
  refine h.of_sameRows (applyFuncToChunkedGroups_sameRows fun _ _ _ => rfl) fun i b₀ b b' hb₀ hb hb' hkept => ?_
  rcases applyFuncToChunkedGroups_getElem? (·.commitInsert commitTS) start n h.laid hb with
    hsame | ⟨k, m, hres, hlow, hm⟩
  · rwa [some.inj (hb'.symm.trans hsame)]
  · rw [some.inj (hb'.symm.trans hres)]
    have hle := hlayout.endOf_le hb₀
    have hs := hkept.start
    exact hkept.commitInsert (by omega) hm (h.cap hb₀ hb)

variable {cs : List (ChunkedNodeGroup α)}

theorem of_rdropWhile {numRows next : Nat} (h : Kept t D M Q g₀ g) (hlaid : WellLaid cs)
    (hfirst : firstRow cs ≤ endOf g₀.chunkedGroups) (hrows : endOf g₀.chunkedGroups ≤ numRows)
    (hblock : ∀ i b₀ c, g₀.chunkedGroups[i]? = some b₀ → cs[i]? = some c →
      ChunkedNodeGroup.Kept t (D i) (M i) (Q i) b₀ c)
    (hkept : ∀ (i : Nat) (b₀ : ChunkedNodeGroup α), g₀.chunkedGroups[i]? = some b₀ → 0 < b₀.numRows →
      ∃ c, cs[i]? = some c) :
    Kept t D M Q g₀ { g with
      chunkedGroups := cs.rdropWhile (·.isEmpty), numRows := numRows, nextRowToAppend := next } where
  laid := by
    cases hcs : cs with
    | nil => simpa using WellLaid.nil
    | cons first rest => exact (hcs ▸ hlaid).rdropWhile_isEmpty.1
  generations := h.generations
  counted := hrows
  first := firstRow_rdropWhile.trans hfirst
  block hb₀ hc := hblock _ _ _ hb₀ (getElem?_of_rdropWhile hc)
  kept {i b₀} hb₀ hpos := by
    obtain ⟨c, hc⟩ := hkept i b₀ hb₀ hpos
    have hle := (hblock i b₀ c hb₀ hc).rows
    exact ⟨c, rdropWhile_getElem? hc (by simp [ChunkedNodeGroup.isEmpty]; omega)⟩

theorem endOf_rdropWhile_le (h : WellLaid cs) : endOf (cs.rdropWhile (·.isEmpty)) ≤ endOf cs := by
  cases hcs : cs with
  | nil => simp
  | cons first rest =>
    rcases (hcs ▸ h).rdropWhile_isEmpty.2 with ⟨hnil, -⟩ | hsame
    · rw [hnil]
      exact Nat.zero_le _
    · exact hsame.le

theorem rollbackRange (h : Kept t D M Q g₀ g) (h₀ : Settled t g₀) (ht : t ≠ invalidTransaction)
    (hstart : endOf g₀.chunkedGroups ≤ start) (hend : endOf g.chunkedGroups ≤ start + n) :
    Kept t D M Q g₀ (g.rollbackRange start n) ∧ endOf (g.rollbackRange start n).chunkedGroups ≤ start := by
  obtain ⟨bs, hbs⟩ := applyFuncToChunkedGroups_frame (g := g) ChunkedNodeGroup.rollbackInsert start n
  have hres : ∀ cs, (g.rollbackRange start n).chunkedGroups = cs → g.rollbackRange start n =
      { g with chunkedGroups := cs, numRows := start, nextRowToAppend := start } := by
    simp [NodeGroup.rollbackRange, NodeGroup.rollbackInsert, hbs]
  rcases Nat.lt_or_ge start (endOf g.chunkedGroups) with hlt | hge
  · have hne : g.chunkedGroups ≠ [] := by
      intro hnil
      rw [hnil] at hlt
      simp [endOf] at hlt
    obtain ⟨i, b, k, hb, hk, hrow, hblocks⟩ := rollbackInsert_blocks start n h.laid hne (fun first hf => by
        have hle := h.first
        rw [firstRow, head?_eq_getElem?, hf] at hle
        exact hle.trans hstart) hlt.le hend
    obtain ⟨hwell, hends⟩ := h.laid.truncateAt hb hk
    rw [hres _ hblocks]
    refine ⟨h.of_rdropWhile hwell ?_ hstart (fun j b₀ c hb₀ hc => ?_) (fun j b₀ hb₀ hpos => ?_),
      (endOf_rdropWhile_le hwell).trans (hends.trans hrow.symm).le⟩
    · rw [firstRow_truncateAt hb]
      exact h.first
    · rw [getElem?_truncateAt hb] at hc
      split_ifs at hc with hj hj
      · exact h.block hb₀ hc
      · subst hj
        cases hc
        have hkept := h.block hb₀ hb
        have hle := h₀.laid.blocks.layout.endOf_le hb₀
        have hs := hkept.start
        exact hkept.rollbackInsert ht (h₀.sound hb₀).data (h₀.present hb₀) (by omega) (by omega) (h.cap hb₀ hb)
    · obtain ⟨c, hc⟩ := h.kept hb₀ hpos
      have hle := h₀.laid.blocks.layout.endOf_le hb₀
      have hs := (h.block hb₀ hc).start
      rw [getElem?_truncateAt hb]
      rcases Nat.lt_trichotomy j i with hj | rfl | hj
      · exact ⟨c, by rw [if_pos hj, hc]⟩
      · exact ⟨_, by rw [if_neg (lt_irrefl _), if_pos rfl]⟩
      · have := h.laid.end_le_start hb hc hj
        omega
  · have happly := applyFuncToChunkedGroups_rollbackInsert_of_le (n := n) h.laid hge
    have hblocks : (g.rollbackRange start n).chunkedGroups = g.chunkedGroups.rdropWhile (·.isEmpty) := by
      simp only [NodeGroup.rollbackRange, NodeGroup.rollbackInsert, happly]
    rw [hres _ hblocks]
    exact ⟨h.of_rdropWhile h.laid h.first hstart (fun _ _ _ => h.block) (fun _ _ => h.kept),
      (endOf_rdropWhile_le h.laid).trans hge⟩

section Edits

variable {u columnID vectorIdx : Nat} (h : Kept t D M Q g₀ g)

include h

theorem find (hb₀ : g₀.chunkedGroups[i]? = some b₀) (hb : g.chunkedGroups[i]? = some b) (hk : k < b₀.numRows) :
    findChunkedGroupIdx g.chunkedGroups (b₀.startRowIdx + k) = some (i, k) := by
  rw [← (h.block hb₀ hb).start]
  exact h.laid.layout.find_of_mem hb (hk.trans_le (h.block hb₀ hb).rows)

variable (hother : ∀ i b₀, g₀.chunkedGroups[i]? = some b₀ → ∀ k < b₀.numRows, b₀.startRowIdx + k ≠ row →
    ∀ d, D i k d → D' i k d)

include hother

theorem delete (hu : u ≠ invalidTransaction) (hd : g.delete u row = .ok r)
    (hnew : ∀ i b₀, g₀.chunkedGroups[i]? = some b₀ → ∀ k < b₀.numRows, b₀.startRowIdx + k = row →
      ∀ d, D i k d → d = u ∨ d = invalidTransaction → D' i k u)
    (hM : ∀ i b₀, g₀.chunkedGroups[i]? = some b₀ → ∀ k < b₀.numRows, b₀.startRowIdx + k ≠ row →
      M' i k → M i k) : Kept t D' M' Q g₀ r.1 := by
  refine h.of_sameRows (delete_sameRows hd) fun i b₀ b b' hb₀ hb hb' hkept => ?_
  have hs := hkept.start
  have hrows := hkept.rows
  rcases delete_block hd h.laid hb hb' with ⟨k, w, hrow, hw, rfl, -⟩ | ⟨rfl, hne⟩
  · refine hkept.delete hu hw (fun hk hold => ?_) (fun j hj hne => ?_) (fun j hj hne => ?_)
    · exact hnew i b₀ hb₀ k hk (by omega) _ (hkept.deletion k hk) hold
    · exact hother i b₀ hb₀ j hj (by omega)
    · exact hM i b₀ hb₀ j hj (by omega)
  · have hne : ∀ j < b₀.numRows, b₀.startRowIdx + j ≠ row := fun j hj he =>
      hne j (by omega) (by omega)
    exact hkept.mono (fun j hj => hother i b₀ hb₀ j hj (hne j hj))
      (fun j hj => hM i b₀ hb₀ j hj (hne j hj)) fun _ _ _ => id

theorem editDeletion {F : VectorVersionInfo → Nat → Nat → VectorVersionInfo} (hF : VectorVersionInfo.EditsDeletion F)
    (hmark : ∀ i b₀, g₀.chunkedGroups[i]? = some b₀ → ∀ k < b₀.numRows, b₀.startRowIdx + k = row → M i k)
    (hnew : ∀ i b₀, g₀.chunkedGroups[i]? = some b₀ → ∀ k < b₀.numRows, b₀.startRowIdx + k = row →
      ∀ v, v.Deletable → D' i k ((F v (k % vectorCapacity) 1).deletion (k % vectorCapacity)))
    (hM : ∀ i b₀, g₀.chunkedGroups[i]? = some b₀ → ∀ k < b₀.numRows, M' i k → M i k) :
    Kept t D' M' Q g₀ (g.applyFuncToChunkedGroups (ChunkedNodeGroup.onVersions F) row 1) := by
  refine h.of_sameRows (applyFuncToChunkedGroups_sameRows fun _ _ _ => rfl) fun i b₀ b b' hb₀ hb hb' hkept => ?_
  rw [applyFuncToChunkedGroups_one h.laid (fun _ _ => ChunkedNodeGroup.onVersions_zero) hb] at hb'
  cases hb'
  have hs := hkept.start
  have hrows := hkept.rows
  split_ifs with hin
  · refine hkept.editDeletion hF (by omega) (h.cap hb₀ hb) (fun hk => ?_) (fun v hv hk => ?_)
      (fun j hj hne => ?_) (hM i b₀ hb₀)
    · exact hmark i b₀ hb₀ _ hk (by omega)
    · exact hnew i b₀ hb₀ _ hk (by omega) v hv
    · exact hother i b₀ hb₀ j hj (by omega)
  · exact hkept.mono (fun j hj => hother i b₀ hb₀ j hj (by omega)) (hM i b₀ hb₀) fun _ _ _ => id

omit hother in
theorem commitDelete (hmark : ∀ i b₀, g₀.chunkedGroups[i]? = some b₀ → ∀ k < b₀.numRows, b₀.startRowIdx + k = row →
      M i k ∧ ∀ d, D i k d) :
    Kept t D M Q g₀ (g.applyFuncToChunkedGroups (·.commitDelete commitTS) row 1) :=
  h.editDeletion (fun _ _ _ _ _ _ _ => id) editsDeletion_commit (fun i b₀ hb₀ k hk hrow => (hmark i b₀ hb₀ k hk hrow).1)
    (fun i b₀ hb₀ k hk hrow _ _ => (hmark i b₀ hb₀ k hk hrow).2 _) (fun _ _ _ _ _ => id)

theorem rollbackDelete (hmark : ∀ i b₀, g₀.chunkedGroups[i]? = some b₀ → ∀ k < b₀.numRows, b₀.startRowIdx + k = row →
      M i k ∧ D' i k invalidTransaction)
    (hM : ∀ i b₀, g₀.chunkedGroups[i]? = some b₀ → ∀ k < b₀.numRows, M' i k → M i k) :
    Kept t D' M' Q g₀ (g.applyFuncToChunkedGroups (·.rollbackDelete) row 1) := by
  refine h.editDeletion hother editsDeletion_rollback
    (fun i b₀ hb₀ k hk hrow => (hmark i b₀ hb₀ k hk hrow).1) (fun i b₀ hb₀ k hk hrow v hv => ?_) hM
  rw [rollbackDeletions_deletion hv (Nat.mod_lt _ (by decide)), if_pos (by omega)]
  exact (hmark i b₀ hb₀ k hk hrow).2

omit hother

theorem setChain {idx : Nat} {chain : List (VectorUpdateInfo α)} (hs : SameRows g g')
    (hc : g.chunkedGroups[idx]? = some c)
    (hg' : g'.chunkedGroups = g.chunkedGroups.set idx (c.setColumn columnID { c.columns columnID with
      updateInfo := (c.columns columnID).updateInfo.setChain vectorIdx chain }))
    (hother : ∀ i column v, ¬ (i = idx ∧ column = columnID ∧ v = vectorIdx) → ∀ chain,
      Q i column v chain → Q' i column v chain)
    (hnew : ∀ b₀, g₀.chunkedGroups[idx]? = some b₀ → Q idx columnID vectorIdx (c.chain columnID vectorIdx) →
      Q' idx columnID vectorIdx chain) :
    Kept t D M Q' g₀ g' := by
  refine h.of_sameRows hs fun i b₀ b b' hb₀ hb hb' hkept => ?_
  rw [hg'] at hb'
  rcases getElem?_set_eq_some hb' with ⟨rfl, rfl⟩ | ⟨hi, hold⟩
  · cases hb.symm.trans hc
    refine hkept.setUpdates (fun column v hne => hother i column v (by simp [hne])) fun v => ?_
    by_cases hv : v = vectorIdx
    · subst hv
      simpa [UpdateInfo.setChain] using hnew b₀ hb₀ (hkept.chain columnID v)
    · simpa [UpdateInfo.setChain, hv, ChunkedNodeGroup.chain] using
        hother i columnID v (by simp [hv]) _ (hkept.chain columnID v)
  · cases hb.symm.trans hold
    exact hkept.mono (fun _ _ _ => id) (fun _ _ => id) fun column v => hother i column v (by simp [hi])

end Edits

section Append

variable {news : List (Nat → α)} (hlen : g₀.chunkedGroups.length ≤ g.chunkedGroups.length)

include hlen

section

variable (h : Kept t D M Q g₀ g)

include h

theorem concat (hlaid : WellLaid (g.chunkedGroups ++ [c]))
    (hfirst : firstRow (g.chunkedGroups ++ [c]) ≤ endOf g₀.chunkedGroups) :
    Kept t D M Q g₀ (g.appendGroup c) where
  laid := hlaid
  generations := h.generations
  counted := h.counted
  first := hfirst
  block {i b₀ b} hb₀ hb := by
    have hi : i < g.chunkedGroups.length := (List.getElem?_eq_some_iff.mp hb₀).1.trans_le hlen
    rw [appendGroup, getElem?_append_left hi] at hb
    exact h.block hb₀ hb
  kept {i b₀} hb₀ hpos := by
    obtain ⟨b, hb⟩ := h.kept hb₀ hpos
    exact ⟨b, by rw [appendGroup, List.getElem?_append_left (List.getElem?_eq_some_iff.mp hb).1, hb]⟩

theorem openFirst (hlaid : WellLaid g.openFirst.chunkedGroups) :
    Kept t D M Q g₀ g.openFirst := by
  unfold NodeGroup.openFirst at hlaid ⊢
  cases hbs : g.chunkedGroups with
  | nil =>
    simp only [hbs] at hlaid ⊢
    exact h.concat hlen hlaid (by simp [hbs, firstRow, newChunkedGroup])
  | cons first rest => simpa using h

theorem openChunkedGroup (hne : g.chunkedGroups ≠ [])
    (hlaid : WellLaid (g.openChunkedGroup n).chunkedGroups) : Kept t D M Q g₀ (g.openChunkedGroup n) := by
  have hfirst := (firstRow_openChunkedGroup (n := n) hne).le.trans h.first
  unfold NodeGroup.openChunkedGroup at hlaid hfirst ⊢
  cases hlast : g.chunkedGroups.getLast? with
  | none => exact absurd (getLast?_eq_none_iff.mp hlast) hne
  | some b =>
    simp only [hlast] at hlaid hfirst ⊢
    cases hfull : b.isFullOrOnDisk with
    | false => simpa using h
    | true =>
      simp only [hfull] at hlaid hfirst ⊢
      exact h.concat hlen hlaid hfirst

omit hlen in
theorem appendToLast (ht : t ≠ invalidTransaction) (hroom : g.HasRoom)
    (hne : news ≠ []) (hnews : news.length ≤ g.numToCopyIntoChunk)
    (hlaid : WellLaid (g.appendToLast t news).chunkedGroups) : Kept t D M Q g₀ (g.appendToLast t news) := by
  obtain ⟨b, hb, hopen, hlt⟩ := hroom
  have hfirst := (firstRow_appendToLast (g := g) (t := t) news).le.trans h.first
  simp only [numToCopyIntoChunk, hb] at hnews
  unfold NodeGroup.appendToLast at hlaid hfirst ⊢
  simp only [hb] at hlaid hfirst ⊢
  have hbs := eq_dropLast_append hb
  refine ⟨hlaid, h.generations, h.counted, hfirst, fun {i b₀ c} hb₀ hc => ?_, fun {i b₀} hb₀ hpos => ?_⟩
  · rcases getElem?_concat_swap b hc with hold | ⟨hold, -, rfl⟩ <;> rw [← hbs] at hold
    · exact h.block hb₀ hold
    · exact (h.block hb₀ hold).append ht hopen hne (by have := hopen.bound; omega)
  · obtain ⟨c, hc⟩ := h.kept hb₀ hpos
    have hi : i < (g.chunkedGroups.dropLast ++ [b.append t news]).length := by
      have hi := (List.getElem?_eq_some_iff.mp hc).1
      rw [hbs] at hi
      simpa using hi
    exact ⟨_, getElem?_eq_getElem hi⟩

theorem append (ht : t ≠ invalidTransaction) (hg : g.Laid) (rows : List (Nat → α)) :
    Triple (g = ·) (NodeGroup.append t rows)
      (fun g' => (Kept t D M Q g₀ g' ∧ g₀.chunkedGroups.length ≤ g'.chunkedGroups.length) ∧
        WellLaid g'.chunkedGroups ∧ endOf g'.chunkedGroups ≤ g.numRows + rows.length)
      (fun g' => (Kept t D M Q g₀ g' ∧ g₀.chunkedGroups.length ≤ g'.chunkedGroups.length) ∧
        Appended rows.length g g') := by
  refine append_triple hg rows ⟨h.openFirst hlen hg.openFirst.blocks, ?_⟩ ?_ ?_ ?_
  · unfold NodeGroup.openFirst
    split_ifs
    · exact hlen.trans (by simp [appendGroup])
    · exact hlen
  · rintro g' n hlaid ⟨hkept, hlen⟩ hlaid'
    refine ⟨hkept.openChunkedGroup hlen hlaid.nonempty hlaid'.blocks, hlen.trans ?_⟩
    unfold NodeGroup.openChunkedGroup
    cases g'.chunkedGroups.getLast? with
    | none => simp [appendGroup]
    | some b => cases hb : b.isFullOrOnDisk <;> simp [appendGroup, hb]
  · rintro g' n news ⟨hkept, hlen⟩ hroom hne hnews hlaid
    refine ⟨hkept.appendToLast ht hroom hne hnews hlaid.blocks, hlen.trans ?_⟩
    obtain ⟨b, hb, -⟩ := hroom
    simp only [NodeGroup.appendToLast, hb, length_append, length_dropLast, length_singleton]
    omega
  · rintro g' ⟨hkept, hlen⟩
    exact ⟨{ hkept with counted := hkept.counted.trans (Nat.le_add_right _ _) }, hlen⟩

end

end Append

end Kept

end NodeGroup

end Rag3db.Storage
