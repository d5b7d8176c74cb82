import Rag3db.Storage.BlockLayout
import Rag3db.Storage.BlockRows

open List

namespace Rag3db.Storage

open Library.Interruptible NodeGroup Triple

variable {α : Type} {bs : List (ChunkedNodeGroup α)} {b last : ChunkedNodeGroup α} {g : NodeGroup α}
  {t before n : Nat} {news rows : List (Nat → α)}

/-- A block in memory that takes rows as long as it has room. -/
structure ChunkedNodeGroup.Open (b : ChunkedNodeGroup α) : Prop where
  inMemory : b.residencyState = .inMemory
  capacity : b.capacity = chunkedNodeGroupCapacity
  unsealed : b.isSealed = false
  bound : b.numRows ≤ chunkedNodeGroupCapacity

/-- The blocks of a group to which rows can be appended: only the first can be
on disk. -/
structure WellLaid (bs : List (ChunkedNodeGroup α)) : Prop where
  layout : Layout bs
  first : ∀ {b}, bs[0]? = some b → b.residencyState = .onDisk ∨ b.Open ∧ b.startRowIdx = 0
  open_succ : ∀ {i b}, bs[i + 1]? = some b → b.Open

theorem open_new (start : Nat) : (newChunkedGroup start : ChunkedNodeGroup α).Open :=
  ⟨rfl, rfl, rfl, Nat.zero_le _⟩

theorem WellLaid.nil : WellLaid ([] : List (ChunkedNodeGroup α)) := ⟨layout_nil, by simp, by simp⟩

theorem ChunkedNodeGroup.Open.isFullOrOnDisk (h : b.Open) :
    b.isFullOrOnDisk = true ↔ b.numRows = chunkedNodeGroupCapacity := by
  simp [ChunkedNodeGroup.isFullOrOnDisk, h.capacity, h.unsealed, h.inMemory]

theorem layout_concat (h : Layout bs) (hne : bs ≠ []) (hstart : b.startRowIdx = endOf bs)
    (hbound : b.numRows ≤ chunkedNodeGroupCapacity)
    (hfull : ∀ {i b}, bs[i + 1]? = some b → i + 2 = bs.length → b.numRows = chunkedNodeGroupCapacity) :
    Layout (bs ++ [b]) := by
  obtain ⟨first, rest, rfl⟩ := exists_cons_of_ne_nil hne
  refine ⟨fun {f c r i} he hc => ?_, fun {f c r i} he hc hi => ?_, fun {f c r i} he hc => ?_⟩ <;>
    obtain ⟨rfl, rfl⟩ := List.cons.inj ((cons_append ..).symm.trans he)
  · rcases getElem?_concat_eq_some hc with hc | ⟨hi, rfl⟩
    · exact h.start rfl hc
    · rw [hstart, hi]
      rcases eq_nil_or_concat rest with rfl | ⟨init, last, rfl⟩
      · simp [endOf]
      · rw [concat_eq_append] at *
        have hlast : (init ++ [last])[init.length]? = some last := by simp
        have hlfull : last.numRows = chunkedNodeGroupCapacity :=
          hfull (i := init.length) (by simp) (by simp)
        rw [h.endOf_eq hlast (by simp), length_append, length_singleton, Nat.add_mul]
        omega
  · rcases Nat.lt_or_ge (i + 1) rest.length with hlt | hge
    · rw [getElem?_append_left (by omega)] at hc
      exact h.full rfl hc hlt
    · have hi' : i + 1 = rest.length := by
        simp only [length_append, length_singleton] at hi
        omega
      rw [getElem?_append_left (by omega)] at hc
      exact hfull (by simpa using hc) (by simp; omega)
  · rcases getElem?_concat_eq_some hc with hc | ⟨-, rfl⟩
    · exact h.bound rfl hc
    · exact hbound

variable {init : List (ChunkedNodeGroup α)}

theorem layout_last {b' : ChunkedNodeGroup α} (h : Layout (init ++ [b])) (hstart : b'.startRowIdx = b.startRowIdx)
    (hbound : init ≠ [] → b'.numRows ≤ chunkedNodeGroupCapacity) : Layout (init ++ [b']) := by
  cases init with
  | nil => exact layout_single
  | cons first rest =>
    refine ⟨fun {f c r i} he hc => ?_, fun {f c r i} he hc hi => ?_, fun {f c r i} he hc => ?_⟩ <;>
      obtain ⟨rfl, rfl⟩ := List.cons.inj ((cons_append ..).symm.trans he)
    · rcases getElem?_concat_swap b hc with hc | ⟨hb, -, rfl⟩
      · exact h.start rfl hc
      · exact hstart.trans (h.start rfl hb)
    · rcases getElem?_concat_swap b hc with hc | ⟨-, rfl, -⟩
      · exact h.full rfl hc (by simpa using hi)
      · simp at hi
    · rcases getElem?_concat_swap b hc with hc | ⟨-, -, rfl⟩
      · exact h.bound rfl hc
      · exact hbound (by simp)

namespace WellLaid

theorem of_getLast? (h : WellLaid bs) (hlast : bs.getLast? = some last) :
    last.residencyState = .onDisk ∧ bs.length = 1 ∨ last.Open := by
  rw [getLast?_eq_getElem?] at hlast
  have hlt : bs.length - 1 < bs.length := (List.getElem?_eq_some_iff.mp hlast).1
  cases hi : bs.length - 1 with
  | zero =>
    rw [hi] at hlast
    exact (h.first hlast).imp (fun hd => ⟨hd, by omega⟩) And.left
  | succ i =>
    rw [hi] at hlast
    exact .inr (h.open_succ hlast)

theorem single (start : Nat) (h : start = 0) : WellLaid [(newChunkedGroup start : ChunkedNodeGroup α)] where
  layout := layout_single
  first := by
    rintro b hb
    obtain rfl : newChunkedGroup start = b := by simpa using hb
    exact .inr ⟨open_new start, h⟩
  open_succ := by simp

theorem concat (h : WellLaid bs) (hlast : bs.getLast? = some last) (hfull : last.isFullOrOnDisk = true) :
    WellLaid (bs ++ [newChunkedGroup (endOf bs)]) where
  layout := by
    refine layout_concat h.layout (by rintro rfl; simp at hlast) rfl (Nat.zero_le _) fun {i b} hb hi => ?_
    have hb' : bs.getLast? = some b := by
      rw [getLast?_eq_getElem?, ← hi]
      exact hb
    cases hlast.symm.trans hb'
    exact (h.open_succ hb).isFullOrOnDisk.mp hfull
  first := by
    rintro b hb
    rw [getElem?_append_left (by
      rw [length_pos_iff]
      rintro rfl
      simp at hlast)] at hb
    exact h.first hb
  open_succ := by
    rintro i b hb
    rcases getElem?_concat_eq_some hb with hb | ⟨-, rfl⟩
    · exact h.open_succ hb
    · exact open_new _

theorem last_of_open {b' : ChunkedNodeGroup α} (h : WellLaid (init ++ [b])) (hopen : b'.Open)
    (hstart : b'.startRowIdx = b.startRowIdx) (hmem : b.Open) : WellLaid (init ++ [b']) where
  layout := layout_last h.layout hstart fun _ => hopen.bound
  first := by
    rintro c hc
    cases init with
    | nil =>
      obtain rfl : b' = c := by simpa using hc
      rcases h.first rfl with hd | ⟨-, hz⟩
      · simp [hmem.inMemory] at hd
      · exact .inr ⟨hopen, hstart.trans hz⟩
    | cons first rest => exact h.first hc
  open_succ := by
    rintro i c hc
    rcases getElem?_concat_swap b hc with hc | ⟨-, -, rfl⟩
    · exact h.open_succ hc
    · exact hopen

end WellLaid

theorem eq_dropLast_append (h : bs.getLast? = some last) : bs = bs.dropLast ++ [last] := by
  obtain ⟨init, rfl⟩ := getLast?_eq_some_iff.mp h
  simp

namespace NodeGroup

/-- The loop of `append`: `J` holds before each turn and `K` between opening a
block and filling it. -/
theorem appendRows_triple {J K : Nat → List (Nat → α) → NodeGroup α → Prop} {I : NodeGroup α → Prop}
    (hopen : ∀ a rows g, rows ≠ [] → J a rows g → K a rows (g.openChunkedGroup (before + a)))
    (hcopy : ∀ a rows g, rows ≠ [] → K a rows g → 0 < g.numToCopyIntoChunk ∧
      J (a + (rows.take g.numToCopyIntoChunk).length) (rows.drop (rows.take g.numToCopyIntoChunk).length)
        (g.appendToLast t (rows.take g.numToCopyIntoChunk)))
    (hJ : ∀ a rows g, J a rows g → I g) (hK : ∀ a rows g, K a rows g → I g) (fuel a : Nat)
    (rows : List (Nat → α)) (hfuel : rows.length ≤ fuel) :
    Triple (J a rows) (appendRows t before fuel a rows) I (J (a + rows.length) []) := by
  induction fuel generalizing a rows with
  | zero =>
    obtain rfl : rows = [] := by simpa using hfuel
    exact skip
  | succ fuel ih =>
    unfold appendRows
    cases rows with
    | nil => exact skip
    | cons row rest =>
      simp only [isEmpty_cons, Bool.false_eq_true, if_false]
      refine (step (fun g hg => hK _ _ _ (hopen a _ g (by simp) hg))
        fun g hg => hopen a _ g (by simp) hg).andThen (read fun g hg => ?_)
      obtain ⟨hpos, hnext⟩ := hcopy a _ g (by simp) hg
      have hlen : ((row :: rest).take g.numToCopyIntoChunk).length ≤ (row :: rest).length :=
        length_take_le' ..
      have hlen' : 0 < ((row :: rest).take g.numToCopyIntoChunk).length := by
        rw [length_take, length_cons]
        omega
      have hrest := ih (a + ((row :: rest).take g.numToCopyIntoChunk).length)
        ((row :: rest).drop ((row :: rest).take g.numToCopyIntoChunk).length)
        (by rw [length_drop]; omega)
      rw [length_drop, Nat.add_assoc, Nat.add_sub_cancel' hlen] at hrest
      refine andThen (step ?_ ?_) hrest
      · rintro _ rfl
        exact hJ _ _ _ hnext
      · rintro _ rfl
        exact hnext

/-- The blocks end at row `n`. -/
structure LaidTo (n : Nat) (g : NodeGroup α) : Prop where
  blocks : WellLaid g.chunkedGroups
  endOf : endOf g.chunkedGroups = n
  nonempty : g.chunkedGroups ≠ []

def HasRoom (g : NodeGroup α) : Prop :=
  ∃ b, g.chunkedGroups.getLast? = some b ∧ b.Open ∧ b.numRows < chunkedNodeGroupCapacity

theorem LaidTo.exists_last (h : LaidTo n g) : ∃ b, g.chunkedGroups.getLast? = some b :=
  ⟨_, getLast?_eq_some_getLast h.nonempty⟩

theorem openChunkedGroup_laidTo (h : LaidTo n g) :
    LaidTo n (g.openChunkedGroup n) ∧ (g.openChunkedGroup n).HasRoom := by
  obtain ⟨b, hb⟩ := h.exists_last
  unfold openChunkedGroup
  simp only [hb]
  by_cases hfull : b.isFullOrOnDisk = true
  · rw [if_pos hfull]
    refine ⟨⟨?_, ?_, by simp [appendGroup]⟩, _, by simp [appendGroup], open_new n, capacity_pos⟩
    · rw [← h.endOf]
      exact h.blocks.concat hb hfull
    · rw [appendGroup, endOf_append]
      rfl
  · rw [if_neg hfull]
    refine ⟨h, b, hb, ?_⟩
    rcases h.blocks.of_getLast? hb with ⟨hdisk, -⟩ | hopen
    · simp [ChunkedNodeGroup.isFullOrOnDisk, hdisk] at hfull
    · rw [hopen.isFullOrOnDisk] at hfull
      exact ⟨hopen, Nat.lt_of_le_of_ne hopen.bound hfull⟩

theorem appendToLast_laidTo (h : LaidTo n g) (hroom : g.HasRoom)
    (hlen : news.length ≤ g.numToCopyIntoChunk) : LaidTo (n + news.length) (g.appendToLast t news) := by
  obtain ⟨b, hb, hopen, hlt⟩ := hroom
  simp only [numToCopyIntoChunk, hb] at hlen
  unfold appendToLast
  simp only [hb]
  have happ : b.append t news = _ := ChunkedNodeGroup.append_of_room (by rw [hopen.capacity]; omega)
  have hend := h.endOf
  simp only [Storage.endOf, hb] at hend
  refine ⟨?_, ?_, by simp⟩
  · have hblocks := h.blocks
    rw [eq_dropLast_append hb] at hblocks
    refine hblocks.last_of_open ?_ (by rw [happ]) hopen
    rw [happ]
    exact ⟨hopen.inMemory, hopen.capacity, hopen.unsealed, by simp only; omega⟩
  · rw [endOf_append, happ]
    simp only
    omega

def OnlyBlocks (g g' : NodeGroup α) : Prop := ∃ bs, g' = { g with chunkedGroups := bs }

theorem OnlyBlocks.trans {g' g'' : NodeGroup α} (h : OnlyBlocks g g') (h' : OnlyBlocks g' g'') : OnlyBlocks g g'' := by
  obtain ⟨bs, rfl⟩ := h
  obtain ⟨bs', rfl⟩ := h'
  exact ⟨bs', rfl⟩

theorem onlyBlocks_openFirst : OnlyBlocks g g.openFirst := by
  unfold openFirst
  split_ifs
  · exact ⟨_, rfl⟩
  · exact ⟨_, rfl⟩

theorem onlyBlocks_openChunkedGroup : OnlyBlocks g (g.openChunkedGroup n) := by
  unfold openChunkedGroup
  cases g.chunkedGroups.getLast? with
  | none => exact ⟨_, rfl⟩
  | some b =>
    cases hb : b.isFullOrOnDisk with
    | false => exact ⟨g.chunkedGroups, by simp [hb]⟩
    | true => exact ⟨g.chunkedGroups ++ [newChunkedGroup n], by simp [hb, appendGroup]⟩

theorem onlyBlocks_appendToLast : OnlyBlocks g (g.appendToLast t news) := by
  unfold appendToLast
  cases g.chunkedGroups.getLast? with
  | none => exact ⟨_, rfl⟩
  | some b => exact ⟨_, rfl⟩

/-- The blocks of a group hold the rows it counts. -/
structure Laid (g : NodeGroup α) : Prop where
  blocks : WellLaid g.chunkedGroups
  endOf : endOf g.chunkedGroups = g.numRows

theorem Laid.openFirst (h : Laid g) : LaidTo g.numRows g.openFirst := by
  unfold NodeGroup.openFirst
  cases hbs : g.chunkedGroups with
  | nil =>
    have hzero : g.numRows = 0 := by simpa [hbs, Storage.endOf] using h.endOf.symm
    refine ⟨?_, ?_, by simp [appendGroup]⟩
    · simpa [appendGroup, hbs] using WellLaid.single 0 rfl
    · simp [appendGroup, Storage.endOf, newChunkedGroup, hzero]
  | cons first rest => exact ⟨h.blocks, h.endOf, by simp [hbs]⟩

theorem firstRow_openFirst : firstRow g.openFirst.chunkedGroups = firstRow g.chunkedGroups := by
  unfold openFirst
  cases hbs : g.chunkedGroups with
  | nil => simp [appendGroup, hbs, firstRow, newChunkedGroup]
  | cons first rest => simp [hbs]

theorem firstRow_openChunkedGroup (hne : g.chunkedGroups ≠ []) :
    firstRow (g.openChunkedGroup n).chunkedGroups = firstRow g.chunkedGroups := by
  obtain ⟨first, rest, hbs⟩ := exists_cons_of_ne_nil hne
  unfold openChunkedGroup
  cases g.chunkedGroups.getLast? with
  | none => simp [appendGroup, firstRow, hbs]
  | some b => cases hb : b.isFullOrOnDisk <;> simp [appendGroup, firstRow, hbs, hb]

theorem firstRow_appendToLast (news : List (Nat → α)) :
    firstRow (g.appendToLast t news).chunkedGroups = firstRow g.chunkedGroups := by
  unfold appendToLast
  cases hb : g.chunkedGroups.getLast? with
  | none => rfl
  | some b =>
    have hbs := eq_dropLast_append hb
    rw [hbs, dropLast_concat]
    cases g.chunkedGroups.dropLast with
    | nil => rfl
    | cons first rest => rfl

/-- The group counts `numRows` more rows, at its end. -/
structure Appended (numRows : Nat) (g g' : NodeGroup α) : Prop where
  laid : g'.Laid
  numRows : g'.numRows = g.numRows + numRows
  first : firstRow g'.chunkedGroups = firstRow g.chunkedGroups

theorem append_triple {X : NodeGroup α → Prop} (h : g.Laid) (rows : List (Nat → α)) (hfirst : X g.openFirst)
    (hopen : ∀ g' n, LaidTo n g' → X g' → LaidTo n (g'.openChunkedGroup n) → X (g'.openChunkedGroup n))
    (hcopy : ∀ g' n news, X g' → g'.HasRoom → news ≠ [] → news.length ≤ g'.numToCopyIntoChunk →
      LaidTo n (g'.appendToLast t news) → X (g'.appendToLast t news))
    (hcount : ∀ g', X g' → X { g' with numRows := g'.numRows + rows.length }) :
    Triple (g = ·) (append t rows) (fun g' => X g' ∧ WellLaid g'.chunkedGroups ∧
        endOf g'.chunkedGroups ≤ g.numRows + rows.length)
      (fun g' => X g' ∧ Appended rows.length g g') := by
  refine read (f := fun g => appendFrom t rows g.numRows) ?_
  rintro _ rfl
  let J := fun a (rest : List (Nat → α)) g' => (LaidTo (g.numRows + a) g' ∧ OnlyBlocks g g' ∧
    firstRow g'.chunkedGroups = firstRow g.chunkedGroups) ∧ a + rest.length = rows.length ∧ X g'
  have hJ : ∀ a rest g', J a rest g' → X g' ∧ WellLaid g'.chunkedGroups ∧
      endOf g'.chunkedGroups ≤ g.numRows + rows.length := by
    rintro a rest g' ⟨⟨hlaid, -⟩, hlen, hX⟩
    exact ⟨hX, hlaid.blocks, by rw [hlaid.endOf]; omega⟩
  have hzero : J 0 rows g.openFirst :=
    ⟨⟨h.openFirst, onlyBlocks_openFirst, firstRow_openFirst⟩, Nat.zero_add _, hfirst⟩
  refine (step ?_ ?_).andThen ((appendRows_triple (K := fun a rest g' => J a rest g' ∧ g'.HasRoom)
      ?_ ?_ hJ (fun a rest g' hK => hJ a rest g' hK.1) rows.length 0 rows le_rfl).andThen (step ?_ ?_))
  · rintro _ rfl
    exact hJ _ _ _ hzero
  · rintro _ rfl
    exact hzero
  · rintro a rest g' - ⟨⟨hlaid, hframe, hrow⟩, hlen, hX⟩
    obtain ⟨hlaid', hroom⟩ := openChunkedGroup_laidTo hlaid
    exact ⟨⟨⟨hlaid', hframe.trans onlyBlocks_openChunkedGroup,
      (firstRow_openChunkedGroup hlaid.nonempty).trans hrow⟩, hlen, hopen g' _ hlaid hX hlaid'⟩, hroom⟩
  · rintro a rest g' hne ⟨⟨⟨hlaid, hframe, hrow⟩, hlen, hX⟩, hroom⟩
    have hpos : 0 < g'.numToCopyIntoChunk := by
      obtain ⟨b, hb, -, hlt⟩ := hroom
      simp only [numToCopyIntoChunk, hb]
      omega
    have hlaid' := appendToLast_laidTo (t := t) hlaid hroom (length_take_le g'.numToCopyIntoChunk rest)
    have htake : rest.take g'.numToCopyIntoChunk ≠ [] := by
      simpa using ⟨hpos.ne', hne⟩
    have hle : (rest.take g'.numToCopyIntoChunk).length ≤ rest.length := length_take_le' ..
    refine ⟨hpos, ⟨?_, hframe.trans onlyBlocks_appendToLast, (firstRow_appendToLast _).trans hrow⟩, ?_,
      hcopy g' _ _ hX hroom htake (length_take_le ..) hlaid'⟩
    · rw [← Nat.add_assoc]
      exact hlaid'
    · rw [length_drop]
      omega
  · rintro g' ⟨⟨hlaid, -, -⟩, -, hX⟩
    exact ⟨hcount g' hX, hlaid.blocks, by rw [hlaid.endOf]; omega⟩
  · rintro g' ⟨⟨hlaid, ⟨bs, rfl⟩, hrow⟩, -, hX⟩
    exact ⟨hcount _ hX, ⟨hlaid.blocks, by simpa using hlaid.endOf⟩, rfl, hrow⟩

theorem append_laid (h : g.Laid) (rows : List (Nat → α)) :
    Triple (g = ·) (append t rows) (fun _ => True) (Appended rows.length g) :=
  (append_triple (X := fun _ => True) h rows trivial (fun _ _ _ _ _ => trivial)
    (fun _ _ _ _ _ _ _ _ => trivial) fun _ _ => trivial).consequence (fun _ => id) (fun _ _ => trivial)
      fun _ => And.right

end NodeGroup

end Rag3db.Storage
