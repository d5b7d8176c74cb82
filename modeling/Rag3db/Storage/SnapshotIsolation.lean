import Rag3db.Storage.WriterSteps

namespace Rag3db.Storage

open Library.Transition

variable {α : Type} {init s s' : TableRun α} {x y : Writer α} {idx row offset column id : Nat} {a : Action α}

namespace TableRun

/-- A table that nobody uses, as a start or a checkpoint leaves it. -/
structure Quiet (s : TableRun α) : Prop where
  idle : s.active = []
  time : s.lastTimestamp < startTransactionId
  issued : startTransactionId ≤ s.lastTransactionID ∧ s.lastTransactionID < invalidTransaction
  sound : s.table.SoundBut ∅
  ordered : s.table.Ordered
  capacity : ∀ idx, (s.table.group idx).capacity = nodeGroupSize
  dated : ∀ {idx row : Nat} {c : Cell α}, s.table.cell idx row = some c → c.insertion ≤ s.lastTimestamp
  updates : s.table.Updates fun creator _ => creator ≤ s.lastTransactionID

theorem Quiet.inv (h : Quiet s) : Inv s := by
  refine ⟨⟨h.time, h.issued, by simp [h.idle], by simp [h.idle], by simp [h.idle]⟩, h.sound,
    fun hc => .inl (h.dated hc), fun idx => ?_, by simp [h.idle], by simp [h.idle], none, by simp [h.idle],
    _, _, h.ordered.unwinds h.sound h.capacity⟩
  exact NodeGroup.Chains.mono (h.updates idx) fun u hu => ⟨hu, by simp [h.idle]⟩

theorem inv_of_reachable (hinit : Quiet init) (h : Reachable (guarded careful step) init s) : Inv s :=
  h.invariant hinit.inv fun _ _ _ hi hs => (hi.step hs).1

def byOthers (id : Nat) (step : TableRun α → Action α → Option (TableRun α)) (s : TableRun α) (a : Action α) :
    Option (TableRun α) :=
  if Action.actor a = some id then none else step s a

theorem byOthers_eq_some {step : TableRun α → Action α → Option (TableRun α)}
    (hs : byOthers id step s a = some s') : Action.actor a ≠ some id ∧ step s a = some s' := by
  unfold byOthers at hs
  split_ifs at hs with ha
  exact ⟨ha, hs⟩

theorem Inv.step_other (h : Inv s) (hx : x ∈ s.active) (ha : Action.actor a ≠ some x.id)
    (hs : guarded careful TableRun.step s a = some s') (offset column : Nat) : x ∈ s'.active ∧
      s'.table.isSelected x.snapshot offset = s.table.isSelected x.snapshot offset ∧
      s'.table.lookup x.snapshot offset column = s.table.lookup x.snapshot offset column := by
  obtain ⟨hinv, ⟨htable, hmem⟩ | ⟨y, V, hactor, he⟩⟩ := h.step hs
  · rw [htable]
    exact ⟨hmem x hx ha, rfl, rfl⟩
  · have hid : x.id ≠ y.id := fun hid => ha (hid ▸ hactor)
    have hsees := (he.foreign x hx hid).sees
    have hT := fun idx => (h.sound idx).laid.layout
    have hT' := fun idx => (hinv.sound idx).laid.layout
    exact ⟨(he.others x hid).mpr hx, he.same.isSelected hT hT' hsees, he.same.lookup hT hT' hsees⟩

/-- Whatever the others do, a transaction that stays open goes on to see the rows
and the values that it saw, as long as they keep off the time between a commit
that has raised and its rollback. -/
theorem reads_unchanged (hinit : Quiet init) (h : Reachable (guarded careful step) init s) (hx : x ∈ s.active)
    (h' : Reachable (byOthers x.id (guarded careful step)) s s') :
    x ∈ s'.active ∧ ∀ offset, s'.table.isSelected x.snapshot offset = s.table.isSelected x.snapshot offset ∧
      ∀ column, s'.table.lookup x.snapshot offset column = s.table.lookup x.snapshot offset column := by
  have hrun : Inv s' ∧ x ∈ s'.active ∧ ∀ offset column,
      s'.table.isSelected x.snapshot offset = s.table.isSelected x.snapshot offset ∧
      s'.table.lookup x.snapshot offset column = s.table.lookup x.snapshot offset column := by
    refine h'.invariant (P := fun s' => Inv s' ∧ x ∈ s'.active ∧ ∀ offset column,
        s'.table.isSelected x.snapshot offset = s.table.isSelected x.snapshot offset ∧
        s'.table.lookup x.snapshot offset column = s.table.lookup x.snapshot offset column)
      ⟨inv_of_reachable hinit h, hx, fun _ _ => ⟨rfl, rfl⟩⟩ fun s₁ a s₂ hi hs => ?_
    obtain ⟨hinv, hmem, hsame⟩ := hi
    obtain ⟨ha, hs⟩ := byOthers_eq_some hs
    refine ⟨(hinv.step hs).1, (hinv.step_other hmem ha hs 0 0).1, fun offset column => ?_⟩
    obtain ⟨-, hsel, hlook⟩ := hinv.step_other hmem ha hs offset column
    exact ⟨hsel.trans (hsame offset column).1, hlook.trans (hsame offset column).2⟩
  exact ⟨hrun.2.1, fun offset => ⟨(hrun.2.2 offset 0).1, fun column => (hrun.2.2 offset column).2⟩⟩

/-- A rollback leaves the rows of the others, each at its offset and with its
deletion unless that is taken back, and nothing else. Whoever sees no version of
the transaction, as all the other open ones, reads on what it has read. -/
theorem rollback_leaves_others (hinit : Quiet init) (h : Reachable (guarded careful step) init s) (hx : x ∈ s.active) :
    (∀ idx row c, s.table.cell idx row = some c → c.insertion ∉ x.own →
      ∃ c', (s.rollback x).table.cell idx row = some c' ∧ c'.insertion = c.insertion ∧ c'.base = c.base ∧
        (c'.deletion = c.deletion ∨ c.deletion ∈ x.own ∧ c'.deletion = invalidTransaction)) ∧
      (∀ idx row c', (s.rollback x).table.cell idx row = some c' → c'.insertion ∉ x.own ∧
        ∃ c, s.table.cell idx row = some c ∧ c.insertion = c'.insertion) ∧
      (∀ r : Snapshot, (∀ v ∈ x.own, r.sees v = false) → ∀ offset,
        (s.rollback x).table.isSelected r offset = s.table.isSelected r offset ∧
        ∀ column, (s.rollback x).table.lookup r offset column = s.table.lookup r offset column) ∧
      ∀ y ∈ s.active, y.id ≠ x.id → ∀ v ∈ x.own, y.snapshot.sees v = false := by
  have hi := inv_of_reachable hinit h
  obtain ⟨hsound, hsame, -, hdel, hout, -⟩ := hi.rollback_table hx
  refine ⟨fun idx row c hc hins => ?_, fun idx row c' hc' => ?_, fun r hr offset => ?_, fun y hy hid v hv => ?_⟩
  · have hins' : c.insertion ∉ undone x := fun hm => hm.elim (hi.insertion_ne_invalid hc) hins
    obtain ⟨c', hc', he⟩ := cellAt_of_view_eq (hsame.view idx) hc hins'
    obtain ⟨hinsertion, -, hbase⟩ := Cell.of_without_eq he hins'
    refine ⟨c', hc', hinsertion, hbase, ?_⟩
    rcases hdel idx row c c' hc hc' (hout hc') with hd | hd
    · exact .inl hd
    · by_cases hown : c.deletion ∈ x.own
      · exact .inr ⟨hown, hd⟩
      · by_cases hne : c.deletion = invalidTransaction
        · exact .inl (hd.trans hne.symm)
        · exact .inl (Cell.deletion_of_without_eq he hins' (fun hm => hm.elim hne hown) hne)
  · have hins' := hout hc'
    obtain ⟨c, hc, he⟩ := cellAt_of_view_eq (hsame.view idx).symm hc' hins'
    exact ⟨fun hm => hins' (.inr hm), c, hc, (Cell.of_without_eq he hins').1⟩
  · have hsees : ∀ v ∈ undone x, r.sees v = false := by
      rintro v (rfl | hv)
      · exact r.sees_invalid
      · exact hr v hv
    have hT := fun idx => (hi.sound idx).laid.layout
    have hT' := fun idx => (hsound idx).laid.layout
    exact ⟨hsame.isSelected hT hT' hsees, fun column => hsame.lookup hT hT' hsees⟩
  · exact (hi.foreign_undone hx hy hid).sees v (.inr hv)

section Runs

def new : TableRun Nat := { table := {}, lastTimestamp := 1, lastTransactionID := startTransactionId }

theorem quiet_new : Quiet new where
  idle := rfl
  time := by decide
  issued := by decide
  sound _ := NodeGroup.soundBut_empty
  ordered := ⟨fun _ => rfl, fun idx hpos => absurd hpos (Nat.lt_irrefl 0), fun idx hi => absurd hi (Nat.not_lt_zero _)⟩
  capacity _ := rfl
  dated hc := by simp [NodeTable.cell, NodeTable.group, new, cellAt] at hc
  updates idx := by
    intro i b hb
    simp [NodeTable.group, new] at hb

def first : Nat := startTransactionId + 1

def second : Nat := startTransactionId + 2

def third : Nat := startTransactionId + 3

theorem exists_run {step : TableRun Nat → Action Nat → Option (TableRun Nat)} {as : List (Action Nat)}
    {p : TableRun Nat → Writer Nat → Bool}
    (h : (run step new as).any (fun s => (s.writer id).any fun x => p s x) = true) :
    ∃ s x, run step new as = some s ∧ s.writer id = some x ∧ p s x = true := by
  obtain ⟨s, hs, h⟩ := (Option.any_eq_true _ _).mp h
  obtain ⟨x, hx, h⟩ := (Option.any_eq_true _ _).mp h
  exact ⟨s, x, hs, hx, h⟩

def appendBehind : List (Action Nat) :=
  [.begin, .begin, .execute first (.insert fun _ => 7), .execute second (.insert fun _ => 8),
    .raiseAppending first 7, .commit second]

/-- The rollback of the first transaction takes away the row of the second. -/
theorem row_removed_by_rollback : ∃ s x, run step new appendBehind = some s ∧ s.writer first = some x ∧
      ((s.table.cell 0 1).map (·.insertion) = some 3 && ((s.rollback x).table.cell 0 1).isNone) = true :=
  exists_run (by decide +kernel)

def commitBefore : List (Action Nat) :=
  [.begin, .begin, .execute first (.insert fun _ => 7), .execute second (.insert fun _ => 8),
    .commit second, .begin, .raiseAppending first 7]

/-- The committed row of the second transaction stays, and the third reads on its
value; the row of the first one, behind it, goes. -/
theorem rollback_leaves_others_after_commit :
    ∃ s x y, run (guarded careful step) new commitBefore = some s ∧ s.writer first = some x ∧
      s.writer third = some y ∧ (s.table.cell 0 1).map (·.insertion) = some first ∧
      s.table.lookup y.snapshot 0 0 = some 8 ∧ (s.rollback x).table.lookup y.snapshot 0 0 = some 8 ∧
      ∀ c', (s.rollback x).table.cell 0 1 = some c' → c'.insertion ∉ x.own := by
  obtain ⟨s, x, hrun, hx, h⟩ : ∃ s x, run (guarded careful step) new commitBefore = some s ∧
      s.writer first = some x ∧ ((s.table.cell 0 1).map (·.insertion) = some first &&
        (s.writer third).any fun y => s.table.lookup y.snapshot 0 0 = some 8) = true :=
    exists_run (by decide +kernel)
  obtain ⟨hcell, h⟩ := (Bool.and_eq_true _ _).mp h
  obtain ⟨y, hy, h⟩ := (Option.any_eq_true _ _).mp h
  have hseen : s.table.lookup y.snapshot 0 0 = some 8 := of_decide_eq_true h
  obtain ⟨-, hleft, hread, hothers⟩ := rollback_leaves_others quiet_new (Reachable.init.run hrun) (writer_eq_some hx).1
  have hid : y.id ≠ x.id := by
    rw [(writer_eq_some hx).2, (writer_eq_some hy).2]
    decide
  have hsame := hread y.snapshot (hothers y (writer_eq_some hy).1 hid) 0
  exact ⟨s, x, y, hrun, hx, hy, of_decide_eq_true hcell, hseen, (hsame.2 0).trans hseen,
    fun c' hc' => (hleft 0 1 c' hc').1⟩

/-- A reader that begins before the rollback of the first transaction loses the
row of the second, which it has seen. -/
theorem read_changed_by_rollback : ∃ s x, run step new (appendBehind ++ [.begin]) = some s ∧ s.writer third = some x ∧
      (s.table.lookup x.snapshot 1 0 = some 8 && (run (byOthers third step) s [.rollback first]).any
        fun s' => s'.table.lookup x.snapshot 1 0 = none) = true :=
  exists_run (by decide +kernel)

def readerBetween : List (Action Nat) :=
  [.begin, .begin, .execute first (.insert fun _ => 7), .commit first, .begin]

theorem reads_unchanged_by_commit :
    ∃ s x s', run (guarded careful step) new readerBetween = some s ∧ s.writer third = some x ∧
      run (byOthers x.id (guarded careful step)) s [.execute second (.insert fun _ => 8), .commit second] = some s' ∧
      s.table.lookup x.snapshot 0 0 = some 7 ∧ s'.table.lookup x.snapshot 0 0 = some 7 := by
  obtain ⟨s, x, hrun, hx, h⟩ : ∃ s x, run (guarded careful step) new readerBetween = some s ∧
      s.writer third = some x ∧ (s.table.lookup x.snapshot 0 0 = some 7 && (run (byOthers x.id (guarded careful step)) s
          [.execute second (.insert fun _ => 8), .commit second]).isSome) = true :=
    exists_run (by decide +kernel)
  obtain ⟨hseen, hsome⟩ := (Bool.and_eq_true _ _).mp h
  obtain ⟨s', hrun'⟩ := Option.isSome_iff_exists.mp hsome
  have hsame := reads_unchanged quiet_new (Reachable.init.run hrun) (writer_eq_some hx).1 (Reachable.init.run hrun')
  have hseen : s.table.lookup x.snapshot 0 0 = some 7 := of_decide_eq_true hseen
  exact ⟨s, x, s', hrun, hx, hrun', hseen, ((hsame.2 0).2 0).trans hseen⟩

end Runs

end TableRun

end Rag3db.Storage
