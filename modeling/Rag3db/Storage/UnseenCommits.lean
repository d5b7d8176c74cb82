import Rag3db.Storage.SnapshotIsolation

open List Option

namespace Rag3db.Storage

open Library.Transition TransactionState

variable {α : Type} {init s s' s₁ s₂ : TableRun α} {x y : Writer α} {V : Set Nat} {id n : Nat}

/-- What carries the version in a row still carries it in another. -/
structure Cell.Keeps (version : Nat) (c c' : Cell α) : Prop where
  insertion : c.insertion = version → c'.insertion = version
  deletion : c.deletion = version → c'.deletion = version
  updates : ∀ column, ∀ u ∈ c.updates column, u.1 = version → u ∈ c'.updates column

namespace Cell

open scoped Classical

variable {c c' c'' : Cell α}

theorem Keeps.refl : Keeps id c c := ⟨fun h => h, fun h => h, fun _ _ h _ => h⟩

theorem Keeps.trans (h : Keeps id c c') (h' : Keeps id c' c'') : Keeps id c c'' :=
  ⟨fun hc => h'.insertion (h.insertion hc), fun hc => h'.deletion (h.deletion hc),
    fun column u hu hv => h'.updates column u (h.updates column u hu hv) hv⟩

theorem keeps_of_without_eq (he : c'.without V = c.without V) (hc : c.insertion ∉ V) (hid : id ∉ V)
    (hinvalid : id ≠ invalidTransaction) : Keeps id c c' := by
  have hins := (of_without_eq he hc).1
  refine ⟨fun h => hins.trans h, fun h => ?_, fun column u hu hv => ?_⟩
  · rw [deletion_of_without_eq he hc (h ▸ hid) (h ▸ hinvalid), h]
  · rw [without_of_not_mem hc, without_of_not_mem (hins ▸ hc), Option.some.injEq] at he
    have hupd := congrFun (congrArg Cell.updates he) column
    simp only at hupd
    have hmem : u ∈ (c.updates column).filter (·.1 ∉ V) :=
      mem_filter.mpr ⟨hu, by simpa [hv] using hid⟩
    rw [← hupd] at hmem
    exact (mem_filter.mp hmem).1

end Cell

namespace TableRun

variable {a : Action α} {T T' : NodeTable α} {time : Nat}

/-- The numbers after a step. -/
structure Advances (s s' : TableRun α) : Prop where
  issued : s.lastTransactionID ≤ s'.lastTransactionID
  ids : ∀ y ∈ s'.active, (∃ z ∈ s.active, z.id = y.id) ∨ s.lastTransactionID < y.id

theorem Advances.of_put (x' : Writer α) (hx : x ∈ s.active) (hid : x'.id = x.id) :
    Advances s { s with table := T, lastTimestamp := time, active := s.put x' } := by
  refine ⟨le_rfl, fun y hy => .inl ?_⟩
  rcases mem_put hy with ⟨hy, -⟩ | rfl
  · exact ⟨y, hy, rfl⟩
  · exact ⟨x, hx, hid.symm⟩

theorem Advances.of_clear : Advances s { s with table := T, lastTimestamp := time, active := s.clear id } :=
  ⟨le_rfl, fun y hy => .inl ⟨y, (mem_clear.mp hy).1, rfl⟩⟩

theorem step_advances (hs : s.step a = some s') : Advances s s' := by
  cases a with try (replace hs := act_eq_some hs; obtain ⟨x, hx, -, hstep⟩ := hs)
  | begin =>
    obtain ⟨r, hr, rfl⟩ := map_eq_some_iff.mp hs
    obtain ⟨-, -, -, -, hid⟩ := snapshot?_eq_some hr
    refine ⟨Nat.le_succ _, fun y hy => ?_⟩
    rcases mem_append.mp hy with hy | hy
    · exact .inl ⟨y, hy, rfl⟩
    · refine .inr ?_
      rw [mem_singleton.mp hy]
      exact (Nat.lt_succ_self _).trans_eq hid.symm
  | refreshSnapshot id =>
    unfold TableRun.refreshSnapshot at hstep
    split_ifs at hstep
    obtain ⟨r, hr, rfl⟩ := map_eq_some_iff.mp hstep
    exact .of_put { x with snapshot := r } hx (snapshot?_eq_some hr).2.2.2.2
  | execute id op =>
    obtain ⟨-, -, t, -, rfl⟩ := execute_eq_some hstep
    exact .of_put (x.after t .working) hx rfl
  | commit id =>
    obtain ⟨-, -, s₁, hs₁, rfl⟩ := withTimestamp_eq_some hstep
    obtain ⟨t, -, rfl⟩ := map_eq_some_iff.mp hs₁
    exact .of_clear
  | raiseAppending id n =>
    obtain ⟨-, -, s₁, hs₁, rfl⟩ := withTimestamp_eq_some hstep
    obtain ⟨t, -, rfl⟩ := map_eq_some_iff.mp hs₁
    exact .of_put (x.after t (.raised none)) hx rfl
  | raiseStamping id n =>
    obtain ⟨-, -, s₁, hs₁, rfl⟩ := withTimestamp_eq_some hstep
    obtain ⟨t₁, -, hs₁⟩ := bind_eq_some_iff.mp hs₁
    obtain ⟨t, -, rfl⟩ := map_eq_some_iff.mp hs₁
    exact .of_put (x.after t (.raised (some s.commitTS))) hx rfl
  | rollback id =>
    obtain ⟨x, -, rfl⟩ := map_eq_some_iff.mp hs
    exact .of_clear

theorem exists_actor (hs : s.step a = some s') (ha : Action.actor a = some id) : ∃ z ∈ s.active, z.id = id := by
  have hfind : ∃ z, s.writer id = some z := by
    cases a with
    | begin => cases ha
    | rollback =>
      cases ha
      exact (map_eq_some_iff.mp hs).imp fun _ => And.left
    | _ =>
      cases ha
      exact (bind_eq_some_iff.mp hs).imp fun _ => And.left
  exact hfind.imp fun _ => writer_eq_some

/-- A transaction whose commit has raised can only be rolled back. -/
theorem eq_rollback_of_actor (h : Inv s) (hx : x ∈ s.active) (hr : x.progress ≠ .working)
    (hs : s.step a = some s') (ha : Action.actor a = some x.id) : s' = s.rollback x := by
  cases a with
  | begin => cases ha
  | refreshSnapshot id =>
    obtain ⟨y, hy, rfl, hstep⟩ := act_eq_some hs
    obtain rfl := h.eq_of_id hy hx (some.inj ha)
    simp [TableRun.refreshSnapshot, hr] at hstep
  | execute id op =>
    obtain ⟨y, hy, rfl, hstep⟩ := act_eq_some hs
    obtain rfl := h.eq_of_id hy hx (some.inj ha)
    exact absurd (execute_eq_some hstep).1 hr
  | commit id | raiseAppending id n | raiseStamping id n =>
    obtain ⟨y, hy, rfl, hstep⟩ := act_eq_some hs
    obtain rfl := h.eq_of_id hy hx (some.inj ha)
    exact absurd (withTimestamp_eq_some hstep).1 hr
  | rollback id =>
    obtain ⟨y, hfind, rfl⟩ := map_eq_some_iff.mp hs
    cases ha
    rw [h.eq_of_id (writer_eq_some hfind).1 hx (writer_eq_some hfind).2]

/-- Everyone but the transaction reads the same in both tables, whenever the
reader has begun. -/
def ReadAlike (id : Nat) (T T' : NodeTable α) : Prop :=
  ∀ r : Snapshot, r.id ≠ id → ∀ offset, T'.isSelected r offset = T.isSelected r offset ∧
    ∀ column, T'.lookup r offset column = T.lookup r offset column

theorem ReadAlike.of_sameFor (hid : startTransactionId ≤ id) (hV : V ⊆ {invalidTransaction, id})
    (hsound : T.SoundBut ∅) (hsound' : T'.SoundBut ∅) (h : T.SameFor V T') : ReadAlike id T T' := by
  intro r hr offset
  have hsees : ∀ v ∈ V, r.sees v = false := by
    refine fun v hv => Bool.eq_false_iff.mpr fun hs => ?_
    rcases hV hv with rfl | rfl
    · simp at hs
    · rcases r.sees_iff.mp hs with he | hle
      · exact hr he.symm
      · exact absurd r.startTS_lt (hid.trans hle).not_gt
  have hT := fun idx => (hsound idx).laid.layout
  have hT' := fun idx => (hsound' idx).laid.layout
  exact ⟨h.isSelected hT hT' hsees, fun column => h.lookup hT hT' hsees⟩

theorem Inv.rollback_readAlike (h : Inv s) (hx : x ∈ s.active) (hown : x.own = {x.id}) :
    ReadAlike x.id s.table (s.rollback x).table := by
  obtain ⟨hsound, hsame, -⟩ := h.rollback_table hx
  refine .of_sameFor (h.bounds x hx).1 (fun v hv => ?_) h.sound hsound hsame
  rwa [undone, hown] at hv

/-- What holds from a commit that raises on: the writes keep the version of the
transaction until its rollback. No row is left after it, and no update ever gets
another version. -/
structure Unpublished (id : Nat) (T : NodeTable α) (s : TableRun α) : Prop where
  inv : Inv s
  issued : id ≤ s.lastTransactionID
  updates : s.table.Updates fun creator version => creator = id → version = id
  writes : (∃ z ∈ s.active, z.id = id ∧ z.progress = .raised none ∧ ∀ idx row c, T.cell idx row = some c →
      ∃ c', s.table.cell idx row = some c' ∧ Cell.Keeps id c c') ∨
    (∀ z ∈ s.active, z.id ≠ id) ∧ ∀ idx row c, s.table.cell idx row = some c → c.insertion ≠ id

theorem Unpublished.step (h : Unpublished id T s) (hid : startTransactionId ≤ id)
    (hs : guarded careful TableRun.step s a = some s') : Unpublished id T s' := by
  have hstep := (guarded_eq_some.mp hs).2
  have hadv := step_advances hstep
  have hlt : id < invalidTransaction := h.issued.trans_lt h.inv.issued.2
  obtain ⟨hinv, heffect⟩ := h.inv.step hs
  -- a step of another writes no update in the name of the transaction
  have hupd : Action.actor a ≠ some id →
      s'.table.Updates fun creator version => creator = id → version = id := fun ha => by
    rcases heffect with ⟨htable, -⟩ | ⟨y, V, hactor, he⟩
    · exact htable ▸ h.updates
    · exact he.updates (fun v hy => absurd (hy ▸ hactor) ha) h.updates
  rcases h.writes with ⟨z, hz, rfl, hr, hkeeps⟩ | ⟨hgone, hnone⟩
  · have hr' : z.progress ≠ .working := by simp [hr]
    by_cases ha : Action.actor a = some z.id
    · -- its rollback
      obtain rfl := eq_rollback_of_actor h.inv hz hr' hstep ha
      obtain ⟨-, -, hrest, -, hout, -⟩ := h.inv.rollback_table hz
      exact ⟨hinv, h.issued.trans hadv.issued, hrest h.updates, .inr ⟨fun y hy => (mem_clear.mp hy).2,
        fun idx row c hc hins => hout hc (.inr (hins ▸ Writer.id_mem_own))⟩⟩
    · -- a step of another transaction
      refine ⟨hinv, h.issued.trans hadv.issued, hupd ha, .inl ⟨z, ?_, rfl, hr, fun idx row c hc => ?_⟩⟩
      · rcases heffect with ⟨-, hmem⟩ | ⟨y, V, hactor, he⟩
        · exact hmem z hz ha
        · exact (he.others z fun hid => ha (hid ▸ hactor)).mpr hz
      · obtain ⟨c', hc', hk⟩ := hkeeps idx row c hc
        rcases heffect with ⟨htable, -⟩ | ⟨y, V, hactor, he⟩
        · exact ⟨c', htable ▸ hc', hk⟩
        · have hne : z.id ≠ y.id := fun hid => ha (hid ▸ hactor)
          have hins := he.settled z hz hne hr' hc'
          obtain ⟨c'', hc'', hwithout⟩ := cellAt_of_view_eq (he.same.view idx) hc' hins
          exact ⟨c'', hc'', hk.trans (Cell.keeps_of_without_eq hwithout hins
            ((he.foreign z hz hne).own _ Writer.id_mem_own) hlt.ne)⟩
  · -- nobody has the id any more, so that nobody can write it
    have hnew : ∀ y ∈ s'.active, y.id ≠ id := fun y hy => (hadv.ids y hy).elim
      (fun ⟨z, hz, he⟩ => he ▸ hgone z hz) fun hlt => (h.issued.trans_lt hlt).ne'
    have hactor : Action.actor a ≠ some id := fun ha => by
      obtain ⟨z, hz, hzid⟩ := exists_actor hstep ha
      exact hgone z hz hzid
    refine ⟨hinv, h.issued.trans hadv.issued, hupd hactor, .inr ⟨hnew, fun idx row c hc hins => ?_⟩⟩
    rcases heffect with ⟨htable, -⟩ | ⟨y, V, hy, he⟩
    · exact hnone idx row c (htable ▸ hc) hins
    · have hV : id ∉ V := fun hv => by
        rcases he.versions id hv with hv | hv | hv
        · exact hactor (hv ▸ hy)
        · exact hlt.ne hv
        · exact absurd hid hv.not_ge
      obtain ⟨c₀, hc₀, hwithout⟩ := cellAt_of_view_eq (he.same.view idx).symm hc (hins ▸ hV)
      exact hnone idx row c₀ hc₀ ((Cell.of_without_eq hwithout (hins ▸ hV)).1.trans hins)

theorem Inv.unpublished (h : Inv s) (hx : x ∈ s.active)
    (hs : guarded careful TableRun.step s (.raiseAppending x.id n) = some s') :
    ReadAlike x.id s.table s'.table ∧ Unpublished x.id s'.table s' ∧ x.progress = .working := by
  obtain ⟨hc, hstep⟩ := guarded_eq_some.mp hs
  have hall : ∀ y ∈ s.active, y.progress = .working := by simpa [careful] using hc
  obtain ⟨y, hfind, hraise⟩ := bind_eq_some_iff.mp hstep
  obtain rfl := h.eq_of_id (writer_eq_some hfind).1 hx (writer_eq_some hfind).2
  obtain ⟨heffect, hinv⟩ := h.raiseAppending hall hx hraise
  obtain ⟨-, -, s₁, hs₁, rfl⟩ := withTimestamp_eq_some hraise
  obtain ⟨t, ht, rfl⟩ := map_eq_some_iff.mp hs₁
  have hmem : y.after t (.raised none) ∈ s.put (y.after t (.raised none)) := mem_put_self hx rfl
  refine ⟨.of_sameFor (h.bounds y hx).1 (fun v hv => .inr hv) h.sound heffect.sound heffect.same,
    ⟨hinv, (h.bounds y hx).2.1, fun idx => ?_, .inl ⟨_, hmem, rfl, rfl, fun idx row c hc => ⟨c, hc, .refl⟩⟩⟩,
    hall y hx⟩
  exact NodeGroup.Chains.mono (hinv.updates idx) fun u hu hc => hu.2 _ hmem hc

/-- If a commit raises before it gives its timestamp to a write, nobody else ever
reads what the transaction has written: no operation of it changes what others
read, nor does the commit that raises, nor the rollback, the only step left to it
then. Up to the rollback each write keeps the version of the transaction; no row
is left after it, and what stays in a chain of updates has that version for ever. -/
theorem failed_commit_unseen (hinit : Quiet init) (h : Reachable (guarded careful step) init s)
    (hx : x ∈ s.active) (hs : guarded careful step s (.raiseAppending x.id n) = some s₁)
    (h' : Reachable (guarded careful step) s₁ s₂) :
    (∀ s₀ op s', Reachable (guarded careful step) init s₀ → step s₀ (.execute x.id op) = some s' →
        ReadAlike x.id s₀.table s'.table) ∧
      (ReadAlike x.id s.table (s.rollback x).table ∧ ReadAlike x.id s.table s₁.table) ∧
      (∀ z ∈ s₂.active, z.id = x.id → ReadAlike x.id s₂.table (s₂.rollback z).table ∧
        (∀ a s₃, Action.actor a = some x.id → step s₂ a = some s₃ → s₃ = s₂.rollback z) ∧
        ∀ idx row c, s₁.table.cell idx row = some c → ∃ c', s₂.table.cell idx row = some c' ∧ Cell.Keeps x.id c c') ∧
      (s₂.table.Updates fun creator version => creator = x.id → version = x.id) ∧
      ((∀ z ∈ s₂.active, z.id ≠ x.id) → ∀ idx row c, s₂.table.cell idx row = some c → c.insertion ≠ x.id) := by
  have hi := inv_of_reachable hinit h
  obtain ⟨hread, hstart, hw⟩ := hi.unpublished hx hs
  have hend : Unpublished x.id s₁.table s₂ :=
    h'.invariant hstart fun _ _ _ hu hs => hu.step (hi.bounds x hx).1 hs
  refine ⟨fun s₀ op s' h₀ hs₀ => ?_, ⟨hi.rollback_readAlike hx (Writer.own_of_working hw), hread⟩,
    fun z hz hzid => ?_, hend.updates,
    fun hgone => ?_⟩
  · obtain ⟨y, hy, hyid, hstep⟩ := act_eq_some hs₀
    have hi₀ := inv_of_reachable hinit h₀
    obtain ⟨heffect, -⟩ := hi₀.execute hy hstep
    exact .of_sameFor (hi.bounds x hx).1 (fun v hv => .inr (hyid ▸ hv)) hi₀.sound heffect.sound heffect.same
  · rcases hend.writes with ⟨y, hy, hyid, hr, hkeeps⟩ | ⟨hgone, -⟩
    · obtain rfl := hend.inv.eq_of_id hz hy (hzid.trans hyid.symm)
      refine ⟨hzid ▸ hend.inv.rollback_readAlike hz (by simp [Writer.own, hr]), fun a s₃ ha hs₃ => ?_, hkeeps⟩
      exact eq_rollback_of_actor hend.inv hz (by simp [hr]) hs₃ (hzid ▸ ha)
    · exact absurd hzid (hgone z hz)
  · rcases hend.writes with ⟨z, hz, hzid, -⟩ | ⟨-, hnone⟩
    · exact absurd hzid (hgone z hz)
    · exact hnone

/-- A commit raises after it has given its timestamp to its row; whoever begins
before the rollback sees the row. -/
theorem failed_commit_seen :
    ∃ s x, run step new [.begin, .execute first (.insert fun _ => 7), .raiseStamping first 1, .begin] = some s ∧
      s.writer second = some x ∧
      (s.writer first).any (fun y => y.progress ≠ .working) && s.table.lookup x.snapshot 0 0 = some 7 :=
  exists_run (by decide +kernel)

/-- A row has been put into the table when the commit raises; the second
transaction, which begins after that, does not read it before the rollback and
not after it. -/
theorem failed_commit_unseen_by_second : ∃ s x s₁ s₂, run (guarded careful step) new
        [.begin, .execute first (.insert fun _ => 7)] = some s ∧ s.writer first = some x ∧
      guarded careful step s (.raiseAppending x.id 7) = some s₁ ∧
      run (guarded careful step) s₁ [.begin] = some s₂ ∧
      (s₁.table.cell 0 0).map (·.insertion) = some first ∧
      ∃ y z, s₂.writer second = some y ∧ s₂.writer first = some z ∧ s₂.table.lookup y.snapshot 0 0 = none ∧
        (s₂.rollback z).table.lookup y.snapshot 0 0 = none := by
  obtain ⟨s, x, hrun, hx, h⟩ : ∃ s x, run (guarded careful step) new
      [.begin, .execute first (.insert fun _ => 7)] = some s ∧ s.writer first = some x ∧
      (guarded careful step s (.raiseAppending x.id 7)).any (fun s₁ =>
        (s₁.table.cell 0 0).map (·.insertion) = some first &&
          (run (guarded careful step) s₁ [.begin]).any fun s₂ => (s₂.writer first).isSome &&
            (s₂.writer second).any fun y => s₂.table.lookup y.snapshot 0 0 = none) = true :=
    exists_run (by decide +kernel)
  obtain ⟨s₁, hs₁, h⟩ := (any_eq_true _ _).mp h
  obtain ⟨hcell, h⟩ := (Bool.and_eq_true _ _).mp h
  obtain ⟨s₂, hrun', h⟩ := (any_eq_true _ _).mp h
  obtain ⟨hz, h⟩ := (Bool.and_eq_true _ _).mp h
  obtain ⟨z, hz⟩ := isSome_iff_exists.mp hz
  obtain ⟨y, hy, h⟩ := (any_eq_true _ _).mp h
  have hnone : s₂.table.lookup y.snapshot 0 0 = none := of_decide_eq_true h
  have hunseen := failed_commit_unseen quiet_new (Reachable.init.run hrun) (writer_eq_some hx).1 hs₁
    (Reachable.init.run hrun')
  have hxid := (writer_eq_some hx).2
  have hread := (hunseen.2.2.1 z (writer_eq_some hz).1 ((writer_eq_some hz).2.trans hxid.symm)).1 y.snapshot
    (by rw [hxid]; exact (writer_eq_some hy).2.trans_ne (by decide)) 0
  exact ⟨s, x, s₁, s₂, hrun, hx, hs₁, hrun', of_decide_eq_true hcell, y, z, hy, hz, hnone, (hread.2 0).trans hnone⟩

end TableRun

end Rag3db.Storage
