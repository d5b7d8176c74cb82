import Rag3db.Storage.WriterInvariant

open List Option

namespace Rag3db.Storage

open Library.Transition Library.Interruptible Writer TransactionState NodeGroup.Chains

variable {α : Type} {s s' : TableRun α} {x y : Writer α} {V : Set Nat} {id idx row : Nat} {c : Cell α} {T : NodeTable α}

namespace TransactionState

variable {st st' : TransactionState α} {tx : Snapshot} {op : Operation α} {offset : Nat}

def Named (startTS : Nat) (st : TransactionState α) : Operation α → Prop
  | .insert _ => True
  | .update offset _ _ | .delete offset => st.isUnCommitted offset = true ∨
      ∃ c, st.table.cell (offset / nodeGroupSize) (offset % nodeGroupSize) = some c ∧ c.insertion ≤ startTS

/-- What an operation does to the table. -/
structure Executed (tx : Snapshot) (st st' : TransactionState α) : Prop where
  edit : st'.table.SoundBut ∅ ∧ st.table.SameFor {tx.id} st'.table ∧ st.table.InPlace ∅ st'.table
  updates : ∀ {P : Nat → Nat → Prop}, P tx.id tx.id → st.table.Updates P → st'.table.Updates P
  deleted : ∀ {idx row}, st.table.Deleted tx.id tx.startTS idx row → st'.table.Deleted tx.id tx.startTS idx row
  records : ∀ record ∈ st'.undoBuffer, record ∈ st.undoBuffer ∨
    (∃ idx j column v, record = .updateInfo idx j column v tx.id) ∨
    ∃ idx row, record = .deleteInfo idx row 1 ∧ st'.table.Deleted tx.id tx.startTS idx row

theorem updateRow_executed {column : Nat} {value : α} (h : st.table.SoundBut ∅)
    (hs : st.updateRow tx offset column value = .ok st') : Executed tx st st' := by
  obtain ⟨⟨idx, j, v, hU, -⟩, hedit, -, hcell⟩ := updateRow_spec (P := fun _ _ => True) h hs
  refine ⟨hedit, fun hnew hP => (updateRow_spec h hs).2.2.1 hnew hP, fun {idx row} hd => ?_, fun record hmem => ?_⟩
  · obtain ⟨c, hc, hins, hdel⟩ := hd
    obtain ⟨c', hc', he⟩ := cellAt_of_map_eq (hcell idx row).symm hc
    exact ⟨c', hc', (congrArg Row.insertion he).symm.trans_le hins, (congrArg Row.deletion he).symm.trans hdel⟩
  · rw [hU] at hmem
    refine (mem_append.mp hmem).imp_right fun hm => .inl ?_
    exact ⟨idx, j, column, v, mem_singleton.mp hm⟩

theorem deleteRow_executed (h : st.table.SoundBut ∅)
    (hc : st.table.cell (offset / nodeGroupSize) (offset % nodeGroupSize) = some c)
    (hins : c.insertion ≤ tx.startTS) (hs : st.deleteRow tx.id offset = .ok st') :
    Executed tx st (st'.pushDeleteInfo offset) := by
  obtain ⟨⟨hU, -⟩, hedit, -, -, hcell⟩ := deleteRow_spec (P := fun _ _ => True) h tx.id_lt.ne hs
  refine ⟨hedit, fun _ hP => (deleteRow_spec h tx.id_lt.ne hs).2.2.1 hP, fun {idx row} hd => ?_, fun record hmem => ?_⟩
  · obtain ⟨c, hc, hins, hdel⟩ := hd
    refine ⟨_, (hcell idx row).trans (congrArg _ hc), ?_, ?_⟩ <;> split_ifs
    · exact hins
    · exact hins
    · rfl
    · exact hdel
  · refine (mem_append.mp hmem).imp (fun hm => hU ▸ hm) fun hm => .inr ⟨_, _, mem_singleton.mp hm, ?_⟩
    refine ⟨_, (hcell _ _).trans (congrArg _ hc), ?_⟩
    simpa using hins

theorem execute_executed (h : st.table.SoundBut ∅) (hn : Named tx.startTS st op)
    (hs : st.execute tx op = .ok st') : Executed tx st st' := by
  obtain ⟨l, rfl⟩ | ⟨_, _, _, hu⟩ | ⟨_, st'', rfl, hl, hd, rfl⟩ := execute_ok hs
  · exact ⟨⟨h, .refl, .refl⟩, fun _ => id, id, fun _ => .inl⟩
  · exact updateRow_executed h hu
  · obtain ⟨c, hc, hins⟩ := hn.resolve_left hl
    exact deleteRow_executed h hc hins hd

end TransactionState

namespace TableRun

/-- What a step of the transaction `x` does to the table and to the others. -/
structure Effect (s : TableRun α) (x : Writer α) (V : Set Nat) (s' : TableRun α) : Prop where
  sound : s'.table.SoundBut ∅
  same : s.table.SameFor V s'.table
  foreign : ∀ y ∈ s.active, y.id ≠ x.id → y.Foreign V
  versions : ∀ v ∈ V, v = x.id ∨ v = invalidTransaction ∨ v < startTransactionId
  settled : ∀ y ∈ s.active, y.id ≠ x.id → y.progress ≠ .working →
    ∀ {idx row : Nat} {c : Cell α}, s.table.cell idx row = some c → c.insertion ∉ V
  updates : ∀ {P : Nat → Nat → Prop}, (∀ v, P x.id v) → s.table.Updates P → s'.table.Updates P
  others : ∀ y, y.id ≠ x.id → (y ∈ s'.active ↔ y ∈ s.active)
  time : s.lastTimestamp ≤ s'.lastTimestamp
  issued : s'.lastTransactionID = s.lastTransactionID

section Effect

theorem Inv.updates_after (h : Inv s) (hx : x ∈ s.active) (he : Effect s x V s')
    (hself : ∀ y ∈ s'.active, y.id = x.id → x.own ⊆ y.own) :
    s.table.Updates fun creator version => creator ≤ s'.lastTransactionID ∧
      ∀ y ∈ s'.active, creator = y.id → version ∈ y.own := by
  intro idx
  refine mono (h.updates idx) fun u hu => ⟨he.issued ▸ hu.1, fun y hy hc => ?_⟩
  by_cases hid : y.id = x.id
  · exact hself y hy hid (hu.2 x hx (hc.trans hid))
  · exact hu.2 y ((he.others y hid).mp hy) hc

theorem Inv.of_effect (h : Inv s) (hx : x ∈ s.active) (he : Effect s x V s') (hnum : Numbered s')
    (hself : ∀ y ∈ s'.active, y.id = x.id → y.progress = .working → x.progress = .working)
    (hrows : ∀ {idx row : Nat} {c : Cell α}, s'.table.cell idx row = some c → c.insertion ∈ V →
      c.insertion ≤ s'.lastTimestamp ∨ c.insertion = x.id ∧ ∀ y ∈ s'.active, y.progress = .working → y.id ≠ x.id)
    (hupd : s'.table.Updates fun creator version => creator ≤ s'.lastTransactionID ∧
      ∀ y ∈ s'.active, creator = y.id → version ∈ y.own)
    (hrecords : ∀ y ∈ s'.active, y.id = x.id →
      (∀ record ∈ y.undoBuffer, record.Good y.own y.id y.snapshot.startTS s'.table) ∧
      (y.progress = .working → ∀ record ∈ y.undoBuffer, y.Pending s'.table record))
    (hraised : ∀ y ∈ s.active, y.id ≠ x.id → y.progress ≠ .working →
      ∀ {idx row : Nat} {c : Cell α}, s'.table.cell idx row = some c → c.insertion ∉ V)
    (hunw : ∃ r, s'.Unwindable r) : Inv s' := by
  have hpending : ∀ y ∈ s.active, y.id ≠ x.id → y.progress = .working → ∀ record ∈ y.undoBuffer,
      y.Pending s'.table record := by
    intro y hy hid hw record hmem
    have hp := h.pending y hy hw record hmem
    cases record with
    | insertInfo => exact hp
    | deleteInfo =>
      have hf := he.foreign y hy hid
      exact ⟨hp.1, hp.2.of_sameFor he.same ⟨hf.own _ id_mem_own, (h.own_ne hy id_mem_own).2⟩ hf.seen⟩
    | updateInfo => exact hp
  refine ⟨hnum, he.sound, fun {idx row c} hc => ?_, hupd, fun y hy => ?_, fun y hy hw => ?_, hunw⟩
  · by_cases hV : c.insertion ∈ V
    · refine (hrows hc hV).imp_right fun ⟨hins, hne⟩ => ?_
      rw [hins, he.issued]
      exact ⟨(h.bounds x hx).1, (h.bounds x hx).2.1, fun y hy hw => Ne.symm (hne y hy hw)⟩
    · obtain ⟨c₀, hc₀, hw⟩ := cellAt_of_view_eq (he.same.view idx).symm hc hV
      have hins := (Cell.of_without_eq hw hV).1
      rw [← hins, he.issued]
      refine (h.dated hc₀).imp (fun hle => hle.trans he.time) fun ⟨hlow, hhigh, hne⟩ =>
        ⟨hlow, hhigh, fun y hy hwork => ?_⟩
      by_cases hid : y.id = x.id
      · rw [hid]
        exact hne x hx (hself y hy hid hwork)
      · exact hne y ((he.others y hid).mp hy) hwork
  · by_cases hid : y.id = x.id
    · exact (hrecords y hy hid).1
    · have hy₀ := (he.others y hid).mp hy
      intro record hmem
      by_cases hw : y.progress = .working
      · exact (hpending y hy₀ hid hw record hmem).good
      · exact (h.records y hy₀ record hmem).mono fun idx row hh => hh.of_sameFor he.same
          (fun c hc => hraised y hy₀ hid hw hc)
          fun v hv => ⟨(he.foreign y hy₀ hid).own v hv, (h.own_ne hy₀ hv).2⟩
  · by_cases hid : y.id = x.id
    · exact (hrecords y hy hid).2 hw
    · exact hpending y ((he.others y hid).mp hy) hid hw

end Effect

section Execute

theorem Inv.insertion_ne (h : Inv s) (hx : x ∈ s.active) (hw : x.progress = .working)
    (hc : s.table.cell idx row = some c) : c.insertion ≠ x.id := by
  rcases h.dated hc with hle | ⟨-, -, hne⟩
  · have hlow := (h.bounds x hx).1
    have htime := h.time
    omega
  · exact hne x hx hw

variable {op : Operation α}

theorem Inv.named (h : Inv s) (hx : x ∈ s.active) (hw : x.progress = .working) (hn : x.names s.table op = true) :
    TransactionState.Named x.snapshot.startTS (x.state s.table) op := by
  have hcell : ∀ offset, ((x.state s.table).isUnCommitted offset ||
      (s.table.cell (offset / nodeGroupSize) (offset % nodeGroupSize)).any (x.snapshot.sees ·.insertion)) = true →
      (x.state s.table).isUnCommitted offset = true ∨ ∃ c, s.table.cell (offset / nodeGroupSize)
        (offset % nodeGroupSize) = some c ∧ c.insertion ≤ x.snapshot.startTS := by
    intro offset ho
    refine ((Bool.or_eq_true _ _).mp ho).imp_right fun hany => ?_
    obtain ⟨c, hc, hs⟩ := (any_eq_true _ _).mp hany
    exact ⟨c, hc, (x.snapshot.sees_iff.mp hs).resolve_left (h.insertion_ne hx hw hc)⟩
  cases op with
  | insert => trivial
  | update offset | delete offset => exact hcell offset hn

theorem execute_eq_some (hs : s.execute x op = some s') :
    x.progress = .working ∧ x.names s.table op = true ∧ ∃ t, (x.state s.table).execute x.snapshot op = .ok t ∧
      s' = { s with table := t.table, active := s.put (x.after t .working) } := by
  unfold TableRun.execute at hs
  split_ifs at hs with hg
  cases ht : (x.state s.table).execute x.snapshot op with
  | error e => simp [ht] at hs
  | ok t =>
    simp only [ht, Option.some.injEq] at hs
    exact ⟨hg.1, hg.2, t, rfl, hs.symm⟩

theorem Inv.foreign_id (h : Inv s) (hx : x ∈ s.active) (hy : y ∈ s.active) (hid : y.id ≠ x.id) : y.Foreign {x.id} := by
  have hxb := h.bounds x hx
  have hyb := h.bounds y hy
  have htime := h.time
  refine ⟨fun v hv hm => ?_, fun v hv hm => ?_⟩
  · obtain rfl : v = x.id := hm
    unfold own at hv
    split at hv
    case h_1 ts hp =>
      have hts := h.stamped y hy ts hp
      rcases hv with he | he
      · exact hid he.symm
      · obtain rfl : x.id = ts := he
        omega
    case h_2 => exact hid hv.symm
  · obtain rfl : v = x.id := hm
    omega

theorem Numbered.put (h : Numbered s) (hx : x ∈ s.active) {x' : Writer α}
    (hsnap : x'.snapshot = x.snapshot) (hp : ∀ ts, x'.progress ≠ .raised (some ts)) :
    Numbered { s with table := T, active := s.put x' } := by
  have hid : x'.id = x.id := congrArg Snapshot.id hsnap
  refine ⟨h.time, h.issued, (congrArg List.Nodup put_ids).mpr h.nodup, fun y hy => ?_, fun y hy ts hts => ?_⟩
  · rcases mem_put hy with ⟨hy, -⟩ | rfl
    · exact h.bounds y hy
    · rw [hid, hsnap]
      exact h.bounds x hx
  · rcases mem_put hy with ⟨hy, hne⟩ | rfl
    · obtain ⟨hpos, hle, hall⟩ := h.stamped y hy ts hts
      refine ⟨hpos, hle, fun z hz hzy => ?_⟩
      rcases mem_put hz with ⟨hz, -⟩ | rfl
      · exact hall z hz hzy
      · rw [hsnap]
        exact hall x hx (hid ▸ hzy)
    · exact absurd hts (hp ts)

theorem Unwindable.put {r : Option (Writer α)} (h : s.Unwindable r) (hnum : Numbered s) (hx : x ∈ s.active)
    (hw : x.progress = .working) (x' : Writer α) (hid : x'.id = x.id) (hw' : x'.progress = .working)
    (y : Writer α) :
    r = some y ↔ y ∈ s.put x' ∧ y.progress ≠ .working := by
  rw [h.raised y]
  refine and_congr_left fun hy => ?_
  by_cases hyx : y.id = x.id
  · refine iff_of_false (fun hm => ?_) fun hm => ?_
    · exact hy (hnum.eq_of_id hm hx hyx ▸ hw)
    · rcases mem_put hm with ⟨-, hne⟩ | rfl
      · exact hne (hyx.trans hid.symm)
      · exact hy hw'
  · exact (mem_put_of_ne (hid ▸ hyx)).symm

theorem Inv.execute (h : Inv s) (hx : x ∈ s.active) (hs : s.execute x op = some s') :
    Effect s x {x.id} s' ∧ Inv s' := by
  obtain ⟨hw, hn, t, ht, rfl⟩ := execute_eq_some hs
  have hexec := execute_executed h.sound (h.named hx hw hn) ht
  obtain ⟨hsound, hsame, hp⟩ := hexec.edit
  have heffect : Effect s x {x.id} { s with table := t.table, active := s.put (x.after t .working) } :=
    ⟨hsound, hsame, fun y hy hid => h.foreign_id hx hy hid, fun v hv => .inl hv,
      fun _ _ _ _ => h.insertion_ne hx hw, fun hP => hexec.updates (hP _), fun y hid => mem_put_of_ne hid,
      le_rfl, rfl⟩
  have hself : ∀ y ∈ s.put (x.after t .working), y.id = x.id → y = x.after t .working := fun y hy hid =>
    (mem_put hy).resolve_left fun hc => hc.2 hid
  have hout : ∀ {idx row : Nat} {c : Cell α}, t.table.cell idx row = some c → c.insertion ≠ x.id := by
    intro idx row c hc
    obtain ⟨c₀, hc₀, hins⟩ := hp.insertion hc
    rw [hins.resolve_right (by simp)]
    exact h.insertion_ne hx hw hc₀
  have hpending : ∀ record ∈ t.undoBuffer, (x.after t .working).Pending t.table record := by
    intro record hmem
    rcases hexec.records record hmem with hm | ⟨idx, j, column, v, rfl⟩ | ⟨idx, row, rfl, hd⟩
    · have hold := h.pending x hx hw record hm
      cases record with
      | insertInfo => exact hold
      | deleteInfo => exact ⟨hold.1, hexec.deleted hold.2⟩
      | updateInfo => exact hold
    · rfl
    · exact ⟨rfl, hd⟩
  have hown : (x.after t .working).own = x.own := by
    rw [own_of_working hw]
    exact own_of_working rfl
  refine ⟨heffect, h.of_effect hx heffect (h.toNumbered.put hx rfl (by simp [Writer.after])) (fun y hy hid _ => hw)
    (fun hc hV => absurd hV (hout hc)) (hexec.updates ?_ ?_) (fun y hy hid => ?_)
    (fun _ _ _ _ => hout) ?_⟩
  · refine ⟨(h.bounds x hx).2.1, fun y hy hid => ?_⟩
    rw [hid]
    exact id_mem_own
  · refine h.updates_after hx heffect fun y hy hid => ?_
    rw [hself y hy hid, hown]
  · obtain rfl := hself y hy hid
    exact ⟨fun record hmem => (hpending record hmem).good, fun _ => hpending⟩
  · obtain ⟨r, hr⟩ := h.unwindable
    obtain ⟨start, total, hu⟩ := hr.unwinds
    exact ⟨r, fun y => hr.put h.toNumbered hx hw (x.after t .working) rfl rfl y, start, total, hu.inPlace hp (by simp)⟩

end Execute

section Commit

variable {start : Nat → Nat} {total n : Nat}

theorem Inv.insertGroup_eq_none (h : Inv s) (hx : x ∈ s.active) (hw : x.progress = .working) :
    ∀ record ∈ x.undoBuffer, record.insertGroup = none := by
  intro record hmem
  have hp := h.pending x hx hw record hmem
  cases record with
  | insertInfo => exact hp.elim
  | deleteInfo | updateInfo => rfl

variable (hall : ∀ y ∈ s.active, y.progress = .working)

include hall

theorem Inv.whole (h : Inv s) (hx : x ∈ s.active) :
    ∃ start total, TransactionState.Whole x.id x.snapshot.startTS start total s.table (x.state s.table) := by
  obtain ⟨r, hr⟩ := h.unwindable
  have hnone : r = none := by
    cases r with
    | none => rfl
    | some y => exact absurd (hall y ((hr.raised y).mp rfl).1) ((hr.raised y).mp rfl).2
  subst hnone
  obtain ⟨start, total, hu⟩ := hr.unwinds
  have hw := hall x hx
  refine ⟨start, total, ⟨h.sound, .refl, Unwinds.of_no_inserts { hu with rows := fun hc => ?_ }
    (h.insertGroup_eq_none hx hw), fun record hmem => ?_, id⟩, hu.ordered⟩
  · exact iff_of_false (h.insertion_ne hx hw hc) ((hu.rows hc).not.mp (Set.notMem_empty _))
  · have hgood := h.records x hx record hmem
    rwa [own_of_working hw] at hgood

omit hall in
theorem withTimestamp_eq_some {f : Option (TableRun α)} (hs : s.withTimestamp x f = some s') :
    x.progress = .working ∧ s.commitTS < startTransactionId ∧
      ∃ s₁, f = some s₁ ∧ s' = { s₁ with lastTimestamp := s.commitTS } := by
  unfold withTimestamp at hs
  split_ifs at hs with hg
  obtain ⟨s₁, hf, rfl⟩ := map_eq_some_iff.mp hs
  exact ⟨hg.1, hg.2, s₁, hf, rfl⟩

omit hall in
theorem Inv.foreign_commitTS (h : Inv s) (hx : x ∈ s.active) (hy : y ∈ s.active) (hid : y.id ≠ x.id)
    (hw : y.progress = .working) (hts : s.commitTS < startTransactionId) :
    y.Foreign {x.id, s.commitTS} := by
  have hf := h.foreign_id hx hy hid
  have hb := h.bounds y hy
  have hc : s.commitTS = s.lastTimestamp + 1 := rfl
  refine ⟨fun v hv hm => ?_, fun v hv hm => ?_⟩
  · rcases hm with hm | hm
    · exact hf.own v hv hm
    · rw [own_of_working hw] at hv
      obtain rfl : v = y.id := hv
      obtain he : y.id = s.commitTS := hm
      omega
  · rcases hm with hm | hm
    · exact hf.seen v hv hm
    · obtain he : v = s.commitTS := hm
      omega

omit hall in
theorem Inv.insertion_ne_commitTS (h : Inv s) (hts : s.commitTS < startTransactionId)
    (hc : s.table.cell idx row = some c) : c.insertion ≠ s.commitTS := by
  have he : s.commitTS = s.lastTimestamp + 1 := rfl
  rcases h.dated hc with hle | ⟨hlow, -, -⟩ <;> omega

theorem Numbered.withTimestamp (h : Numbered s) (hts : s.commitTS < startTransactionId)
    {active : List (Writer α)} (hnodup : (active.map Writer.id).Nodup)
    (hactive : ∀ y ∈ active, ∃ z ∈ s.active, y.snapshot = z.snapshot ∧
      (y = z ∨ ∀ ts, y.progress = .raised (some ts) → ts = s.commitTS)) :
    Numbered { s with table := T, lastTimestamp := s.commitTS, active } := by
  have he : s.commitTS = s.lastTimestamp + 1 := rfl
  refine ⟨hts, h.issued, hnodup, fun y hy => ?_, fun y hy ts hp => ?_⟩
  · obtain ⟨z, hz, hsnap, -⟩ := hactive y hy
    obtain ⟨hlow, hhigh, hstart⟩ := h.bounds z hz
    have hid : y.id = z.id := congrArg Snapshot.id hsnap
    rw [hid, hsnap]
    exact ⟨hlow, hhigh, hstart.trans (by exact Nat.le_succ _)⟩
  · obtain ⟨z, hz, -, hyz⟩ := hactive y hy
    obtain rfl : ts = s.commitTS := by
      rcases hyz with rfl | hyz
      · rw [hall y hz] at hp
        cases hp
      · exact hyz ts hp
    refine ⟨by omega, le_rfl, fun w hw _ => ?_⟩
    obtain ⟨u, hu, hsnap, -⟩ := hactive w hw
    rw [hsnap]
    exact Nat.lt_succ_of_le (h.bounds u hu).2.2

omit hall in
theorem Inv.updates_own (h : Inv s) (hx : x ∈ s.active) (hw : x.progress = .working) :
    s.table.Updates fun creator version => creator = x.id → version ∈ ({x.id, s.commitTS} : Set Nat) := by
  intro idx
  refine mono (h.updates idx) fun u hu hc => .inl ?_
  have hv := hu.2 x hx hc
  rwa [own_of_working hw] at hv

omit hall in
theorem Inv.commitUndoBuffer (h : Inv s) (hx : x ∈ s.active) (hw : x.progress = .working)
    (hts : s.commitTS < startTransactionId) :
    Triple (TransactionState.Stamping x.id s.commitTS x.snapshot.startTS start total s.table)
      (commitUndoBuffer s.commitTS)
      (TransactionState.Stamping x.id s.commitTS x.snapshot.startTS start total s.table)
      (TransactionState.Stamping x.id s.commitTS x.snapshot.startTS start total s.table) := by
  have hb := h.bounds x hx
  have hlt : startTransactionId < invalidTransaction := by decide
  have hpos : 0 < startTransactionId := by decide
  exact commitUndoBuffer_stamping (hts.trans hlt).ne x.snapshot.id_lt.ne (Nat.succ_pos _)
    (hpos.trans_le hb.1) (h.updates_own hx hw)

theorem Inv.commit (h : Inv s) (hx : x ∈ s.active) (hs : s.commit x = some s') :
    Effect s x {x.id, s.commitTS} s' ∧ Inv s' := by
  obtain ⟨hw, hts, s₁, hs₁, rfl⟩ := withTimestamp_eq_some hs
  obtain ⟨t, ht, rfl⟩ := map_eq_some_iff.mp hs₁
  obtain ⟨start, total, hwhole⟩ := h.whole hall hx
  have hcommit : Triple (TransactionState.Whole x.id x.snapshot.startTS start total s.table)
      (TransactionState.commit x.id s.commitTS) (fun _ => True)
      (TransactionState.Stamping x.id s.commitTS x.snapshot.startTS start total s.table) :=
    ((commitLocalTable_whole x.snapshot.id_lt.ne).consequence (fun _ => id)
      (fun _ _ => trivial) fun _ h' => h'.stamping _ fun hc => h.insertion_ne_commitTS hts hc).andThen
      ((h.commitUndoBuffer hx hw hts).consequence (fun _ => id) (fun _ _ => trivial) fun _ => id)
  have hstamp := hcommit.result hwhole ht
  have heffect : Effect s x {x.id, s.commitTS}
      { s with table := t.table, lastTimestamp := s.commitTS, active := s.clear x.id } :=
    ⟨hstamp.sound, hstamp.same, fun y hy hid => h.foreign_commitTS hx hy hid (hall y hy) hts,
      fun v hv => hv.imp_right fun he => .inr (lt_of_eq_of_lt he hts),
      fun y hy _ hr => absurd (hall y hy) hr, fun hP => hstamp.updates fun _ _ => hP _,
      fun y hid => by simp [mem_clear, hid], Nat.le_succ _, rfl⟩
  have hgone : ∀ y ∈ s.clear x.id, y.id ≠ x.id := fun y hy => (mem_clear.mp hy).2
  refine ⟨heffect, h.of_effect hx heffect ?_ (fun y hy hid => absurd hid (hgone y hy)) (fun {idx row c} hc hV => ?_)
    (hstamp.updates (fun v hv => ⟨hv.1, fun y hy hid => absurd hid.symm (hgone y hy)⟩) ?_)
    (fun y hy hid => absurd hid (hgone y hy)) (fun y hy _ hr => absurd (hall y hy) hr)
    ⟨none, fun y => ?_, _, _, hstamp.ordered.unwinds hstamp.sound hstamp.unwinds.capacity⟩⟩
  · exact h.toNumbered.withTimestamp hall hts (clear_nodup h.nodup) fun y hy =>
      ⟨y, (mem_clear.mp hy).1, rfl, .inl rfl⟩
  · rcases hV with he | he
    · exact .inr ⟨he, fun y hy _ => hgone y hy⟩
    · exact .inl (le_of_eq he)
  · exact h.updates_after hx heffect fun y hy hid => absurd hid (hgone y hy)
  · refine iff_of_false (by simp) fun hy => hy.2 (hall y (mem_clear.mp hy.1).1)

theorem Inv.raise (t : TransactionState α) (progress : Progress) (h : Inv s) (hx : x ∈ s.active)
    (hts : s.commitTS < startTransactionId)
    (hprogress : progress = .raised none ∨ progress = .raised (some s.commitTS))
    (hV : (x.after t progress).own ⊆ {x.id, s.commitTS})
    (hsound : t.table.SoundBut ∅) (hsame : s.table.SameFor (x.after t progress).own t.table)
    (hunwinds : Unwinds (x.after t progress).own start total t.table t.undoBuffer)
    (hrecords : ∀ record ∈ t.undoBuffer, record.Good (x.after t progress).own x.id x.snapshot.startTS t.table)
    (hupd : ∀ {P : Nat → Nat → Prop}, (∀ v ∈ (x.after t progress).own, P x.id v) → s.table.Updates P →
      t.table.Updates P) :
    let s' : TableRun α :=
      { s with table := t.table, lastTimestamp := s.commitTS, active := s.put (x.after t progress) }
    Effect s x (x.after t progress).own s' ∧ Inv s' := by
  intro s'
  have hself : ∀ y ∈ s'.active, y.id = x.id → y = x.after t progress := fun y hy hid =>
    (mem_put hy).resolve_left fun hc => hc.2 hid
  have hnot : (x.after t progress).progress ≠ .working := by
    show progress ≠ .working
    rcases hprogress with rfl | rfl <;> simp
  have heffect : Effect s x (x.after t progress).own s' := by
    refine ⟨hsound, hsame, fun y hy hid => ?_, fun v hv => (hV hv).imp_right fun he =>
      .inr (lt_of_eq_of_lt he hts), fun y hy _ hr => absurd (hall y hy) hr, fun hP => hupd fun v _ => hP v,
      fun y hid => mem_put_of_ne hid, Nat.le_succ _, rfl⟩
    have hf := h.foreign_commitTS hx hy hid (hall y hy) hts
    exact ⟨fun v hv hm => hf.own v hv (hV hm), fun v hv hm => hf.seen v hv (hV hm)⟩
  refine ⟨heffect, h.of_effect hx heffect ?_ (fun y hy hid hw => absurd (hself y hy hid ▸ hw) hnot)
    (fun {idx row c} hc hm => ?_) (hupd (fun v hv => ?_) ?_) (fun y hy hid => ?_)
    (fun y hy _ hr => absurd (hall y hy) hr) ⟨some (x.after t progress), fun y => ?_, start, total, hunwinds⟩⟩
  · refine h.toNumbered.withTimestamp hall hts ((congrArg List.Nodup put_ids).mpr h.nodup) fun y hy => ?_
    rcases mem_put hy with ⟨hy, -⟩ | rfl
    · exact ⟨y, hy, rfl, .inl rfl⟩
    · refine ⟨x, hx, rfl, .inr fun ts hp => ?_⟩
      rcases hprogress with rfl | rfl
      · cases hp
      · exact (some.inj (Progress.raised.inj hp)).symm
  · rcases hV hm with he | he
    · exact .inr ⟨he, fun y hy hw hid => hnot (hself y hy hid ▸ hw)⟩
    · exact .inl (le_of_eq he)
  · refine ⟨(h.bounds x hx).2.1, fun y hy hid => ?_⟩
    rw [hself y hy hid.symm]
    exact hv
  · refine h.updates_after hx heffect fun y hy hid => ?_
    rw [hself y hy hid, own_of_working (hall x hx)]
    exact Set.singleton_subset_iff.mpr id_mem_own
  · obtain rfl := hself y hy hid
    exact ⟨hrecords, fun hw => absurd hw hnot⟩
  · refine ⟨fun he => ?_, fun ⟨hm, hy⟩ => ?_⟩
    · cases he
      exact ⟨mem_put_self hx rfl, hnot⟩
    · rcases mem_put hm with ⟨hm, -⟩ | rfl
      · exact absurd (hall y hm) hy
      · rfl

theorem Inv.raiseAppending (h : Inv s) (hx : x ∈ s.active) (hs : s.raiseAppending x n = some s') :
    Effect s x {x.id} s' ∧ Inv s' := by
  obtain ⟨hw, hts, s₁, hs₁, rfl⟩ := withTimestamp_eq_some hs
  obtain ⟨t, ht, rfl⟩ := map_eq_some_iff.mp hs₁
  obtain ⟨start, total, hwhole⟩ := h.whole hall hx
  have happ := (commitLocalTable_whole x.snapshot.id_lt.ne).points hwhole hwhole.toAppending (mem_of_getElem? ht)
  exact h.raise hall t (.raised none) hx hts (.inl rfl) (Set.singleton_subset_iff.mpr (.inl rfl))
    happ.sound happ.same happ.unwinds happ.records fun _ hP => happ.updates hP

theorem Inv.raiseStamping (h : Inv s) (hx : x ∈ s.active) (hs : s.raiseStamping x n = some s') :
    Effect s x {x.id, s.commitTS} s' ∧ Inv s' := by
  obtain ⟨hw, hts, s₁, hs₁, rfl⟩ := withTimestamp_eq_some hs
  obtain ⟨t₁, ht₁, hs₁⟩ := bind_eq_some_iff.mp hs₁
  obtain ⟨t, ht, rfl⟩ := map_eq_some_iff.mp hs₁
  obtain ⟨start, total, hwhole⟩ := h.whole hall hx
  have happ := ((commitLocalTable_whole x.snapshot.id_lt.ne).result hwhole ht₁).stamping
    s.commitTS fun hc => h.insertion_ne_commitTS hts hc
  have hstamp := (h.commitUndoBuffer hx hw hts).points happ happ (mem_of_getElem? ht)
  exact h.raise hall t (.raised (some s.commitTS)) hx hts (.inr rfl) subset_rfl
    hstamp.sound hstamp.same hstamp.unwinds hstamp.records fun hnew hP =>
      hstamp.updates (fun _ _ => hnew _ (.inr rfl)) hP

end Commit

section Rollback

def undone (x : Writer α) : Set Nat := insert invalidTransaction x.own

theorem Inv.insertion_ne_invalid (h : Inv s)
    (hc : s.table.cell idx row = some c) : c.insertion ≠ invalidTransaction := by
  have htime := h.time
  have hissued := h.issued
  rcases h.dated hc with hle | ⟨-, hle, -⟩ <;> omega

theorem Inv.working_of_ne (h : Inv s) (hx : x ∈ s.active) (hraised : x.progress ≠ .working) (hy : y ∈ s.active)
    (hid : y.id ≠ x.id) : y.progress = .working := by
  by_contra hw
  obtain ⟨r, hr⟩ := h.unwindable
  have hrx := (hr.raised x).mpr ⟨hx, hraised⟩
  have hry := (hr.raised y).mpr ⟨hy, hw⟩
  exact hid (congrArg Writer.id (some.inj (hry.symm.trans hrx)))

theorem Writer.mem_own {v : Nat} (hv : v ∈ x.own) : v = x.id ∨ ∃ ts, x.progress = .raised (some ts) ∧ v = ts := by
  unfold own at hv
  split at hv
  case h_1 ts hp => exact hv.imp_right fun he => ⟨ts, hp, he⟩
  case h_2 => exact .inl hv

section

variable (h : Inv s) (hx : x ∈ s.active)

include h hx

theorem Inv.foreign_undone (hy : y ∈ s.active) (hid : y.id ≠ x.id) :
    y.Foreign (undone x) := by
  have hf := h.foreign_id hx hy hid
  have htime := h.time
  have hissued := h.issued
  have hb := h.bounds y hy
  have hstamp : ∀ ts, x.progress = .raised (some ts) → ts ∉ y.own ∧ y.snapshot.startTS < ts := by
    intro ts hp
    obtain ⟨hpos, hle, hall⟩ := h.stamped x hx ts hp
    refine ⟨fun hm => ?_, hall y hy hid⟩
    have hw := h.working_of_ne hx (by simp [hp]) hy hid
    rw [own_of_working hw] at hm
    obtain rfl : ts = y.id := hm
    omega
  refine ⟨fun v hv hm => ?_, fun v hv hm => ?_⟩
  · rcases hm with rfl | hm
    · exact (h.own_ne hy hv).2 rfl
    · rcases Writer.mem_own hm with rfl | ⟨ts, hp, rfl⟩
      · exact hf.own _ hv rfl
      · exact (hstamp _ hp).1 hv
  · rcases hm with rfl | hm
    · omega
    · rcases Writer.mem_own hm with rfl | ⟨ts, hp, rfl⟩
      · exact hf.seen _ hv rfl
      · exact absurd (hstamp _ hp).2 (Nat.not_lt.mpr hv)

theorem Inv.restoring : Restoring (undone x) x.id s.table s.table x.undoBuffer := by
  refine ⟨fun idx => (h.sound idx).mono (Set.empty_subset _), .refl, fun record hmem => ?_, id, fun _ => .refl⟩
  have hgood := h.records x hx record hmem
  cases record with
  | insertInfo => trivial
  | deleteInfo idx row n =>
    have hmark : (s.table.group idx).Marked x.own row :=
      hgood.2.marked (h.sound idx).laid.layout (fun hm => (h.own_ne hx hm).1 rfl)
      fun hm => (h.own_ne hx hm).2 rfl
    exact ⟨hgood.1, NodeGroup.Marked.mono hmark (Set.subset_insert _ _)⟩
  | updateInfo => exact hgood

theorem Inv.rollback_table :
    (s.rollback x).table.SoundBut ∅ ∧ s.table.SameFor (undone x) (s.rollback x).table ∧
      (∀ {P}, s.table.Updates P → (s.rollback x).table.Updates P) ∧
      (∀ idx, Redeletes (undone x) {invalidTransaction} (s.table.group idx).chunkedGroups
        ((s.rollback x).table.group idx).chunkedGroups) ∧
      (∀ {idx row : Nat} {c : Cell α}, (s.rollback x).table.cell idx row = some c → c.insertion ∉ undone x) ∧
      ∃ r, (s.rollback x).Unwindable r := by
  obtain ⟨r, hr⟩ := h.unwindable
  obtain ⟨start, total, hu⟩ := hr.unwinds
  have hrest := h.restoring hx
  have hmem : x.id ∈ undone x := .inr id_mem_own
  have hclear : ∀ y, y ∈ (s.rollback x).active ↔ y ∈ s.active ∧ y.id ≠ x.id := fun y => mem_clear
  by_cases hw : x.progress = .working
  · obtain ⟨hdone, hp⟩ := hrest.rollback hmem (.inl rfl) (h.insertGroup_eq_none hx hw)
    have hout : ∀ {idx row : Nat} {c : Cell α}, (s.rollback x).table.cell idx row = some c →
        c.insertion ∉ undone x := by
      intro idx row c hc hm
      obtain ⟨c₀, hc₀, hins⟩ := hp.insertion hc
      rw [hins.resolve_right (by simp), undone, own_of_working hw] at hm
      exact hm.elim (h.insertion_ne_invalid hc₀) (h.insertion_ne hx hw hc₀)
    refine ⟨hdone.sound.of_no_rows hout, hdone.same, hdone.updates, hdone.deletions, hout, r, fun y => ?_, start, total,
      hu.inPlace hp (by simp)⟩
    rw [hr.raised y, hclear, and_assoc]
    refine and_congr_right fun hy => ⟨fun hn => ⟨fun hid => ?_, hn⟩, And.right⟩
    exact hn (h.eq_of_id hy hx hid ▸ hw)
  · obtain rfl : r = some x := (hr.raised x).mpr ⟨hx, hw⟩
    have hunwinds : Unwinds (undone x) start total s.table x.undoBuffer := by
      refine { hu with rows := fun hc => ?_ }
      rw [← hu.rows hc]
      exact ⟨fun hm => hm.resolve_left (h.insertion_ne_invalid hc), .inr⟩
    have hdone := (Undoing.mk hrest hunwinds).rollback hmem (.inl rfl)
      fun hm => hm.elim (by decide) fun hm => (h.own_ne hx hm).1 rfl
    obtain ⟨hsound, hend, hout⟩ := hdone.done
    refine ⟨hsound, hdone.same, hdone.updates, hdone.deletions, hout, none, fun y => ?_, start, total, hend⟩
    refine iff_of_false (by simp) fun ⟨hm, hy⟩ => ?_
    obtain ⟨hm, hid⟩ := (hclear y).mp hm
    exact hid (congrArg Writer.id (some.inj ((hr.raised y).mpr ⟨hm, hy⟩)).symm)

theorem Inv.rollback : Effect s x (undone x) (s.rollback x) ∧ Inv (s.rollback x) := by
  obtain ⟨hsound, hsame, hupd, -, hout, hunw⟩ := h.rollback_table hx
  have hgone : ∀ y ∈ (s.rollback x).active, y ∈ s.active ∧ y.id ≠ x.id := fun y hy => mem_clear.mp hy
  have heffect : Effect s x (undone x) (s.rollback x) := by
    refine ⟨hsound, hsame, fun y hy hid => h.foreign_undone hx hy hid, fun v hv => ?_,
      fun y hy hid hr idx row c hc hm => ?_, fun _ => hupd,
      fun y hid => ⟨fun hy => (hgone y hy).1, fun hy => mem_clear.mpr ⟨hy, hid⟩⟩, le_rfl, rfl⟩
    · rcases hv with he | hv
      · exact .inr (.inl he)
      · refine (Writer.mem_own hv).imp_right fun ⟨ts, hp, he⟩ => .inr ?_
        rw [he]
        exact (h.stamped x hx ts hp).2.1.trans_lt h.time
    · have hw := h.working_of_ne hy hr hx (Ne.symm hid)
      rw [undone, own_of_working hw] at hm
      exact hm.elim (h.insertion_ne_invalid hc) (h.insertion_ne hx hw hc)
  refine ⟨heffect, h.of_effect hx heffect ?_ (fun y hy hid => absurd hid (hgone y hy).2)
    (fun hc hm => absurd hm (hout hc)) (hupd ?_) (fun y hy hid => absurd hid (hgone y hy).2)
    (fun _ _ _ _ => hout) hunw⟩
  · exact ⟨h.time, h.issued, clear_nodup h.nodup, fun y hy => h.bounds y (hgone y hy).1, fun y hy ts hp =>
      (h.stamped y (hgone y hy).1 ts hp).imp_right (And.imp_right fun hall z hz => hall z (hgone z hz).1)⟩
  · exact h.updates_after hx heffect fun y hy hid => absurd hid (hgone y hy).2

end

end Rollback

section Snapshots

theorem snapshot?_eq_some {r : Snapshot} (hr : s.snapshot? id = some r) :
    s.lastTimestamp < startTransactionId ∧ startTransactionId ≤ id ∧ id < invalidTransaction ∧
      r.startTS = s.lastTimestamp ∧ r.id = id := by
  unfold snapshot? at hr
  split_ifs at hr with hg
  cases hr
  exact ⟨hg.1, hg.2.1, hg.2.2, rfl, rfl⟩

/-- A writer that has written nothing joins, or takes the place of another such. -/
theorem Inv.join {w : Writer α} {l : List (Writer α)} {last : Nat} (h : Inv s)
    (hall : ∀ y ∈ s.active, y.progress.isStamping = false) (hlast : s.lastTransactionID ≤ last)
    (hissued : last < invalidTransaction) (hnodup : (l.map Writer.id).Nodup)
    (hmem : ∀ y ∈ l, y ∈ s.active ∨ y = w)
    (hraised : ∀ r, s.Unwindable r → ∀ y, r = some y ↔ y ∈ l ∧ y.progress ≠ .working)
    (hw : w.progress = .working) (hempty : w.undoBuffer = []) (hstart : w.snapshot.startTS = s.lastTimestamp)
    (hid : startTransactionId ≤ w.id ∧ w.id ≤ last)
    (hnew : s.lastTransactionID < w.id ∨ ∃ x ∈ s.active, x.progress = .working ∧ x.id = w.id) :
    Inv { s with lastTransactionID := last, active := l } := by
  refine ⟨⟨h.time, ⟨h.issued.1.trans hlast, hissued⟩, hnodup, fun y hy => ?_, fun y hy ts hp => ?_⟩,
    h.sound, fun hc => ?_, fun idx => ?_, fun y hy => ?_, fun y hy hy' => ?_, ?_⟩
  · rcases hmem y hy with hy | rfl
    · obtain ⟨h₁, h₂, h₃⟩ := h.bounds y hy
      exact ⟨h₁, h₂.trans hlast, h₃⟩
    · exact ⟨hid.1, hid.2, hstart.le⟩
  · rcases hmem y hy with hy | rfl
    · have hst := hall y hy
      rw [hp] at hst
      cases hst
    · cases hw.symm.trans hp
  · refine (h.dated hc).imp_right fun ⟨h₁, h₂, h₃⟩ => ⟨h₁, h₂.trans hlast, fun y hy hy' => ?_⟩
    rcases hmem y hy with hy | rfl
    · exact h₃ y hy hy'
    · rcases hnew with hlt | ⟨x, hx, hxw, hxid⟩
      · omega
      · exact hxid ▸ h₃ x hx hxw
  · refine mono (h.updates idx) fun u ⟨h₁, h₂⟩ => ⟨h₁.trans hlast, fun y hy hc => ?_⟩
    rcases hmem y hy with hy | rfl
    · exact h₂ y hy hc
    · rcases hnew with hlt | ⟨x, hx, hxw, hxid⟩
      · omega
      · rw [own_of_working hw, ← hxid, ← own_of_working hxw]
        exact h₂ x hx (hc.trans hxid.symm)
  · rcases hmem y hy with hy | rfl
    · exact h.records y hy
    · simp [hempty]
  · rcases hmem y hy with hy | rfl
    · exact h.pending y hy hy'
    · simp [hempty]
  · obtain ⟨r, hr⟩ := h.unwindable
    exact ⟨r, hraised r hr, hr.unwinds⟩

theorem Inv.beginTransaction (h : Inv s) (hall : ∀ y ∈ s.active, y.progress.isStamping = false)
    (hs : s.beginTransaction = some s') : (s'.table = s.table ∧ ∀ y ∈ s.active, y ∈ s'.active) ∧ Inv s' := by
  obtain ⟨r, hr, rfl⟩ := map_eq_some_iff.mp hs
  obtain ⟨-, hlow, hhigh, hstart, hid⟩ := snapshot?_eq_some hr
  have hmem : ∀ y, y ∈ s.active ++ [{ snapshot := r }] ↔ y ∈ s.active ∨ y = { snapshot := r } := by simp
  have hnew : ({ snapshot := r } : Writer α).id = s.lastTransactionID + 1 := hid
  refine ⟨⟨rfl, fun y hy => (hmem y).mpr (.inl hy)⟩, h.join hall (Nat.le_succ _) hhigh ?_
    (fun y => (hmem y).mp) (fun r' hr' y => ?_) rfl rfl hstart ⟨hnew ▸ hlow, hnew.le⟩ (.inl (by omega))⟩
  · rw [map_append, nodup_append]
    refine ⟨h.nodup, by simp, fun i hi j hj => ?_⟩
    obtain ⟨y, hy, rfl⟩ := mem_map.mp hi
    obtain rfl : j = s.lastTransactionID + 1 := by simpa [hnew] using hj
    have := (h.bounds y hy).2.1
    omega
  · rw [hr'.raised y, hmem]
    refine and_congr_left fun hy => (or_iff_left ?_).symm
    rintro rfl
    exact hy rfl

theorem Inv.refreshSnapshot (h : Inv s) (hx : x ∈ s.active)
    (hall : ∀ y ∈ s.active, y.progress.isStamping = false) (hs : s.refreshSnapshot x = some s') :
    (s'.table = s.table ∧ ∀ y ∈ s.active, y.id ≠ x.id → y ∈ s'.active) ∧ Inv s' := by
  unfold TableRun.refreshSnapshot at hs
  split_ifs at hs with hg
  obtain ⟨hw, hwritten⟩ := hg
  obtain ⟨r, hr, rfl⟩ := map_eq_some_iff.mp hs
  obtain ⟨-, -, -, hstart, hid⟩ := snapshot?_eq_some hr
  have hempty : x.undoBuffer = [] := by
    simp only [hasWritten, Bool.or_eq_false_iff] at hwritten
    simpa using hwritten.1
  have hid' : ({ x with snapshot := r } : Writer α).id = x.id := hid
  have hb := h.bounds x hx
  exact ⟨⟨rfl, fun y hy hne => (mem_put_of_ne (hid'.symm ▸ hne)).mpr hy⟩,
    h.join hall le_rfl h.issued.2 ((congrArg List.Nodup put_ids).mpr h.nodup)
      (fun y hy => (mem_put hy).imp_left And.left)
      (fun r' hr' => hr'.put h.toNumbered hx hw { x with snapshot := r } hid' hw) hw hempty hstart
      ⟨hb.1.trans hid'.ge, hid'.le.trans hb.2.1⟩ (.inr ⟨x, hx, hw, hid'.symm⟩)⟩

end Snapshots

def Action.actor : Action α → Option Nat
  | .begin => none
  | .refreshSnapshot id | .execute id _ | .commit id | .raiseAppending id _ | .raiseStamping id _
  | .rollback id => some id

/-- A careful step: the table stays, or changes in versions that are foreign to the others. -/
theorem Inv.step {a : Action α} (h : Inv s) (hs : guarded careful step s a = some s') :
    Inv s' ∧ ((s'.table = s.table ∧ ∀ y ∈ s.active, Action.actor a ≠ some y.id → y ∈ s'.active) ∨
      ∃ x V, Action.actor a = some x.id ∧ Effect s x V s') := by
  obtain ⟨hc, hs⟩ := guarded_eq_some.mp hs
  cases a with try obtain ⟨x, hx, rfl, hstep⟩ := act_eq_some hs
  | begin =>
    have hall : ∀ y ∈ s.active, y.progress.isStamping = false := by simpa [careful] using hc
    obtain ⟨⟨htable, hmem⟩, hinv⟩ := h.beginTransaction hall hs
    exact ⟨hinv, .inl ⟨htable, fun y hy _ => hmem y hy⟩⟩
  | refreshSnapshot id =>
    have hall : ∀ y ∈ s.active, y.progress.isStamping = false := by simpa [careful] using hc
    obtain ⟨⟨htable, hmem⟩, hinv⟩ := h.refreshSnapshot hx hall hstep
    exact ⟨hinv, .inl ⟨htable, fun y hy hne => hmem y hy fun he => hne (congrArg some he.symm)⟩⟩
  | execute id op =>
    obtain ⟨heffect, hinv⟩ := h.execute hx hstep
    exact ⟨hinv, .inr ⟨x, _, rfl, heffect⟩⟩
  | commit id =>
    have hall : ∀ y ∈ s.active, y.progress = .working := by simpa [careful] using hc
    obtain ⟨heffect, hinv⟩ := h.commit hall hx hstep
    exact ⟨hinv, .inr ⟨x, _, rfl, heffect⟩⟩
  | raiseAppending id n =>
    have hall : ∀ y ∈ s.active, y.progress = .working := by simpa [careful] using hc
    obtain ⟨heffect, hinv⟩ := h.raiseAppending hall hx hstep
    exact ⟨hinv, .inr ⟨x, _, rfl, heffect⟩⟩
  | raiseStamping id n =>
    have hall : ∀ y ∈ s.active, y.progress = .working := by simpa [careful] using hc
    obtain ⟨heffect, hinv⟩ := h.raiseStamping hall hx hstep
    exact ⟨hinv, .inr ⟨x, _, rfl, heffect⟩⟩
  | rollback id =>
    obtain ⟨x, hfind, rfl⟩ := map_eq_some_iff.mp hs
    obtain ⟨hx, rfl⟩ := writer_eq_some hfind
    obtain ⟨heffect, hinv⟩ := h.rollback hx
    exact ⟨hinv, .inr ⟨x, _, rfl, heffect⟩⟩

end TableRun

end Rag3db.Storage
