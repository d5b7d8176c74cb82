import Rag3db.Transaction.GateInvariant

open List

namespace Rag3db.Transaction.TransactionManager

variable {s s' : TransactionManager} {i : ThreadId} {g : Gate} {x y : ActiveTransaction}

/-- What an effect may change of a transaction that stays open. -/
structure Kept (s : TransactionManager) (x y : ActiveTransaction) : Prop where
  id : y.id = x.id
  type : y.type = x.type
  floor : y.snapshotFloorTS = x.snapshotFloorTS ∨ y.snapshotFloorTS = s.lastTimestamp
  raised : x.commitRaised = true → y.commitRaised = true
  forced : (x.preCommitActions = true → x.forceCheckpoint = true) → y.preCommitActions = true → y.forceCheckpoint = true
  flags : s.busy x.id = true → y.forceCheckpoint = x.forceCheckpoint ∧ y.preCommitActions = x.preCommitActions

/-- A transaction that has just begun, and what the code has checked for it. -/
structure Begun (s : TransactionManager) (y : ActiveTransaction) : Prop where
  eq : y = .start (s.lastTransactionID + 1) y.type s.lastTimestamp
  held : s.held (y.type = .readOnly) = false
  refuses : s.refuses = false
  stage : y.type = .recovery ↔ s.opened = false

theorem Kept.refl (s : TransactionManager) (x : ActiveTransaction) : s.Kept x x :=
  ⟨rfl, rfl, .inl rfl, fun h => h, fun h => h, fun _ => ⟨rfl, rfl⟩⟩

theorem Tweak.kept (h : s.Tweak x y) (hb : s.busy x.id = false) : s.Kept x y :=
  ⟨h.id, h.type, h.floor, fun hr => h.raised.trans hr, h.forced, fun hb' => by rw [hb] at hb'; cases hb'⟩

/-- How an effect changes the list of open transactions. -/
inductive ListStep (s s' : TransactionManager) : Prop
  | same : s'.activeTransactions = s.activeTransactions → s'.lastTransactionID = s.lastTransactionID → ListStep s s'
  | cleared (t : TransactionId) : s'.activeTransactions = s.activeTransactions.filter (·.id ≠ t) →
      s'.lastTransactionID = s.lastTransactionID → ListStep s s'
  | changed (t : TransactionId) (f : ActiveTransaction → ActiveTransaction) :
      (∀ y ∈ s.activeTransactions, y.id = t → s.Kept y (f y)) →
      s'.activeTransactions = s.activeTransactions.map (fun x => if x.id = t then f x else x) →
      s'.lastTransactionID = s.lastTransactionID → ListStep s s'
  | begun (y : ActiveTransaction) : s.Begun y → s'.activeTransactions = s.activeTransactions ++ [y] →
      s'.lastTransactionID = s.lastTransactionID + 1 → ListStep s s'

theorem ListStep.raise (h : s'.activeTransactions = s.activeTransactions.map fun y =>
    if y.id = x.id then { y with commitRaised := true } else y)
    (hl : s'.lastTransactionID = s.lastTransactionID) : ListStep s s' :=
  .changed x.id (fun y => { y with commitRaised := true })
    (fun _ _ _ => ⟨rfl, rfl, .inl rfl, fun _ => rfl, fun h => h, fun _ => ⟨rfl, rfl⟩⟩) h hl

theorem Effect.list (h : Effect i s s') : ListStep s s' := by
  cases h with
  | begin type hheld href hstage =>
    exact .begun (.start (s.lastTransactionID + 1) type s.lastTimestamp) ⟨rfl, hheld, href, hstage⟩ rfl rfl
  | modify t f hf hb => exact .changed t f (fun y hy ht => (hf y hy ht).kept (ht ▸ hb)) rfl rfl
  | clear t => exact .cleared t rfl rfl
  | giveUp p phase => exact .same rfl rfl
  | commitInQueue x | commitForced x phase | commitAlone x phase | commitPlain x =>
    exact .cleared x.id rfl rfl
  | raiseInQueue x appended | raiseAlone x p phase appended | raisePlain x appended =>
    exact .raise rfl rfl
  | write origin phase => exact .same rfl rfl
  | _ => exact .same rfl rfl

theorem Effect.kept (h : Effect i s s') (hy : y ∈ s'.activeTransactions) :
    (∃ x ∈ s.activeTransactions, s.Kept x y) ∨ s.Begun y := by
  cases h.list with
  | same he _ => exact .inl ⟨y, he ▸ hy, .refl s y⟩
  | cleared t he _ => exact .inl ⟨y, mem_of_mem_filter (he ▸ hy), .refl s y⟩
  | changed t f hf he _ =>
    obtain ⟨x, hx, rfl⟩ := mem_map.mp (he ▸ hy)
    refine .inl ⟨x, hx, ?_⟩
    split_ifs with ht
    · exact hf x hx ht
    · exact .refl s x
  | begun z hz he _ =>
    rcases mem_append.mp (he ▸ hy) with hy | hy
    · exact .inl ⟨y, hy, .refl s y⟩
    · obtain rfl := mem_singleton.mp hy
      exact .inr hz

/-- Nothing that writes is open, and the timestamps of the checkpoint bound
those of every reader. -/
structure Quiet (s : TransactionManager) : Prop where
  readers : ∀ x ∈ s.activeTransactions, x.type = .readOnly
  last : s.lastTimestamp = s.checkpointTS
  oldest : s.oldestReaderTS ≤ s.lastTimestamp
  floors : ∀ x ∈ s.activeTransactions, s.oldestReaderTS ≤ x.snapshotFloorTS

theorem foldl_floor_le (xs : List ActiveTransaction) (oldest : Nat) : xs.foldl (fun oldest (x : ActiveTransaction) =>
        if x.snapshotFloorTS < oldest then x.snapshotFloorTS else oldest) oldest ≤ oldest ∧
      ∀ x ∈ xs, xs.foldl (fun oldest (x : ActiveTransaction) =>
        if x.snapshotFloorTS < oldest then x.snapshotFloorTS else oldest) oldest ≤ x.snapshotFloorTS := by
  induction xs generalizing oldest with
  | nil => simp
  | cons x xs ih =>
    obtain ⟨hle, hall⟩ := ih (if x.snapshotFloorTS < oldest then x.snapshotFloorTS else oldest)
    simp only [forall_mem_cons]
    refine ⟨hle.trans ?_, hle.trans ?_, hall⟩ <;> split_ifs <;> omega

theorem quiet_startWriting (h : ∀ x ∈ s.activeTransactions, x.type = .readOnly) (origin : Origin) :
    (s.startWriting i origin).Quiet := by
  obtain ⟨hle, hall⟩ := foldl_floor_le s.activeTransactions s.lastTimestamp
  exact ⟨h, rfl, hle, hall⟩

/-- The gate, what runs behind it, and who may be open when. -/
structure GateInvariant (s : TransactionManager) : Prop where
  gate : ∃ g, s.ShowsGate g
  stage : ∀ x ∈ s.activeTransactions, x.type = .recovery ↔ s.opened = false
  requested : s.autoCheckpointRequested = true → s.opened = true
  failed : s.checkpointFailed = true → ∀ x ∈ s.activeTransactions, x.type = .readOnly
  writing : s.checkpointWriting = true → s.Quiet

theorem ShowsGate.not_calling_writing (h : s.ShowsGate g) (hc : s.commitQueuedNow = true) :
    s.checkpointWriting = false := by
  have hcalling := hc.symm.trans h.calling
  rw [show s.checkpointWriting = g.writing from h.writing]
  cases g with
  | opened => rfl
  | requested => rfl
  | held i w =>
    cases w with
    | writing => cases hcalling
    | queued => rfl
    | queueDone => rfl
    | stopping => rfl

theorem ShowsGate.pending_of_writing (h : s.ShowsGate g) (hw : s.checkpointWriting = true) :
    s.checkpointPending = true := by
  have hwriting := hw.symm.trans h.writing
  rw [show s.checkpointPending = g.closed from h.pending]
  cases g with
  | opened => cases hwriting
  | requested => rfl
  | held i w => rfl

theorem Begun.readOnly_of_writing (h : s.Begun y) (hg : s.ShowsGate g) (hw : s.checkpointWriting = true) :
    y.type = .readOnly := by
  have := h.held
  simpa [TransactionManager.held, hg.pending_of_writing hw, hw] using this

/-- The open transactions of a quiet state stay readers whose floor the
checkpoint knows. -/
theorem Effect.quiet (h : Effect i s s') (hs : s.GateInvariant) (hw : s.checkpointWriting = true)
    (hlast : s'.lastTimestamp = s.lastTimestamp) (hts : s'.checkpointTS = s.checkpointTS)
    (hold : s'.oldestReaderTS = s.oldestReaderTS) : s'.Quiet := by
  obtain ⟨g, hg⟩ := hs.gate
  have hq := hs.writing hw
  refine ⟨fun y hy => ?_, by rw [hlast, hts, hq.last], by rw [hold, hlast]; exact hq.oldest, fun y hy => ?_⟩
  · rcases h.kept hy with ⟨x, hx, hk⟩ | hb
    · exact hk.type.trans (hq.readers x hx)
    · exact hb.readOnly_of_writing hg hw
  · rw [hold]
    rcases h.kept hy with ⟨x, hx, hk⟩ | hb
    · rcases hk.floor with hf | hf
      · exact hf ▸ hq.floors x hx
      · exact hf ▸ hq.oldest
    · rw [hb.eq]
      exact hq.oldest

theorem readers_of_othersLeft {origin : Origin} (h : s.othersLeft (.checkpoint origin) = true) :
    ∀ x ∈ s.activeTransactions, x.type = .readOnly := by
  intro x hx
  have := all_eq_true.mp h x hx
  simpa [Purpose.staying, Purpose.readersToo] using this

theorem alone_of_othersLeft {p : Purpose} (hp : p.staying = some x.id) (hr : p.readersToo = true)
    (h : s.othersLeft p = true) : s.activeTransactions.filter (·.id ≠ x.id) = [] := by
  refine filter_eq_nil_iff.mpr fun y hy => ?_
  have := all_eq_true.mp h y hy
  simpa [hp, hr] using this

theorem GateInvariant.readers_of_requested (hs : s.GateInvariant) (hr : s.autoCheckpointRequested = true)
    (hw : s.hasActiveWriteTransactionNoLock = false) :
    ∀ x ∈ s.activeTransactions, x.type = .readOnly := by
  intro x hx
  have hstage := hs.stage x hx
  rw [hs.requested hr] at hstage
  have hwrite := any_eq_false.mp hw x hx
  cases ht : x.type with
  | readOnly => rfl
  | write => simp [ht] at hwrite
  | recovery => simp [ht] at hstage

/-- What an effect does to the checkpoint being written: there is none after
it, or its timestamps stay, or a new one has just started. -/
inductive WritingStep (s s' : TransactionManager) : Prop
  | none : s'.checkpointWriting = false → WritingStep s s'
  | goesOn : s.checkpointWriting = true → s'.lastTimestamp = s.lastTimestamp →
      s'.checkpointTS = s.checkpointTS → s'.oldestReaderTS = s.oldestReaderTS → WritingStep s s'
  | starts : s'.Quiet → WritingStep s s'

theorem WritingStep.same (hw : s'.checkpointWriting = s.checkpointWriting)
    (hl : s'.lastTimestamp = s.lastTimestamp) (hc : s'.checkpointTS = s.checkpointTS)
    (ho : s'.oldestReaderTS = s.oldestReaderTS) : WritingStep s s' := by
  cases h : s.checkpointWriting with
  | false => exact .none (hw.trans h)
  | true => exact .goesOn h hl hc ho

theorem GateInvariant.not_writing (hs : s.GateInvariant) (hx : x ∈ s.activeTransactions)
    (ht : x.type ≠ .readOnly) : s.checkpointWriting = false := by
  by_contra hw
  exact ht ((hs.writing (by simpa using hw)).readers x hx)

theorem Effect.writing (h : Effect i s s') (hs : s.GateInvariant) : WritingStep s s' := by
  obtain ⟨g, hg⟩ := hs.gate
  cases h with
  | giveUp p phase hphase hl => exact .none (hg.stopping hphase hl).2.2.2
  | commitInQueue x _ _ _ _ hc | raiseInQueue x appended _ _ _ _ hc =>
    exact .none (hg.not_calling_writing hc)
  | commitForced x phase hphase _ _ _ hl hleft =>
    refine .starts (quiet_startWriting ?_ _)
    show ∀ y ∈ s.activeTransactions.filter (·.id ≠ x.id), _
    rw [alone_of_othersLeft rfl rfl hleft]
    nofun
  | commitAlone x phase hphase _ _ hl | raiseAlone x p phase appended hphase _ _ _ _ hl =>
    exact .none (hg.stopping hphase hl).2.2.2
  | commitPlain x _ hx ht | raisePlain x appended _ hx ht =>
    exact .none (hs.not_writing hx ht)
  | write origin phase hphase hl hleft =>
    refine .starts (quiet_startWriting ?_ _)
    exact readers_of_othersLeft hleft
  | writeRequested t _ _ hr hw =>
    refine .starts (quiet_startWriting ?_ _)
    exact hs.readers_of_requested hr hw
  | complete => exact .none rfl
  | refuse => exact .none rfl
  | fail => exact .none rfl
  | _ => exact .same rfl rfl rfl rfl

theorem Effect.opened (h : Effect i s s') : s'.opened = s.opened ∨ s'.opened = true ∧ s'.activeTransactions = [] := by
  cases h with
  | openDatabase hactive => exact .inr ⟨rfl, hactive⟩
  | _ => exact .inl rfl

theorem Effect.requested (h : Effect i s s') (hr : s'.autoCheckpointRequested = true) :
    s.autoCheckpointRequested = true ∨ s.hasActiveWriteTransactionNoLock = true := by
  cases h with
  | request _ hw => exact .inr hw
  | dropRequest => cases hr
  | cancelRequest => cases hr
  | takeRequest => cases hr
  | writeRequested => cases hr
  | _ => exact .inl hr

theorem Effect.failed (h : Effect i s s') (hg : s.ShowsGate g) (hf : s'.checkpointFailed = true) :
    s.checkpointFailed = true ∨ s.checkpointWriting = true ∧ s'.activeTransactions = s.activeTransactions := by
  cases h with
  | fail origin number carries hl => exact .inr ⟨(hg.held hl rfl).2.2.2, rfl⟩
  | _ => exact .inl hf

theorem Effect.gateInvariant (h : Effect i s s') (hs : s.GateInvariant) : s'.GateInvariant := by
  obtain ⟨g, hg⟩ := hs.gate
  have stage : ∀ x ∈ s'.activeTransactions, x.type = .recovery ↔ s'.opened = false := by
    intro y hy
    rcases h.opened with ho | ⟨_, hnil⟩
    · rw [ho]
      rcases h.kept hy with ⟨x, hx, hk⟩ | hb
      · rw [hk.type]
        exact hs.stage x hx
      · exact hb.stage
    · rw [hnil] at hy
      cases hy
  have failed : s'.checkpointFailed = true → ∀ x ∈ s'.activeTransactions, x.type = .readOnly := by
    intro hf y hy
    rcases h.failed hg hf with hf | ⟨hw, he⟩
    · rcases h.kept hy with ⟨x, hx, hk⟩ | hb
      · exact hk.type.trans (hs.failed hf x hx)
      · have := hb.refuses
        simp [refuses, hf] at this
    · exact (hs.writing hw).readers y (he ▸ hy)
  refine ⟨h.shows hg, stage, fun hr => ?_, failed, fun hw => ?_⟩
  · rcases h.opened with ho | ⟨ho, _⟩
    · rw [ho]
      rcases h.requested hr with hr | hw
      · exact hs.requested hr
      · obtain ⟨x, hx, ht⟩ := any_eq_true.mp hw
        have := hs.stage x hx
        simp_all
    · exact ho
  · cases h.writing hs with
    | none hn => rw [hn] at hw; cases hw
    | goesOn hw hl hc ho => exact h.quiet hs hw hl hc ho
    | starts hq => exact hq

end Rag3db.Transaction.TransactionManager
