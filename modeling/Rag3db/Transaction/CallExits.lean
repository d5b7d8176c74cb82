import Rag3db.Transaction.CheckpointGate

namespace Rag3db.Transaction.TransactionManager

variable (i : ThreadId) (s : TransactionManager)

theorem erase_erase_self (threads : AList fun _ : ThreadId => Wait) : (threads.erase i).erase i = threads.erase i :=
  AList.ext (List.kerase_of_notMem_keys (List.notMem_keys_kerase i threads.nodupKeys))

theorem insert_erase_self (threads : AList fun _ : ThreadId => Wait) (w : Wait) :
    (threads.erase i).insert i w = threads.insert i w := by
  apply AList.ext
  rw [AList.entries_insert]
  exact congrArg _ (congrArg AList.entries (erase_erase_self i threads))

theorem erase_insert_self (threads : AList fun _ : ThreadId => Wait) (w : Wait) :
    (threads.insert i w).erase i = threads.erase i := by
  apply AList.ext
  exact List.kerase_cons_eq rfl

/-- The rest of a call does not depend on where its thread stood before. -/
def Forgets (i : ThreadId) (rest : TransactionManager → TransactionManager) : Prop :=
  ∀ s : TransactionManager, rest (s.leave i) = rest s

theorem forgets_leave : Forgets i fun s => s.leave i := fun s => by
  simp only [leave, erase_erase_self]

theorem forgets_park (w : Wait) : Forgets i fun s => s.park i w := fun s => by
  simp only [leave, park, insert_erase_self]

theorem park_leave (w : Wait) : (s.park i w).leave i = s.leave i := by
  simp only [leave, park, erase_insert_self]

theorem Forgets.park {rest : TransactionManager → TransactionManager} (h : Forgets i rest)
    (w : Wait) : rest (s.park i w) = rest s := by
  rw [← h (s.park i w), park_leave, h]

theorem forgets_returns (t : TransactionId) : Forgets i fun s => s.returns i t := fun s =>
  congrArg (·.emit (.returned t)) (forgets_leave i s)

theorem forgets_startWriting (origin : Origin) : Forgets i fun s => s.startWriting i origin := fun s => by
  simp only [startWriting, emit, leave, TransactionManager.park, insert_erase_self]

theorem forgets_writeRequested (t : TransactionId) :
    Forgets i fun s => s.writeRequestedCheckpointIfLastNoLock i t := fun s =>
  ite_congr rfl (fun _ => forgets_startWriting i _ { s with autoCheckpointRequested := false })
    fun _ => forgets_returns i t s

theorem leave_stopQueuedTurn (p : Purpose) (expired : Bool) :
    (s.leave i).stopQueuedTurn p expired = (s.stopQueuedTurn p expired).map (·.leave i) id := by
  unfold stopQueuedTurn
  rw [apply_ite (Prod.map _ _), apply_ite (Prod.map _ _)]
  rfl

theorem leave_stopOthersTurn (p : Purpose) (expired : Bool) :
    (s.leave i).stopOthersTurn p expired = (s.stopOthersTurn p expired).map (·.leave i) id := by
  unfold stopOthersTurn
  rw [apply_ite (Prod.map _ _), apply_ite (Prod.map _ _), apply_ite (Prod.map _ _), ← leave_stopQueuedTurn]
  rfl

variable {goOn : TransactionManager → TransactionManager}

theorem afterStop_leave (h : Forgets i goOn) (p : Purpose) (r : TransactionManager × Verdict) :
    afterStop i p goOn (r.map (·.leave i) id) = afterStop i p goOn r := by
  obtain ⟨s, verdict⟩ := r
  cases verdict with
  | waits phase => exact forgets_park i _ s
  | timedOut => exact forgets_leave i s
  | passed => exact h s

theorem forgets_stopQueued (h : Forgets i goOn) (p : Purpose) (expired : Bool) :
    Forgets i fun s => afterStop i p goOn (s.stopQueuedTurn p expired) := by
  intro s
  dsimp only
  rw [leave_stopQueuedTurn, afterStop_leave i h]

theorem forgets_stopOthers (h : Forgets i goOn) (p : Purpose) (expired : Bool) :
    Forgets i fun s => afterStop i p goOn (s.stopOthersTurn p expired) := by
  intro s
  dsimp only
  rw [leave_stopOthersTurn, afterStop_leave i h]

theorem leave_stopNew (p : Purpose) : (s.leave i).stopNewTransactionsAndWaitForOthersNoLock p =
      (s.stopNewTransactionsAndWaitForOthersNoLock p).map (·.leave i) id := by
  unfold stopNewTransactionsAndWaitForOthersNoLock
  rw [apply_ite (Prod.map _ _), apply_ite (Prod.map _ _), ← leave_stopOthersTurn, ← leave_stopOthersTurn]
  rfl

theorem forgets_stopNew (h : Forgets i goOn) (p : Purpose) : Forgets i fun s =>
      afterStop i p goOn (s.stopNewTransactionsAndWaitForOthersNoLock p) := by
  intro s
  dsimp only
  rw [leave_stopNew, afterStop_leave i h]

theorem forgets_checkpointNoLock (origin : Origin) : Forgets i fun s => s.checkpointNoLock i origin :=
  forgets_stopNew i (forgets_startWriting i origin) _

theorem forgets_autoCheckpoint (t : TransactionId) : Forgets i fun s => s.autoCheckpoint i t := by
  intro s
  refine ite_congr rfl (fun _ => forgets_writeRequested i t s) fun _ =>
    ite_congr rfl (fun _ => forgets_checkpointNoLock i _ s) fun _ =>
    ite_congr rfl (fun _ => forgets_writeRequested i t s) fun _ => ?_
  exact forgets_writeRequested i t { s with checkpointPending := true, autoCheckpointRequested := true }

theorem forgets_queueDoneTurn (t : TransactionId) (ticket : Nat) :
    Forgets i fun s => s.queueDoneTurn i t ticket := fun s =>
  ite_congr rfl (fun _ => forgets_park i _ s) fun _ =>
    ite_congr rfl (fun _ => forgets_leave i s) fun _ =>
    ite_congr rfl (fun _ => forgets_checkpointNoLock i _ s) fun _ => forgets_returns i t s

theorem forgets_checkpointAfterCommit (x : ActiveTransaction) (exceeds : Bool) :
    Forgets i fun s => s.checkpointAfterCommit i x exceeds := fun s =>
  ite_congr rfl (fun _ => forgets_startWriting i _ { s with checkpointCarriesForcedCommit := true })
    fun _ => ite_congr rfl (fun _ => forgets_autoCheckpoint i _ s) fun _ => forgets_writeRequested i _ s

variable (x : ActiveTransaction) {input : CommitInput} {appended : Bool}

theorem commitNow_raised (h : input.result = .raised appended) : s.commitNow i x input =
      (if x.shouldForceCheckpoint s.config || x.waitsWithoutCheckpoint s.config then
        (s.stamped.raised x appended).allowNewTransactionsNoLock
      else s.stamped.raised x appended).leave i := by
  unfold commitNow
  simp only [h, commitRaises_eq]
  rfl

theorem commitNow_done (h : input.result = .done) : s.commitNow i x input =
      (if x.waitsWithoutCheckpoint s.config then (s.stamped.applied x).allowNewTransactionsNoLock
      else s.stamped.applied x).checkpointAfterCommit i x input.exceeds := by
  unfold commitNow
  simp only [h, commitApplies_eq]
  rfl

theorem forgets_commitNow (input : CommitInput) : Forgets i fun s => s.commitNow i x input := by
  intro s
  dsimp only
  cases h : input.result with
  | raised appended =>
    rw [commitNow_raised i _ x h, commitNow_raised i s x h, apply_ite (leave · i), apply_ite (leave · i)]
    exact ite_congr rfl (fun _ => forgets_leave i (s.stamped.raised x appended).allowNewTransactionsNoLock)
      fun _ => forgets_leave i (s.stamped.raised x appended)
  | done =>
    rw [commitNow_done i _ x h, commitNow_done i s x h, apply_ite (checkpointAfterCommit · i x _),
      apply_ite (checkpointAfterCommit · i x _)]
    exact ite_congr rfl (fun _ => forgets_checkpointAfterCommit i x _ (s.stamped.applied x).allowNewTransactionsNoLock)
      fun _ => forgets_checkpointAfterCommit i x _ (s.stamped.applied x)

theorem forgets_commitOrdinary (input : CommitInput) : Forgets i fun s => s.commitOrdinary i x input := fun s =>
  ite_congr rfl (fun _ => forgets_stopNew i (forgets_commitNow i x input) _ s) fun _ =>
    ite_congr rfl (fun _ => forgets_stopNew i (forgets_commitNow i x input) _ s) fun _ =>
    forgets_commitNow i x input s

theorem commitCalled_raised (h : input.result = .raised appended) :
    s.commitCalled i x input = ((s.stamped.raised x appended).leaveQueue x.id).leave i := by
  unfold commitCalled
  simp only [h, commitRaises_eq]
  rfl

theorem commitCalled_done (h : input.result = .done) : s.commitCalled i x input =
      ({ s.stamped.applied x with checkpointCarriesForcedCommit := true }.leaveQueue x.id).queueDoneTurn i
        x.id s.checkpointsStarted := by
  unfold commitCalled
  simp only [h, commitApplies_eq]
  rfl

theorem forgets_commitCalled (input : CommitInput) : Forgets i fun s => s.commitCalled i x input := by
  intro s
  dsimp only
  cases h : input.result with
  | raised appended =>
    rw [commitCalled_raised i _ x h, commitCalled_raised i s x h]
    exact forgets_leave i ((s.stamped.raised x appended).leaveQueue x.id)
  | done =>
    rw [commitCalled_done i _ x h, commitCalled_done i s x h]
    have hdone := forgets_queueDoneTurn i x.id s.checkpointsStarted
      ({ s.stamped.applied x with checkpointCarriesForcedCommit := true }.leaveQueue x.id)
    exact hdone

theorem forgets_queueTurn (input : CommitInput) : Forgets i fun s => s.queueTurn i x input := fun s =>
  ite_congr rfl (fun _ => forgets_park i _ s) fun _ => ite_congr rfl (fun _ => ite_congr rfl
    (fun _ => forgets_leave i (s.leaveQueue x.id)) fun _ =>
      forgets_commitOrdinary i x input (s.leaveQueue x.id)) fun _ => forgets_commitCalled i x input s

theorem forgets_afterWriting (origin : Origin) : Forgets i fun s => s.afterWriting i origin := by
  intro s
  cases origin with
  | forced t | auto t => exact forgets_writeRequested i t s
  | requested t | queue t => exact forgets_returns i t s
  | explicit => exact forgets_leave i s

end Rag3db.Transaction.TransactionManager
