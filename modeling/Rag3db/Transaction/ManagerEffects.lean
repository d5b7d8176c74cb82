import Rag3db.Transaction.CallExits
import Rag3db.Transaction.HistoryInvariant

open List

namespace Rag3db.Transaction.TransactionManager

open Library.History Effect

variable {s s' : TransactionManager} {i : ThreadId} {g : Gate} {x y : ActiveTransaction} {w : Wait}
  {t : TransactionId} {p : Purpose} {origin : Origin} {input : CommitInput}

/-- Both invariants of the manager. -/
structure Sound (s : TransactionManager) : Prop where
  gate : s.GateInvariant
  history : s.HistoryInvariant

theorem Effect.sound (h : Effect i s s') (hs : s.Sound) : s'.Sound := by
  obtain ⟨g, hg⟩ := hs.gate.gate
  exact ⟨h.gateInvariant hs.gate, h.historyInvariant hg hs.history⟩

/-- A queue called to commit is still called, or no forced commit is left
without a checkpoint. -/
def Steady (s s' : TransactionManager) : Prop :=
  s.commitQueuedNow = true → s'.commitQueuedNow = true ∨ s'.checkpointCarriesForcedCommit = false

/-- The effects of one step of a thread; only the last may give up on a queue
it has called. -/
inductive Calls (i : ThreadId) : TransactionManager → TransactionManager → Prop
  | refl (s : TransactionManager) : Calls i s s
  | last {s s' : TransactionManager} : Effect i s s' → Calls i s s'
  | step {s m s' : TransactionManager} : Effect i s m → Steady s m → Calls i m s' → Calls i s s'

theorem Calls.sound (h : Calls i s s') (hs : s.Sound) : s'.Sound := by
  induction h with
  | refl => exact hs
  | last he => exact he.sound hs
  | step he _ _ ih => exact ih (he.sound hs)

variable {rest : TransactionManager → TransactionManager}

theorem Forgets.calls (h : Forgets i rest)
    (hc : Calls i (s.leave i) (rest (s.leave i))) : Calls i (s.leave i) (rest s) := by
  rwa [h] at hc

theorem Forgets.calls_park (h : Forgets i rest)
    (hc : Calls i (s.park i w) (rest (s.park i w))) : Calls i (s.park i w) (rest s) := by
  rwa [h.park] at hc

theorem Steady.same (h : s'.commitQueuedNow = s.commitQueuedNow) : Steady s s' :=
  fun hc => .inl (h.trans hc)

theorem endCall_others (s : TransactionManager) : s.endCall .others = s := by
  simp [endCall]

theorem endCall_queued (s : TransactionManager) : s.endCall .queued = { s with commitQueuedNow := false } := by
  simp [endCall]

theorem Sound.standing (hs : s.Sound) (hl : s.threads.lookup i = some w) : s.Standing w :=
  hs.history.waits i w hl

theorem calls_writeRequested (hidle : s.Idle i) (hready : s.Ready (.checkpoint (.requested t))) :
    Calls i s (s.writeRequestedCheckpointIfLastNoLock i t) := by
  unfold writeRequestedCheckpointIfLastNoLock
  split_ifs with h
  · obtain ⟨hr, hw⟩ := Bool.and_eq_true_iff.mp h
    exact .last (.writeRequested t hidle hready hr (by simpa using hw))
  · exact .last (.returns t hidle hready.2)

section Stop

variable {goOn : TransactionManager → TransactionManager} {active : List ActiveTransaction}

/-- The rest of a call can go on once the others have left. -/
def GoesOn (i : ThreadId) (p : Purpose) (goOn : TransactionManager → TransactionManager)
    (active : List ActiveTransaction) : Prop :=
  ∀ (m : TransactionManager) (phase : Phase), m.Sound → m.activeTransactions = active →
    phase ≠ .pending → m.threads.lookup i = some (.stopping p phase) → m.othersLeft p = true →
    Calls i m (goOn (m.endCall phase))

theorem othersLeft_of_queue_nil (h : s.othersLeftOrQueued p = true)
    (hq : s.queuedCheckpointCommits = []) : s.othersLeft p = true := by
  refine all_eq_true.mpr fun y hy => ?_
  have := all_eq_true.mp h y hy
  simpa [hq] using this

variable (hgo : GoesOn i p goOn active) (hs : s.Sound) (ha : s.activeTransactions = active)

include hgo hs ha

theorem calls_stopQueued (hl : s.threads.lookup i = some (.stopping p .queued)) (expired : Bool) :
    Calls i s (afterStop i p goOn (s.stopQueuedTurn p expired)) := by
  unfold stopQueuedTurn
  split_ifs with hleft hexpired
  · have := hgo s .queued hs ha nofun hl hleft
    rwa [endCall_queued] at this
  · have := Calls.last (giveUp p .queued nofun hl)
    rwa [endCall_queued] at this
  · exact .last (.again _ hl)

variable (hforgets : Forgets i goOn)

include hforgets

theorem calls_stopOthers (hl : s.threads.lookup i = some (.stopping p .others)) (expired : Bool) :
    Calls i s (afterStop i p goOn (s.stopOthersTurn p expired)) := by
  unfold stopOthersTurn
  split_ifs with hleft hq hexpired
  · have := hgo s .others hs ha nofun hl (othersLeft_of_queue_nil hleft hq)
    rwa [endCall_others] at this
  · have hcall := callQueue p hl hleft
    refine .step hcall (fun _ => .inl rfl) ?_
    refine (forgets_stopQueued i hforgets p false).calls_park ?_
    exact calls_stopQueued hgo (hcall.sound hs) ha (by simp) false
  · have := Calls.last (giveUp p .others nofun hl)
    rwa [endCall_others] at this
  · exact .last (.again _ hl)

theorem calls_stopNew (hidle : s.Idle i) (hready : s.Ready p) :
    Calls i s (afterStop i p goOn (s.stopNewTransactionsAndWaitForOthersNoLock p)) := by
  have hpark := forgets_stopOthers i hforgets p false
  unfold stopNewTransactionsAndWaitForOthersNoLock
  split_ifs with hr hp
  · have htake := takeRequest p hr hidle hready
    refine .step htake (.same rfl) ?_
    exact hpark.calls_park (calls_stopOthers hgo (htake.sound hs) ha hforgets (by simp) false)
  · exact .last (.waitForGate p hidle hready)
  · have hclose := closeGate p (by simpa using hp) (.inl hidle) hready
    refine .step hclose (.same rfl) ?_
    exact hpark.calls_park (calls_stopOthers hgo (hclose.sound hs) ha hforgets (by simp) false)

theorem calls_stopTurn {phase : Phase} (hl : s.threads.lookup i = some (.stopping p phase)) (expired : Bool) :
    Calls i s (afterStop i p goOn (s.stopTurn p expired phase)) := by
  cases phase with
  | pending =>
    unfold stopTurn
    split_ifs with hp
    · exact .last (.again _ hl)
    · have hclose := closeGate p (by simpa using hp) (.inr hl) (hs.standing hl)
      refine .step hclose (.same rfl) ?_
      refine (forgets_stopOthers i hforgets p false).calls_park ?_
      exact calls_stopOthers hgo (hclose.sound hs) ha hforgets (by simp) false
  | others => exact calls_stopOthers hgo hs ha hforgets hl expired
  | queued => exact calls_stopQueued hgo hs ha hl expired

end Stop

theorem goesOn_checkpoint (origin : Origin) (active : List ActiveTransaction) :
    GoesOn i (.checkpoint origin) (fun s => s.startWriting i origin) active :=
  fun _ phase _ _ hphase hl hleft => .last (.write origin phase hphase hl hleft)

theorem calls_checkpointNoLock (hs : s.Sound) (hidle : s.Idle i) (hready : s.Ready (.checkpoint origin)) :
    Calls i s (s.checkpointNoLock i origin) :=
  calls_stopNew (goesOn_checkpoint origin _) hs rfl (forgets_startWriting i origin) hidle hready

theorem calls_autoCheckpoint (hs : s.Sound) (hidle : s.Idle i) (hready : s.Ready (.checkpoint (.auto t))) :
    Calls i s (s.autoCheckpoint i t) := by
  unfold autoCheckpoint
  split_ifs with hp hw hb
  · exact calls_writeRequested hidle hready
  · exact calls_checkpointNoLock hs hidle hready
  · exact calls_writeRequested hidle hready
  · refine .step (.request (by simpa using hp) (by simpa using hw)) (.same rfl) ?_
    exact calls_writeRequested hidle hready

section Commit

theorem settled_commit (hs : s.HistoryInvariant) (hx : x ∈ s.activeTransactions)
    (hf : x.shouldForceCheckpoint s.config = false) :
    Settled (s.stamped.commitEvents x ++ s.trace) x.id := by
  intro newer older ts oldest he
  rcases split_append he with ⟨rest, _, hold⟩ | ⟨rest, hevents, _⟩
  · exact absurd rfl ((hs.applied _ _ _ _ (mem_of_split hold)).1 x hx)
  · exact absurd (mem_of_split hevents) (not_forced_of_mem hf)

theorem calls_checkpointAfterCommit (hs : s.Sound) (hidle : s.Idle i)
    (hready : s.Ready (.checkpoint (.auto x.id))) (hf : x.shouldForceCheckpoint s.config = false)
    (exceeds : Bool) : Calls i s (s.checkpointAfterCommit i x exceeds) := by
  unfold checkpointAfterCommit
  rw [if_neg (by simp [hf])]
  split_ifs
  · exact calls_autoCheckpoint hs hidle hready
  · exact calls_writeRequested hidle hready

theorem goesOn_forced (hx : x ∈ s.activeTransactions) (input : CommitInput) :
    GoesOn i (.forced x.id) (fun s => s.commitNow i x input) s.activeTransactions := by
  intro m phase hs ha hphase hl hleft
  have hx : x ∈ m.activeTransactions := ha ▸ hx
  obtain ⟨htype, hforced⟩ := (hs.standing hl).2 x hx rfl
  have hforced : x.shouldForceCheckpoint (m.endCall phase).config = true := hforced
  dsimp only
  cases hresult : input.result with
  | raised appended =>
    rw [commitNow_raised i _ x hresult, if_pos (by simp [hforced])]
    refine .last (.raiseAlone x (.forced x.id) phase appended hphase hx htype rfl ?_ hl)
    exact not_journaled_of_forced hforced
  | done =>
    rw [commitNow_done i _ x hresult,
      if_neg (by simp [ActiveTransaction.waitsWithoutCheckpoint, hforced]), checkpointAfterCommit,
      if_pos (show x.shouldForceCheckpoint ((m.endCall phase).stamped.applied x).config = true from hforced)]
    exact .last (.commitForced x phase hphase hx htype hforced hl hleft)

/-- A commit with pre-commit actions that has seen the others leave: the
database is in memory, so no checkpoint is owed to anyone. -/
theorem goesOn_preCommit (hx : x ∈ s.activeTransactions) (input : CommitInput) :
    GoesOn i (.preCommit x.id) (fun s => s.commitNow i x input) s.activeTransactions := by
  intro m phase hs ha hphase hl hleft
  have hx : x ∈ m.activeTransactions := ha ▸ hx
  obtain ⟨htype, hwaits⟩ := (hs.standing hl).2 x hx rfl
  obtain ⟨hforced, hactions⟩ := Bool.and_eq_true_iff.mp hwaits
  have hforced : x.shouldForceCheckpoint m.config = false := by simpa using hforced
  have hwaits : x.waitsWithoutCheckpoint (m.endCall phase).config = true := hwaits
  have hmemory : m.config.inMemory = true := by
    simpa [ActiveTransaction.shouldForceCheckpoint, hs.history.actions x hx hactions] using hforced
  have hflag : m.checkpointCarriesForcedCommit = false := by
    by_contra h
    exact absurd (hs.history.durable (by simpa using h)) (by simp [hmemory])
  dsimp only
  cases hresult : input.result with
  | raised appended =>
    rw [commitNow_raised i _ x hresult, if_pos (by simp [hwaits])]
    refine .last (.raiseAlone x (.preCommit x.id) phase appended hphase hx htype rfl ?_ hl)
    exact not_journaled_of_inMemory hmemory
  | done =>
    rw [commitNow_done i _ x hresult, if_pos hwaits]
    have hcommit := commitAlone x phase hphase hx htype hl hleft hmemory
    refine .step hcommit (fun _ => .inr hflag) ?_
    refine (forgets_checkpointAfterCommit i x input.exceeds).calls ?_
    refine calls_checkpointAfterCommit (hcommit.sound hs) (by simp [Idle]) ⟨?_, ?_⟩ hforced _
    · exact ⟨fun y hy => ne_of_mem_applied hy, hs.history.bounded x hx⟩
    · have hsettled := settled_commit hs.history hx hforced
      exact hsettled

theorem calls_commitNow (hs : s.Sound) (hidle : s.Idle i) (hx : x ∈ s.activeTransactions)
    (htype : x.type ≠ .readOnly) (hraised : x.commitRaised = false) (hbusy : s.busy x.id = false)
    (hforced : x.shouldForceCheckpoint s.config = false)
    (hwaits : x.waitsWithoutCheckpoint s.config = false) (input : CommitInput) :
    Calls i s (s.commitNow i x input) := by
  cases hresult : input.result with
  | raised appended =>
    rw [commitNow_raised i _ x hresult, if_neg (by simp [hforced, hwaits])]
    exact .last (.raisePlain x appended hidle hx htype hraised hforced hbusy)
  | done =>
    rw [commitNow_done i _ x hresult, if_neg (by simp [hwaits])]
    have hcommit := commitPlain x hidle hx htype hraised hforced hbusy
    refine .step hcommit (.same rfl) ?_
    refine calls_checkpointAfterCommit (hcommit.sound hs) hidle ⟨?_, ?_⟩ hforced _
    · exact ⟨fun y hy => ne_of_mem_applied hy, hs.history.bounded x hx⟩
    · exact settled_commit hs.history hx hforced

theorem calls_commitOrdinary (hs : s.Sound) (hidle : s.Idle i) (hx : x ∈ s.activeTransactions)
    (htype : x.type ≠ .readOnly) (input : CommitInput)
    (hplain : x.shouldForceCheckpoint s.config = false → x.commitRaised = false ∧ s.busy x.id = false) :
    Calls i s (s.commitOrdinary i x input) := by
  have unique : ∀ y ∈ s.activeTransactions, y.id = x.id → y = x := fun y hy hid =>
    hs.history.unique y hy x hx hid
  have hle := hs.history.bounded x hx
  unfold commitOrdinary
  split_ifs with hforced hwaits
  · refine calls_stopNew (goesOn_forced hx input) hs rfl (forgets_commitNow i x input) hidle ⟨hle, ?_⟩
    intro y hy hid
    rw [unique y hy hid]
    exact ⟨htype, hforced⟩
  · refine calls_stopNew (goesOn_preCommit hx input) hs rfl (forgets_commitNow i x input) hidle ⟨hle, ?_⟩
    intro y hy hid
    rw [unique y hy hid]
    exact ⟨htype, hwaits⟩
  · have hforced : x.shouldForceCheckpoint s.config = false := by simpa using hforced
    obtain ⟨hraised, hbusy⟩ := hplain hforced
    exact calls_commitNow hs hidle hx htype hraised hbusy hforced (by simpa using hwaits) input

variable {ticket : Nat}

theorem settled_of_ticket (hs : s.HistoryInvariant) (hw : s.Standing (.queueDone t ticket))
    (hdone : ticket < s.lastCompletedCheckpoint) : Settled s.trace t := by
  intro newer older ts oldest he
  obtain h0 | ⟨cp, hcompleted⟩ := hs.latest
  · omega
  · -- A checkpoint with a later number than the ticket started after the commit.
    have notOlder : ∀ cp, .started s.lastCompletedCheckpoint cp ∉ older := fun cp hmem => by
      have := hw.2 _ _ _ _ he _ _ hmem
      omega
    rw [he] at hcompleted
    simp only [mem_append, mem_cons, reduceCtorEq, false_or] at hcompleted
    rcases hcompleted with hmem | hmem
    · obtain ⟨before, after, rfl⟩ := append_of_mem hmem
      have hstarted := hs.completed before (after ++ .applied t ts oldest true :: older)
        s.lastCompletedCheckpoint cp (by
        rw [he]
        simp)
      simp only [mem_append, mem_cons, reduceCtorEq, false_or] at hstarted
      rcases hstarted with hstarted | hstarted
      · exact ⟨_, cp, mem_append_right _ (mem_cons_of_mem _ hstarted), hmem⟩
      · exact absurd hstarted (notOlder cp)
    · obtain ⟨before, after, rfl⟩ := append_of_mem hmem
      have hstarted := hs.completed (newer ++ .applied t ts oldest true :: before) after
        s.lastCompletedCheckpoint cp (by
        rw [he]
        simp)
      exact absurd (mem_append_right _ (mem_cons_of_mem _ hstarted)) (notOlder cp)

theorem calls_queueDoneTurn (hs : s.Sound)
    (hl : s.threads.lookup i = some (.queueDone t ticket)) : Calls i s (s.queueDoneTurn i t ticket) := by
  have hidle : s.Idle i := fun w hw => ⟨t, ticket, Option.some.inj (hw.symm.trans hl)⟩
  unfold queueDoneTurn
  split_ifs with hwait hrefuses hticket
  · exact .last (.again _ hl)
  · exact .last (.leave hidle)
  · exact calls_checkpointNoLock hs hidle (hs.standing hl).1
  · exact .last (.returns t hidle (settled_of_ticket hs.history (hs.standing hl) (by omega)))

theorem calls_commitCalled (hs : s.Sound) (hl : s.threads.lookup i = some (.queued x.id))
    (hx : x ∈ s.activeTransactions) (hc : s.commitQueuedNow = true) (input : CommitInput) :
    Calls i s (s.commitCalled i x input) := by
  obtain ⟨htype, hforced⟩ := (hs.standing hl).2 x hx rfl
  cases hresult : input.result with
  | raised appended =>
    rw [commitCalled_raised i _ x hresult]
    exact .last (.raiseInQueue x appended hx htype hforced hl hc)
  | done =>
    rw [commitCalled_done i _ x hresult]
    have hcommit := commitInQueue x hx htype hforced hl hc
    refine .step hcommit (.same rfl) ?_
    refine (forgets_queueDoneTurn i x.id s.checkpointsStarted).calls_park ?_
    exact calls_queueDoneTurn (hcommit.sound hs) (by simp)

theorem calls_queueTurn (hs : s.Sound) (hl : s.threads.lookup i = some (.queued x.id))
    (hx : x ∈ s.activeTransactions) (input : CommitInput) : Calls i s (s.queueTurn i x input) := by
  obtain ⟨htype, hforced⟩ := (hs.standing hl).2 x hx rfl
  unfold queueTurn
  split_ifs with hwait hleave hrefuses
  · exact .last (.again _ hl)
  · exact .last (.dequeue x.id hl (by simpa [or_comm] using hleave))
  · have hdequeue := dequeue x.id hl (by simpa [or_comm] using hleave)
    refine .step hdequeue (.same rfl) ?_
    refine (forgets_commitOrdinary i x input).calls ?_
    refine calls_commitOrdinary (hdequeue.sound hs) (by simp [Idle]) hx htype input fun hf => ?_
    exact nomatch hf.symm.trans hforced
  · obtain ⟨_, hc⟩ : s.checkpointFailed = false ∧ s.commitQueuedNow = true := by simpa using hleave
    exact calls_commitCalled hs hl hx hc input

end Commit

end Rag3db.Transaction.TransactionManager
