import Rag3db.Transaction.ForcedCommits

open Option List

namespace Rag3db.Transaction

open Library.History Library.Transition

def Event.isWork : Event → Bool
  | .began _ _ | .applied _ _ _ _ | .started _ _ => true
  | .appended _ | .raised _ | .returned _ | .completed _ _ | .condemned => false

namespace TransactionManager

variable {s s' : TransactionManager} {i j : ThreadId} {config : Config} {x y : ActiveTransaction}
  {t : TransactionId} {input : CommitInput} {a : ManagerAction}

section Refuses

/-! Only a failed checkpoint and a half-done rollback make the manager refuse. -/

variable (s i)

theorem refuses_writeRequested : (s.writeRequestedCheckpointIfLastNoLock i t).refuses = s.refuses := by
  unfold writeRequestedCheckpointIfLastNoLock
  split_ifs <;> rfl

theorem refuses_stopQueuedTurn (p : Purpose) (expired : Bool) : (s.stopQueuedTurn p expired).1.refuses = s.refuses := by
  unfold stopQueuedTurn
  split_ifs <;> rfl

theorem refuses_stopOthersTurn (p : Purpose) (expired : Bool) : (s.stopOthersTurn p expired).1.refuses = s.refuses := by
  unfold stopOthersTurn
  split_ifs
  · rfl
  · exact refuses_stopQueuedTurn _ p false
  · rfl
  · rfl

theorem refuses_stopNew (p : Purpose) : (s.stopNewTransactionsAndWaitForOthersNoLock p).1.refuses = s.refuses := by
  unfold stopNewTransactionsAndWaitForOthersNoLock
  split_ifs
  · exact refuses_stopOthersTurn _ p false
  · rfl
  · exact refuses_stopOthersTurn _ p false

theorem refuses_stopTurn (p : Purpose) (expired : Bool) (phase : Phase) :
    (s.stopTurn p expired phase).1.refuses = s.refuses := by
  cases phase with
  | pending =>
    unfold stopTurn
    split_ifs
    · rfl
    · exact refuses_stopOthersTurn _ p false
  | others => exact refuses_stopOthersTurn s p expired
  | queued => exact refuses_stopQueuedTurn s p expired

theorem refuses_afterStop {goOn : TransactionManager → TransactionManager}
    (h : ∀ m, (goOn m).refuses = m.refuses) (p : Purpose) (r : TransactionManager × Verdict) :
    (afterStop i p goOn r).refuses = r.1.refuses := by
  obtain ⟨m, verdict⟩ := r
  cases verdict with
  | waits phase => rfl
  | timedOut => rfl
  | passed => exact h m

theorem refuses_startWriting (origin : Origin) : (s.startWriting i origin).refuses = s.refuses := rfl

theorem refuses_checkpointNoLock (origin : Origin) : (s.checkpointNoLock i origin).refuses = s.refuses :=
  (refuses_afterStop i (fun m => refuses_startWriting m i origin) _ _).trans (refuses_stopNew s _)

theorem refuses_checkpointAfterCommit (exceeds : Bool) : (s.checkpointAfterCommit i x exceeds).refuses = s.refuses := by
  unfold checkpointAfterCommit autoCheckpoint
  split_ifs
  · rfl
  · exact refuses_writeRequested s i
  · exact refuses_checkpointNoLock s i _
  · exact refuses_writeRequested s i
  · exact refuses_writeRequested _ i
  · exact refuses_writeRequested s i

theorem refuses_commitNow : (s.commitNow i x input).refuses = s.refuses := by
  cases hresult : input.result with
  | raised appended =>
    rw [commitNow_raised i s x hresult]
    split_ifs <;> rfl
  | done =>
    rw [commitNow_done i s x hresult, refuses_checkpointAfterCommit]
    split_ifs <;> rfl

theorem refuses_commitOrdinary : (s.commitOrdinary i x input).refuses = s.refuses := by
  unfold commitOrdinary
  split_ifs
  · exact (refuses_afterStop i (fun m => refuses_commitNow m i) _ _).trans (refuses_stopNew s _)
  · exact (refuses_afterStop i (fun m => refuses_commitNow m i) _ _).trans (refuses_stopNew s _)
  · exact refuses_commitNow s i

theorem refuses_queueDoneTurn (ticket : Nat) : (s.queueDoneTurn i t ticket).refuses = s.refuses := by
  unfold queueDoneTurn
  split_ifs
  · rfl
  · rfl
  · exact refuses_checkpointNoLock s i _
  · rfl

theorem refuses_queueTurn : (s.queueTurn i x input).refuses = s.refuses := by
  unfold queueTurn
  split_ifs
  · rfl
  · rfl
  · exact refuses_commitOrdinary _ i
  · cases hresult : input.result with
    | raised appended =>
      rw [commitCalled_raised i s x hresult]
      rfl
    | done =>
      rw [commitCalled_done i s x hresult]
      exact refuses_queueDoneTurn _ i _

theorem refuses_commit : (s.commit i x input).refuses = s.refuses := by
  unfold commit
  split_ifs
  · exact refuses_writeRequested _ i
  · dsimp only
    split_ifs
    · exact refuses_queueTurn _ i
    · exact refuses_commitOrdinary _ i
    · exact refuses_queueTurn _ i
    · exact refuses_commitOrdinary _ i

theorem refuses_afterWriting (origin : Origin) : (s.afterWriting i origin).refuses = s.refuses := by
  cases origin with
  | forced t | auto t => exact refuses_writeRequested s i
  | requested t | queue t | explicit => rfl

theorem refuses_resume {expired : Bool} {w : Wait} (h : s.resume i expired input w = some s') :
    s'.refuses = s.refuses := by
  cases w with
  | queued t =>
    obtain ⟨x, _, rfl⟩ := map_eq_some_iff.mp h
    exact refuses_queueTurn s i
  | queueDone t ticket =>
    cases h
    exact refuses_queueDoneTurn s i ticket
  | stopping p phase =>
    cases p with
    | forced t | preCommit t =>
      obtain ⟨x, _, rfl⟩ := map_eq_some_iff.mp h
      exact (refuses_afterStop i (fun m => refuses_commitNow m i) _ _).trans (refuses_stopTurn s _ _ _)
    | checkpoint origin =>
      cases h
      exact (refuses_afterStop i (fun m => refuses_startWriting m i origin) _ _).trans (refuses_stopTurn s _ _ _)
  | writing => cases h

end Refuses

theorem leaveRolledBack_spec (s : TransactionManager) (t : TransactionId) :
    (s.leaveRolledBack t).trace = s.trace ∧ (s.leaveRolledBack t).refuses = s.refuses ∧
      (s.leaveRolledBack t).threads = s.threads ∧
      (s.leaveRolledBack t).activeTransactions = s.activeTransactions.filter (·.id ≠ t) ∧
      (s.autoCheckpointRequested = false → (s.leaveRolledBack t).autoCheckpointRequested = false) := by
  unfold leaveRolledBack
  dsimp only
  split_ifs
  · exact ⟨rfl, rfl, rfl, rfl, fun _ => rfl⟩
  · exact ⟨rfl, rfl, rfl, rfl, fun h => h⟩

theorem condemned_of_step (h : s.step a = some s') (hr : s.refuses = false) (hr' : s'.refuses = true) :
    s'.trace = .condemned :: s.trace := by
  have never : s'.refuses = s.refuses → s'.trace = .condemned :: s.trace := fun he =>
    nomatch hr'.symm.trans (he.trans hr)
  cases a with
  | openDatabase =>
    obtain ⟨_, h⟩ := ite_none_right_eq_some.mp h
    exact never (some.inj h ▸ rfl)
  | beginTransaction type expired =>
    obtain ⟨_, h⟩ := ite_none_right_eq_some.mp h
    obtain ⟨m, hm, rfl⟩ := map_eq_some_iff.mp h
    have hbegin : (m.begin type).refuses = m.refuses := by
      unfold begin
      split_ifs <;> rfl
    rcases wait_cases hm with ⟨rfl, _⟩ | ⟨_, rfl⟩
    · exact never hbegin
    · exact never hbegin
  | waitUntilNewTransactionsAreAllowed readOnly expired =>
    rcases wait_cases h with ⟨rfl, _⟩ | ⟨_, rfl⟩
    · exact never rfl
    · exact never rfl
  | write t | setForceCheckpoint t | addPreCommitAction t | refreshSnapshot t =>
    obtain ⟨x, _, rfl⟩ := map_eq_some_iff.mp h
    exact never rfl
  | failAfterStatement t result =>
    obtain ⟨x, _, rfl⟩ := map_eq_some_iff.mp h
    unfold failAfterStatement at hr' never ⊢
    split_ifs at hr' never ⊢
    · rcases undone_cases (s.modify x.id fun y => { y with failed := true }) result with he | he
      · exact never (by rw [he]; rfl)
      · rw [he]
        rfl
    · exact never rfl
  | rollback t result =>
    obtain ⟨x, _, rfl⟩ := map_eq_some_iff.mp h
    unfold rollback at hr' never ⊢
    obtain ⟨htrace, hrefuses, _⟩ := leaveRolledBack_spec
      (if x.type ≠ .readOnly && !x.failed then s.undone result else s) x.id
    rw [htrace]
    rw [hrefuses] at hr' never
    split_ifs at hr' never ⊢
    · rcases undone_cases s result with he | he
      · rw [he] at hr'
        exact nomatch hr'.symm.trans hr
      · rw [he]
        rfl
    · exact nomatch hr'.symm.trans hr
  | commit i t input =>
    obtain ⟨_, h⟩ := ite_none_left_eq_some.mp h
    obtain ⟨x, _, rfl⟩ := map_eq_some_iff.mp h
    exact never (refuses_commit s i)
  | checkpoint i =>
    obtain ⟨_, h⟩ := ite_none_left_eq_some.mp h
    cases h
    unfold checkpoint at hr' never ⊢
    split_ifs at hr' never ⊢
    · exact never rfl
    · exact never (refuses_checkpointNoLock s i _)
  | resume i expired input =>
    obtain ⟨w, _, h⟩ := bind_eq_some_iff.mp h
    exact never (refuses_resume s i h)
  | finishWriting i result =>
    simp only [step] at h
    split at h
    · rename_i origin number carries _
      cases h
      cases result with
      | completed => exact never (refuses_afterWriting _ i origin)
      | failed changedMemory =>
        unfold finishWriting at hr' never ⊢
        dsimp only at hr' never ⊢
        split_ifs at hr' never ⊢
        · exact never rfl
        · rfl
    · cases h

/-- After a failed checkpoint or rollback nothing is begun, committed or
written any more. -/
def WorkStopped (s : TransactionManager) : Prop :=
  ∀ newer older, s.trace = newer ++ .condemned :: older → ∀ e ∈ newer, e.isWork = false

/-- Nobody else is at work: the writers still open can only be rolled back, no
thread waits but for a checkpoint of its commit, and none is requested. -/
structure Isolated (s : TransactionManager) : Prop where
  writers : ∀ x ∈ s.activeTransactions, x.type = .readOnly ∨ x.failed = true ∨ x.commitRaised = true
  threads : ∀ i w, s.threads.lookup i = some w → ∃ t ticket, w = .queueDone t ticket
  request : s.autoCheckpointRequested = false

theorem Isolated.reader_of_usable (hs : s.Isolated) (h : s.usable t = some x) : x.type = .readOnly := by
  obtain ⟨hx, _, _, hf, hr⟩ := usable_spec h
  rcases hs.writers x hx with h | h | h
  · exact h
  · exact nomatch h.symm.trans hf
  · exact nomatch h.symm.trans hr

theorem Isolated.modify (hs : s.Isolated) {f : ActiveTransaction → ActiveTransaction}
    (hf : ∀ y, (f y).type = y.type ∧ (f y).failed = y.failed ∧ (f y).commitRaised = y.commitRaised) :
    (s.modify t f).Isolated := by
  refine ⟨fun y hy => ?_, hs.threads, hs.request⟩
  obtain ⟨z, hz, rfl⟩ := mem_map.mp hy
  split_ifs
  · rw [(hf z).1, (hf z).2.1, (hf z).2.2]
    exact hs.writers z hz
  · exact hs.writers z hz

theorem Isolated.leaveRolledBack (hs : s.Isolated) (t : TransactionId) : (s.leaveRolledBack t).Isolated := by
  obtain ⟨_, _, hthreads, hactive, hrequest⟩ := leaveRolledBack_spec s t
  refine ⟨fun y hy => ?_, hthreads ▸ hs.threads, hrequest hs.request⟩
  rw [hactive] at hy
  exact hs.writers y (mem_of_mem_filter hy)

theorem Isolated.leave (hs : s.Isolated) (i : ThreadId) : (s.leave i).Isolated := by
  refine ⟨hs.writers, fun j w hl => ?_, hs.request⟩
  rw [lookup_leave] at hl
  split_ifs at hl
  exact hs.threads j w hl

theorem Isolated.step (hs : s.Isolated) (hr : s.refuses = true) (h : s.step a = some s') :
    s'.Isolated ∧ s'.refuses = true ∧ ∃ events, s'.trace = events ++ s.trace ∧ ∀ e ∈ events, e.isWork = false := by
  have same : s' = s → s'.Isolated ∧ s'.refuses = true ∧
      ∃ events, s'.trace = events ++ s.trace ∧ ∀ e ∈ events, e.isWork = false := by
    rintro rfl
    exact ⟨hs, hr, [], rfl, nofun⟩
  have waits : ∀ {readOnly expired m}, s.waitWhileCheckpointPendingNoLock readOnly expired = some m → m = s := by
    intro readOnly expired m hm
    rcases wait_cases hm with ⟨rfl, _⟩ | ⟨hrequest, _⟩
    · rfl
    · exact nomatch hrequest.symm.trans hs.request
  cases a with
  | openDatabase =>
    obtain ⟨_, h⟩ := ite_none_right_eq_some.mp h
    cases h
    exact ⟨⟨hs.writers, hs.threads, hs.request⟩, hr, [], rfl, nofun⟩
  | beginTransaction type expired =>
    obtain ⟨_, h⟩ := ite_none_right_eq_some.mp h
    obtain ⟨m, hm, rfl⟩ := map_eq_some_iff.mp h
    obtain rfl := waits hm
    exact same (if_pos hr)
  | waitUntilNewTransactionsAreAllowed readOnly expired => exact same (waits h)
  | write t | setForceCheckpoint t | addPreCommitAction t | refreshSnapshot t =>
    obtain ⟨x, _, rfl⟩ := map_eq_some_iff.mp h
    exact ⟨hs.modify fun _ => ⟨rfl, rfl, rfl⟩, hr, [], rfl, nofun⟩
  | failAfterStatement t result =>
    obtain ⟨x, hx, rfl⟩ := map_eq_some_iff.mp h
    exact same (if_neg (by simp [hs.reader_of_usable hx]))
  | rollback t result =>
    obtain ⟨x, _, rfl⟩ := map_eq_some_iff.mp h
    have left : ∀ m : TransactionManager, m = s ∨ m = { s with rollbackFailed := true }.emit .condemned →
        (m.leaveRolledBack x.id).Isolated ∧ (m.leaveRolledBack x.id).refuses = true ∧
          ∃ events, (m.leaveRolledBack x.id).trace = events ++ s.trace ∧ ∀ e ∈ events, e.isWork = false := by
      intro m hm
      obtain ⟨htrace, hrefuses, _⟩ := leaveRolledBack_spec m x.id
      rw [htrace, hrefuses]
      rcases hm with rfl | rfl
      · exact ⟨hs.leaveRolledBack x.id, hr, [], rfl, nofun⟩
      · have hcondemned : ({ s with rollbackFailed := true }.emit .condemned).Isolated :=
          ⟨hs.writers, hs.threads, hs.request⟩
        exact ⟨hcondemned.leaveRolledBack x.id, rfl, [.condemned], rfl, by simp [Event.isWork]⟩
    unfold rollback
    split_ifs
    · exact left _ (undone_cases s result)
    · exact left s (.inl rfl)
  | commit i t input =>
    obtain ⟨_, h⟩ := ite_none_left_eq_some.mp h
    obtain ⟨x, hx, rfl⟩ := map_eq_some_iff.mp h
    have hcommit : s.commit i x input = (s.clearTransactionNoLock x.id).returns i x.id := by
      rw [commit, if_pos (hs.reader_of_usable hx), writeRequestedCheckpointIfLastNoLock]
      simp [clearTransactionNoLock, hs.request]
    have hcleared : (s.clearTransactionNoLock x.id).Isolated :=
      ⟨fun y hy => hs.writers y (mem_of_mem_filter hy), hs.threads, hs.request⟩
    rw [hcommit]
    obtain ⟨hw, ht, hq⟩ := hcleared.leave i
    exact ⟨⟨hw, ht, hq⟩, hr, [.returned x.id], rfl, by simp [Event.isWork]⟩
  | checkpoint i =>
    obtain ⟨_, h⟩ := ite_none_left_eq_some.mp h
    cases h
    exact same (if_pos (by simp [hr]))
  | resume i expired input =>
    obtain ⟨w, hl, h⟩ := bind_eq_some_iff.mp h
    obtain ⟨t, ticket, rfl⟩ := hs.threads i w hl
    cases h
    unfold queueDoneTurn
    split_ifs
    · refine ⟨⟨hs.writers, fun j v hv => ?_, hs.request⟩, hr, [], rfl, nofun⟩
      rw [lookup_park] at hv
      split_ifs at hv
      · exact ⟨t, ticket, (some.inj hv).symm⟩
      · exact hs.threads j v hv
    · exact ⟨hs.leave i, hr, [], rfl, nofun⟩
  | finishWriting i result =>
    simp only [TransactionManager.step] at h
    split at h
    · rename_i origin number carries hl
      obtain ⟨_, _, hq⟩ := hs.threads i _ hl
      cases hq
    · cases h

theorem Effect.refuses_mono (h : Effect i s s') (hr : s.refuses = true) : s'.refuses = true := by
  cases h with
  | condemn => rfl
  | fail => simp [emit, TransactionManager.leave, refuses]
  | _ => exact hr

theorem Calls.condemned (h : Calls i s s') : (s.refuses = true → s'.refuses = true) ∧
      (.condemned ∈ s'.trace → .condemned ∈ s.trace ∨ s'.refuses = true) := by
  have one : ∀ {u u'}, Effect i u u' → .condemned ∈ u'.trace → .condemned ∈ u.trace ∨ u'.refuses = true := by
    intro u u' he hmem
    obtain ⟨events, ht, hadds⟩ := he.adds
    rw [ht] at hmem
    exact (mem_append.mp hmem).symm.imp id fun hnew => hadds .condemned hnew
  induction h with
  | refl => exact ⟨id, .inl⟩
  | last he => exact ⟨he.refuses_mono, one he⟩
  | step he _ _ ih =>
    refine ⟨fun hr => ih.1 (he.refuses_mono hr), fun hmem => ?_⟩
    rcases ih.2 hmem with hmem | hr
    · exact (one he hmem).imp id ih.1
    · exact .inr hr

/-- The step that makes the manager refuse leaves nobody else at work. -/
def FailsAlone (s s' : TransactionManager) : Prop :=
  s.refuses = false → s'.refuses = true → s'.Isolated

def commitsAfterFailure : List ManagerAction :=
  [.openDatabase, .beginTransaction .write false, .beginTransaction .write false,
    .rollback (2 ^ 63 + 1) (.raised true), .commit 1 (2 ^ 63 + 2) {}]

theorem work_goes_on_after_failure :
    ∃ s, run step (initial ⟨false, true, true⟩) commitsAfterFailure = some s ∧ ¬ s.WorkStopped := by
  obtain ⟨s, hrun, htrace⟩ : ∃ s, run step (initial ⟨false, true, true⟩) commitsAfterFailure = some s ∧
      s.trace = [.returned (2 ^ 63 + 2), .appended 2, .applied (2 ^ 63 + 2) 2 2 false, .condemned,
        .began (2 ^ 63 + 2) .write, .began (2 ^ 63 + 1) .write] := ⟨_, rfl, by decide⟩
  refine ⟨s, hrun, fun hstopped => ?_⟩
  have := hstopped [.returned (2 ^ 63 + 2), .appended 2, .applied (2 ^ 63 + 2) 2 2 false] _ htrace
    (.applied (2 ^ 63 + 2) 2 2 false) (by simp)
  exact nomatch this

/-- If every failure leaves nobody else at work, no work is done after it. -/
theorem work_stopped_within (h : ReachableWithin FailsAlone step (initial config) s) : s.WorkStopped := by
  suffices hall : s.Sound ∧ (s.refuses = true → s.Isolated) ∧
      (s.refuses = false → .condemned ∉ s.trace) ∧ s.WorkStopped from hall.2.2.2
  refine h.invariant (Q := fun u => u.Sound ∧ (u.refuses = true → u.Isolated) ∧
      (u.refuses = false → .condemned ∉ u.trace) ∧ u.WorkStopped)
    ⟨sound_initial config, nofun, nofun, fun newer older he => by simp [initial] at he⟩ ?_
  rintro u a u' ⟨hsound, hisolated, hnone, hstopped⟩ hstep halone
  obtain ⟨i, hc⟩ := step_calls hsound hstep
  refine ⟨hc.sound hsound, ?_⟩
  cases hr : u.refuses with
  | true =>
    obtain ⟨hiso, hr', events, ht, hquiet⟩ := (hisolated hr).step hr hstep
    refine ⟨fun _ => hiso, fun hf => absurd (hf.symm.trans hr') Bool.false_ne_true, fun newer older he e hmem => ?_⟩
    rcases split_append (ht ▸ he) with ⟨rest, rfl, hold⟩ | ⟨rest, hevents, _⟩
    · rcases mem_append.mp hmem with hmem | hmem
      · exact hquiet e hmem
      · exact hstopped _ _ hold e hmem
    · exact hquiet e (hevents ▸ mem_append_left _ hmem)
  | false =>
    refine ⟨halone hr, fun hf hmem => ?_, fun newer older he e hmem => ?_⟩
    · exact (hc.condemned.2 hmem).elim (hnone hr) fun hr' => absurd (hf.symm.trans hr') Bool.false_ne_true
    · cases hr' : u'.refuses with
      | false =>
        refine absurd (hc.condemned.2 (mem_of_split he)) (not_or.mpr ⟨hnone hr, ?_⟩)
        simp [hr']
      | true =>
        -- The failure is the one event of its step.
        have ht := condemned_of_step hstep hr hr'
        cases newer with
        | nil => cases hmem
        | cons _ newer =>
          rw [ht] at he
          exact absurd (mem_of_split (cons.inj he).2) (hnone hr)

def failsBesideReader : List ManagerAction :=
  [.openDatabase, .beginTransaction .write false, .beginTransaction .readOnly false,
    .rollback (2 ^ 63 + 1) (.raised true)]

theorem work_stopped_within_reader : ∃ s, run step (initial ⟨false, true, true⟩) failsBesideReader = some s ∧
      .condemned ∈ s.trace ∧ s.WorkStopped := by
  obtain ⟨s, hrun, hcondemned, hwithin⟩ :
      ∃ s, run step (initial ⟨false, true, true⟩) failsBesideReader = some s ∧ .condemned ∈ s.trace ∧
        ReachableWithin FailsAlone step (initial ⟨false, true, true⟩) s := by
    refine ⟨_, rfl, by decide, (((ReachableWithin.init.step .openDatabase rfl ?_).step
      (.beginTransaction .write false) rfl ?_).step (.beginTransaction .readOnly false) rfl ?_).step
      (.rollback (2 ^ 63 + 1) (.raised true)) rfl ?_⟩
    · exact fun _ h => nomatch h
    · exact fun _ h => nomatch h
    · exact fun _ h => nomatch h
    · exact fun _ _ => ⟨by decide, nofun, rfl⟩
  exact ⟨s, hrun, hcondemned, work_stopped_within hwithin⟩

end TransactionManager

end Rag3db.Transaction
