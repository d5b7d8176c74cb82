import Rag3db.Transaction.ManagerRuns

namespace Rag3db.Transaction.TransactionManager

open Library.Transition

variable {s s' m : TransactionManager} {i j : ThreadId} {g : Gate} {config : Config} {origin : Origin}
  {number : Nat} {carries : Bool}

def initial (config : Config) : TransactionManager := { config }

theorem sound_initial (config : Config) : (initial config).Sound where
  gate := {
    gate := ⟨.opened, rfl, rfl, rfl, rfl, nofun, nofun⟩
    stage := nofun
    requested := nofun
    failed := nofun
    writing := nofun }
  history := {
    bounded := nofun
    unique := nofun
    applied := nofun
    numbered := nofun
    completed := fun newer older number ts h => by simp [initial] at h
    latest := .inl rfl
    returned := fun newer older t h => by simp [initial] at h
    waits := nofun
    carried := fun newer older t ts oldest h => by simp [initial] at h
    durable := nofun
    actions := nofun }

theorem Sound.step {a : ManagerAction} (hs : s.Sound) (h : s.step a = some s') : s'.Sound := by
  obtain ⟨i, hc⟩ := step_calls hs h
  exact hc.sound hs

theorem sound_of_reachable (h : Reachable step (initial config) s) : s.Sound :=
  h.invariant (sound_initial config) fun _ _ _ hs hstep => hs.step hstep

/-- A checkpoint found being written was being written before, under the same
timestamps, or has just started. -/
theorem Effect.wrote (h : Effect i s s') (hg : s.ShowsGate g)
    (hl : s'.threads.lookup j = some (.writing origin number carries)) :
    s'.checkpointTS = s.checkpointTS ∧ s'.oldestReaderTS = s.oldestReaderTS ∧
        s.threads.lookup j = some (.writing origin number carries) ∨
      s.checkpointsStarted < number := by
  by_cases hj : j = i
  · subst hj
    have parked : ∀ (m : TransactionManager) v, (m.park j v).threads.lookup j =
        some (.writing origin number carries) → v = .writing origin number carries := by simp
    have left : ∀ m : TransactionManager, (m.leave j).threads.lookup j ≠
        some (.writing origin number carries) := by simp
    cases h with
    | openDatabase | begin | modify | condemn | clear | dropRequest | cancelRequest | request
    | commitPlain => exact .inl ⟨rfl, rfl, hl⟩
    | takeRequest | closeGate | waitForGate | callQueue | enqueue | commitInQueue => cases parked _ _ hl
    | again w hi =>
      cases parked _ _ hl
      exact .inl ⟨rfl, rfl, hi⟩
    | commitForced | write | writeRequested =>
      cases parked _ _ hl
      exact .inr (Nat.lt_succ_self _)
    | _ => exact absurd hl (left _)
  · have hold := (h.others hj).symm.trans hl
    obtain ⟨hts, hold'⟩ := h.timestamps hg hold
    exact .inl ⟨hts, hold', hold⟩

theorem Calls.wrote (h : Calls i s s') (hs : s.Sound)
    (hl : s'.threads.lookup j = some (.writing origin number carries)) :
    s'.checkpointTS = s.checkpointTS ∧ s'.oldestReaderTS = s.oldestReaderTS ∧
        s.threads.lookup j = some (.writing origin number carries) ∨
      s.checkpointsStarted < number := by
  induction h with
  | refl => exact .inl ⟨rfl, rfl, hl⟩
  | last he =>
    obtain ⟨g, hg⟩ := hs.gate.gate
    exact he.wrote hg hl
  | step he _ _ ih =>
    obtain ⟨g, hg⟩ := hs.gate.gate
    rcases ih (he.sound hs) hl with ⟨hts, hold, hl⟩ | hlt
    · rcases he.wrote hg hl with ⟨hts', hold', hl⟩ | hlt
      · exact .inl ⟨hts.trans hts', hold.trans hold', hl⟩
      · exact .inr hlt
    · exact .inr (he.started_le.trans_lt hlt)

theorem Sound.number_le (hs : s.Sound) (hl : s.threads.lookup i = some (.writing origin number carries)) :
    number ≤ s.checkpointsStarted :=
  hs.history.numbered _ _ (hs.standing hl).1

theorem begin_held (hp : s.checkpointPending = true) (hr : s.autoCheckpointRequested = false)
    {type : TransactionType} (ht : type ≠ .readOnly) (expired : Bool) :
    s.step (.beginTransaction type expired) = none := by
  simp [TransactionManager.step, waitWhileCheckpointPendingNoLock, held, hp, hr, ht]

/-- While a checkpoint is being written, only readers are open, no writer
begins, no other checkpoint is written, the gate stays closed, and the two
timestamps handed to the checkpoint stay what every reader needs. -/
theorem checkpoint_writes_undisturbed (h : Reachable step (initial config) s)
    (hl : s.threads.lookup i = some (.writing origin number carries)) :
    (∀ x ∈ s.activeTransactions, x.type = .readOnly) ∧
      (∀ type expired, type ≠ .readOnly → s.step (.beginTransaction type expired) = none) ∧
      (∀ j origin' number' carries', s.threads.lookup j = some (.writing origin' number' carries') → j = i) ∧
      s.checkpointPending = true ∧ s.checkpointWriting = true ∧ s.lastTimestamp = s.checkpointTS ∧
      (∀ x ∈ s.activeTransactions, s.oldestReaderTS ≤ x.snapshotFloorTS) ∧
      ∀ a s', s.step a = some s' → s'.threads.lookup i = some (.writing origin number carries) →
        s'.checkpointTS = s.checkpointTS ∧ s'.oldestReaderTS = s.oldestReaderTS := by
  have hs := sound_of_reachable h
  obtain ⟨g, hg⟩ := hs.gate.gate
  obtain ⟨hpending, hrequested, _, hwriting⟩ := hg.held hl rfl
  have hquiet := hs.gate.writing hwriting
  refine ⟨hquiet.readers, fun type expired ht => begin_held hpending hrequested ht expired, ?_, hpending,
    hwriting, hquiet.last, hquiet.floors, ?_⟩
  · intro j origin' number' carries' hj
    by_contra hne
    cases hg.others_of_held hl rfl j _ hne hj
  · intro a s' hstep hl'
    obtain ⟨k, hc⟩ := step_calls hs hstep
    rcases hc.wrote hs hl' with ⟨hts, hold, _⟩ | hlt
    · exact ⟨hts, hold⟩
    · exact absurd (hs.number_le hl) (by omega)

def readerDuringCheckpoint : List ManagerAction :=
  [.openDatabase, .beginTransaction .write false, .write (2 ^ 63 + 1),
    .commit 1 (2 ^ 63 + 1) { exceeds := true }, .beginTransaction .readOnly false]

theorem checkpoint_writes_undisturbed_reader :
    ∃ s, run step (initial ⟨false, true, true⟩) readerDuringCheckpoint = some s ∧
      s.threads.lookup 1 = some (.writing (.auto (2 ^ 63 + 1)) 1 false) ∧
      s.activeTransactions.map (·.id) = [2 ^ 63 + 2] ∧
      ∀ x ∈ s.activeTransactions, s.oldestReaderTS ≤ x.snapshotFloorTS := by
  obtain ⟨s, hrun, hl, hids⟩ : ∃ s, run step (initial ⟨false, true, true⟩) readerDuringCheckpoint = some s ∧
      s.threads.lookup 1 = some (.writing (.auto (2 ^ 63 + 1)) 1 false) ∧
      s.activeTransactions.map (·.id) = [2 ^ 63 + 2] := ⟨_, rfl, by decide, by decide⟩
  exact ⟨s, hrun, hl, hids, (checkpoint_writes_undisturbed (Reachable.init.run hrun) hl).2.2.2.2.2.2.1⟩

end Rag3db.Transaction.TransactionManager
