import Rag3db.Transaction.CheckpointGate

open AList

namespace Rag3db.Transaction

/-- Who keeps new transactions out: nobody, a request left by a commit, or one
thread that waits for the others or writes. -/
inductive Gate
  | opened
  | requested
  | held (i : ThreadId) (w : Wait)

@[simp] def Gate.closed : Gate → Bool
  | .opened => false
  | .requested | .held _ _ => true

@[simp] def Gate.isRequested : Gate → Bool
  | .requested => true
  | .opened | .held _ _ => false

@[simp] def Wait.calling : Wait → Bool
  | .stopping _ .queued => true
  | .queued _ | .queueDone _ _ | .stopping _ .pending | .stopping _ .others | .writing _ _ _ => false

@[simp] def Wait.isWriting : Wait → Bool
  | .writing _ _ _ => true
  | .queued _ | .queueDone _ _ | .stopping _ _ => false

@[simp] def Gate.calling : Gate → Bool
  | .held _ w => w.calling
  | .opened | .requested => false

@[simp] def Gate.writing : Gate → Bool
  | .held _ w => w.isWriting
  | .opened | .requested => false

/-- The flags of the manager and its threads show one state of the gate. -/
structure Shows (pending requested calling writing : Bool) (threads : AList fun _ : ThreadId => Wait)
    (g : Gate) : Prop where
  pending : pending = g.closed
  requested : requested = g.isRequested
  calling : calling = g.calling
  writing : writing = g.writing
  held : ∀ i w, g = .held i w → w.gate = true ∧ threads.lookup i = some w
  only : ∀ i w, threads.lookup i = some w → w.gate = true → g = .held i w

namespace Shows

variable {p r c b : Bool} {threads : AList fun _ : ThreadId => Wait} {g : Gate} {i : ThreadId} {w : Wait}
  (hi : ∀ w, threads.lookup i = some w → w.gate = false)

include hi

variable (h : Shows p r c b threads g)

include h

theorem not_held (w : Wait) : g ≠ .held i w := fun hg => by
  obtain ⟨hw, hl⟩ := h.held i w hg
  rw [hi w hl] at hw
  cases hw

theorem insert (hw : w.gate = false) : Shows p r c b (threads.insert i w) g where
  pending := h.pending
  requested := h.requested
  calling := h.calling
  writing := h.writing
  held j v hg := by
    have hj : j ≠ i := fun he => h.not_held hi v (he ▸ hg)
    rw [lookup_insert_ne hj]
    exact h.held j v hg
  only j v hl hv := by
    by_cases hj : j = i
    · subst hj
      rw [lookup_insert] at hl
      rw [← Option.some.inj hl, hw] at hv
      cases hv
    · rw [lookup_insert_ne hj] at hl
      exact h.only j v hl hv

theorem erase : Shows p r c b (threads.erase i) g where
  pending := h.pending
  requested := h.requested
  calling := h.calling
  writing := h.writing
  held j v hg := by
    have hj : j ≠ i := fun he => h.not_held hi v (he ▸ hg)
    rw [lookup_erase_ne hj]
    exact h.held j v hg
  only j v hl hv := by
    by_cases hj : j = i
    · subst hj
      simp at hl
    · rw [lookup_erase_ne hj] at hl
      exact h.only j v hl hv

omit hi

omit h in
theorem take (hothers : ∀ j v, j ≠ i → threads.lookup j = some v → v.gate = false) (hw : w.gate = true) :
    Shows true false w.calling w.isWriting (threads.insert i w) (.held i w) where
  pending := rfl
  requested := rfl
  calling := rfl
  writing := rfl
  held j v hg := by
    obtain ⟨rfl, rfl⟩ := Gate.held.inj hg
    exact ⟨hw, lookup_insert _⟩
  only j v hl hv := by
    by_cases hj : j = i
    · subst hj
      rw [lookup_insert] at hl
      rw [Option.some.inj hl]
    · rw [lookup_insert_ne hj] at hl
      rw [hothers j v hj hl] at hv
      cases hv

omit h in
theorem release (hothers : ∀ j v, j ≠ i → threads.lookup j = some v → v.gate = false) :
    Shows false false false false (threads.erase i) .opened where
  pending := rfl
  requested := rfl
  calling := rfl
  writing := rfl
  held j v hg := by cases hg
  only j v hl hv := by
    by_cases hj : j = i
    · subst hj
      simp at hl
    · rw [lookup_erase_ne hj] at hl
      rw [hothers j v hj hl] at hv
      cases hv

theorem others_of_held (hl : threads.lookup i = some w) (hw : w.gate = true) :
    ∀ j v, j ≠ i → threads.lookup j = some v → v.gate = false := by
  intro j v hj hv
  by_contra hne
  have hg := h.only j v hv (by simpa using hne)
  rw [h.only i w hl hw] at hg
  exact hj (Gate.held.inj hg).1.symm

theorem others_of_not_held (hg : ∀ i w, g ≠ .held i w) : ∀ j v, threads.lookup j = some v → v.gate = false := by
  intro j v hv
  by_contra hne
  exact hg j v (h.only j v hv (by simpa using hne))

theorem congr {threads' : AList fun _ : ThreadId => Wait} (ht : ∀ j, threads'.lookup j = threads.lookup j) :
    Shows p r c b threads' g where
  pending := h.pending
  requested := h.requested
  calling := h.calling
  writing := h.writing
  held j v hg := by rw [ht]; exact h.held j v hg
  only j v hl hv := h.only j v (by rw [← ht, hl]) hv

omit h

theorem eq_opened (h : Shows false r c b threads g) : g = .opened := by
  cases g with
  | opened => rfl
  | requested => cases h.pending
  | held i w => cases h.pending

theorem eq_requested (h : Shows p true c b threads g) : g = .requested := by
  cases g with
  | requested => rfl
  | opened => cases h.requested
  | held i w => cases h.requested

theorem request (h : Shows false r c b threads g) : Shows true true c b threads .requested := by
  obtain rfl := h.eq_opened
  exact ⟨rfl, rfl, h.calling, h.writing, nofun, fun j v hl hv => nomatch h.only j v hl hv⟩

theorem drop (h : Shows p true c b threads g) : Shows false false c b threads .opened := by
  obtain rfl := h.eq_requested
  exact ⟨rfl, rfl, h.calling, h.writing, nofun, fun j v hl hv => nomatch h.only j v hl hv⟩

end Shows

namespace TransactionManager

variable {s s' : TransactionManager} {i : ThreadId} {g : Gate} {w : Wait}

def ShowsGate (s : TransactionManager) (g : Gate) : Prop :=
  Shows s.checkpointPending s.autoCheckpointRequested s.commitQueuedNow s.checkpointWriting s.threads g

theorem Idle.not_gate (h : s.Idle i) : ∀ w, s.threads.lookup i = some w → w.gate = false := by
  intro w hw
  obtain ⟨t, ticket, rfl⟩ := h w hw
  rfl

theorem not_gate_of_lookup (hl : s.threads.lookup i = some w) (hw : w.gate = false) :
    ∀ v, s.threads.lookup i = some v → v.gate = false := by
  intro v hv
  rw [hl] at hv
  rwa [← Option.some.inj hv]

theorem gate_stopping {p : Purpose} {phase : Phase} (h : phase ≠ .pending) : (Wait.stopping p phase).gate = true := by
  cases phase with
  | pending => exact absurd rfl h
  | others => rfl
  | queued => rfl

theorem ShowsGate.held (h : s.ShowsGate g) (hl : s.threads.lookup i = some w) (hw : w.gate = true) :
    s.checkpointPending = true ∧ s.autoCheckpointRequested = false ∧ s.commitQueuedNow = w.calling ∧
      s.checkpointWriting = w.isWriting := by
  obtain rfl := h.only i w hl hw
  exact ⟨h.pending, h.requested, h.calling, h.writing⟩

/-- A stop that leaves its wait, the gate still closed, holds it alone. -/
theorem ShowsGate.stopping {p : Purpose} {phase : Phase} (h : s.ShowsGate g) (hphase : phase ≠ .pending)
    (hl : s.threads.lookup i = some (.stopping p phase)) :
    (s.endCall phase).checkpointPending = true ∧ (s.endCall phase).autoCheckpointRequested = false ∧
      (s.endCall phase).commitQueuedNow = false ∧ (s.endCall phase).checkpointWriting = false := by
  obtain ⟨hp, hr, hc, hw⟩ := ShowsGate.held h hl (gate_stopping hphase)
  cases phase with
  | pending => exact absurd rfl hphase
  | others => exact ⟨hp, hr, by simp [endCall, hc], hw⟩
  | queued => exact ⟨hp, hr, by simp [endCall], hw⟩

theorem ShowsGate.start (h : s.checkpointPending = true) (hr : s.autoCheckpointRequested = false)
    (hc : s.commitQueuedNow = false)
    (ho : ∀ j v, j ≠ i → s.threads.lookup j = some v → v.gate = false) (origin : Origin) :
    ∃ g, (s.startWriting i origin).ShowsGate g := by
  refine ⟨.held i (.writing origin (s.checkpointsStarted + 1) s.checkpointCarriesForcedCommit), ?_⟩
  have := Shows.take ho (w := .writing origin (s.checkpointsStarted + 1) s.checkpointCarriesForcedCommit) rfl
  simpa [ShowsGate, startWriting, emit, park, h, hr, hc] using this

theorem ShowsGate.reopen (hr : s.autoCheckpointRequested = false) (hc : s.commitQueuedNow = false)
    (hw : s.checkpointWriting = false)
    (ho : ∀ j v, j ≠ i → s.threads.lookup j = some v → v.gate = false) :
    (s.allowNewTransactionsNoLock.leave i).ShowsGate .opened := by
  simpa [ShowsGate, allowNewTransactionsNoLock, TransactionManager.leave, hr, hc, hw] using Shows.release ho

theorem Effect.shows (h : Effect i s s') (hs : s.ShowsGate g) : ∃ g', s'.ShowsGate g' := by
  cases h with
  | openDatabase => exact ⟨g, hs⟩
  | begin => exact ⟨g, hs⟩
  | modify => exact ⟨g, hs⟩
  | condemn => exact ⟨g, hs⟩
  | clear => exact ⟨g, hs⟩
  | dropRequest hr | cancelRequest hr =>
    unfold ShowsGate at hs
    rw [hr] at hs
    exact ⟨_, hs.drop⟩
  | request hp =>
    unfold ShowsGate at hs
    rw [hp] at hs
    exact ⟨_, hs.request⟩
  | takeRequest p hr hidle =>
    unfold ShowsGate at hs
    rw [hr] at hs
    obtain rfl := hs.eq_requested
    have := Shows.take (fun j v _ hv => hs.others_of_not_held nofun j v hv) (w := .stopping p .others) (i := i) rfl
    exact ⟨_, by simpa [ShowsGate, park, hs.calling, hs.writing] using this⟩
  | closeGate p hp hmay =>
    unfold ShowsGate at hs
    rw [hp] at hs
    obtain rfl := hs.eq_opened
    have := Shows.take (fun j v _ hv => hs.others_of_not_held nofun j v hv) (w := .stopping p .others) (i := i) rfl
    exact ⟨_, by simpa [ShowsGate, park, hs.calling, hs.writing, hs.requested] using this⟩
  | again w hl =>
    refine ⟨g, hs.congr fun j => ?_⟩
    show (s.threads.insert i w).lookup j = _
    by_cases hj : j = i
    · rw [hj, lookup_insert, hl]
    · exact lookup_insert_ne hj
  | waitForGate p hidle | enqueue x hidle => exact ⟨g, hs.insert hidle.not_gate rfl⟩
  | leave hidle | returns t hidle => exact ⟨g, hs.erase hidle.not_gate⟩
  | callQueue p hl =>
    have := Shows.take (hs.others_of_held hl rfl) (w := .stopping p .queued) rfl
    obtain ⟨hp, hr, _, hw⟩ := ShowsGate.held hs hl rfl
    exact ⟨_, by simpa [ShowsGate, park, hp, hr, hw] using this⟩
  | giveUp p phase hphase hl =>
    obtain ⟨_, hr, hc, hw⟩ := ShowsGate.stopping hs hphase hl
    exact ⟨_, .reopen hr hc hw (hs.others_of_held hl (gate_stopping hphase))⟩
  | dequeue t hl => exact ⟨g, hs.erase (not_gate_of_lookup hl rfl)⟩
  | commitInQueue x _ _ _ hl =>
    exact ⟨g, hs.insert (not_gate_of_lookup hl rfl) rfl⟩
  | raiseInQueue x appended _ _ _ hl =>
    exact ⟨g, hs.erase (not_gate_of_lookup hl rfl)⟩
  | commitForced x phase hphase _ _ _ hl =>
    obtain ⟨hp, hr, hc, hw⟩ := ShowsGate.stopping hs hphase hl
    refine ShowsGate.start ?_ ?_ ?_ ?_ _
    · exact hp
    · exact hr
    · exact hc
    · exact hs.others_of_held hl (gate_stopping hphase)
  | commitAlone x phase hphase _ _ hl | raiseAlone x p phase appended hphase _ _ _ _ hl =>
    obtain ⟨hp, hr, hc, hw⟩ := ShowsGate.stopping hs hphase hl
    refine ⟨_, ShowsGate.reopen hr hc hw ?_⟩
    exact hs.others_of_held hl (gate_stopping hphase)
  | commitPlain x =>
    exact ⟨g, hs⟩
  | raisePlain x appended hidle =>
    exact ⟨g, hs.erase hidle.not_gate⟩
  | write origin phase hphase hl =>
    obtain ⟨hp, hr, hc, hw⟩ := ShowsGate.stopping hs hphase hl
    refine ShowsGate.start hp hr hc ?_ _
    exact hs.others_of_held hl (gate_stopping hphase)
  | writeRequested t hidle _ hr =>
    unfold ShowsGate at hs
    rw [hr] at hs
    obtain rfl := hs.eq_requested
    have := ShowsGate.start (s := { s with autoCheckpointRequested := false }) (i := i) hs.pending rfl
      hs.calling (fun j v _ hv => hs.others_of_not_held nofun j v hv)
    exact this _
  | complete origin number carries hl =>
    obtain ⟨_, hr, hc, _⟩ := ShowsGate.held hs hl rfl
    have := ShowsGate.reopen (s := { s with
      checkpointWriting := false, lastCompletedCheckpoint := number }) hr hc rfl
      (hs.others_of_held hl rfl)
    exact ⟨_, this⟩
  | refuse origin number hl =>
    obtain ⟨_, hr, hc, _⟩ := ShowsGate.held hs hl rfl
    exact ⟨_, ShowsGate.reopen hr hc rfl (hs.others_of_held hl rfl)⟩
  | fail origin number carries hl =>
    obtain ⟨_, hr, hc, _⟩ := ShowsGate.held hs hl rfl
    have := ShowsGate.reopen (s := { s with checkpointWriting := false }) hr hc rfl (hs.others_of_held hl rfl)
    exact ⟨_, this⟩

end TransactionManager

end Rag3db.Transaction
