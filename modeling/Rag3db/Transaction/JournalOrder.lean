import Rag3db.Transaction.CheckpointQueue

open List

namespace Rag3db.Transaction.TransactionManager

open Library.History Library.Transition

variable {s s' : TransactionManager} {i j : ThreadId} {g : Gate} {config : Config}
  {x : ActiveTransaction} {newer older : List Event}

/-- Whenever records reach the journal, every forced commit with a smaller
timestamp is in a checkpoint that has already completed. -/
def JournalCovered (s : TransactionManager) : Prop :=
  ∀ newer older commitTS, s.trace = newer ++ .appended commitTS :: older →
    ∀ t ts oldest, .applied t ts oldest true ∈ s.trace → ts < commitTS →
      ∃ between before, older = between ++ .applied t ts oldest true :: before ∧ Checkpointed between

/-- The journal in the order of the history, with its timestamps. -/
structure JournalInvariant (s : TransactionManager) : Prop where
  stamped : ∀ c, .appended c ∈ s.trace → c ≤ s.lastTimestamp
  ordered : ∀ newer older c, s.trace = newer ++ .appended c :: older →
    ∀ t ts oldest forced, .applied t ts oldest forced ∈ newer → c ≤ ts
  covered : ∀ newer older c, s.trace = newer ++ .appended c :: older →
    ∀ between before t ts oldest, older = between ++ .applied t ts oldest true :: before → Checkpointed between

theorem JournalInvariant.journalCovered (h : s.JournalInvariant) : s.JournalCovered := by
  intro newer older c he t ts oldest hmem hlt
  rw [he] at hmem
  simp only [mem_append, mem_cons, reduceCtorEq, false_or] at hmem
  rcases hmem with hmem | hmem
  · exact absurd (h.ordered _ _ _ he _ _ _ _ hmem) (by omega)
  · obtain ⟨between, before, hsplit⟩ := append_of_mem hmem
    exact ⟨between, before, hsplit, h.covered _ _ _ he _ _ _ _ _ hsplit⟩

/-- A forced commit without a checkpoint keeps the gate closed, and the queue
called. -/
def FlagCalled (s : TransactionManager) : Prop :=
  s.checkpointCarriesForcedCommit = true → s.commitQueuedNow = true

theorem Effect.lastTimestamp_le (h : Effect i s s') : s.lastTimestamp ≤ s'.lastTimestamp := by
  cases h with
  | commitInQueue | raiseInQueue | commitForced | commitAlone | raiseAlone | commitPlain | raisePlain =>
    exact Nat.le_succ _
  | _ => exact le_rfl

theorem Plain.checkpointed (hp : s.Plain x) (hx : x ∈ s.activeTransactions) (hs : s.Sound)
    (hq : s.QueueInvariant) (hf : s.FlagCalled) {t : TransactionId} {ts oldest : Nat}
    (he : s.trace = newer ++ .applied t ts oldest true :: older) : Checkpointed newer := by
  obtain ⟨g, hg⟩ := hs.gate.gate
  rcases hs.history.carried _ _ _ _ _ he with hc | hflag | ⟨j, origin, number, hl, _⟩ | hfailed
  · exact hc
  · rcases hq.called (hf hflag) x hx hp.type with hr | hb
    · exact nomatch hr.symm.trans hp.raised
    · exact nomatch hb.symm.trans hp.busy
  · exact absurd ((hs.gate.writing (hg.held hl rfl).2.2.2).readers x hx) hp.type
  · exact absurd (hs.gate.failed hfailed x hx) hp.type

theorem Effect.journal (h : Effect i s s') (hs : s.Sound) (hq : s.QueueInvariant) (hf : s.FlagCalled)
    (hj : s.JournalInvariant) : s'.JournalInvariant := by
  obtain ⟨events, ht, hadds⟩ := h.adds
  refine ⟨fun c hmem => ?_, fun newer older c he t ts oldest forced hmem => ?_,
    fun newer older c he between before t ts oldest hsplit => ?_⟩
  · rw [ht] at hmem
    rcases mem_append.mp hmem with hmem | hmem
    · exact (hadds _ hmem).2.2.2.ge
    · exact (hj.stamped c hmem).trans h.lastTimestamp_le
  · rcases split_append (ht ▸ he) with ⟨rest, rfl, hold⟩ | ⟨rest, hevents, _⟩
    · rcases mem_append.mp hmem with hmem | hmem
      · have hc := hj.stamped c (mem_of_split hold)
        have hts := (hadds _ hmem).2.2.2.1
        omega
      · exact hj.ordered _ _ _ hold _ _ _ _ hmem
    · have hc := (hadds _ (mem_of_split hevents)).2.2.1
      have hts := (hadds (.applied t ts oldest forced) (by
        rw [hevents]
        exact mem_append_left _ hmem)).2.2.2.1
      omega
  · rcases split_append (ht ▸ he) with ⟨rest, _, hold⟩ | ⟨rest, hevents, rfl⟩
    · exact hj.covered _ _ _ hold _ _ _ _ _ hsplit
    · obtain ⟨⟨x, hx, hplain⟩, hnew, _⟩ := hadds _ (mem_of_split hevents)
      rcases split_append hsplit with ⟨rest', rfl, hold⟩ | ⟨rest', hrest, _⟩
      · exact (hplain.checkpointed hx hs hq hf hold).append rest
      · -- A forced commit of the same effect would have been there before.
        have hmem : .applied t ts oldest true ∈ events := by
          rw [hevents, hrest]
          simp
        obtain ⟨⟨y, hy, hid, _⟩, _⟩ := hadds _ hmem
        have hold := hnew t ts oldest (ht ▸ mem_append_left _ hmem)
        exact absurd hid ((hs.history.applied _ _ _ _ hold).1 y hy)

theorem Effect.flag_of (h : Effect i s s') (hf : s'.checkpointCarriesForcedCommit = true) :
    s.checkpointCarriesForcedCommit = true ∨ s'.commitQueuedNow = true := by
  cases h with
  | commitInQueue x _ _ _ _ hc => exact .inr hc
  | commitForced | write | writeRequested => cases hf
  | _ => exact .inl hf

theorem Effect.callEnds (h : Effect i s s') (hc : s.commitQueuedNow = true) :
    s'.commitQueuedNow = true ∨ s'.checkpointPending = false ∨ s'.checkpointCarriesForcedCommit = false := by
  cases h with
  | giveUp | commitAlone | raiseAlone => exact .inr (.inl rfl)
  | commitForced | write | writeRequested => exact .inr (.inr rfl)
  | callQueue => exact .inl rfl
  | _ => exact .inl hc

/-- A step starts with the gate closed if a forced commit has no checkpoint
yet. -/
def GateKept (s _ : TransactionManager) : Prop :=
  s.checkpointPending = false → s.checkpointCarriesForcedCommit = false

instance : DecidableRel GateKept := fun s _ =>
  inferInstanceAs (Decidable (s.checkpointPending = false → s.checkpointCarriesForcedCommit = false))

/-- What holds as long as the gate is kept: only where it has been reopened is
a forced commit left without a checkpoint that waits for it. -/
structure Gated (s : TransactionManager) : Prop where
  sound : s.Sound
  queue : s.QueueInvariant
  journal : s.JournalInvariant
  flag : s.checkpointCarriesForcedCommit = true → s.commitQueuedNow = true ∨ s.checkpointPending = false

theorem Effect.flagCalled (h : Effect i s s') (hsteady : Steady s s') (hf : s.FlagCalled) : s'.FlagCalled := by
  intro hflag
  rcases h.flag_of hflag with hold | hc
  · exact (hsteady (hf hold)).resolve_right fun hclear => nomatch hflag.symm.trans hclear
  · exact hc

theorem Effect.gated (h : Effect i s s') (hs : s.Gated) (hf : s.FlagCalled) : s'.Gated := by
  refine ⟨h.sound hs.sound, h.queueInvariant hs.sound hs.queue, h.journal hs.sound hs.queue hf hs.journal,
    fun hflag => ?_⟩
  rcases h.flag_of hflag with hold | hc
  · rcases h.callEnds (hf hold) with hc | hopen | hclear
    · exact .inl hc
    · exact .inr hopen
    · exact nomatch hflag.symm.trans hclear
  · exact .inl hc

theorem Calls.gated (h : Calls i s s') (hs : s.Gated) (hf : s.FlagCalled) : s'.Gated := by
  induction h with
  | refl => exact hs
  | last he => exact he.gated hs hf
  | step he hsteady _ ih => exact ih (he.gated hs hf) (he.flagCalled hsteady hf)

theorem gated_initial (config : Config) : (initial config).Gated where
  sound := sound_initial config
  queue := ⟨nofun, nofun⟩
  flag := nofun
  journal := ⟨nofun, fun newer older c h => by simp [initial] at h, fun newer older c h => by simp [initial] at h⟩

/-- Two forced commits: the second commits in the queue of the first, whose
own commit then raises; a third transaction reaches the journal before the
second has written its checkpoint. -/
def carrierRaises : List ManagerAction :=
  [.openDatabase, .beginTransaction .write false, .beginTransaction .write false,
    .setForceCheckpoint (2 ^ 63 + 1), .setForceCheckpoint (2 ^ 63 + 2),
    .commit 1 (2 ^ 63 + 1) {}, .commit 2 (2 ^ 63 + 2) {}, .resume 1 false {}, .resume 2 false {},
    .resume 1 false { result := .raised false }, .beginTransaction .write false,
    .commit 3 (2 ^ 63 + 3) {}]

theorem journal_uncovered_after_raise :
    ∃ s, run step (initial ⟨false, true, true⟩) carrierRaises = some s ∧ ¬ s.JournalCovered := by
  obtain ⟨s, hrun, htrace⟩ : ∃ s, run step (initial ⟨false, true, true⟩) carrierRaises = some s ∧
      s.trace = [.returned (2 ^ 63 + 3), .appended 4, .applied (2 ^ 63 + 3) 4 1 false,
        .began (2 ^ 63 + 3) .write, .raised (2 ^ 63 + 1), .applied (2 ^ 63 + 2) 2 1 true,
        .began (2 ^ 63 + 2) .write, .began (2 ^ 63 + 1) .write] := ⟨_, rfl, by decide⟩
  refine ⟨s, hrun, fun hcovered => ?_⟩
  obtain ⟨between, before, hsplit, number, cp, _, hcompleted⟩ := hcovered [.returned (2 ^ 63 + 3)] _ 4
    htrace (2 ^ 63 + 2) 2 1 (by simp [htrace]) (by decide)
  have hmem : .completed number cp ∈ between ++ .applied (2 ^ 63 + 2) 2 1 true :: before :=
    mem_append_left _ hcompleted
  rw [← hsplit] at hmem
  simp at hmem

/-- As long as the gate is kept closed on a forced commit without its
checkpoint, no record reaches the journal on top of one. -/
theorem journal_covered_within (h : ReachableWithin GateKept step (initial config) s) : s.JournalCovered := by
  refine JournalInvariant.journalCovered (Gated.journal (h.invariant (gated_initial config) ?_))
  intro u a u' hu hstep hkept
  obtain ⟨i, hc⟩ := step_calls hu.sound hstep
  refine hc.gated hu fun hflag => (hu.flag hflag).resolve_right fun hopen => ?_
  exact nomatch hflag.symm.trans (hkept hopen)

def journalAfterForced : List ManagerAction :=
  [.openDatabase, .beginTransaction .write false, .setForceCheckpoint (2 ^ 63 + 1),
    .commit 1 (2 ^ 63 + 1) {}, .finishWriting 1 .completed, .beginTransaction .write false,
    .write (2 ^ 63 + 2), .commit 1 (2 ^ 63 + 2) {}]

theorem journal_covered_within_ordinary :
    ∃ s, runWithin GateKept step (initial ⟨false, true, true⟩) journalAfterForced = some s ∧
      .applied (2 ^ 63 + 1) 2 2 true ∈ s.trace ∧ .appended 3 ∈ s.trace ∧ s.JournalCovered := by
  obtain ⟨s, hrun, happlied, happended⟩ :
      ∃ s, runWithin GateKept step (initial ⟨false, true, true⟩) journalAfterForced = some s ∧
        .applied (2 ^ 63 + 1) 2 2 true ∈ s.trace ∧ .appended 3 ∈ s.trace := ⟨_, rfl, by decide, by decide⟩
  exact ⟨s, hrun, happlied, happended, journal_covered_within (ReachableWithin.init.run hrun)⟩

end Rag3db.Transaction.TransactionManager
