import Rag3db.Transaction.CheckpointSafety

namespace Rag3db.Transaction.TransactionManager

open Library.Transition

variable {s s' u : TransactionManager} {i : ThreadId} {config : Config}
  {x : ActiveTransaction} {newer older : List Event}

/-- From this state on no transaction starts, no commit is applied and every call
of CHECKPOINT is refused. One that was called before and waits goes on. -/
def RefusesWork (s : TransactionManager) : Prop :=
  ∀ u, Reachable step s u → ∀ a u', u.step a = some u' →
    (∀ t type, .began t type ∈ u'.trace → .began t type ∈ u.trace) ∧
    (∀ t ts oldest forced, .applied t ts oldest forced ∈ u'.trace → .applied t ts oldest forced ∈ u.trace) ∧
    ∀ i, a = .checkpoint i → u' = u

theorem Effect.not_applied (h : Effect i s s') (hs : s.Sound) (hf : s.checkpointFailed = true)
    {t : TransactionId} {ts oldest : Nat} {forced : Bool} (he : .applied t ts oldest forced ∈ s'.trace) :
    .applied t ts oldest forced ∈ s.trace := by
  obtain ⟨events, ht, hadds⟩ := h.adds
  rw [ht] at he
  refine (List.mem_append.mp he).resolve_left fun hmem => ?_
  obtain ⟨⟨x, hx, _, htype⟩, _⟩ := hadds _ hmem
  exact htype (hs.gate.failed hf x hx)

theorem Effect.not_began (h : Effect i s s') (hf : s.refuses = true) {t : TransactionId}
    {type : TransactionType} (he : .began t type ∈ s'.trace) : .began t type ∈ s.trace := by
  obtain ⟨events, ht, hadds⟩ := h.adds
  rw [ht] at he
  refine (List.mem_append.mp he).resolve_left fun hmem => ?_
  exact nomatch hf.symm.trans (hadds _ hmem)

theorem refuses_of_failed (hf : s.checkpointFailed = true) : s.refuses = true := by
  simp [refuses, hf]

theorem Calls.refused (h : Calls i s s') (hs : s.Sound) (hf : s.checkpointFailed = true) :
    s'.checkpointFailed = true ∧ (∀ t type, .began t type ∈ s'.trace → .began t type ∈ s.trace) ∧
      ∀ t ts oldest forced, .applied t ts oldest forced ∈ s'.trace → .applied t ts oldest forced ∈ s.trace := by
  induction h with
  | refl => exact ⟨hf, fun _ _ h => h, fun _ _ _ _ h => h⟩
  | last he =>
    exact ⟨he.failed_mono hf, fun _ _ => he.not_began (refuses_of_failed hf), fun _ _ _ _ => he.not_applied hs hf⟩
  | step he _ _ ih =>
    obtain ⟨hf', hbegan, happlied⟩ := ih (he.sound hs) (he.failed_mono hf)
    exact ⟨hf', fun _ _ h => he.not_began (refuses_of_failed hf) (hbegan _ _ h),
      fun _ _ _ _ h => he.not_applied hs hf (happlied _ _ _ _ h)⟩

theorem Sound.refusesWork (hs : s.Sound) (hf : s.checkpointFailed = true) : s.RefusesWork := by
  intro u hu a u' hstep
  obtain ⟨hsound, hfailed⟩ : u.Sound ∧ u.checkpointFailed = true := by
    refine hu.invariant (P := fun v => v.Sound ∧ v.checkpointFailed = true) ⟨hs, hf⟩ ?_
    intro v a v' ⟨hv, hvf⟩ hstep
    obtain ⟨i, hc⟩ := step_calls hv hstep
    exact ⟨hc.sound hv, (hc.refused hv hvf).1⟩
  obtain ⟨i, hc⟩ := step_calls hsound hstep
  obtain ⟨_, hbegan, happlied⟩ := hc.refused hsound hfailed
  refine ⟨hbegan, happlied, ?_⟩
  rintro k rfl
  obtain ⟨_, h⟩ := Option.ite_none_left_eq_some.mp hstep
  rw [← Option.some.inj h, checkpoint, if_pos (by simp [refuses_of_failed hfailed])]

/-- A forced commit returns only once a checkpoint started after it has
completed, and one whose checkpoint has not completed is never forgotten. -/
theorem forced_commits_kept (h : Reachable step (initial config) s) :
    (∀ newer older t, s.trace = newer ++ .returned t :: older →
      ∀ between before ts oldest, older = between ++ .applied t ts oldest true :: before →
        ∃ number cp, .started number cp ∈ between ∧ .completed number cp ∈ between) ∧
    ∀ newer older t ts oldest, s.trace = newer ++ .applied t ts oldest true :: older →
      (∃ number cp, .started number cp ∈ newer ∧ .completed number cp ∈ newer) ∨
      s.checkpointCarriesForcedCommit = true ∨
      (∃ i origin number, s.threads.lookup i = some (.writing origin number true) ∧
        .started number s.checkpointTS ∈ newer) ∨
      s.RefusesWork := by
  have hs := sound_of_reachable h
  refine ⟨hs.history.returned, fun newer older t ts oldest he => ?_⟩
  rcases hs.history.carried newer older t ts oldest he with hc | hf | hw | hf
  · exact .inl hc
  · exact .inr (.inl hf)
  · exact .inr (.inr (.inl hw))
  · exact .inr (.inr (.inr (hs.refusesWork hf)))

def forcedCommit : List ManagerAction :=
  [.openDatabase, .beginTransaction .write false, .setForceCheckpoint (2 ^ 63 + 1),
    .commit 1 (2 ^ 63 + 1) {}, .finishWriting 1 .completed]

theorem forced_commits_kept_own : ∃ s, run step (initial ⟨false, true, true⟩) forcedCommit = some s ∧
      s.trace = [] ++ .returned (2 ^ 63 + 1) :: ([.completed 1 2, .started 1 2] ++
        .applied (2 ^ 63 + 1) 2 2 true :: [.began (2 ^ 63 + 1) .write]) ∧
      ∃ number cp, Event.started number cp ∈ [Event.completed 1 2, .started 1 2] ∧
        Event.completed number cp ∈ [Event.completed 1 2, .started 1 2] := by
  obtain ⟨s, hrun, htrace⟩ : ∃ s, run step (initial ⟨false, true, true⟩) forcedCommit = some s ∧
      s.trace = [] ++ .returned (2 ^ 63 + 1) :: ([.completed 1 2, .started 1 2] ++
        .applied (2 ^ 63 + 1) 2 2 true :: [.began (2 ^ 63 + 1) .write]) := ⟨_, rfl, by decide⟩
  exact ⟨s, hrun, htrace, (forced_commits_kept (Reachable.init.run hrun)).1 _ _ _ htrace _ _ _ _ rfl⟩

end Rag3db.Transaction.TransactionManager
