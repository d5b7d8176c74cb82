import Rag3db.Library.Transition
import Rag3db.Storage.GroupCheckpoint

open List Option

namespace Rag3db.Storage

open Library.Transition NodeGroup

variable {α : Type}

/-- A checkpoint while it is written: its timestamp, and the oldest snapshot that was open when it began. -/
structure CheckpointTimestamps where
  checkpointTS : Nat
  oldestReaderTS : Nat

/-- A node group, the transactions that are open with their snapshots, and, for
the statement only, the lists that each checkpoint of the group has replaced. -/
structure GenerationRun (α : Type) where
  group : NodeGroup α
  lastTimestamp : Nat
  active : List (Nat × Nat) := []
  writing : Option CheckpointTimestamps := none
  replaced : List (PreviousGeneration α) := []

inductive GenerationAction (α : Type)
  | beginTransaction (id : Nat)
  | refreshSnapshot (id : Nat)
  | clearTransaction (id : Nat)
  | write (groups : List (ChunkedNodeGroup α))
  | commit
  | beginCheckpoint
  | checkpointGroup
  | endCheckpoint

namespace GenerationRun

variable (s : GenerationRun α)

/-- The oldest snapshot as `checkpointNoLock` takes it. -/
def oldestReaderTS : Nat := s.active.foldl (fun oldest a => min oldest a.2) s.lastTimestamp

/-- Readers come and go while a checkpoint is written, and a checkpoint may leave the group out. -/
def step : GenerationAction α → Option (GenerationRun α)
  | .beginTransaction id => some { s with active := s.active ++ [(id, s.lastTimestamp)] }
  | .refreshSnapshot id => some { s with
      active := s.active.map fun a => if a.1 = id then (id, s.lastTimestamp) else a }
  | .clearTransaction id => some { s with active := s.active.filter fun a => a.1 ≠ id }
  | .write groups => some { s with group := { s.group with chunkedGroups := groups } }
  | .commit => some { s with lastTimestamp := s.lastTimestamp + 1 }
  | .beginCheckpoint => match s.writing with
    | none => some { s with writing := some ⟨s.lastTimestamp, s.oldestReaderTS⟩ }
    | some _ => none
  | .checkpointGroup => s.writing.bind fun t =>
    (s.group.checkpoint t.checkpointTS t.oldestReaderTS).map fun group => { s with
      group
      replaced := s.replaced ++ [⟨t.checkpointTS, sealLast s.group.chunkedGroups⟩] }
  | .endCheckpoint => some { s with writing := none }

def start (groups : List (ChunkedNodeGroup α)) (numRows lastTimestamp : Nat) : GenerationRun α where
  group := { chunkedGroups := groups, numRows, nextRowToAppend := numRows }
  lastTimestamp

def after (snapshot : Nat) (generations : List (PreviousGeneration α)) : List (PreviousGeneration α) :=
  generations.filter fun generation => snapshot < generation.checkpointTS

structure Inv (s : GenerationRun α) : Prop where
  past : ∀ generation ∈ s.replaced, generation.checkpointTS ≤ s.lastTimestamp
  stored : ∀ generation ∈ s.group.previousGenerations, generation.checkpointTS ≤ s.lastTimestamp
  open_le : ∀ a ∈ s.active, a.2 ≤ s.lastTimestamp
  kept : ∀ a ∈ s.active, ∀ snapshot, a.2 ≤ snapshot →
    after snapshot s.group.previousGenerations = after snapshot s.replaced
  writing : ∀ t, s.writing = some t → t.checkpointTS ≤ s.lastTimestamp ∧ t.oldestReaderTS ≤ t.checkpointTS ∧
    ∀ a ∈ s.active, t.oldestReaderTS ≤ a.2

variable {s} {s' : GenerationRun α} {id snapshot checkpointTS oldestReaderTS : Nat} {t : CheckpointTimestamps}
  {group : NodeGroup α}

theorem after_eq_nil {generations : List (PreviousGeneration α)} {time : Nat}
    (h : ∀ generation ∈ generations, generation.checkpointTS ≤ time) (hle : time ≤ snapshot) :
    after snapshot generations = [] :=
  filter_eq_nil_iff.mpr fun generation hg => by
    have := h generation hg
    simpa using this.trans hle

theorem oldestReaderTS_le (s : GenerationRun α) :
    s.oldestReaderTS ≤ s.lastTimestamp ∧ ∀ a ∈ s.active, s.oldestReaderTS ≤ a.2 := by
  unfold oldestReaderTS
  generalize s.active = active, s.lastTimestamp = oldest
  induction active generalizing oldest with
  | nil => simp
  | cons a active ih =>
    obtain ⟨hle, hall⟩ := ih (min oldest a.2)
    refine ⟨hle.trans (min_le_left _ _), forall_mem_cons.mpr ⟨hle.trans (min_le_right _ _), hall⟩⟩

theorem Inv.setActive (h : Inv s) {active : List (Nat × Nat)}
    (hactive : ∀ a ∈ active, a ∈ s.active ∨ a.2 = s.lastTimestamp) : Inv { s with active } where
  past := h.past
  stored := h.stored
  open_le a ha := (hactive a ha).elim (h.open_le a) Eq.le
  kept a ha snapshot hle := by
    rcases hactive a ha with ha | hnow
    · exact h.kept a ha snapshot hle
    · exact (after_eq_nil h.stored (hnow ▸ hle)).trans (after_eq_nil h.past (hnow ▸ hle)).symm
  writing t ht := by
    obtain ⟨hle, hold, hall⟩ := h.writing t ht
    exact ⟨hle, hold, fun a ha => (hactive a ha).elim (hall a) fun hnow => hnow ▸ hold.trans hle⟩

theorem checkpoint_eq_some {g : NodeGroup α} (h : g.checkpoint checkpointTS oldestReaderTS = some group) :
    group.previousGenerations = g.retireAndKeepGeneration checkpointTS oldestReaderTS (sealLast g.chunkedGroups) := by
  unfold checkpoint at h
  split at h
  case h_1 => cases h
  case h_2 first rest hg =>
    cases h
    rw [hg]

/-- Who is older than the checkpoint finds the old list behind those that are kept;
who is not has no use for it. -/
theorem after_retireAndKeepGeneration (g : NodeGroup α)
    (groups : List (ChunkedNodeGroup α)) (hle : oldestReaderTS ≤ snapshot) :
    after snapshot (g.retireAndKeepGeneration checkpointTS oldestReaderTS groups) =
      after snapshot (g.previousGenerations ++ [⟨checkpointTS, groups⟩]) := by
  have hkept : after snapshot (g.previousGenerations.filter fun generation =>
      oldestReaderTS < generation.checkpointTS) = after snapshot g.previousGenerations := by
    refine filter_filter.trans (filter_congr fun generation _ => ?_)
    rw [← Bool.decide_and]
    exact decide_eq_decide.mpr ⟨And.left, fun hlt => ⟨hlt, hle.trans_lt hlt⟩⟩
  unfold retireAndKeepGeneration
  split_ifs with hyoung
  · unfold after at hkept ⊢
    rw [filter_append, filter_append, hkept]
  · have hnone : after snapshot [(⟨checkpointTS, groups⟩ : PreviousGeneration α)] = [] := by
      simp only [after, filter_eq_nil_iff, mem_singleton, forall_eq, decide_eq_true_eq]
      omega
    rw [hkept]
    unfold after at hnone ⊢
    rw [filter_append, hnone, append_nil]

theorem Inv.checkpointGroup (h : Inv s) (ht : s.writing = some t)
    (hg : s.group.checkpoint t.checkpointTS t.oldestReaderTS = some group) :
    Inv { s with group, replaced := s.replaced ++ [⟨t.checkpointTS, sealLast s.group.chunkedGroups⟩] } := by
  obtain ⟨hle, hold, hall⟩ := h.writing t ht
  have hgenerations := checkpoint_eq_some hg
  have hnew : ∀ generations : List (PreviousGeneration α),
      (∀ generation ∈ generations, generation.checkpointTS ≤ s.lastTimestamp) →
      ∀ generation ∈ generations ++ [⟨t.checkpointTS, sealLast s.group.chunkedGroups⟩],
        generation.checkpointTS ≤ s.lastTimestamp :=
    fun generations hg => forall_mem_append.mpr ⟨hg, by simpa using hle⟩
  refine ⟨hnew _ h.past, fun generation hmem => ?_, h.open_le, fun a ha snapshot hsnapshot => ?_, h.writing⟩
  · rw [hgenerations] at hmem
    refine hnew _ h.stored generation ?_
    unfold retireAndKeepGeneration at hmem
    split_ifs at hmem
    · exact (mem_append.mp hmem).elim (fun hm => mem_append_left _ (mem_filter.mp hm).1) (mem_append_right _)
    · exact mem_append_left _ (mem_filter.mp hmem).1
  · rw [hgenerations, after_retireAndKeepGeneration _ _ ((hall a ha).trans hsnapshot)]
    have hkept := h.kept a ha snapshot hsnapshot
    unfold after at hkept ⊢
    rw [filter_append, filter_append, hkept]

theorem Inv.step {a : GenerationAction α} (h : Inv s) (hs : s.step a = some s') : Inv s' := by
  cases a with
  | beginTransaction id =>
    cases hs
    exact h.setActive fun a ha => (mem_append.mp ha).imp_right fun hm => by rw [mem_singleton.mp hm]
  | refreshSnapshot id =>
    cases hs
    refine h.setActive fun a ha => ?_
    obtain ⟨b, hb, rfl⟩ := mem_map.mp ha
    split_ifs
    · exact .inr rfl
    · exact .inl hb
  | clearTransaction id =>
    cases hs
    exact h.setActive fun a ha => .inl (mem_filter.mp ha).1
  | write groups =>
    cases hs
    exact ⟨h.past, h.stored, h.open_le, h.kept, h.writing⟩
  | commit =>
    cases hs
    refine ⟨fun g hg => (h.past g hg).trans (Nat.le_succ _), fun g hg => (h.stored g hg).trans (Nat.le_succ _),
      fun a ha => (h.open_le a ha).trans (Nat.le_succ _), h.kept, fun t ht => ?_⟩
    obtain ⟨hle, hrest⟩ := h.writing t ht
    exact ⟨hle.trans (Nat.le_succ _), hrest⟩
  | beginCheckpoint =>
    cases hw : s.writing with
    | some t => simp [GenerationRun.step, hw] at hs
    | none =>
      simp only [GenerationRun.step, hw, Option.some.injEq] at hs
      subst hs
      refine ⟨h.past, h.stored, h.open_le, h.kept, fun t ht => ?_⟩
      cases ht
      exact ⟨le_rfl, s.oldestReaderTS_le.1, s.oldestReaderTS_le.2⟩
  | checkpointGroup =>
    obtain ⟨t, ht, hs⟩ := bind_eq_some_iff.mp hs
    obtain ⟨group, hg, rfl⟩ := map_eq_some_iff.mp hs
    exact h.checkpointGroup ht hg
  | endCheckpoint =>
    cases hs
    exact ⟨h.past, h.stored, h.open_le, h.kept, fun _ ht => nomatch ht⟩

theorem inv_start (groups : List (ChunkedNodeGroup α)) (numRows lastTimestamp : Nat) :
    Inv (start groups numRows lastTimestamp) where
  past := by simp [start]
  stored := by simp [start]
  open_le := by simp [start]
  kept := by simp [start]
  writing := by simp [start]

/-- A transaction that is open reads the blocks that were there before the first
checkpoint after its snapshot, and these are not given up; so does a view of a
later state that it takes for a while. -/
theorem generation_kept {groups : List (ChunkedNodeGroup α)} {numRows lastTimestamp : Nat}
    (h : Reachable step (start groups numRows lastTimestamp) s) {a : Nat × Nat} (ha : a ∈ s.active)
    {snapshot : Nat} (hle : a.2 ≤ snapshot) :
    s.group.groupsFor snapshot =
      ((s.replaced.find? (snapshot < ·.checkpointTS)).map (·.groups)).getD s.group.chunkedGroups ∧
    ∀ generation, s.replaced.find? (snapshot < ·.checkpointTS) = some generation →
      generation ∈ s.group.previousGenerations := by
  have hinv : Inv s := h.invariant (inv_start groups numRows lastTimestamp) fun _ _ _ hi hs => hi.step hs
  have hfind : s.group.previousGenerations.find? (snapshot < ·.checkpointTS) =
      s.replaced.find? (snapshot < ·.checkpointTS) := by
    rw [← head?_filter, ← head?_filter]
    exact congrArg List.head? (hinv.kept a ha snapshot hle)
  refine ⟨?_, fun generation hg => mem_of_find?_eq_some (hfind.trans hg)⟩
  unfold groupsFor
  rw [hfind]
  cases s.replaced.find? (snapshot < ·.checkpointTS) <;> rfl

def readerOpen : List (GenerationAction Nat) :=
  [.beginTransaction 7, .commit, .beginCheckpoint, .beginTransaction 8, .checkpointGroup, .endCheckpoint, .commit,
    .beginCheckpoint, .checkpointGroup, .endCheckpoint]

theorem generation_kept_reader :
    ∃ s, run step (start [newChunkedGroup 0] 0 1) readerOpen = some s ∧ s.active = [(7, 1), (8, 2)] ∧
      s.replaced.map (·.checkpointTS) = [2, 3] ∧
      s.group.groupsFor 2 = ((s.replaced.find? (2 < ·.checkpointTS)).map (·.groups)).getD s.group.chunkedGroups := by
  have hrun : (run step (start [newChunkedGroup 0] 0 1) readerOpen).any (fun s =>
      s.active = [(7, 1), (8, 2)] && decide (s.replaced.map (·.checkpointTS) = [2, 3])) = true := by
    decide +kernel
  obtain ⟨s, hs, hstate⟩ := (any_eq_true _ _).mp hrun
  obtain ⟨hactive, hreplaced⟩ := (Bool.and_eq_true _ _).mp hstate
  have hopen : (8, 2) ∈ s.active := by
    rw [of_decide_eq_true hactive]
    decide
  exact ⟨s, hs, of_decide_eq_true hactive, of_decide_eq_true hreplaced,
    (generation_kept (Reachable.init.run hs) hopen le_rfl).1⟩

end GenerationRun

end Rag3db.Storage
