import Rag3db.Weaver.MigrationRunner

open List Option Function List.Sublist

namespace Rag3db.Weaver

open Library.Transition RunnerPhase

namespace MigrationEvent

def appliedSince (version : Nat) : List MigrationEvent → Bool
  | [] => false
  | .applied _ v :: log => v = version || appliedSince version log
  | .rolledBack _ v :: log => v ≠ version && appliedSince version log
  | _ :: log => appliedSince version log

/-- No migration is applied twice without a rollback in between. -/
def appliedOnce : List MigrationEvent → Bool
  | [] => true
  | .applied _ v :: log => !appliedSince v log && appliedOnce log
  | _ :: log => appliedOnce log

def inner : MigrationEvent → Bool
  | .ran .. | .finished _ | .undid .. => true
  | _ => false

variable {e : MigrationEvent} {log : List MigrationEvent}

theorem appliedSince_inner (h : e.inner) (version : Nat) :
    appliedSince version (e :: log) = appliedSince version log := by
  cases e <;> first | rfl | cases h

theorem appliedOnce_inner (h : e.inner) : appliedOnce (e :: log) = appliedOnce log := by
  cases e <;> first | rfl | cases h

end MigrationEvent

open MigrationEvent

namespace RunnerPhase

variable {D U : Type}

def working : RunnerPhase D U → Bool
  | .next .. | .loading _ | .creating _ | .executing .. | .marking .. | .recording .. | .fetching .. | .undoing ..
  | .settling .. | .releasing _ => true
  | _ => false

def acquiring : RunnerPhase D U → Bool
  | .droppingLock .. | .writingLock .. => true
  | _ => false

/-- The lock that the runner is about to write has not expired. -/
def onTime (clock : Nat) : RunnerPhase D U → Prop
  | .writingLock _ since => clock < since + lockTtlMs
  | _ => True

def toApply : RunnerPhase D U → List MigrationFile
  | .readingLock (.apply pending _) | .droppingLock (.apply pending _) _ | .writingLock (.apply pending _) _ => pending
  | .next files _ _ => files
  | .loading task | .creating task | .executing task _ | .marking task _ | .recording task _ => task.file :: task.rest
  | _ => []

end RunnerPhase

/-- Any number of runners on one database. -/
structure MigrationSystem (D U : Type) where
  db : MigrationDb D U := {}
  runners : Nat → RunnerPhase D U := fun _ => .idle
  clock : Nat := 0

inductive SystemAction (U : Type)
  | act (i : Nat) (a : RunnerAction U)
  | tick (now : Nat)

namespace MigrationSystem

variable {D U : Type}

def put (s : MigrationSystem D U) (i : Nat) (x : MigrationDb D U × RunnerPhase D U) : MigrationSystem D U :=
  { s with db := x.1, runners := update s.runners i x.2 }

def step (env : MigrationEnv D) (lockId : Nat → String) (s : MigrationSystem D U) :
    SystemAction U → Option (MigrationSystem D U)
  | .act i a => ((s.runners i).step env i (lockId i) s.clock s.db a).map (s.put i)
  | .tick now => if s.clock ≤ now then some { s with clock := now } else none

/-- No runner outlives its lock. -/
def Timely (s : MigrationSystem D U) : SystemAction U → Prop
  | .tick now => ∀ i row, (s.runners i).working → s.db.lock = some row → row.owner = i → now < row.expiresAt
  | .act i _ => (s.runners i).onTime s.clock

/-- The lock is read while no other runner is about to write it, a runner that
writes it finds none of its files applied, and neither the release of the lock
nor anything that a rollback does after taking it fails. -/
def Smooth (env : MigrationEnv D) (s : MigrationSystem D U) (i : Nat) : RunnerPhase D U → RunnerAction U → Prop
  | .readingLock _, .statement _ => ∀ j, j ≠ i → ¬ (s.runners j).acquiring
  | .writingLock (.apply pending _) _, .statement _ =>
    ∀ f ∈ pending, ∀ am, s.db.records f.version = some am → am.status ≠ .applied
  | .fetching _ am, .statement answer =>
    answer.isOk ∧ ∃ cp, s.db.executions am.executionId = some cp ∧ (env.build cp.graphDef).isOk
  | .undoing .., .undo result => result.isOk
  | .settling .., .settle found answer => (found.bind scanAll).isOk ∧ answer.isOk
  | .releasing _, .statement answer => answer.isOk
  | _, _ => True

def Orderly (env : MigrationEnv D) (s : MigrationSystem D U) : SystemAction U → Prop
  | .act i a => s.Smooth env i (s.runners i) a
  | .tick _ => True

/-- What the lock is for. -/
structure LockSafe (s : MigrationSystem D U) : Prop where
  exclusive : ∀ i j, (s.runners i).working → (s.runners j).working → i = j
  once : appliedOnce s.db.log
  own : ∀ i owner, .released i owner ∈ s.db.log → owner = some i
  returned : ∀ i result row, s.runners i = .returned result → s.db.lock = some row → row.owner ≠ i

/-- The runner that works has the lock, and nobody works while a runner is about to write it. -/
structure LockHeld (s : MigrationSystem D U) : Prop where
  holder : ∀ i, (s.runners i).working → ∃ row, s.db.lock = some row ∧ row.owner = i ∧ s.clock < row.expiresAt
  alone : ∀ j, (s.runners j).acquiring → ∀ i, ¬ (s.runners i).working ∧ (i ≠ j → ¬ (s.runners i).acquiring)
  owner : ∀ row, s.db.lock = some row → (s.runners row.owner).working ∨ s.runners row.owner = .crashed

/-- What a runner is to apply is applied neither by it nor by another. -/
structure Unapplied (s : MigrationSystem D U) : Prop where
  nodup : ∀ i, ((s.runners i).toApply.map (·.version)).Nodup
  fresh : ∀ i, (s.runners i).working → ∀ f ∈ (s.runners i).toApply, appliedSince f.version s.db.log = false
  recorded : ∀ version, appliedSince version s.db.log → ∃ am, s.db.records version = some am ∧ am.status = .applied
  once : appliedOnce s.db.log
  own : ∀ i owner, .released i owner ∈ s.db.log → owner = some i

end MigrationSystem

/-- What a runner that has the lock does in one step: it keeps the lock, and
writes at most the record of the file in hand or of the rollback. -/
inductive Worked {D U : Type} (i : Nat) (db : MigrationDb D U) (p : RunnerPhase D U) :
    MigrationDb D U × RunnerPhase D U → Prop
  | quiet {x} (hw : x.2.working) (hlock : x.1.lock = db.lock) (hto : x.2.toApply.Sublist p.toApply)
      (hrec : x.1.records = db.records)
      (hlog : x.1.log = db.log ∨ ∃ e, MigrationEvent.inner e ∧ x.1.log = e :: db.log) : Worked i db p x
  | applied {x} (f : MigrationFile) (am : AppliedMigration) (hw : x.2.working) (hlock : x.1.lock = db.lock)
      (hto : p.toApply = f :: x.2.toApply) (ham : am.status = .applied)
      (hrec : x.1.records = update db.records f.version (some am))
      (hlog : x.1.log = .applied i f.version :: db.log) : Worked i db p x
  | failed {x} (f : MigrationFile) (am : AppliedMigration) (hw : x.2.working) (hlock : x.1.lock = db.lock)
      (hf : f ∈ p.toApply) (hto : x.2.toApply = [])
      (hrec : x.1.records = update db.records f.version (some am)) (hlog : x.1.log = db.log) :
      Worked i db p x
  | rolledBack {x} (version : Nat) (new : Option AppliedMigration) (hw : x.2.working) (hlock : x.1.lock = db.lock)
      (hto : x.2.toApply = []) (hrec : x.1.records = update db.records version new)
      (hlog : x.1.log = .rolledBack i version :: db.log) : Worked i db p x

namespace RunnerPhase

variable {D U : Type} {env : MigrationEnv D} {i : Nat} {db : MigrationDb D U}

theorem worked_startFile (vars : List (String × String)) (results : List MigrationResult) (files : List MigrationFile) :
    Worked i db (.next files vars results) (db, startFile env vars results files) := by
  cases files with
  | nil => exact .quiet rfl rfl (nil_sublist _) rfl (.inl rfl)
  | cons f rest =>
    unfold startFile
    dsimp only
    cases prepare env f vars with
    | error e => exact .quiet rfl rfl (nil_sublist _) rfl (.inl rfl)
    | ok built => exact .quiet rfl rfl (refl _) rfl (.inl rfl)

variable {task : MigrationTask D}

theorem worked_loadExecution (answer : Except String Unit) :
    Worked i db (.loading task) (db, loadExecution env db task answer) := by
  have hquiet : ∀ p' : RunnerPhase D U, p'.working → p'.toApply = task.file :: task.rest →
      Worked i db (.loading task) (db, p') := fun p' hw hto =>
    .quiet hw rfl (hto ▸ refl _) rfl (.inl rfl)
  unfold loadExecution
  split
  · exact hquiet _ rfl rfl
  split
  · exact hquiet _ rfl rfl
  split_ifs
  · exact hquiet _ rfl rfl
  · exact hquiet _ rfl rfl
  · exact hquiet _ rfl rfl

theorem worked_createExecution (answer : Answer) :
    Worked i db (.creating task) (createExecution env db task answer) := by
  cases answer
  · exact .quiet rfl rfl (refl _) rfl (.inl rfl)
  · exact .quiet rfl rfl (refl _) rfl (.inl rfl)
  · exact .quiet rfl rfl (refl _) rfl (.inl rfl)

theorem worked_runNode (done : List String) (name : String) (result : Except String (Option U)) (answer : Answer) :
    Worked i db (.executing task done) (runNode db task done name result answer) := by
  have hran : MigrationEvent.inner (.ran task.file.version name) := rfl
  cases result with
  | error e => exact .quiet rfl rfl (refl _) rfl (.inr ⟨_, hran, rfl⟩)
  | ok undo =>
    cases answer
    · exact .quiet rfl rfl (refl _) rfl (.inr ⟨_, hran, rfl⟩)
    · exact .quiet rfl rfl (refl _) rfl (.inr ⟨_, hran, rfl⟩)
    · exact .quiet rfl rfl (refl _) rfl (.inr ⟨_, hran, rfl⟩)

theorem worked_markExecution (result : Except String Unit) (answer : Answer) :
    Worked i db (.marking task result) (markExecution db task result answer) := by
  cases result <;> cases answer <;> exact .quiet rfl rfl (refl _) rfl (.inl rfl)

theorem worked_recordUp (result : Except MigrationError Unit) (answer : Except String Unit) :
    Worked i db (.recording task result) (recordUp db i task result answer) := by
  cases result with
  | ok _ =>
    cases answer with
    | ok _ => exact .applied task.file _ rfl rfl rfl rfl rfl rfl
    | error e => exact .quiet rfl rfl (nil_sublist _) rfl (.inl rfl)
  | error e =>
    cases answer with
    | ok _ => exact .failed task.file _ rfl rfl mem_cons_self rfl rfl rfl
    | error e => exact .quiet rfl rfl (nil_sublist _) rfl (.inl rfl)

variable {version : Nat} {am : AppliedMigration} {answer : Except String Unit}

theorem worked_fetchCheckpoint (hanswer : answer.isOk)
    (hcp : ∃ cp, db.executions am.executionId = some cp ∧ (env.build cp.graphDef).isOk) :
    Worked i db (.fetching version am) (db, fetchCheckpoint env db version am answer) := by
  obtain ⟨cp, hcp, hbuild⟩ := hcp
  cases answer with
  | error e => cases hanswer
  | ok _ =>
    unfold fetchCheckpoint
    simp only [hcp]
    cases hnodes : env.build cp.graphDef with
    | error e =>
      rw [hnodes] at hbuild
      cases hbuild
    | ok nodes =>
      dsimp only
      split_ifs
      · exact .quiet rfl rfl (nil_sublist _) rfl (.inl rfl)
      · exact .quiet rfl rfl (nil_sublist _) rfl (.inl rfl)

theorem worked_undoNode (cp : MigrationCheckpoint D U) (n : MigrationNode) (left : List MigrationNode)
    {result : Except String Unit} (hok : result.isOk) :
    Worked i db (.undoing version am cp (n :: left)) (undoNode db version am cp n left result) := by
  cases result with
  | error e => cases hok
  | ok _ =>
    unfold undoNode
    split_ifs
    · exact .quiet rfl rfl (nil_sublist _) rfl (.inr ⟨_, rfl, rfl⟩)
    · exact .quiet rfl rfl (nil_sublist _) rfl (.inl rfl)

theorem worked_recordDown {found : Except MigrationError (List MigrationFile)}
    (hfound : (found.bind scanAll).isOk) (hanswer : answer.isOk) :
    Worked i db (.settling version am) (recordDown db i version am found answer) := by
  unfold recordDown
  split
  · rename_i hscan
    rw [hscan] at hfound
    cases hfound
  · cases hanswer
  · split
    · rename_i f hfind
      have hversion : f.version = version := by simpa using find?_some hfind
      subst hversion
      exact .rolledBack f.version _ rfl rfl rfl rfl rfl
    · exact .rolledBack version _ rfl rfl rfl rfl rfl

theorem nodup_scanAll {found files : List MigrationFile} (h : scanAll found = .ok files) :
    (files.map (·.version)).Nodup := by
  unfold scanAll at h
  dsimp only at h
  split at h
  · cases h
  rename_i hnone
  cases h
  -- the list is sorted, and no two neighbours have the same version
  have hsorted := pairwise_insertionSort (fun a b : MigrationFile => a.version ≤ b.version) found
  have hneighbours : List.IsChain (fun a b : MigrationFile => a.version < b.version)
      (found.insertionSort fun a b => a.version ≤ b.version) := by
    generalize found.insertionSort (fun a b => a.version ≤ b.version) = all at hsorted hnone
    induction all with
    | nil => exact .nil
    | cons a all ih =>
      cases all with
      | nil => exact .singleton a
      | cons b all =>
        simp only [tail_cons, zip_cons_cons, find?_cons] at hnone
        split at hnone
        · cases hnone
        · rename_i hne
          have hlt : a.version < b.version :=
            lt_of_le_of_ne ((pairwise_cons.mp hsorted).1 b mem_cons_self) (of_decide_eq_false hne)
          exact .cons_cons hlt (ih (pairwise_cons.mp hsorted).2 hnone)
  rw [isChain_iff_pairwise] at hneighbours
  exact pairwise_map.mpr (hneighbours.imp fun hlt => Nat.ne_of_lt hlt)

theorem applyCall_cases (found : Except MigrationError (List MigrationFile)) (target : Option Nat) (dry : Bool)
    (vars : List (String × String)) (answer : Except String Unit) :
    (∃ result, applyCall env db found target dry vars answer = .returned result) ∨
      ∃ pending, applyCall env db found target dry vars answer = .readingLock (.apply pending vars) ∧
        (pending.map (·.version)).Nodup := by
  unfold applyCall
  split
  · exact .inl ⟨_, rfl⟩
  · exact .inl ⟨_, rfl⟩
  rename_i files _ hscan
  obtain ⟨all, -, hall⟩ := Library.Fallible.bind_eq_ok hscan
  dsimp only
  split_ifs
  · exact .inl ⟨_, rfl⟩
  · exact .inl ⟨_, rfl⟩
  · refine .inr ⟨_, rfl, ?_⟩
    have hsub : ((db.pending files).filter fun f => target.all (f.version ≤ ·)).Sublist files :=
      filter_sublist.trans filter_sublist
    exact (nodup_scanAll hall).sublist (hsub.map _)

theorem rollbackCall_cases (version : Nat) (answer : Except String Unit) :
    (∃ result, rollbackCall db version answer = .returned result) ∨
      ∃ am, rollbackCall db version answer = .readingLock (.rollback version am) := by
  unfold rollbackCall
  split
  · exact .inl ⟨_, rfl⟩
  split
  · exact .inl ⟨_, rfl⟩
  split_ifs
  · exact .inl ⟨_, rfl⟩
  · exact .inr ⟨_, rfl⟩

end RunnerPhase

/-- The moves of a runner in an orderly run. -/
inductive RunnerMove {D U : Type} (i now : Nat) (lockId : String) (db : MigrationDb D U) :
    RunnerPhase D U → RunnerAction U → MigrationDb D U × RunnerPhase D U → Prop
  | call {p a p'} (hp : p = .idle ∨ ∃ result, p = .returned result)
      (hp' : (∃ result, p' = .returned result) ∨ ∃ job, p' = .readingLock job)
      (hto : (p'.toApply.map (·.version)).Nodup) : RunnerMove i now lockId db p a (db, p')
  | read (job : MigrationJob) (answer : Except String Unit) :
      RunnerMove i now lockId db (.readingLock job) (.statement answer) (db, readLock db job now answer)
  | drop (job : MigrationJob) (since : Nat) (answer : Except String Unit) :
      RunnerMove i now lockId db (.droppingLock job since) (.statement answer) (dropLock db job since answer)
  | write (job : MigrationJob) (since : Nat) (answer : Except String Unit) :
      RunnerMove i now lockId db (.writingLock job since) (.statement answer) (writeLock db i lockId job since answer)
  | work {p a x} (hp : p.working) (hx : Worked i db p x) : RunnerMove i now lockId db p a x
  | release (result : Except MigrationError (List MigrationResult)) :
      RunnerMove i now lockId db (.releasing result) (.statement (.ok ())) (release db i result (.ok ()))
  | crash {p a} : RunnerMove i now lockId db p a (db, .crashed)

namespace RunnerMove

variable {D U : Type} {env : MigrationEnv D} {i now : Nat} {lockId : String} {db : MigrationDb D U}
  {p : RunnerPhase D U} {a : RunnerAction U}

theorem calls_apply (hp : p = .idle ∨ ∃ result, p = .returned result)
    (found : Except MigrationError (List MigrationFile)) (target : Option Nat) (dry : Bool)
    (vars : List (String × String)) (answer : Except String Unit) :
    RunnerMove i now lockId db p a (db, applyCall env db found target dry vars answer) := by
  rcases applyCall_cases found target dry vars answer with ⟨r, hr⟩ | ⟨pending, hr, hnodup⟩
  · rw [hr]
    exact .call hp (.inl ⟨r, rfl⟩) .nil
  · rw [hr]
    exact .call hp (.inr ⟨_, rfl⟩) hnodup

theorem calls_rollback (hp : p = .idle ∨ ∃ result, p = .returned result) (version : Nat) (answer : Except String Unit) :
    RunnerMove i now lockId db p a (db, rollbackCall db version answer) := by
  rcases rollbackCall_cases version answer with ⟨r, hr⟩ | ⟨am, hr⟩
  · rw [hr]
    exact .call hp (.inl ⟨r, rfl⟩) .nil
  · rw [hr]
    exact .call hp (.inr ⟨_, rfl⟩) .nil

end RunnerMove

namespace MigrationSystem

open RunnerMove

variable {D U : Type} {env : MigrationEnv D} {lockId : Nat → String} {s s' : MigrationSystem D U}
  {p : RunnerPhase D U} {j : Nat} {result : Except MigrationError (List MigrationResult)}
  {x : MigrationDb D U × RunnerPhase D U} {a : RunnerAction U}

/-- What a runner can do, if nothing fails that would make it return with the lock. -/
theorem moves {i : Nat} (hsmooth : s.Smooth env i p a)
    (hstep : p.step env i (lockId i) s.clock s.db a = some x) : RunnerMove i s.clock (lockId i) s.db p a x := by
  unfold RunnerPhase.step at hstep
  split at hstep
  · cases hstep
    exact calls_apply (.inl rfl) ..
  · cases hstep
    exact calls_apply (.inr ⟨_, rfl⟩) ..
  · cases hstep
    exact calls_rollback (.inl rfl) ..
  · cases hstep
    exact calls_rollback (.inr ⟨_, rfl⟩) ..
  · cases hstep
    exact .read _ _
  · exact some.inj hstep ▸ .drop _ _ _
  · exact some.inj hstep ▸ .write _ _ _
  · exact some.inj hstep ▸ .work rfl (worked_startFile ..)
  · exact some.inj hstep ▸ .work rfl (worked_loadExecution _)
  · exact some.inj hstep ▸ .work rfl (worked_createExecution _)
  · obtain ⟨-, hstep⟩ := ite_none_right_eq_some.mp hstep
    exact some.inj hstep ▸ .work rfl (worked_runNode ..)
  · obtain ⟨-, hstep⟩ := ite_none_right_eq_some.mp hstep
    exact some.inj hstep ▸ .work rfl (.quiet rfl rfl (refl _) rfl (.inl rfl))
  · exact some.inj hstep ▸ .work rfl (.quiet rfl rfl (refl _) rfl (.inl rfl))
  · obtain ⟨-, hstep⟩ := ite_none_right_eq_some.mp hstep
    exact some.inj hstep ▸ .work rfl (.quiet rfl rfl (refl _) rfl (.inr ⟨_, rfl, rfl⟩))
  · exact some.inj hstep ▸ .work rfl (worked_markExecution ..)
  · exact some.inj hstep ▸ .work rfl (worked_recordUp ..)
  · exact some.inj hstep ▸ .work rfl (worked_fetchCheckpoint hsmooth.1 hsmooth.2)
  · exact some.inj hstep ▸ .work rfl (.quiet rfl rfl (nil_sublist _) rfl (.inl rfl))
  · exact some.inj hstep ▸ .work rfl (worked_undoNode _ _ _ hsmooth)
  · exact some.inj hstep ▸ .work rfl (worked_recordDown hsmooth.1 hsmooth.2)
  · rename_i result answer
    cases answer with
    | error e => cases hsmooth
    | ok _ => exact some.inj hstep ▸ .release result
  · cases hstep
  · cases hstep
  · cases hstep
  · exact some.inj hstep ▸ .crash
  · cases hstep

theorem put_self (i : Nat) (x : MigrationDb D U × RunnerPhase D U) : (s.put i x).runners i = x.2 :=
  update_self ..

theorem put_of_ne {i : Nat} (h : j ≠ i) (x : MigrationDb D U × RunnerPhase D U) : (s.put i x).runners j = s.runners j :=
  update_of_ne h ..

theorem not_working_of_acquiring (h : p.acquiring) : ¬ p.working := by
  cases p <;> simp_all [acquiring, working]

namespace LockHeld

variable (h : LockHeld s)

include h

theorem exclusive {i : Nat} (hi : (s.runners i).working) (hj : (s.runners j).working) : i = j := by
  obtain ⟨row, hrow, hri, -⟩ := h.holder i hi
  obtain ⟨row', hrow', hrj, -⟩ := h.holder j hj
  cases hrow.symm.trans hrow'
  exact hri.symm.trans hrj

theorem put {i : Nat} (hwork : x.2.working → (∃ row, x.1.lock = some row ∧ row.owner = i ∧ s.clock < row.expiresAt) ∧
      ∀ j, j ≠ i → ¬ (s.runners j).acquiring)
    (hacquire : x.2.acquiring → ∀ j, j ≠ i → ¬ (s.runners j).working ∧ ¬ (s.runners j).acquiring)
    (hothers : ∀ j, j ≠ i → (s.runners j).working → x.1.lock = s.db.lock)
    (howner : ∀ row, x.1.lock = some row → row.owner = i ∧ (x.2.working ∨ x.2 = .crashed) ∨
      row.owner ≠ i ∧ s.db.lock = some row) : LockHeld (s.put i x) where
  holder j hj := by
    by_cases hji : j = i
    · subst hji
      rw [put_self] at hj
      exact (hwork hj).1
    · rw [put_of_ne hji] at hj
      change ∃ row, x.1.lock = some row ∧ row.owner = j ∧ s.clock < row.expiresAt
      rw [hothers j hji hj]
      exact h.holder j hj
  alone j hj k := by
    by_cases hji : j = i
    · subst hji
      rw [put_self] at hj
      by_cases hk : k = j
      · subst hk
        rw [put_self]
        exact ⟨not_working_of_acquiring hj, fun hne => absurd rfl hne⟩
      · rw [put_of_ne hk]
        exact ⟨(hacquire hj k hk).1, fun _ => (hacquire hj k hk).2⟩
    · rw [put_of_ne hji] at hj
      by_cases hk : k = i
      · subst hk
        rw [put_self]
        exact ⟨fun hw => (hwork hw).2 j hji hj, fun _ ha => (hacquire ha j hji).2 hj⟩
      · rw [put_of_ne hk]
        exact h.alone j hj k
  owner row hrow := by
    rcases howner row hrow with ⟨rfl, hx⟩ | ⟨hne, hlock⟩
    · rw [put_self]
      exact hx
    · rw [put_of_ne hne]
      exact h.owner row hlock

variable {i : Nat}

theorem away {p' : RunnerPhase D U} (hp : ¬ (s.runners i).working ∧ s.runners i ≠ .crashed) (hw : ¬ p'.working)
    (ha : ¬ p'.acquiring) : LockHeld (s.put i (s.db, p')) := by
  refine h.put (fun hw' => absurd hw' hw) (fun ha' => absurd ha' ha) (fun _ _ _ => rfl) fun row hrow => ?_
  refine .inr ⟨fun hi => ?_, hrow⟩
  subst hi
  exact (h.owner row hrow).elim hp.1 hp.2

theorem worked (hp : (s.runners i).working) (hw : x.2.working) (hlock : x.1.lock = s.db.lock) :
    LockHeld (s.put i x) := by
  refine h.put (fun _ => ⟨?_, fun j _ hj => (h.alone j hj i).1 hp⟩) (fun ha => absurd hw (not_working_of_acquiring ha))
    (fun _ _ _ => hlock) fun row hrow => ?_
  · rw [hlock]
    exact h.holder i hp
  · obtain ⟨row', hrow', hi, -⟩ := h.holder i hp
    rw [hlock] at hrow
    cases hrow.symm.trans hrow'
    exact .inl ⟨hi, .inl hw⟩

variable {job : MigrationJob}

theorem readLock (hp : s.runners i = .readingLock job) (hsmooth : ∀ j, j ≠ i → ¬ (s.runners j).acquiring)
    (answer : Except String Unit) : LockHeld (s.put i (s.db, readLock s.db job s.clock answer)) := by
  have hquiet : ¬ (s.runners i).working ∧ s.runners i ≠ .crashed := by
    rw [hp]
    exact ⟨nofun, nofun⟩
  have hfree : ∀ p' : RunnerPhase D U, p'.acquiring → (∀ j, ¬ (s.runners j).working) →
      LockHeld (s.put i (s.db, p')) := fun p' ha hnone => by
    refine h.put (fun hw => absurd hw (not_working_of_acquiring ha)) (fun _ j hj => ⟨hnone j, hsmooth j hj⟩)
      (fun _ _ _ => rfl) fun row hrow => .inr ⟨fun hi => ?_, hrow⟩
    subst hi
    exact (h.owner row hrow).elim hquiet.1 hquiet.2
  unfold RunnerPhase.readLock
  split
  · exact h.away hquiet nofun nofun
  split
  · rename_i hlock
    refine hfree _ rfl fun j hj => ?_
    obtain ⟨row, hrow, -⟩ := h.holder j hj
    cases hlock.symm.trans hrow
  · rename_i row hlock
    split_ifs with hexpired
    · exact h.away hquiet nofun nofun
    · refine hfree _ rfl fun j hj => ?_
      obtain ⟨row', hrow, -, hclock⟩ := h.holder j hj
      cases hlock.symm.trans hrow
      exact hexpired hclock

variable {since : Nat}

theorem dropLock (hp : s.runners i = .droppingLock job since) (answer : Except String Unit) :
    LockHeld (s.put i (dropLock s.db job since answer)) := by
  have halone := h.alone i (by rw [hp]; rfl)
  cases answer with
  | error e =>
    refine h.away ?_ nofun nofun
    rw [hp]
    exact ⟨nofun, nofun⟩
  | ok _ =>
    exact h.put nofun (fun _ j hj => ⟨(halone j).1, (halone j).2 hj⟩) (fun j _ hj => absurd hj (halone j).1) nofun

theorem writeLock (hp : s.runners i = .writingLock job since) (htimely : s.clock < since + lockTtlMs) (lockId : String)
    (answer : Except String Unit) : LockHeld (s.put i (writeLock s.db i lockId job since answer)) := by
  have halone := h.alone i (by rw [hp]; rfl)
  cases answer with
  | error e =>
    refine h.away ?_ nofun nofun
    rw [hp]
    exact ⟨nofun, nofun⟩
  | ok _ =>
    have hbegin : (begin job : RunnerPhase D U).working := by cases job <;> rfl
    refine h.put (fun _ => ⟨⟨_, rfl, rfl, htimely⟩, fun j hj => (halone j).2 hj⟩)
      (fun ha => absurd hbegin (not_working_of_acquiring ha)) (fun j _ hj => absurd hj (halone j).1) fun row hrow => ?_
    cases hrow
    exact .inl ⟨rfl, .inl hbegin⟩

theorem release (hp : s.runners i = .releasing result) : LockHeld (s.put i (release s.db i result (.ok ()))) := by
  have hw : (s.runners i).working := by rw [hp]; rfl
  exact h.put nofun nofun (fun j hj hj' => absurd (h.exclusive hj' hw) hj) nofun

theorem crash : LockHeld (s.put i (s.db, .crashed)) := by
  refine h.put nofun nofun (fun _ _ _ => rfl) fun row hrow => ?_
  by_cases hi : row.owner = i
  · exact .inl ⟨hi, .inr rfl⟩
  · exact .inr ⟨hi, hrow⟩

end LockHeld

theorem LockHeld.act {i : Nat} (h : LockHeld s) (htimely : s.Timely (.act i a)) (horderly : s.Orderly env (.act i a))
    (hstep : (s.runners i).step env i (lockId i) s.clock s.db a = some x) : LockHeld (s.put i x) := by
  have hmove := moves horderly hstep
  have hsmooth : s.Smooth env i (s.runners i) a := horderly
  have hontime : (s.runners i).onTime s.clock := htimely
  generalize hp : s.runners i = p at hmove hsmooth hontime
  cases hmove with
  | call hidle hp' =>
    refine h.away ?_ ?_ ?_
    · rw [hp]
      rcases hidle with rfl | ⟨_, rfl⟩ <;> exact ⟨nofun, nofun⟩
    · rcases hp' with ⟨_, rfl⟩ | ⟨_, rfl⟩ <;> nofun
    · rcases hp' with ⟨_, rfl⟩ | ⟨_, rfl⟩ <;> nofun
  | read job answer => exact h.readLock hp hsmooth answer
  | drop job since answer => exact h.dropLock hp answer
  | write job since answer => exact h.writeLock hp hontime _ answer
  | work hw hx =>
    rw [← hp] at hw
    cases hx with
    | quiet hw' hlock | applied _ _ hw' hlock | failed _ _ hw' hlock | rolledBack _ _ hw' hlock =>
      exact h.worked hw hw' hlock
  | release result => exact h.release hp
  | crash => exact h.crash

namespace Unapplied

variable {i : Nat} {x : MigrationDb D U × RunnerPhase D U}

theorem nodup_put (h : Unapplied s) (hx : (x.2.toApply.map (·.version)).Nodup) (j : Nat) :
    (((s.put i x).runners j).toApply.map (·.version)).Nodup := by
  by_cases hj : j = i
  · subst hj
    rw [put_self]
    exact hx
  · rw [put_of_ne hj]
    exact h.nodup j

theorem fresh_put {log : List MigrationEvent}
    (hothers : ∀ j, j ≠ i → (s.runners j).working → ∀ f ∈ (s.runners j).toApply, appliedSince f.version log = false)
    (hx : x.2.working → ∀ f ∈ x.2.toApply, appliedSince f.version log = false) (j : Nat)
    (hj : ((s.put i x).runners j).working) :
    ∀ f ∈ ((s.put i x).runners j).toApply, appliedSince f.version log = false := by
  by_cases hji : j = i
  · subst hji
    rw [put_self] at hj ⊢
    exact hx hj
  · rw [put_of_ne hji] at hj ⊢
    exact hothers j hji hj

theorem quiet (h : Unapplied s) (hrec : x.1.records = s.db.records)
    (hlog : x.1.log = s.db.log ∨ ∃ e, MigrationEvent.inner e ∧ x.1.log = e :: s.db.log)
    (hnodup : (x.2.toApply.map (·.version)).Nodup)
    (hfresh : x.2.working → ∀ f ∈ x.2.toApply, appliedSince f.version s.db.log = false) : Unapplied (s.put i x) := by
  have hsince : ∀ version, appliedSince version x.1.log = appliedSince version s.db.log := by
    intro version
    rcases hlog with hlog | ⟨e, he, hlog⟩
    · rw [hlog]
    · rw [hlog, appliedSince_inner he]
  refine ⟨h.nodup_put hnodup, fresh_put (fun j _ hj f hf => ?_) (fun hw f hf => ?_), fun version hv => ?_, ?_, ?_⟩
  · exact (hsince f.version).trans (h.fresh j hj f hf)
  · exact (hsince f.version).trans (hfresh hw f hf)
  · change ∃ am, x.1.records version = some am ∧ am.status = .applied
    rw [hrec]
    exact h.recorded version ((hsince version).symm.trans hv)
  · rcases hlog with hlog | ⟨e, he, hlog⟩
    · exact hlog ▸ h.once
    · change appliedOnce x.1.log
      rw [hlog, appliedOnce_inner he]
      exact h.once
  · intro j owner hmem
    rcases hlog with hlog | ⟨e, he, hlog⟩
    · exact h.own j owner (hlog ▸ hmem)
    · change _ ∈ x.1.log at hmem
      rw [hlog] at hmem
      rcases mem_cons.mp hmem with rfl | hmem
      · cases he
      · exact h.own j owner hmem

theorem applied {f : MigrationFile} {am : AppliedMigration} (h : Unapplied s) (hheld : LockHeld s)
    (hp : (s.runners i).working) (hto : (s.runners i).toApply = f :: x.2.toApply) (ham : am.status = .applied)
    (hrec : x.1.records = update s.db.records f.version (some am))
    (hlog : x.1.log = .applied i f.version :: s.db.log) : Unapplied (s.put i x) := by
  have hnodup := h.nodup i
  rw [hto, map_cons, nodup_cons] at hnodup
  have hunapplied := h.fresh i hp
  rw [hto] at hunapplied
  have hsince : ∀ version, version ≠ f.version → appliedSince version x.1.log = appliedSince version s.db.log := by
    intro version hne
    rw [hlog]
    simp [appliedSince, Ne.symm hne]
  refine ⟨h.nodup_put hnodup.2, fresh_put (fun j hj hw => absurd (hheld.exclusive hw hp) hj) ?_, ?_, ?_, ?_⟩
  · intro _ g hg
    have hne : g.version ≠ f.version := fun he => hnodup.1 (he ▸ mem_map_of_mem hg)
    exact (hsince g.version hne).trans (hunapplied g (mem_cons_of_mem f hg))
  · intro version hv
    change ∃ am, x.1.records version = some am ∧ am.status = .applied
    rw [hrec]
    by_cases hne : version = f.version
    · subst hne
      exact ⟨am, update_self .., ham⟩
    · rw [update_of_ne hne]
      exact h.recorded version ((hsince version hne).symm.trans hv)
  · change appliedOnce x.1.log
    rw [hlog]
    simp [appliedOnce, hunapplied f mem_cons_self, h.once]
  · intro j owner hmem
    change _ ∈ x.1.log at hmem
    rw [hlog] at hmem
    exact h.own j owner (by simpa using hmem)

theorem overwritten {version : Nat} {new : Option AppliedMigration} (h : Unapplied s)
    (hrec : x.1.records = update s.db.records version new) (hto : x.2.toApply = [])
    (hlog : (x.1.log = s.db.log ∧ appliedSince version s.db.log = false) ∨
      x.1.log = .rolledBack i version :: s.db.log) : Unapplied (s.put i x) := by
  have hversion : appliedSince version x.1.log = false := by
    rcases hlog with ⟨hlog, hno⟩ | hlog
    · rw [hlog, hno]
    · rw [hlog]
      simp [appliedSince]
  have hsince : ∀ v, appliedSince v x.1.log → appliedSince v s.db.log := by
    intro v hv
    rcases hlog with ⟨hlog, -⟩ | hlog
    · exact hlog ▸ hv
    · rw [hlog] at hv
      exact (Bool.and_eq_true_iff.mp hv).2
  refine ⟨h.nodup_put (by simp [hto]), fresh_put (fun j _ hj f hf => ?_) (by simp [hto]), fun v hv => ?_, ?_, ?_⟩
  · exact Bool.eq_false_iff.mpr fun hv => Bool.eq_false_iff.mp (h.fresh j hj f hf) (hsince _ hv)
  · change ∃ am, x.1.records v = some am ∧ am.status = .applied
    have hne : v ≠ version := fun he => by
      subst he
      exact Bool.eq_false_iff.mp hversion hv
    rw [hrec, update_of_ne hne]
    exact h.recorded v (hsince v hv)
  · rcases hlog with ⟨hlog, -⟩ | hlog
    · exact hlog ▸ h.once
    · change appliedOnce x.1.log
      rw [hlog]
      exact h.once
  · intro j owner hmem
    rcases hlog with ⟨hlog, -⟩ | hlog
    · exact h.own j owner (hlog ▸ hmem)
    · change _ ∈ x.1.log at hmem
      rw [hlog] at hmem
      exact h.own j owner (by simpa using hmem)

theorem worked (h : Unapplied s) (hheld : LockHeld s) (hp : (s.runners i).working)
    (hx : Worked i s.db (s.runners i) x) : Unapplied (s.put i x) := by
  cases hx with
  | quiet hw hlock hto hrec hlog =>
    exact h.quiet hrec hlog ((h.nodup i).sublist (hto.map _)) fun _ f hf => h.fresh i hp f (hto.subset hf)
  | applied f am hw hlock hto ham hrec hlog => exact h.applied hheld hp hto ham hrec hlog
  | failed f am hw hlock hf hto hrec hlog => exact h.overwritten hrec hto (.inl ⟨hlog, h.fresh i hp f hf⟩)
  | rolledBack version new hw hlock hto hrec hlog => exact h.overwritten hrec hto (.inr hlog)

theorem release (h : Unapplied s) (hheld : LockHeld s)
    (hp : s.runners i = .releasing result) : Unapplied (s.put i (release s.db i result (.ok ()))) := by
  obtain ⟨row, hrow, hi, -⟩ := hheld.holder i (by rw [hp]; rfl)
  refine ⟨h.nodup_put .nil, fresh_put (fun j _ hj => h.fresh j hj) nofun, h.recorded, h.once, fun j owner hmem => ?_⟩
  change .released j owner ∈ .released i (s.db.lock.map (·.owner)) :: s.db.log at hmem
  rw [hrow] at hmem
  rcases mem_cons.mp hmem with heq | hmem
  · cases heq
    exact congrArg some hi
  · exact h.own j owner hmem

theorem toApply_readLock (db : MigrationDb D U) (job : MigrationJob) (now : Nat) (answer : Except String Unit) :
    ((readLock db job now answer).toApply).Sublist (readingLock job : RunnerPhase D U).toApply := by
  unfold readLock
  split
  · exact nil_sublist _
  split
  · cases job <;> exact refl _
  · split_ifs
    · exact nil_sublist _
    · cases job <;> exact refl _

theorem act (h : Unapplied s) (hheld : LockHeld s) (horderly : s.Orderly env (.act i a))
    (hstep : (s.runners i).step env i (lockId i) s.clock s.db a = some x) : Unapplied (s.put i x) := by
  have hmove := moves horderly hstep
  have hsmooth : s.Smooth env i (s.runners i) a := horderly
  have hnodup := h.nodup i
  generalize hp : s.runners i = p at hmove hsmooth hnodup
  cases hmove with
  | call _ hp' hto =>
    refine h.quiet rfl (.inl rfl) hto fun hw => ?_
    rcases hp' with ⟨_, rfl⟩ | ⟨_, rfl⟩ <;> cases hw
  | read job answer =>
    refine h.quiet rfl (.inl rfl) (hnodup.sublist ((toApply_readLock s.db job s.clock answer).map _)) fun hw => ?_
    unfold readLock at hw
    split at hw
    · cases hw
    split at hw
    · cases hw
    · split_ifs at hw <;> cases hw
  | drop job since answer =>
    cases answer with
    | error e => exact h.quiet rfl (.inl rfl) .nil nofun
    | ok _ => exact h.quiet rfl (.inl rfl) (by cases job <;> exact hnodup) nofun
  | write job since answer =>
    cases answer with
    | error e => exact h.quiet rfl (.inl rfl) .nil nofun
    | ok _ =>
      cases job with
      | rollback version am => exact h.quiet rfl (.inl rfl) .nil nofun
      | apply pending vars =>
        refine h.quiet rfl (.inl rfl) hnodup fun _ f hf => Bool.eq_false_iff.mpr fun hv => ?_
        obtain ⟨am, ham, hs⟩ := h.recorded f.version hv
        exact hsmooth f hf am ham hs
  | work hw hx =>
    subst hp
    exact h.worked hheld hw hx
  | release result => exact h.release hheld hp
  | crash => exact h.quiet rfl (.inl rfl) .nil nofun

end Unapplied

/-- In every run in which no lock expires under its holder, the lock is read
and written without another runner in between, what is to be applied is still
pending when the lock is written, and nothing of a rollback and no release
fails, the lock does what it is for. -/
theorem lock_safe (h : ReachableUnder (fun s a => s.Timely a ∧ s.Orderly env a) (step env lockId) {} s) :
    LockSafe s := by
  suffices hall : LockHeld s ∧ Unapplied s by
    obtain ⟨hheld, hunapplied⟩ := hall
    refine ⟨fun i j => hheld.exclusive, hunapplied.once, hunapplied.own, fun i result row hi hrow howner => ?_⟩
    subst howner
    rcases hheld.owner row hrow with hw | hc
    · rw [hi] at hw
      cases hw
    · cases hi.symm.trans hc
  refine h.invariant (Q := fun s => LockHeld s ∧ Unapplied s)
    ⟨⟨nofun, nofun, nofun⟩, ⟨fun _ => .nil, nofun, nofun, rfl, nofun⟩⟩ ?_
  rintro s a s' ⟨hheld, hunapplied⟩ ⟨htimely, horderly⟩ hstep
  cases a with
  | act i a =>
    obtain ⟨x, hx, rfl⟩ := map_eq_some_iff.mp hstep
    exact ⟨hheld.act htimely horderly hx, hunapplied.act hheld horderly hx⟩
  | tick now =>
    obtain ⟨-, hstep⟩ := ite_none_right_eq_some.mp hstep
    cases hstep
    refine ⟨⟨fun i hi => ?_, hheld.alone, hheld.owner⟩, hunapplied.nodup, hunapplied.fresh, hunapplied.recorded,
      hunapplied.once, hunapplied.own⟩
    obtain ⟨row, hrow, howner, -⟩ := hheld.holder i hi
    exact ⟨row, hrow, howner, htimely i row hi hrow howner⟩

def applyLone (i : Nat) : SystemAction Unit := .act i (.apply (.ok [loneFile]) none false [] (.ok ()))

def send (i : Nat) : SystemAction Unit := .act i (.statement (.ok ()))

def lockIds (i : Nat) : String := s!"runner-{i}"

/-- Runner 1 calls while runner 0 works and is refused; runner 0 then applies the
migration and releases the lock. -/
def refusedWhileWorking : List (SystemAction Unit) :=
  [applyLone 0, send 0, send 0, applyLone 1, send 1, .act 0 .go, send 0, .act 0 (.statements .done),
    .act 0 (.node "backfill" (.ok (some ())) .done), .act 0 .finish, .act 0 (.statements .done), send 0, .act 0 .go,
    send 0]

theorem lock_safe_lone : ∃ s : MigrationSystem Unit Unit,
    run (step loneMigration lockIds) {} refusedWhileWorking = some s ∧
      (s.runners 1 matches .returned (.error (.locked ..))) ∧ s.db.lock = none ∧
      s.db.log.head? = some (.released 0 (some 0)) ∧ .applied 0 1 ∈ s.db.log ∧ LockSafe s := by
  have htime : 0 < 0 + lockTtlMs := by decide
  have hrun : run (step loneMigration lockIds) ({} : MigrationSystem Unit Unit) refusedWhileWorking = some _ := rfl
  have hallowed : Allowed (fun s a => s.Timely a ∧ s.Orderly loneMigration a) (step loneMigration lockIds) {}
      refusedWhileWorking := by
    refine .intro ⟨trivial, trivial⟩ (.intro ⟨trivial, fun j hj => ?_⟩
      (.intro ⟨htime, fun f hf am ham => nomatch ham⟩ (.intro ⟨trivial, trivial⟩ (.intro ⟨trivial, fun j hj => ?_⟩
      (.intro ⟨trivial, trivial⟩ (.intro ⟨trivial, trivial⟩ (.intro ⟨trivial, trivial⟩ (.intro ⟨trivial, trivial⟩
      (.intro ⟨trivial, trivial⟩ (.intro ⟨trivial, trivial⟩ (.intro ⟨trivial, trivial⟩ (.intro ⟨trivial, trivial⟩
      (.intro ⟨trivial, rfl⟩ trivial)))))))))))))
    · rw [put_of_ne hj]
      nofun
    · rw [put_of_ne hj]
      obtain rfl | h0 := eq_or_ne j 0
      · nofun
      · rw [put_of_ne h0, put_of_ne h0, put_of_ne h0]
        nofun
  exact ⟨_, hrun, rfl, rfl, rfl, by decide, lock_safe (ReachableUnder.init.run hallowed hrun)⟩

/-- Both runners read the lock before either writes it. -/
theorem two_runners_work : ∃ s : MigrationSystem Unit Unit,
    ReachableUnder Timely (step loneMigration lockIds) {} s ∧ (s.runners 0).working ∧ (s.runners 1).working := by
  have htime : 0 < 0 + lockTtlMs := by decide
  have hrun : run (step loneMigration lockIds) ({} : MigrationSystem Unit Unit)
      [applyLone 0, applyLone 1, send 0, send 1, send 0, send 1] = some _ := rfl
  have hallowed : Allowed Timely (step loneMigration lockIds) {}
      [applyLone 0, applyLone 1, send 0, send 1, send 0, send 1] :=
    .intro trivial (.intro trivial (.intro trivial (.intro trivial (.intro htime (.intro htime trivial)))))
  exact ⟨_, ReachableUnder.init.run hallowed hrun, rfl, rfl⟩

end MigrationSystem

end Rag3db.Weaver
