import Rag3db.Weaver.MigrationRunner

open Option Function

namespace Rag3db.Weaver

open Library.Transition RunnerPhase

namespace MigrationEvent

/-- The event takes back some of the work of the migration. -/
def undoes (version : Nat) : MigrationEvent → Bool
  | .undid v _ => v = version
  | .rolledBack _ v => v = version
  | _ => false

/-- The event is work on the graph of the migration. -/
def executes (version : Nat) : MigrationEvent → Bool
  | .ran v _ => v = version
  | .finished v => v = version
  | _ => false

/-- The graph of the migration was executed to its end and nothing of it has
been taken back since. -/
def executedSince (version : Nat) : List MigrationEvent → Bool
  | [] => false
  | e :: log => e == .finished version || (!e.undoes version && executedSince version log)

/-- The migration was rolled back and not executed since. -/
def restedSince (version : Nat) : List MigrationEvent → Bool
  | [] => false
  | .rolledBack _ v :: log => v = version || restedSince version log
  | e :: log => !e.executes version && restedSince version log

def untouched (version : Nat) (log : List MigrationEvent) : Bool := log.all fun e => !e.undoes version

variable {version : Nat} {e : MigrationEvent} {log : List MigrationEvent}

theorem untouched_cons : untouched version (e :: log) ↔ e.undoes version = false ∧ untouched version log := by
  simp [untouched]

theorem executedSince_cons (he : e.undoes version = false) (h : executedSince version log) :
    executedSince version (e :: log) := by
  simp [executedSince, he, h]

theorem executedSince_of_untouched (hmem : .finished version ∈ log) (h : untouched version log) :
    executedSince version log := by
  induction log with
  | nil => cases hmem
  | cons e log ih =>
    obtain ⟨he, hlog⟩ := untouched_cons.mp h
    rcases List.mem_cons.mp hmem with rfl | hmem
    · simp [executedSince]
    · exact executedSince_cons he (ih hmem hlog)

theorem restedSince_cons (he : e.executes version = false) (h : restedSince version log) :
    restedSince version (e :: log) := by
  cases e <;> simp_all [restedSince]

theorem not_untouched_of_restedSince (h : restedSince version log) : ¬ untouched version log := by
  induction log with
  | nil => cases h
  | cons e log ih =>
    intro hu
    obtain ⟨he, hlog⟩ := untouched_cons.mp hu
    cases e <;> simp_all [restedSince, undoes]

end MigrationEvent

open MigrationEvent

section Run

variable {D U : Type}

inductive SequentialAction (U : Type)
  | act (now : Nat) (a : RunnerAction U)
  | restart

/-- One runner after another: a process that has ended is started again. -/
def sequentialStep (env : MigrationEnv D) (i : Nat) (lockId : String) :
    MigrationDb D U × RunnerPhase D U → SequentialAction U → Option (MigrationDb D U × RunnerPhase D U)
  | (db, p), .act now a => p.step env i lockId now db a
  | (db, .crashed), .restart => some (db, .idle)
  | _, .restart => none

/-- A migration of which something was taken back is not applied again, and a
rollback that has its checkpoint goes through. -/
def unrepeated : MigrationDb D U × RunnerPhase D U → SequentialAction U → Bool
  | (db, .next (f :: _) _ _), .act _ .go => untouched f.version db.log
  | (_, .undoing ..), .act _ (.undo result) => result.isOk
  | (_, .settling ..), .act _ (.settle found answer) => (found.bind scanAll).isOk && answer.isOk
  | (_, .undoing ..), .act _ .crash => false
  | (_, .settling ..), .act _ .crash => false
  | _, _ => true

def RunnerPhase.rollingBack (version : Nat) : RunnerPhase D U → Bool
  | .undoing v .. => v = version
  | .settling v _ => v = version
  | _ => false

/-- A record that says applied or rolled back tells the truth. The record of a
migration is out of date while it is being rolled back. -/
structure RecordsTrue (db : MigrationDb D U) (p : RunnerPhase D U) : Prop where
  applied : ∀ version am, db.records version = some am → am.status = .applied →
    p.rollingBack version ∨ executedSince version db.log
  rolledBack : ∀ version am, db.records version = some am → am.status = .rolledBack → restedSince version db.log

def RunnerPhase.Underway (log : List MigrationEvent) : RunnerPhase D U → Prop
  | .loading task | .creating task | .executing task _ => untouched task.file.version log
  | .marking task result => untouched task.file.version log ∧ (result.isOk → .finished task.file.version ∈ log)
  | .recording task result => untouched task.file.version log ∧ (result.isOk → .finished task.file.version ∈ log)
  | _ => True

structure MigrationBooks (db : MigrationDb D U) (p : RunnerPhase D U) : Prop extends RecordsTrue db p where
  completed : ∀ id cp, db.executions id = some cp → cp.status = .completed → .finished id.version ∈ db.log
  underway : p.Underway db.log

def RunnerPhase.plain : RunnerPhase D U → Bool
  | .loading _ | .creating _ | .executing .. | .marking .. | .recording .. | .undoing .. | .settling .. => false
  | _ => true

namespace RunnerPhase

variable (env : MigrationEnv D) (db : MigrationDb D U)

theorem plain_applyCall (found : Except MigrationError (List MigrationFile)) (target : Option Nat) (dry : Bool)
    (vars : List (String × String)) (answer : Except String Unit) :
    (applyCall env db found target dry vars answer).plain := by
  unfold applyCall
  split
  · rfl
  · rfl
  · dsimp only
    split_ifs <;> rfl

theorem plain_rollbackCall (version : Nat) (answer : Except String Unit) : (rollbackCall db version answer).plain := by
  unfold rollbackCall
  split
  · rfl
  · split
    · rfl
    · split_ifs <;> rfl

theorem plain_readLock (job : MigrationJob) (now : Nat) (answer : Except String Unit) :
    (readLock db job now answer).plain := by
  unfold readLock
  split
  · rfl
  · split
    · rfl
    · split_ifs <;> rfl

theorem plain_begin (job : MigrationJob) : (begin job : RunnerPhase D U).plain := by
  cases job <;> rfl

variable {p p' : RunnerPhase D U}

theorem Underway.of_plain (h : p.plain) (log : List MigrationEvent) : p.Underway log := by
  cases p <;> simp_all [plain, Underway]

end RunnerPhase

theorem update_eq_some {κ β : Type} [DecidableEq κ] {f : κ → Option β} {k k' : κ} {new : Option β} {b : β}
    (h : update f k new k' = some b) : k' = k ∧ new = some b ∨ k' ≠ k ∧ f k' = some b := by
  by_cases hk : k' = k
  · exact .inl ⟨hk, by rwa [hk, update_self] at h⟩
  · exact .inr ⟨hk, by rwa [update_of_ne hk] at h⟩

namespace MigrationBooks

variable {env : MigrationEnv D} {db : MigrationDb D U} {p p' : RunnerPhase D U} (h : MigrationBooks db p)

include h

theorem move (hp : ∀ version, p.rollingBack version → p'.rollingBack version) (hunder : p'.Underway db.log) :
    MigrationBooks db p' where
  applied version am hr hs := (h.applied version am hr hs).imp_left (hp version)
  rolledBack := h.rolledBack
  completed := h.completed
  underway := hunder

theorem plain (hp : ∀ version, p.rollingBack version = false) (hp' : p'.plain) : MigrationBooks db p' :=
  h.move (fun version hr => by rw [hp version] at hr; cases hr) (.of_plain hp' _)

theorem lock (lock : Option MigrationLock) : MigrationBooks { db with lock } p :=
  ⟨⟨h.applied, h.rolledBack⟩, h.completed, h.underway⟩

theorem emit {e : MigrationEvent} (he : ∀ version, e.undoes version = false)
    (hexec : ∀ version, e.executes version → untouched version db.log) (hunder : p'.Underway (e :: db.log))
    (hp : ∀ version, p.rollingBack version → p'.rollingBack version) : MigrationBooks (db.emit e) p' where
  applied version am hr hs := (h.applied version am hr hs).imp (hp version) (executedSince_cons (he version))
  rolledBack version am hr hs := by
    have hrest := h.rolledBack version am hr hs
    refine restedSince_cons (Bool.eq_false_iff.mpr fun hex => ?_) hrest
    exact not_untouched_of_restedSince hrest (hexec version hex)
  completed id cp hcp hs := List.mem_cons_of_mem e (h.completed id cp hcp hs)
  underway := hunder

variable {id : ExecutionId}

theorem execution {new : Option (MigrationCheckpoint D U)}
    (hnew : ∀ cp, new = some cp → cp.status = .completed → .finished id.version ∈ db.log) :
    MigrationBooks { db with executions := update db.executions id new } p where
  applied := h.applied
  rolledBack := h.rolledBack
  completed id' cp hcp hs := by
    rcases update_eq_some hcp with ⟨rfl, he⟩ | ⟨-, hcp⟩
    · exact hnew cp he hs
    · exact h.completed id' cp hcp hs
  underway := h.underway

theorem modifyExecution {f : MigrationCheckpoint D U → MigrationCheckpoint D U}
    (hf : ∀ cp, (f cp).status = .completed → cp.status = .completed ∨ .finished id.version ∈ db.log) :
    MigrationBooks (db.modifyExecution id f) p := by
  apply h.execution
  intro cp hcp hs
  obtain ⟨old, hold, rfl⟩ := map_eq_some_iff.mp hcp
  rcases hf old hs with hcompleted | hmem
  · exact h.completed id old hold hcompleted
  · exact hmem

variable {new : Option AppliedMigration} {version : Nat}

theorem record (happlied : ∀ am, new = some am → am.status = .applied → executedSince version db.log)
    (hrolled : ∀ am, new = some am → am.status = .rolledBack → restedSince version db.log) :
    MigrationBooks { db with records := update db.records version new } p where
  applied v am hr hs := by
    rcases update_eq_some hr with ⟨rfl, he⟩ | ⟨-, hr⟩
    · exact .inr (happlied am he hs)
    · exact h.applied v am hr hs
  rolledBack v am hr hs := by
    rcases update_eq_some hr with ⟨rfl, he⟩ | ⟨-, hr⟩
    · exact hrolled am he hs
    · exact h.rolledBack v am hr hs
  completed := h.completed
  underway := h.underway

theorem undid {node : String} (hp : ∀ v, p.rollingBack v → v = version) (hp' : p'.rollingBack version)
    (hunder : ∀ log, p'.Underway log) : MigrationBooks (db.emit (.undid version node)) p' where
  applied v am hr hs := by
    by_cases hv : version = v
    · subst hv
      exact .inl hp'
    · rcases h.applied v am hr hs with hroll | hsince
      · exact absurd (hp v hroll).symm hv
      · exact .inr (executedSince_cons (by simp [undoes, hv]) hsince)
  rolledBack v am hr hs := restedSince_cons rfl (h.rolledBack v am hr hs)
  completed id cp hcp hs := List.mem_cons_of_mem _ (h.completed id cp hcp hs)
  underway := hunder _

variable {i : Nat}

theorem settled (hp : ∀ v, p.rollingBack v → v = version) (hp' : p'.plain)
    (hnew : ∀ am, new = some am → am.status = .rolledBack) :
    MigrationBooks (({ db with records := update db.records version new } : MigrationDb D U).emit
      (.rolledBack i version)) p' where
  applied v am hr hs := by
    rcases update_eq_some hr with ⟨rfl, he⟩ | ⟨hv, hr⟩
    · cases (hnew am he).symm.trans hs
    · rcases h.applied v am hr hs with hroll | hsince
      · exact absurd (hp v hroll) hv
      · exact .inr (executedSince_cons (by simp [undoes, Ne.symm hv]) hsince)
  rolledBack v am hr hs := by
    rcases update_eq_some hr with ⟨rfl, -⟩ | ⟨-, hr⟩
    · change restedSince v (.rolledBack i v :: db.log)
      simp [restedSince]
    · exact restedSince_cons rfl (h.rolledBack v am hr hs)
  completed id cp hcp hs := List.mem_cons_of_mem _ (h.completed id cp hcp hs)
  underway := .of_plain hp' _

omit h

variable {task : MigrationTask D}

theorem startFile {files : List MigrationFile} {vars : List (String × String)} {results : List MigrationResult}
    (h : MigrationBooks db (.next files vars results))
    (hfresh : ∀ f rest, files = f :: rest → untouched f.version db.log) :
    MigrationBooks db (startFile env vars results files) := by
  apply h.move nofun
  unfold RunnerPhase.startFile
  split
  · trivial
  · split
    · trivial
    · exact hfresh _ _ rfl

theorem loadExecution (h : MigrationBooks db (.loading task)) (answer : Except String Unit) :
    MigrationBooks db (loadExecution env db task answer) := by
  have huntouched : untouched task.file.version db.log := h.underway
  apply h.move nofun
  unfold RunnerPhase.loadExecution
  split
  · exact ⟨huntouched, nofun⟩
  split
  · exact huntouched
  rename_i cp hcp
  split_ifs with hhash hcompleted
  · exact ⟨huntouched, nofun⟩
  · exact ⟨huntouched, fun _ => h.completed _ _ hcp hcompleted⟩
  · exact huntouched

theorem createExecution (h : MigrationBooks db (.creating task)) (answer : Answer) :
    MigrationBooks (createExecution env db task answer).1 (createExecution env db task answer).2 := by
  have huntouched : untouched task.file.version db.log := h.underway
  have hmove : MigrationBooks db (RunnerPhase.createExecution env db task answer).2 := by
    apply h.move nofun
    cases answer
    · exact huntouched
    · exact ⟨huntouched, nofun⟩
    · exact ⟨huntouched, nofun⟩
  unfold RunnerPhase.createExecution at hmove ⊢
  split_ifs
  · apply hmove.execution
    rintro cp hcp hs
    rw [← some.inj hcp] at hs
    cases hs
  · exact hmove

variable {done : List String}

theorem runNode (h : MigrationBooks db (.executing task done)) (name : String)
    (result : Except String (Option U)) (answer : Answer) :
    MigrationBooks (runNode db task done name result answer).1 (runNode db task done name result answer).2 := by
  have huntouched : untouched task.file.version db.log := h.underway
  have hstill : untouched task.file.version (.ran task.file.version name :: db.log) :=
    untouched_cons.mpr ⟨rfl, huntouched⟩
  have hran : ∀ p' : RunnerPhase D U, p'.Underway (.ran task.file.version name :: db.log) →
      MigrationBooks (db.emit (.ran task.file.version name)) p' := fun p' hunder =>
    h.emit (fun _ => rfl) (fun version hex => of_decide_eq_true hex ▸ huntouched) hunder nofun
  cases result with
  | error e => exact hran _ ⟨hstill, nofun⟩
  | ok undo =>
    cases answer with
    | done => exact (hran (.executing task (name :: done)) hstill).modifyExecution fun _ hs => .inl hs
    | failed e => exact hran _ ⟨hstill, nofun⟩
    | halfDone e => exact (hran (.marking task (.error e)) ⟨hstill, nofun⟩).modifyExecution fun _ hs => .inl hs

theorem finish (h : MigrationBooks db (.executing task done)) :
    MigrationBooks (db.emit (.finished task.file.version)) (.marking task (.ok ())) := by
  have huntouched : untouched task.file.version db.log := h.underway
  refine h.emit (fun _ => rfl) (fun version hex => of_decide_eq_true hex ▸ huntouched) ?_ nofun
  exact ⟨untouched_cons.mpr ⟨rfl, huntouched⟩, fun _ => List.mem_cons_self⟩

variable {result : Except String Unit}

theorem markExecution (h : MigrationBooks db (.marking task result)) (answer : Answer) :
    MigrationBooks (markExecution db task result answer).1 (markExecution db task result answer).2 := by
  obtain ⟨huntouched, hfinished⟩ := h.underway
  unfold RunnerPhase.markExecution
  cases result with
  | ok _ =>
    have hmove : MigrationBooks db (.recording task (answer.result.mapError executionFailed)) :=
      h.move nofun ⟨huntouched, fun _ => hfinished rfl⟩
    split_ifs
    · exact hmove.modifyExecution fun _ _ => .inr (hfinished rfl)
    · exact hmove
  | error e =>
    have hmove : MigrationBooks db (.recording task (.error (executionFailed e))) :=
      h.move nofun ⟨huntouched, nofun⟩
    split_ifs
    · exact hmove.modifyExecution nofun
    · exact hmove

theorem recordUp {result : Except MigrationError Unit} (h : MigrationBooks db (.recording task result)) (i : Nat)
    (answer : Except String Unit) :
    MigrationBooks (recordUp db i task result answer).1 (recordUp db i task result answer).2 := by
  obtain ⟨huntouched, hfinished⟩ := h.underway
  have hplain : ∀ p' : RunnerPhase D U, p'.plain → MigrationBooks db p' := fun p' => h.plain fun _ => rfl
  unfold RunnerPhase.recordUp
  split
  · have hexecuted := executedSince_of_untouched (hfinished rfl) huntouched
    have hrecord : MigrationBooks (db.record task.file .applied .up task.file.executionId "")
        (.recording task (.ok ())) :=
      (h.move nofun h.underway).record (fun _ _ _ => hexecuted) fun am ham hs => by
        rw [← some.inj ham] at hs
        cases hs
    exact hrecord.emit (fun _ => rfl) nofun trivial nofun
  · exact hplain _ rfl
  · split_ifs
    · refine (hplain _ rfl).record (fun am ham hs => ?_) fun am ham hs => ?_
      · rw [← some.inj ham] at hs
        cases hs
      · rw [← some.inj ham] at hs
        cases hs
    · exact hplain _ rfl

variable {am : AppliedMigration}

theorem fetchCheckpoint (h : MigrationBooks db (.fetching version am)) (answer : Except String Unit) :
    MigrationBooks db (fetchCheckpoint env db version am answer) := by
  apply h.move nofun
  unfold RunnerPhase.fetchCheckpoint
  split
  · trivial
  split
  · trivial
  split
  · trivial
  · dsimp only
    split_ifs <;> trivial

theorem undoNode {cp : MigrationCheckpoint D U} {n : MigrationNode} {left : List MigrationNode}
    (h : MigrationBooks db (.undoing version am cp (n :: left))) (hok : result.isOk) :
    MigrationBooks (undoNode db version am cp n left result).1 (undoNode db version am cp n left result).2 := by
  cases result with
  | error e => cases hok
  | ok _ =>
    unfold undoNode
    split_ifs
    · exact h.undid (fun v hv => (of_decide_eq_true hv).symm) (decide_eq_true rfl) fun _ => trivial
    · exact h.move (fun _ hv => hv) trivial

theorem recordDown (h : MigrationBooks db (.settling version am)) (i : Nat)
    {found : Except MigrationError (List MigrationFile)} {answer : Except String Unit}
    (hfound : (found.bind scanAll).isOk) (hanswer : answer.isOk) :
    MigrationBooks (recordDown db i version am found answer).1 (recordDown db i version am found answer).2 := by
  have hroll : ∀ v, (settling version am : RunnerPhase D U).rollingBack v → v = version :=
    fun v hv => (of_decide_eq_true hv).symm
  unfold RunnerPhase.recordDown
  split
  · rename_i hscan
    rw [hscan] at hfound
    cases hfound
  · cases hanswer
  · split
    · rename_i f hfind
      have hversion : f.version = version := by simpa using List.find?_some hfind
      subst hversion
      exact h.settled hroll rfl fun am' ham => by rw [← some.inj ham]
    · refine h.settled hroll rfl fun am' ham => ?_
      obtain ⟨old, -, rfl⟩ := map_eq_some_iff.mp ham
      rfl

variable {db' : MigrationDb D U}

theorem of_eq {x : MigrationDb D U × RunnerPhase D U} (h : MigrationBooks x.1 x.2)
    (hx : some x = some (db', p')) : MigrationBooks db' p' := by
  rw [some.inj hx] at h
  exact h

theorem runnerStep {now : Nat} {lockId : String} {a : RunnerAction U}
    (h : MigrationBooks db p) (hstep : p.step env i lockId now db a = some (db', p'))
    (hcareful : unrepeated (db, p) (.act now a)) : MigrationBooks db' p' := by
  unfold step at hstep
  split at hstep
  · cases hstep
    exact h.plain (fun _ => rfl) (plain_applyCall ..)
  · cases hstep
    exact h.plain (fun _ => rfl) (plain_applyCall ..)
  · cases hstep
    exact h.plain (fun _ => rfl) (plain_rollbackCall ..)
  · cases hstep
    exact h.plain (fun _ => rfl) (plain_rollbackCall ..)
  · cases hstep
    exact h.plain (fun _ => rfl) (plain_readLock ..)
  · rename_i job since answer
    cases answer <;> cases hstep
    · exact h.plain (fun _ => rfl) rfl
    · exact (h.plain (fun _ => rfl) rfl).lock none
  · rename_i job since answer
    cases answer <;> cases hstep
    · exact h.plain (fun _ => rfl) rfl
    · exact (h.plain (fun _ => rfl) (plain_begin job)).lock _
  · cases hstep
    refine h.startFile fun f rest hfiles => ?_
    subst hfiles
    exact hcareful
  · cases hstep
    exact h.loadExecution _
  · exact (h.createExecution _).of_eq hstep
  · obtain ⟨-, hstep⟩ := ite_none_right_eq_some.mp hstep
    exact (h.runNode _ _ _).of_eq hstep
  · obtain ⟨-, hstep⟩ := ite_none_right_eq_some.mp hstep
    cases hstep
    exact h.move nofun h.underway
  · cases hstep
    exact h.move nofun ⟨h.underway, nofun⟩
  · obtain ⟨-, hstep⟩ := ite_none_right_eq_some.mp hstep
    cases hstep
    exact h.finish
  · exact (h.markExecution _).of_eq hstep
  · exact (h.recordUp _ _).of_eq hstep
  · cases hstep
    exact h.fetchCheckpoint _
  · cases hstep
    exact h.move (fun _ hv => hv) trivial
  · exact (h.undoNode hcareful).of_eq hstep
  · obtain ⟨hfound, hanswer⟩ := Bool.and_eq_true_iff.mp hcareful
    exact (h.recordDown i hfound hanswer).of_eq hstep
  · rename_i result answer
    cases answer <;> cases hstep
    · exact h.plain (fun _ => rfl) rfl
    · have hplain : MigrationBooks db (.returned result) := h.plain (fun _ => rfl) rfl
      have hemit : MigrationBooks (db.emit (.released i (db.lock.map (·.owner)))) (.returned result) :=
        hplain.emit (fun _ => rfl) nofun trivial fun _ hv => hv
      exact hemit.lock none
  · cases hstep
  · cases hstep
  · cases hstep
  · cases hstep
    -- the phases in which the end of the process would leave the record out of date are excluded
    cases p <;> first | exact h.plain (fun _ => rfl) rfl | cases hcareful
  · cases hstep

end MigrationBooks

theorem restart_cases {env : MigrationEnv D} {i : Nat} {lockId : String} {db : MigrationDb D U}
    {p : RunnerPhase D U} {s : MigrationDb D U × RunnerPhase D U}
    (h : sequentialStep env i lockId (db, p) .restart = some s) : p = .crashed ∧ s = (db, .idle) := by
  cases p <;> simp_all [sequentialStep]

/-- In every run in which no migration is applied again after something of it
was taken back, and every rollback that has its checkpoint goes through, the
records tell the truth. -/
theorem records_true {env : MigrationEnv D} {i : Nat} {lockId : String} {db : MigrationDb D U} {p : RunnerPhase D U}
    (h : Reachable (guarded unrepeated (sequentialStep env i lockId)) ({}, .idle) (db, p)) : RecordsTrue db p := by
  suffices hbooks : MigrationBooks db p from hbooks.toRecordsTrue
  refine h.invariant (P := fun s => MigrationBooks s.1 s.2) ⟨⟨nofun, nofun⟩, nofun, trivial⟩ ?_
  rintro ⟨db, p⟩ a ⟨db', p'⟩ hbooks hstep
  obtain ⟨hcareful, hstep⟩ := guarded_eq_some.mp hstep
  cases a with
  | act now a => exact hbooks.runnerStep hstep hcareful
  | restart =>
    obtain ⟨rfl, hs⟩ := restart_cases hstep
    cases hs
    exact hbooks.move nofun trivial

def appliesLone : List (SequentialAction Unit) :=
  [.act 0 (.apply (.ok [loneFile]) none false [] (.ok ())), .act 0 (.statement (.ok ())),
    .act 0 (.statement (.ok ())), .act 0 .go, .act 0 (.statement (.ok ())), .act 0 (.statements .done),
    .act 0 (.node "backfill" (.ok (some ())) .done), .act 0 .finish, .act 0 (.statements .done),
    .act 0 (.statement (.ok ())), .act 0 .go, .act 0 (.statement (.ok ()))]

def undoesLone : List (SequentialAction Unit) :=
  [.act 0 (.rollback 1 (.ok ())), .act 0 (.statement (.ok ())), .act 0 (.statement (.ok ())),
    .act 0 (.statement (.ok ())), .act 0 (.undo (.ok ())), .act 0 .go, .act 0 (.settle (.ok [loneFile]) (.ok ())),
    .act 0 (.statement (.ok ()))]

def appliesLoneAgain : List (SequentialAction Unit) :=
  [.act 0 (.apply (.ok [loneFile]) none false [] (.ok ())), .act 0 (.statement (.ok ())),
    .act 0 (.statement (.ok ())), .act 0 .go, .act 0 (.statement (.ok ())), .act 0 (.statement (.ok ())),
    .act 0 .go, .act 0 (.statement (.ok ()))]

theorem records_true_lone : ∃ db result,
    run (guarded unrepeated (sequentialStep loneMigration 0 "runner-0")) ({}, .idle) (appliesLone ++ undoesLone) =
      some (db, .returned (.ok [result])) ∧ result.state = .rolledBack ∧
      RecordsTrue db (.returned (.ok [result])) := by
  have hrun : run (guarded unrepeated (sequentialStep loneMigration 0 "runner-0")) ({}, .idle)
      (appliesLone ++ undoesLone) = some (_, .returned (.ok [_])) := rfl
  exact ⟨_, _, hrun, rfl, records_true (Reachable.init.run hrun)⟩

/-- A migration that was rolled back and is applied again is not executed, and its record says applied. -/
theorem reapplied_without_execution : ∃ db result am,
    run (sequentialStep loneMigration 0 "runner-0") ({}, .idle) (appliesLone ++ undoesLone ++ appliesLoneAgain) =
      some (db, .returned (.ok result)) ∧ db.records 1 = some am ∧ am.status = .applied ∧
      ¬ executedSince 1 db.log :=
  ⟨_, _, _, rfl, rfl, rfl, by decide⟩

end Run

end Rag3db.Weaver
