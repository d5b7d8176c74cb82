import Rag3db.Weaver.CheckpointRuns

namespace Rag3db.Weaver

structure MigrationFile where
  version : Nat
  name : String
  path : String
  content : String
  checksum : String

/-- The text `migration-{version}_{name}`; the digits end at the first underscore,
so the version and the name can be read back. -/
structure ExecutionId where
  version : Nat
  name : String
  deriving DecidableEq

def MigrationFile.executionId (f : MigrationFile) : ExecutionId := ⟨f.version, f.name⟩

inductive MigrationState
  | pending
  | applied
  | failed
  | rolledBack
  deriving DecidableEq

inductive MigrationDirection
  | up
  | down
  deriving DecidableEq

structure MigrationResult where
  version : Nat
  name : String
  direction : MigrationDirection
  state : MigrationState
  error : Option String

inductive MigrationError
  | ioError (e : String)
  | invalidFilename (path detail : String)
  | duplicateVersion (version : Nat) (fileA fileB : String)
  | parseError (version : Nat) (name detail : String)
  | graphError (version : Nat) (name detail : String)
  | executionError (version : Nat) (name detail : String)
  | locked (holder : String) (since : Nat)
  | notApplied (version : Nat)
  | notReversible (version : Nat) (name : String) (nodes : List String)
  | dbError (e : String)

def MigrationError.text : MigrationError → String
  | .ioError e => s!"IO error: {e}"
  | .invalidFilename path detail => s!"invalid migration filename '{path}': {detail}"
  | .duplicateVersion version fileA fileB => s!"duplicate version {version}: '{fileA}' and '{fileB}'"
  | .parseError version name detail => s!"migration {version}_{name}: parse error: {detail}"
  | .graphError version name detail => s!"migration {version}_{name}: graph error: {detail}"
  | .executionError version name detail => s!"migration {version}_{name}: execution error: {detail}"
  | .locked holder since => s!"migrations locked by '{holder}' since {since}"
  | .notApplied version => s!"migration {version} is not applied"
  | .notReversible version name nodes =>
    s!"migration {version}_{name}: not reversible — nodes without undo: " ++ String.intercalate ", " nodes
  | .dbError e => s!"database error: {e}"

/-- A row of `_DataflowMigration`; its key is the version. -/
structure AppliedMigration where
  name : String
  status : MigrationState
  direction : MigrationDirection
  checksum : String
  executionId : ExecutionId
  error : String

/-- The row of `_DataflowMigrationLock`. No statement reads its `owner`, the
runner that wrote it. -/
structure MigrationLock where
  lockedBy : String
  lockedAt : Nat
  expiresAt : Nat
  owner : Nat

def lockTtlMs : Nat := 10 * 60 * 1000

/-- An execution in the checkpoint store: the nodes that completed, each with
what undoes it. -/
structure MigrationCheckpoint (D U : Type) where
  status : ExecutionStatus
  graphDef : D
  graphHash : String
  nodes : String → Option (Option U)

namespace MigrationCheckpoint

variable {D U : Type} (cp : MigrationCheckpoint D U)

def saveNodeCompleted (name : String) (undo : Option U) : MigrationCheckpoint D U :=
  { cp with nodes := Function.update cp.nodes name (some undo) }

/-- The rows of the nodes that can be undone stay. -/
def markCompleted (cleaned : Bool) : MigrationCheckpoint D U :=
  { cp with
    status := .completed
    nodes := if cleaned then fun name => (cp.nodes name).filter Option.isSome else cp.nodes }

def markFailed : MigrationCheckpoint D U := { cp with status := .failed }

end MigrationCheckpoint

/-- What happens to the migrations, and to the lock. -/
inductive MigrationEvent
  | ran (version : Nat) (node : String)
  | finished (version : Nat)
  | applied (runner version : Nat)
  | undid (version : Nat) (node : String)
  | rolledBack (runner version : Nat)
  | released (runner : Nat) (owner : Option Nat)
  deriving DecidableEq

/-- The tables of the database that runners share; the log keeps the latest event first. -/
structure MigrationDb (D U : Type) where
  records : Nat → Option AppliedMigration := fun _ => none
  lock : Option MigrationLock := none
  executions : ExecutionId → Option (MigrationCheckpoint D U) := fun _ => none
  log : List MigrationEvent := []

structure MigrationNode where
  name : String
  canUndo : Bool

/-- What becomes of a file outside the database: `build` gives the nodes in a
topological order. -/
structure MigrationEnv (D : Type) where
  parse : String → List (String × String) → Except String D
  build : D → Except String (List MigrationNode)
  hash : D → String

def scanAll (found : List MigrationFile) : Except MigrationError (List MigrationFile) :=
  let all := found.insertionSort fun a b => a.version ≤ b.version
  match (all.zip all.tail).find? fun p => p.1.version = p.2.version with
  | some (a, b) => .error (.duplicateVersion a.version a.path b.path)
  | none => .ok all

/-- What a runner wants the lock for. -/
inductive MigrationJob
  | apply (pending : List MigrationFile) (vars : List (String × String))
  | rollback (version : Nat) (am : AppliedMigration)

/-- The file that is being applied, and what is left to do after it. -/
structure MigrationTask (D : Type) where
  file : MigrationFile
  rest : List MigrationFile
  vars : List (String × String)
  results : List MigrationResult
  graphDef : D
  nodes : List MigrationNode

/-- Where a runner is: the next statement it sends, or what it does in between. -/
inductive RunnerPhase (D U : Type)
  | idle
  | readingLock (job : MigrationJob)
  | droppingLock (job : MigrationJob) (now : Nat)
  | writingLock (job : MigrationJob) (now : Nat)
  | next (files : List MigrationFile) (vars : List (String × String)) (results : List MigrationResult)
  | loading (task : MigrationTask D)
  | creating (task : MigrationTask D)
  | executing (task : MigrationTask D) (done : List String)
  | marking (task : MigrationTask D) (result : Except String Unit)
  | recording (task : MigrationTask D) (result : Except MigrationError Unit)
  | fetching (version : Nat) (am : AppliedMigration)
  | undoing (version : Nat) (am : AppliedMigration) (cp : MigrationCheckpoint D U) (left : List MigrationNode)
  | settling (version : Nat) (am : AppliedMigration)
  | releasing (result : Except MigrationError (List MigrationResult))
  | returned (result : Except MigrationError (List MigrationResult))
  | crashed

/-- The answer to statements that go out together: the first of them may have
been carried out when a later one fails. -/
inductive Answer
  | done
  | failed (e : String)
  | halfDone (e : String)

def Answer.carriedOut : Answer → Bool
  | .failed _ => false
  | _ => true

def Answer.result : Answer → Except String Unit
  | .done => .ok ()
  | .failed e | .halfDone e => .error e

inductive RunnerAction (U : Type)
  | apply (found : Except MigrationError (List MigrationFile)) (target : Option Nat) (dryRun : Bool)
      (vars : List (String × String)) (answer : Except String Unit)
  | rollback (version : Nat) (answer : Except String Unit)
  | statement (answer : Except String Unit)
  | statements (answer : Answer)
  | go
  | node (name : String) (result : Except String (Option U)) (answer : Answer)
  | skip (name : String)
  | abort (e : String)
  | finish
  | undo (result : Except String Unit)
  | settle (found : Except MigrationError (List MigrationFile)) (answer : Except String Unit)
  | crash

namespace MigrationDb

variable {D U : Type} (db : MigrationDb D U)

def emit (e : MigrationEvent) : MigrationDb D U := { db with log := e :: db.log }

/-- `migration_record`. -/
def record (f : MigrationFile) (status : MigrationState) (direction : MigrationDirection) (id : ExecutionId)
    (error : String) : MigrationDb D U :=
  { db with records := Function.update db.records f.version (some ⟨f.name, status, direction, f.checksum, id, error⟩) }

/-- `migration_update_status`: the row is updated where it is there. -/
def updateStatus (version : Nat) (status : MigrationState) : MigrationDb D U :=
  { db with records := Function.update db.records version ((db.records version).map fun am => { am with status }) }

def setExecution (id : ExecutionId) (cp : MigrationCheckpoint D U) : MigrationDb D U :=
  { db with executions := Function.update db.executions id (some cp) }

def modifyExecution (id : ExecutionId) (f : MigrationCheckpoint D U → MigrationCheckpoint D U) : MigrationDb D U :=
  { db with executions := Function.update db.executions id ((db.executions id).map f) }

def pending (files : List MigrationFile) : List MigrationFile :=
  files.filter fun f => (db.records f.version).all fun am => am.status ≠ .applied

end MigrationDb

namespace RunnerPhase

variable {D U : Type}

def failedResult (f : MigrationFile) (e : MigrationError) : MigrationResult :=
  ⟨f.version, f.name, .up, .failed, some e.text⟩

section Calls

variable (env : MigrationEnv D) (db : MigrationDb D U)

def prepare (f : MigrationFile) (vars : List (String × String)) : Except MigrationError (D × List MigrationNode) :=
  match env.parse f.content vars with
  | .error detail => .error (.parseError f.version f.name detail)
  | .ok graphDef =>
    match env.build graphDef with
    | .error detail => .error (.graphError f.version f.name detail)
    | .ok nodes => .ok (graphDef, nodes)

def dryRun (vars : List (String × String)) : List MigrationFile → Except MigrationError (List MigrationResult)
  | [] => .ok []
  | f :: files =>
    match prepare env f vars with
    | .error e => .error e
    | .ok _ => (dryRun vars files).map (⟨f.version, f.name, .up, .pending, none⟩ :: ·)

/-- `apply`, up to where it takes the lock. -/
def applyCall (found : Except MigrationError (List MigrationFile)) (target : Option Nat) (dry : Bool)
    (vars : List (String × String)) (answer : Except String Unit) : RunnerPhase D U :=
  match found.bind scanAll, answer with
  | .error e, _ => .returned (.error e)
  | .ok _, .error e => .returned (.error (.dbError e))
  | .ok files, .ok _ =>
    let pending := (db.pending files).filter fun f => target.all (f.version ≤ ·)
    if pending.isEmpty then .returned (.ok [])
    else if dry then .returned (dryRun env vars pending)
    else .readingLock (.apply pending vars)

/-- `rollback`, up to where it takes the lock. -/
def rollbackCall (version : Nat) (answer : Except String Unit) : RunnerPhase D U :=
  match answer with
  | .error e => .returned (.error (.dbError e))
  | .ok _ =>
    match db.records version with
    | none => .returned (.error (.notApplied version))
    | some am =>
      if am.status ≠ .applied then .returned (.error (.notApplied version))
      else .readingLock (.rollback version am)

end Calls

section Lock

variable (db : MigrationDb D U)

/-- The first statement of `migration_acquire_lock`. -/
def readLock (job : MigrationJob) (now : Nat) (answer : Except String Unit) : RunnerPhase D U :=
  match answer with
  | .error e => .returned (.error (.dbError e))
  | .ok _ =>
    match db.lock with
    | none => .writingLock job now
    | some row =>
      if now < row.expiresAt then .returned (.error (.locked row.lockedBy row.lockedAt))
      else .droppingLock job now

def dropLock (job : MigrationJob) (now : Nat) : Except String Unit → MigrationDb D U × RunnerPhase D U
  | .error e => (db, .returned (.error (.dbError e)))
  | .ok _ => ({ db with lock := none }, .writingLock job now)

def begin : MigrationJob → RunnerPhase D U
  | .apply pending vars => .next pending vars []
  | .rollback version am => .fetching version am

def writeLock (i : Nat) (lockId : String) (job : MigrationJob) (now : Nat) :
    Except String Unit → MigrationDb D U × RunnerPhase D U
  | .error e => (db, .returned (.error (.dbError e)))
  | .ok _ => ({ db with lock := some ⟨lockId, now, now + lockTtlMs, i⟩ }, begin job)

/-- `migration_release_lock`, whose error is dropped. -/
def release (i : Nat) (result : Except MigrationError (List MigrationResult)) :
    Except String Unit → MigrationDb D U × RunnerPhase D U
  | .error _ => (db, .returned result)
  | .ok _ => ({ db.emit (.released i (db.lock.map (·.owner))) with lock := none }, .returned result)

end Lock

section Apply

variable (env : MigrationEnv D) (db : MigrationDb D U)

/-- The head of the loop over the pending files; a file that cannot be parsed
or built ends it, with no record. -/
def startFile (vars : List (String × String)) (results : List MigrationResult) : List MigrationFile → RunnerPhase D U
  | [] => .releasing (.ok results)
  | f :: rest =>
    match prepare env f vars with
    | .error e => .releasing (.ok (results ++ [failedResult f e]))
    | .ok (graphDef, nodes) => .loading ⟨f, rest, vars, results, graphDef, nodes⟩

def executionFailed (detail : String) : MigrationError := .executionError 0 "" detail

def resumed (nodes : List MigrationNode) (cp : MigrationCheckpoint D U) : List String :=
  (nodes.map (·.name)).filter fun name => (cp.nodes name).isSome

/-- `execute_with_checkpoint`, up to where the nodes run: an execution that is
marked completed is not run again. -/
def loadExecution (task : MigrationTask D) (answer : Except String Unit) : RunnerPhase D U :=
  match answer with
  | .error e => .recording task (.error (.dbError e))
  | .ok _ =>
    match db.executions task.file.executionId with
    | none => .creating task
    | some cp =>
      if cp.graphHash ≠ env.hash task.graphDef then
        .recording task (.error (executionFailed
          (s!"checkpoint graph_hash mismatch: stored={cp.graphHash}, current={env.hash task.graphDef} — " ++
            "the graph structure has changed since the checkpoint was created")))
      else if cp.status = .completed then .recording task (.ok ())
      else .executing task (resumed task.nodes cp)

def createExecution (task : MigrationTask D) (answer : Answer) : MigrationDb D U × RunnerPhase D U :=
  (if answer.carriedOut then
      db.setExecution task.file.executionId ⟨.running, task.graphDef, env.hash task.graphDef, fun _ => none⟩
    else db,
    match answer.result with
    | .error e => .recording task (.error (executionFailed e))
    | .ok _ => .executing task [])

def runNode (task : MigrationTask D) (done : List String) (name : String) (result : Except String (Option U))
    (answer : Answer) : MigrationDb D U × RunnerPhase D U :=
  let ran := db.emit (.ran task.file.version name)
  match result with
  | .error e => (ran, .marking task (.error e))
  | .ok undo =>
    (if answer.carriedOut then ran.modifyExecution task.file.executionId fun cp => cp.saveNodeCompleted name undo
      else ran,
      match answer.result with
      | .error e => .marking task (.error e)
      | .ok _ => .executing task (name :: done))

def markExecution (task : MigrationTask D) (result : Except String Unit) (answer : Answer) :
    MigrationDb D U × RunnerPhase D U :=
  match result with
  | .ok _ =>
    (if answer.carriedOut then db.modifyExecution task.file.executionId fun cp => cp.markCompleted answer.result.isOk
      else db,
      .recording task (answer.result.mapError executionFailed))
  | .error e =>
    (if answer.carriedOut then db.modifyExecution task.file.executionId MigrationCheckpoint.markFailed else db,
      .recording task (.error (executionFailed e)))

/-- The record of an application; the loop goes on only after a success. -/
def recordUp (i : Nat) (task : MigrationTask D) (result : Except MigrationError Unit) (answer : Except String Unit) :
    MigrationDb D U × RunnerPhase D U :=
  let f := task.file
  match result, answer with
  | .ok _, .ok _ =>
    ((db.record f .applied .up f.executionId "").emit (.applied i f.version),
      .next task.rest task.vars (task.results ++ [⟨f.version, f.name, .up, .applied, none⟩]))
  | .ok _, .error e => (db, .releasing (.ok (task.results ++ [failedResult f (.dbError e)])))
  | .error e, answer =>
    (if answer.isOk then db.record f .failed .up f.executionId e.text else db,
      .releasing (.ok (task.results ++ [failedResult f (.executionError f.version f.name e.text)])))

end Apply

section Rollback

variable (env : MigrationEnv D) (db : MigrationDb D U)

/-- The nodes to undo, from the checkpoint of the execution. -/
def fetchCheckpoint (version : Nat) (am : AppliedMigration) (answer : Except String Unit) : RunnerPhase D U :=
  match answer with
  | .error e => .returned (.error (.dbError e))
  | .ok _ =>
    match db.executions am.executionId with
    | none =>
      .returned (.error (.dbError (s!"checkpoint not found for execution " ++
        s!"'migration-{am.executionId.version}_{am.executionId.name}'")))
    | some cp =>
      match env.build cp.graphDef with
      | .error detail => .returned (.error (.graphError version am.name detail))
      | .ok nodes =>
        let nonReversible := (nodes.filter fun n => !n.canUndo).map (·.name)
        if nonReversible.isEmpty then .undoing version am cp nodes.reverse
        else .releasing (.error (.notReversible version am.name nonReversible))

def undoNode (version : Nat) (am : AppliedMigration) (cp : MigrationCheckpoint D U) (n : MigrationNode)
    (left : List MigrationNode) (result : Except String Unit) : MigrationDb D U × RunnerPhase D U :=
  if ((cp.nodes n.name).bind id).isSome then
    (db.emit (.undid version n.name),
      match result with
      | .ok _ => .undoing version am cp left
      | .error e =>
        .returned (.error (.executionError version am.name
          (executionFailed s!"undo of node '{n.name}' failed: {e}").text)))
  else (db, .undoing version am cp left)

/-- The record of a rollback, which scans the files again. -/
def recordDown (i version : Nat) (am : AppliedMigration) (found : Except MigrationError (List MigrationFile))
    (answer : Except String Unit) : MigrationDb D U × RunnerPhase D U :=
  match found.bind scanAll, answer with
  | .error e, _ => (db, .returned (.error e))
  | .ok _, .error e => (db, .returned (.error (.dbError e)))
  | .ok files, .ok _ =>
    let recorded :=
      match files.find? fun f => f.version = version with
      | some f => db.record f .rolledBack .down am.executionId ""
      | none => db.updateStatus version .rolledBack
    (recorded.emit (.rolledBack i version), .releasing (.ok [⟨version, am.name, .down, .rolledBack, none⟩]))

end Rollback

def step (env : MigrationEnv D) (i : Nat) (lockId : String) (now : Nat) (db : MigrationDb D U) :
    RunnerPhase D U → RunnerAction U → Option (MigrationDb D U × RunnerPhase D U)
  | .idle, .apply found target dry vars answer => some (db, applyCall env db found target dry vars answer)
  | .returned _, .apply found target dry vars answer => some (db, applyCall env db found target dry vars answer)
  | .idle, .rollback version answer => some (db, rollbackCall db version answer)
  | .returned _, .rollback version answer => some (db, rollbackCall db version answer)
  | .readingLock job, .statement answer => some (db, readLock db job now answer)
  | .droppingLock job since, .statement answer => some (dropLock db job since answer)
  | .writingLock job since, .statement answer => some (writeLock db i lockId job since answer)
  | .next files vars results, .go => some (db, startFile env vars results files)
  | .loading task, .statement answer => some (db, loadExecution env db task answer)
  | .creating task, .statements answer => some (createExecution env db task answer)
  | .executing task done, .node name result answer =>
    if name ∈ task.nodes.map (·.name) ∧ name ∉ done then some (runNode db task done name result answer) else none
  | .executing task done, .skip name =>
    if name ∈ task.nodes.map (·.name) ∧ name ∉ done then some (db, .executing task (name :: done)) else none
  | .executing task _, .abort e => some (db, .marking task (.error e))
  | .executing task done, .finish =>
    if ∀ n ∈ task.nodes, n.name ∈ done then
      some (db.emit (.finished task.file.version), .marking task (.ok ()))
    else none
  | .marking task result, .statements answer => some (markExecution db task result answer)
  | .recording task result, .statement answer => some (recordUp db i task result answer)
  | .fetching version am, .statement answer => some (db, fetchCheckpoint env db version am answer)
  | .undoing version am _ [], .go => some (db, .settling version am)
  | .undoing version am cp (n :: left), .undo result => some (undoNode db version am cp n left result)
  | .settling version am, .settle found answer => some (recordDown db i version am found answer)
  | .releasing result, .statement answer => some (release db i result answer)
  | .idle, .crash | .returned _, .crash | .crashed, .crash => none
  | _, .crash => some (db, .crashed)
  | _, _ => none

end RunnerPhase

def loneMigration : MigrationEnv Unit where
  parse _ _ := .ok ()
  build _ := .ok [⟨"backfill", true⟩]
  hash _ := "h"

def loneFile : MigrationFile := ⟨1, "init", "001_init.mmd", "", ""⟩

end Rag3db.Weaver
