import Rag3db.Library.Transition
import Rag3db.Weaver.LevelInvariant
import Rag3db.Weaver.StreamHub

open Option Function

namespace Rag3db.Weaver

open Library.Transition LevelState

inductive ExecutionStatus
  | running
  | completed
  | failed
  deriving DecidableEq

/-- What the store keeps of an execution: its status, and what each node that
completed has put out. -/
structure Checkpoint (V : Type) where
  status : ExecutionStatus
  nodes : String → Option (Ports V)

namespace Checkpoint

variable {V : Type} (cp : Checkpoint V)

def saveNodeCompleted (name : String) (outputs : Ports V) : Checkpoint V :=
  { cp with nodes := update cp.nodes name (some outputs) }

theorem nodes_saveNodeCompleted (name : String) (outputs : Ports V) :
    (cp.saveNodeCompleted name outputs).nodes = update cp.nodes name (some outputs) := rfl

/-- A completed execution keeps no state of its nodes. -/
def markCompleted : Checkpoint V := ⟨.completed, fun _ => none⟩

def markFailed : Checkpoint V := { cp with status := .failed }

def mark : Except String Unit → Checkpoint V
  | .ok _ => markCompleted
  | .error _ => cp.markFailed

end Checkpoint

/-- The level executor goes on from the nodes that were saved: their values are
there again, and they read nothing more. -/
def LevelState.resume {V : Type} (g : DataflowGraph V) (initial : Initial V) (saved : String → Option (Ports V)) :
    LevelState V where
  portData k := (saved k.1).bind fun outputs => outputs k.2
  available k := ((saved k.1).bind fun outputs => outputs k.2).isSome
  remaining k := (g.edges.countP fun e => e.key = k) - g.edges.countP fun e => e.key = k ∧ (saved e.toNode).isSome
  initial := initial
  ended name := (saved name).map fun outputs => .ran (fun _ => none) outputs

/-- Where a checkpointed run of the level executor is. -/
inductive LevelPhase (V : Type)
  | head
  | storing (prepared : List (Node V × Ports V))
  | ending
  | returned (result : Except String Unit)
  | marked

structure LevelRun (V : Type) where
  level : LevelState V
  left : Nat
  phase : LevelPhase V
  cancelled : Bool
  store : Checkpoint V

inductive LevelAction (V : Type)
  | trigger
  | advance
  | result (r : Except String (Ports V)) (storeError : Option String)
  | mark (written : Bool)

namespace LevelRun

variable {V : Type} (M : Merge V) (g : DataflowGraph V) (order : List (Node V)) (maxIterations : Nat) (keepState : Bool)

def start (initial : Initial V) (cp : Checkpoint V) : LevelRun V where
  level := .resume g initial cp.nodes
  left := maxIterations
  phase := .head
  cancelled := false
  store := cp

/-- The loop over the levels, up to where it waits for its nodes. -/
def advance (s : LevelRun V) : Option (LevelRun V) :=
  match s.phase with
  | .head =>
    if s.left = 0 ∨ s.cancelled then some { s with phase := .ending }
    else
      let level := skipUntilFixpoint g order (g.nodes.length + 1) s.level
      match level.ready g order with
      | [] =>
        some { s with
          level := level
          phase := if level.allCompleted g then .ending else .returned (.error (deadlockError order level)) }
      | ready =>
        let (level, prepared) := level.prepareAll M g ready
        some { s with level := level, phase := .storing prepared }
  | .storing [] =>
    if s.level.allCompleted g then some { s with phase := .ending }
    else some { s with phase := .head, left := s.left - 1 }
  | .ending =>
    -- a cancelled run has not finished everything, and that is no error
    if s.level.allCompleted g || s.cancelled then some { s with phase := .returned (.ok ()) }
    else
      let done := (g.nodes.filter fun n => s.level.completed n.name).length
      some { s with
        phase := .returned (.error
          s!"max iterations ({maxIterations}) exceeded, {done} of {g.nodes.length} nodes completed") }
  | _ => none

def toSave (level : LevelState V) (name : String) (outputs : Ports V) : Ports V := fun port =>
  if 0 < level.remaining (name, port) then outputs port else none

/-- The result of the next node of the level. A failure of a cancelled run
leaves the node unfinished. -/
def result (s : LevelRun V) (r : Except String (Ports V)) (storeError : Option String) : Option (LevelRun V) :=
  match s.phase with
  | .storing ((n, inputs) :: prepared) =>
    match n.settle r with
    | .ok outputs =>
      let level := s.level.store n inputs outputs
      if keepState then
        match storeError with
        | none =>
          some { s with
            level := level
            phase := .storing prepared
            store := s.store.saveNodeCompleted n.name (toSave s.level n.name outputs) }
        | some e => some { s with phase := .returned (.error e) }
      else some { s with level := level, phase := .storing prepared }
    | .error e =>
      if s.cancelled then some { s with phase := .storing prepared }
      else some { s with phase := .returned (.error e) }
  | _ => none

def mark (s : LevelRun V) (written : Bool) : Option (LevelRun V) :=
  match s.phase with
  | .returned r => some { s with phase := .marked, store := if written then s.store.mark r else s.store }
  | _ => none

def step (s : LevelRun V) : LevelAction V → Option (LevelRun V)
  | .trigger => some { s with cancelled := true }
  | .advance => s.advance M g order maxIterations
  | .result r storeError => result keepState s r storeError
  | .mark written => s.mark written

end LevelRun

namespace LevelState

variable {V : Type} {M : Merge V} {g : DataflowGraph V} {s s' t : LevelState V}

def Grows (s s' : LevelState V) : Prop :=
  (∀ m, s.completed m → s'.completed m) ∧
    ((∀ m o, s.ended m = some o → o.isFailed = false) → ∀ m o, s'.ended m = some o → o.isFailed = false)

theorem Grows.of_eq (h : s'.ended = s.ended) : Grows s s' := by
  unfold Grows completed
  rw [h]
  exact ⟨fun _ => id, id⟩

theorem Grows.trans (h : Grows s s') (h' : Grows s' t) : Grows s t :=
  ⟨fun m hm => h'.1 m (h.1 m hm), fun hfine => h'.2 (h.2 hfine)⟩

theorem Grows.update {n : Node V} {o : Outcome V} (ho : o.isFailed = false)
    (h : s'.ended = update s.ended n.name (some o)) : Grows s s' := by
  refine ⟨fun m hm => by rw [completed_update h, hm, Bool.true_or], fun hfine m o' ho' => ?_⟩
  by_cases hm : m = n.name
  · rw [h, hm, update_self] at ho'
    cases ho'
    exact ho
  · rw [h, update_of_ne hm] at ho'
    exact hfine m o' ho'

theorem grows_skipUntilFixpoint (order : List (Node V)) (fuel : Nat) (s : LevelState V) :
    Grows s (skipUntilFixpoint g order fuel s) := by
  have hskips : ∀ (skips : List (Node V × String)) (s : LevelState V),
      Grows s (skips.foldl (fun s p => s.skip g p.1 p.2) s) := by
    intro skips
    induction skips with
    | nil => exact fun s => .of_eq rfl
    | cons p skips ih => exact fun s => (Grows.update rfl (skip_ended s p.1 p.2)).trans (ih _)
  induction fuel generalizing s with
  | zero => exact .of_eq rfl
  | succ fuel ih =>
    unfold skipUntilFixpoint
    split
    · exact .of_eq rfl
    · exact (hskips _ s).trans (ih _)

theorem ended_take (p : LevelState V × List (String × V)) (e : Edge) : (take p e).1.ended = p.1.ended := by
  unfold take
  split <;> rfl

theorem ended_takes (es : List Edge) (p : LevelState V × List (String × V)) :
    (es.foldl take p).1.ended = p.1.ended := by
  induction es generalizing p with
  | nil => rfl
  | cons e es ih => rw [List.foldl_cons, ih, ended_take]

theorem ended_prepareAll (nodes : List (Node V)) (s : LevelState V) : (s.prepareAll M g nodes).1.ended = s.ended := by
  induction nodes generalizing s with
  | nil => rfl
  | cons n nodes ih => exact (ih _).trans (ended_takes (g.into n.name) (s, []))

theorem allCompleted_of_grows (h : Grows s s') (hs : s.allCompleted g) : s'.allCompleted g :=
  allCompleted_iff.mpr fun n hn => h.1 _ (allCompleted_iff.mp hs n hn)

end LevelState

namespace LevelRun

variable {V : Type} {M : Merge V} {g : DataflowGraph V} {order : List (Node V)} {maxIterations : Nat}
  {keepState : Bool} {s s' : LevelRun V}

theorem advance_spec (h : s.advance M g order maxIterations = some s') :
    s.level.Grows s'.level ∧ s'.cancelled = s.cancelled ∧ s'.store = s.store ∧
      (s'.phase = .returned (.ok ()) → s.level.allCompleted g ∨ s.cancelled) := by
  unfold advance at h
  split at h
  · split_ifs at h
    · cases h
      exact ⟨.of_eq rfl, rfl, rfl, nofun⟩
    · have hskip := grows_skipUntilFixpoint (g := g) order (g.nodes.length + 1) s.level
      dsimp only at h
      split at h
      · cases h
        refine ⟨hskip, rfl, rfl, fun hp => ?_⟩
        split_ifs at hp
        cases hp
      · cases h
        exact ⟨hskip.trans (.of_eq (ended_prepareAll _ _)), rfl, rfl, nofun⟩
  · split_ifs at h <;> cases h <;> exact ⟨.of_eq rfl, rfl, rfl, nofun⟩
  · split_ifs at h with hdone
    · cases h
      exact ⟨.of_eq rfl, rfl, rfl, fun _ => by simpa using hdone⟩
    · cases h
      exact ⟨.of_eq rfl, rfl, rfl, nofun⟩
  · cases h

theorem result_spec {r : Except String (Ports V)} {storeError : Option String}
    (h : result keepState s r storeError = some s') :
    s.level.Grows s'.level ∧ s'.cancelled = s.cancelled ∧ s'.store.status = s.store.status ∧
      s'.phase ≠ .returned (.ok ()) := by
  unfold result at h
  split at h
  · rename_i n inputs prepared _
    split at h
    · have hgrows : ∀ outputs, s.level.Grows (s.level.store n inputs outputs) := fun outputs => .update rfl rfl
      split_ifs at h
      · split at h <;> cases h
        · exact ⟨hgrows _, rfl, rfl, nofun⟩
        · exact ⟨.of_eq rfl, rfl, rfl, nofun⟩
      · cases h
        exact ⟨hgrows _, rfl, rfl, nofun⟩
    · split_ifs at h <;> cases h <;> exact ⟨.of_eq rfl, rfl, rfl, nofun⟩
  · cases h

def timely (g : DataflowGraph V) (s : LevelRun V) : LevelAction V → Bool
  | .trigger => s.level.allCompleted g
  | _ => true

/-- Whoever could end the run early, or has ended it well, found every node
ended. -/
structure Whole (g : DataflowGraph V) (s : LevelRun V) : Prop where
  fine : ∀ m o, s.level.ended m = some o → o.isFailed = false
  cancelled : s.cancelled → s.level.allCompleted g
  returned : s.phase = .returned (.ok ()) → s.level.allCompleted g
  completed : s.store.status = .completed → s.level.allCompleted g

theorem Whole.step {a : LevelAction V} (h : Whole g s) (ht : s.timely g a)
    (hs : step M g order maxIterations keepState s a = some s') : Whole g s' := by
  cases a with
  | trigger =>
    cases hs
    exact ⟨h.fine, fun _ => ht, h.returned, h.completed⟩
  | advance =>
    obtain ⟨hgrows, hcancelled, hstore, hok⟩ := advance_spec hs
    have hall := allCompleted_of_grows (g := g) hgrows
    refine ⟨hgrows.2 h.fine, fun hc => hall (h.cancelled (hcancelled ▸ hc)), fun hp => ?_, fun hst => ?_⟩
    · exact hall ((hok hp).elim id h.cancelled)
    · exact hall (h.completed (hstore ▸ hst))
  | result r storeError =>
    obtain ⟨hgrows, hcancelled, hstatus, hok⟩ := result_spec hs
    have hall := allCompleted_of_grows (g := g) hgrows
    exact ⟨hgrows.2 h.fine, fun hc => hall (h.cancelled (hcancelled ▸ hc)), fun hp => (hok hp).elim,
      fun hst => hall (h.completed (hstatus ▸ hst))⟩
  | mark written =>
    simp only [LevelRun.step, mark] at hs
    split at hs
    · rename_i r hphase
      cases hs
      refine ⟨h.fine, h.cancelled, nofun, fun hst => ?_⟩
      cases r with
      | ok => exact h.returned hphase
      | error e =>
        cases written with
        | true => cases hst
        | false => exact h.completed hst
    · cases hs

end LevelRun

/-- How the thread of a node ended. -/
inductive WorkerResult
  | completed
  | skipped (reason : String)
  | failed (error : String)
  | cancelled

inductive WorkersPhase
  | running
  | returned (result : Except String Unit)
  | marked

/-- A checkpointed run of the concurrent executor, by what decides its result. -/
structure WorkersRun where
  ended : String → Option WorkerResult
  cause : Option CancelCause
  storeError : Option String
  phase : WorkersPhase
  status : ExecutionStatus

inductive WorkersAction
  | trigger
  | cancel (cause : CancelCause)
  | finish (name : String) (r : WorkerResult)
  | storeFailed (node error : String)
  | collect
  | mark (written : Bool)

namespace WorkersRun

variable {V : Type} (g : DataflowGraph V)

def start (status : ExecutionStatus) : WorkersRun := ⟨fun _ => none, none, none, .running, status⟩

def cancel (s : WorkersRun) (cause : CancelCause) : WorkersRun := { s with cause := s.cause.or (some cause) }

/-- A thread ends. It ends as cancelled only when the run is, and as failed it
cancels the run itself. -/
def finish (s : WorkersRun) (name : String) (r : WorkerResult) : Option WorkersRun :=
  if name ∈ g.names ∧ (s.ended name).isNone then
    let t := { s with ended := update s.ended name (some r) }
    match r with
    | .failed _ => some (t.cancel (.failed name))
    | .cancelled => if s.cause.isSome then some t else none
    | _ => some t
  else none

def storeFailed (s : WorkersRun) (node error : String) : WorkersRun :=
  match s.storeError with
  | none =>
    { s.cancel (.failed node) with storeError := some s!"point de reprise de « {node} » non écrit : {error}" }
  | some _ => s

def allEnded (s : WorkersRun) : Bool := g.nodes.all fun n => (s.ended n.name).isSome

def failures (s : WorkersRun) : List (String × String) :=
  g.nodes.filterMap fun n =>
    match s.ended n.name with
    | some (.failed error) => some (n.name, error)
    | _ => none

/-- The error of a run: its cause first. -/
def error (s : WorkersRun) : Option String :=
  match s.cause with
  | some (.failed node) =>
    some (((s.failures g).find? fun p => p.1 == node || (p.1 ++ "/").isPrefixOf node).elim
      s!"le nœud « {node} » a paniqué" (·.2))
  | some (.deadlock why) => some s!"interblocage des flux : {why}"
  | some .external | none => (s.failures g).head?.map (·.2)

def collect (s : WorkersRun) : Option WorkersRun :=
  if s.allEnded g then
    some { s with phase := .returned (match s.storeError.or (s.error g) with
      | some e => .error e
      | none => .ok ()) }
  else none

def isRunning (s : WorkersRun) : Bool :=
  match s.phase with
  | .running => true
  | _ => false

/-- What happens while the threads run, then the result and its mark. -/
def step (s : WorkersRun) : WorkersAction → Option WorkersRun
  | .trigger => some (s.cancel .external)
  | .mark written =>
    match s.phase with
    | .returned r =>
      some { s with
        phase := .marked
        status := if written then (match r with | .ok _ => .completed | .error _ => .failed) else s.status }
    | _ => none
  | .cancel cause => if s.isRunning ∧ cause ≠ .external then some (s.cancel cause) else none
  | .finish name r => if s.isRunning then s.finish g name r else none
  | .storeFailed node error => if s.isRunning then some (s.storeFailed node error) else none
  | .collect => if s.isRunning then s.collect g else none

def Finished (s : WorkersRun) : Prop :=
  ∀ n ∈ g.nodes, s.ended n.name = some .completed ∨ ∃ reason, s.ended n.name = some (.skipped reason)

def timely (s : WorkersRun) : WorkersAction → Bool
  | .trigger => s.allEnded g
  | _ => true

/-- A cause that is no error left no thread cancelled. -/
structure Whole (s : WorkersRun) : Prop where
  unstopped : s.cause = none ∨ s.cause = some .external → ∀ name, s.ended name ≠ some .cancelled
  external : s.cause = some .external → s.allEnded g
  returned : s.phase = .returned (.ok ()) → s.Finished g
  completed : s.status = .completed → s.Finished g

variable {g} {s s' : WorkersRun}

theorem Finished.allEnded (h : s.Finished g) : s.allEnded g :=
  List.all_eq_true.mpr fun n hn => by
    rcases h n hn with h | ⟨reason, h⟩
    · rw [h]; rfl
    · rw [h]; rfl

theorem finished_of_error_eq_none (hall : s.allEnded g) (herror : s.error g = none)
    (h : s.cause = none ∨ s.cause = some .external → ∀ name, s.ended name ≠ some .cancelled) : s.Finished g := by
  have hcause : (s.cause = none ∨ s.cause = some .external) ∧ s.failures g = [] := by
    unfold error at herror
    split at herror
    · cases herror
    · cases herror
    · exact ⟨.inr ‹_›, by simpa using herror⟩
    · exact ⟨.inl ‹_›, by simpa using herror⟩
  intro n hn
  obtain ⟨r, hr⟩ := isSome_iff_exists.mp (List.all_eq_true.mp hall n hn)
  cases r with
  | completed => exact .inl hr
  | skipped reason => exact .inr ⟨reason, hr⟩
  | failed e =>
    have hnone := List.filterMap_eq_nil_iff.mp hcause.2 n hn
    simp [hr] at hnone
  | cancelled => exact (h hcause.1 _ hr).elim

theorem Whole.cancel {c : CancelCause} (h : s.Whole g) (hc : c = .external → s.allEnded g) : (s.cancel c).Whole g := by
  cases hcause : s.cause with
  | none =>
    have hnew : (s.cancel c).cause = some c := by simp [WorkersRun.cancel, hcause]
    refine ⟨fun hor => ?_, fun hext => ?_, h.returned, h.completed⟩
    · exact h.unstopped (.inl hcause)
    · exact hc (some.inj (hnew.symm.trans hext))
  | some d =>
    have hsame : s.cancel c = s := by
      unfold WorkersRun.cancel
      rw [hcause, some_or, ← hcause]
    rw [hsame]
    exact h

theorem Whole.finish {name : String} {r : WorkerResult} (h : s.Whole g) (hrun : s.isRunning)
    (hs : s.finish g name r = some s') : s'.Whole g := by
  obtain ⟨⟨hname, hnone⟩, hs⟩ := ite_none_right_eq_some.mp hs
  obtain ⟨n, hn, rfl⟩ := List.mem_map.mp hname
  have hopen : ¬ s.allEnded g := fun hall => by
    have := List.all_eq_true.mp hall n hn
    rw [isNone_iff_eq_none.mp hnone] at this
    cases this
  have hexternal : s.cause ≠ some .external := fun hext => hopen (h.external hext)
  have hstatus : s.status ≠ .completed := fun hst => hopen (h.completed hst).allEnded
  have hphase : s.phase ≠ .returned (.ok ()) := fun hp => by
    rw [isRunning, hp] at hrun
    cases hrun
  -- a cause that is an error says nothing of the threads
  have herror : ∀ {t : WorkersRun} {c : CancelCause}, t.cause = some c → c ≠ .external → t.phase = s.phase →
      t.status = s.status → t.Whole g := by
    intro t c hc hne hp hst
    refine ⟨fun hor => ?_, fun hext => ?_, fun h => (hphase (hp ▸ h)).elim, fun h => (hstatus (hst ▸ h)).elim⟩
    · rcases hor with hor | hor
      · rw [hc] at hor
        cases hor
      · rw [hc] at hor
        exact (hne (some.inj hor)).elim
    · rw [hc] at hext
      exact (hne (some.inj hext)).elim
  have hgood : r ≠ .cancelled → Whole g { s with ended := update s.ended n.name (some r) } := by
    intro hr
    refine ⟨fun hor name => ?_, fun hext => (hexternal hext).elim, fun hp => (hphase hp).elim,
      fun hst => (hstatus hst).elim⟩
    by_cases hname : name = n.name
    · subst hname
      simpa using hr
    · simpa [update_of_ne hname] using h.unstopped hor name
  cases r with
  | completed | skipped reason =>
    cases hs
    exact hgood (by simp)
  | failed e =>
    cases hs
    cases hcause : s.cause with
    | none =>
      refine herror (c := .failed n.name) ?_ (by simp) rfl rfl
      simp [WorkersRun.cancel]
    | some c =>
      refine herror ?_ (fun hc => hexternal (hc ▸ hcause)) rfl rfl
      simp [WorkersRun.cancel]
  | cancelled =>
    obtain ⟨hsome, hs⟩ := ite_none_right_eq_some.mp hs
    cases hs
    obtain ⟨c, hc⟩ := isSome_iff_exists.mp hsome
    exact herror hc (fun hc' => hexternal (hc' ▸ hc)) rfl rfl

theorem Whole.step {a : WorkersAction} (h : s.Whole g) (ht : s.timely g a) (hs : s.step g a = some s') :
    s'.Whole g := by
  cases a with
  | trigger =>
    cases hs
    exact h.cancel fun _ => ht
  | mark written =>
    simp only [WorkersRun.step] at hs
    split at hs
    · rename_i r hphase
      cases hs
      refine ⟨h.unstopped, h.external, nofun, fun hst => ?_⟩
      cases written with
      | false => exact h.completed hst
      | true =>
        cases r with
        | ok => exact h.returned hphase
        | error e => cases hst
    · cases hs
  | cancel cause =>
    obtain ⟨⟨-, hne⟩, hs⟩ := ite_none_right_eq_some.mp hs
    cases hs
    exact h.cancel fun hc => (hne hc).elim
  | finish name r =>
    obtain ⟨hrun, hs⟩ := ite_none_right_eq_some.mp hs
    exact h.finish hrun hs
  | storeFailed node error =>
    obtain ⟨-, hs⟩ := ite_none_right_eq_some.mp hs
    cases hs
    have hcancel := h.cancel (c := .failed node) nofun
    unfold storeFailed
    split
    · exact ⟨hcancel.unstopped, hcancel.external, hcancel.returned, hcancel.completed⟩
    · exact h
  | collect =>
    obtain ⟨-, hs⟩ := ite_none_right_eq_some.mp hs
    obtain ⟨hall, hs⟩ := ite_none_right_eq_some.mp hs
    cases hs
    refine ⟨h.unstopped, h.external, fun hp => ?_, h.completed⟩
    have hnone : s.error g = none := by
      cases herror : s.storeError.or (s.error g) with
      | none => exact (or_eq_none_iff.mp herror).2
      | some e => simp [herror] at hp
    exact finished_of_error_eq_none hall hnone h.unstopped

end WorkersRun

/-- Under either executor an execution is marked completed only if every node
has finished or was skipped. -/
theorem completed_only_if_finished {V : Type} (M : Merge V) (g : DataflowGraph V) (order : List (Node V))
    (maxIterations : Nat) (keepState : Bool) (init : Initial V) {cp : Checkpoint V} (hcp : cp.status ≠ .completed) :
    (∀ s, Reachable (guarded (LevelRun.timely g) (LevelRun.step M g order maxIterations keepState))
        (.start g maxIterations init cp) s → s.store.status = .completed →
      ∀ n ∈ g.nodes, ∃ o, s.level.ended n.name = some o ∧ o.isFailed = false) ∧
    ∀ s, Reachable (guarded (WorkersRun.timely g) (WorkersRun.step g)) (.start cp.status) s → s.status = .completed →
      s.Finished g := by
  constructor
  · intro s hs hst
    have hwhole : s.Whole g := by
      refine hs.invariant ⟨fun m o ho => ?_, nofun, nofun, fun h => (hcp h).elim⟩
        fun s a s' h ha => h.step (guarded_eq_some.mp ha).1 (guarded_eq_some.mp ha).2
      obtain ⟨outputs, -, rfl⟩ := map_eq_some_iff.mp ho
      rfl
    intro n hn
    obtain ⟨o, ho⟩ := isSome_iff_exists.mp (allCompleted_iff.mp (hwhole.completed hst) n hn)
    exact ⟨o, ho, hwhole.fine n.name o ho⟩
  · intro s hs hst
    have hwhole : s.Whole g := by
      refine hs.invariant ⟨fun _ name h => ?_, nofun, nofun, fun h => (hcp h).elim⟩
        fun s a s' h ha => h.step (guarded_eq_some.mp ha).1 (guarded_eq_some.mp ha).2
      cases h
    exact hwhole.completed hst

def lone : DataflowGraph Unit where
  nodes := [⟨"a", [], [], fun _ => .ok fun _ => none⟩]
  edges := []
  nodup := by decide
  from_mem := by simp
  to_mem := by simp

def unitMerge : Merge Unit := ⟨(), fun _ _ => .ok ()⟩

theorem cancelled_run_marked_completed : (∃ s, Reachable (LevelRun.step unitMerge lone lone.nodes 10 true)
        (.start lone 10 (fun _ _ => none) ⟨.running, fun _ => none⟩) s ∧
      s.store.status = .completed ∧ s.level.ended "a" = none) ∧
    ∃ s, Reachable (WorkersRun.step lone) (.start .running) s ∧
      s.status = .completed ∧ s.ended "a" = some .cancelled := by
  refine ⟨⟨_, Reachable.init.run (show run _ _ [.trigger, .advance, .advance, .mark true] = some _ from rfl),
    rfl, rfl⟩, _, Reachable.init.run (show run _ _ [.trigger, .finish "a" .cancelled, .collect, .mark true] = some _
      from rfl), rfl, rfl⟩

theorem completed_only_if_finished_lone :
    ∃ s, Reachable (guarded (LevelRun.timely lone) (LevelRun.step unitMerge lone lone.nodes 10 true))
        (.start lone 10 (fun _ _ => none) ⟨.running, fun _ => none⟩) s ∧ s.store.status = .completed ∧
      ∀ n ∈ lone.nodes, ∃ o, s.level.ended n.name = some o ∧ o.isFailed = false :=
  have hrun := Reachable.init.run (show run
    (guarded (LevelRun.timely lone) (LevelRun.step unitMerge lone lone.nodes 10 true))
    (.start lone 10 (fun _ _ => none) ⟨.running, fun _ => none⟩)
    [.advance, .result (.ok fun _ => none) none, .advance, .advance, .mark true] = some _ from rfl)
  ⟨_, hrun, rfl, (completed_only_if_finished unitMerge lone lone.nodes 10 true _ (by decide)).1 _ hrun rfl⟩

end Rag3db.Weaver
