import Mathlib
import Rag3db.Library.Transition

namespace Rag3db.Weaver

/-- What is launched and for whom. `target` says where the message goes, or that
it has no place in the graph. -/
structure Spawn where
  tool : String
  target : Except String Unit := .ok ()
  caller : Option String := none
  parentRun : Option String := none
  handle : Option String := none
  maxAlive : Option Nat := none

/-- How far a launch is; a run that is launched has a handle. -/
inductive LaunchPhase
  | refused (e : String)
  | admitted
  | named (handle : String)
  | registered (handle : String)
  | running (handle : String)
  | stranded (handle : String) (e : String)
  | done (handle : String)
  | gone

/-- `cause` is the cause of an asked stop and who asked; the first one wins. -/
structure Launch where
  spec : Spawn
  phase : LaunchPhase
  cause : Option (String × String) := none
  cancelled : Bool := false

namespace LaunchPhase

def isAlive : LaunchPhase → Bool
  | .registered _ | .running _ | .stranded .. => true
  | _ => false

def living : LaunchPhase → Bool
  | .registered _ | .running _ => true
  | _ => false

def launching : LaunchPhase → Bool
  | .admitted | .named _ => true
  | _ => false

def entered : LaunchPhase → Option String
  | .registered h | .running h | .stranded h _ | .done h => some h
  | _ => none

end LaunchPhase

def bare (handle : String) : String := String.ofList (handle.toList.dropWhile (· = '#'))

/-- The registry, with the launch each entry is of, the counter of the handles,
and all launches so far. -/
structure Background where
  entries : AList fun _ : String => Nat := ∅
  counter : Nat := 1
  launches : List Launch := []

inductive BackgroundAction
  | launch (spec : Spawn)
  | name (i : Nat)
  | register (i : Nat)
  | start (i : Nat) (refusal : Option String)
  | finish (i : Nat)
  | remove (i : Nat)
  | cancel (who cause : String) (asker : Option String)
  | cancelOnBehalf (who name : String)
  | cancelByParent (handle : String)
  | noteCause (handle cause who : String)

namespace Background

variable (s : Background)

def aliveOf (tool : String) : Nat :=
  (s.entries.entries.filter fun e => (s.launches[e.2]?).any fun l => l.spec.tool = tool && l.phase.isAlive).length

/-- A free handle: the base, or the base and a number if it is taken. -/
def freeHandle (handle : String) : String × Nat :=
  let base := bare handle
  if base ∈ s.entries then (base ++ "-" ++ toString s.counter, (s.counter + 1) % 2 ^ 64) else (base, s.counter)

def put (i : Nat) (l : Launch) : Background := { s with launches := s.launches.set i l }

def requested (spec : Spawn) : String := spec.handle.getD spec.tool

def launch (spec : Spawn) : Background :=
  let n := s.aliveOf spec.tool
  let tool := spec.tool
  let phase := match spec.maxAlive with
    | some max =>
      if max ≤ n then
        LaunchPhase.refused s!"« {tool} » est déjà lancé {n} fois, le maximum permis : ce lancement est refusé"
      else .admitted
    | none => .admitted
  { s with launches := s.launches ++ [⟨spec, phase, none, false⟩] }

def name (i : Nat) (l : Launch) : Background :=
  let (handle, counter) := s.freeHandle (requested l.spec)
  { s.put i { l with phase := .named handle } with counter := counter }

def register (i : Nat) (l : Launch) (handle : String) : Background :=
  match l.spec.target with
  | .error e => s.put i { l with phase := .refused e }
  | .ok _ =>
    { s.put i { l with phase := .registered handle } with entries := s.entries.insert (bare handle) i }

def find (runId : Nat → String) (who : String) : Option (String × Nat) :=
  match s.entries.lookup (bare who) with
  | some i => some (bare who, i)
  | none => (s.entries.entries.find? fun e => runId e.2 = who).map fun e => (e.1, e.2)

def stop (i : Nat) (l : Launch) (cause who : String) : Background :=
  s.put i { l with cause := l.cause.or (some (cause, who)), cancelled := true }

def cancel (runId : Nat → String) (who cause : String) (asker : Option String) : Except String Background :=
  match s.find runId who with
  | none => .error s!"aucun run en fond « {who} »"
  | some (handle, i) =>
    match s.launches[i]? with
    | none => .error s!"aucun run en fond « {who} »"
    | some l =>
      let stranger := match asker with
        | some name => if l.spec.parentRun ≠ some name ∧ l.spec.caller ≠ some name then some name else none
        | none => none
      match stranger with
      | some name => .error s!"#{handle} n'est pas un enfant de « {name} » : il n'est pas arrêté"
      | none =>
        if l.phase.isAlive then .ok (s.stop i l cause (asker.getD "host"))
        else .error s!"#{handle} a déjà fini"

def cancelOnBehalf (runId : Nat → String) (who name : String) : Except String Background :=
  match s.find runId who with
  | none => .error s!"aucun run en fond « {who} »"
  | some (handle, i) =>
    match s.launches[i]? with
    | none => .error s!"aucun run en fond « {who} »"
    | some l =>
      if l.phase.isAlive then .ok (s.stop i l "requested" name) else .error s!"#{handle} a déjà fini"

def cancelByParent (runId : Nat → String) (handle : String) : Except String Background :=
  match s.find runId handle with
  | none => .error s!"aucun run en fond « {handle} »"
  | some (_, i) =>
    match s.launches[i]? with
    | none => .error s!"aucun run en fond « {handle} »"
    | some l =>
      if l.phase.isAlive then .ok (s.stop i l "parent_finished" (l.spec.parentRun.getD "parent")) else .ok s

def noteCause (handle cause who : String) : Background :=
  match s.entries.lookup (bare handle) with
  | none => s
  | some i =>
    match s.launches[i]? with
    | none => s
    | some l => s.put i { l with cause := l.cause.or (some (cause, who)) }

/-- A refusal leaves everything as it was. -/
def orSelf (r : Except String Background) : Background :=
  match r with
  | .ok s' => s'
  | .error _ => s

def step (runId : Nat → String) : BackgroundAction → Option Background
  | .launch spec => some (s.launch spec)
  | .cancel who cause asker => some (s.orSelf (s.cancel runId who cause asker))
  | .cancelOnBehalf who name => some (s.orSelf (s.cancelOnBehalf runId who name))
  | .cancelByParent handle => some (s.orSelf (s.cancelByParent runId handle))
  | .noteCause handle cause who => some (s.noteCause handle cause who)
  | .name i => s.launches[i]?.bind fun l =>
    match l.phase with
    | .admitted => some (s.name i l)
    | _ => none
  | .register i => s.launches[i]?.bind fun l =>
    match l.phase with
    | .named h => some (s.register i l h)
    | _ => none
  | .start i refusal => s.launches[i]?.bind fun l =>
    match l.phase with
    -- a thread that cannot be started leaves the entry behind
    | .registered h => some (s.put i { l with phase := refusal.elim (.running h) (.stranded h) })
    | _ => none
  | .finish i => s.launches[i]?.bind fun l =>
    match l.phase with
    | .running h => some (s.put i { l with phase := .done h })
    | _ => none
  | .remove i => s.launches[i]?.bind fun l =>
    match l.phase with
    | .done h => some { s.put i { l with phase := .gone } with entries := s.entries.erase (bare h) }
    | _ => none

end Background

end Rag3db.Weaver
