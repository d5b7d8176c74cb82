import Rag3db.Library.Transition
import Rag3db.Weaver.DataflowGraph

open List Option

namespace Rag3db.Weaver

open Library.Schedule

/-- How the worker of a node ended. One that the run's cancellation stopped may
have sent some of its outputs. -/
inductive WorkerEnd (V : Type)
  | done (outcome : Outcome V)
  | cancelled (sent : Ports V)

namespace WorkerEnd

variable {V : Type}

def seen : WorkerEnd V → Outcome V
  | .done outcome => outcome
  | .cancelled sent => .ran (fun _ => none) sent

end WorkerEnd

/-- A run of the concurrent executor on a graph of values: a worker per node,
and the node whose failure has cancelled the run. -/
structure ConcurrentState (V : Type) where
  ended : String → Option (WorkerEnd V)
  cancel : Option String

inductive WorkerAction (V : Type)
  | run (name : String)
  | stop (name : String) (sent : Ports V)

namespace ConcurrentState

variable {V : Type} (M : Merge V) (g : DataflowGraph V) (init : Initial V)

def start : ConcurrentState V := ⟨fun _ => none, none⟩

def enter : Except String (ConcurrentState V) :=
  match g.validate init with
  | .ok _ => .ok start
  | .error e => .error e

def seen (s : ConcurrentState V) : Ended V := fun name => (s.ended name).map WorkerEnd.seen

def finish (s : ConcurrentState V) (name : String) (e : WorkerEnd V) : ConcurrentState V :=
  { s with ended := Function.update s.ended name (some e) }

/-- A worker goes on once the channels of all its inputs are closed, and a
failure cancels the run; a worker of a cancelled run may stop at any time. -/
def step (s : ConcurrentState V) : WorkerAction V → Option (ConcurrentState V)
  | .run name =>
    match g.nodes.find? fun n => n.name = name with
    | none => none
    | some n =>
      if (s.ended name).isNone ∧ ∀ e ∈ g.into name, (s.ended e.fromNode).isSome then
        let outcome := concurrentOutcome M g init s.seen n
        let s := s.finish name (.done outcome)
        some (if outcome.isFailed then { s with cancel := s.cancel.or (some name) } else s)
      else none
  | .stop name sent =>
    if name ∈ g.names ∧ (s.ended name).isNone ∧ s.cancel.isSome then some (s.finish name (.cancelled sent))
    else none

def finished (s : ConcurrentState V) : Bool := g.nodes.all fun n => (s.ended n.name).isSome

def failed (s : ConcurrentState V) : Bool := s.cancel.isSome

def data (s : ConcurrentState V) (k : PortKey) : Option V :=
  if (g.edges.any fun e => e.key = k) then none else (s.seen k.1).bind fun o => o.outputs k.2

end ConcurrentState

namespace ConcurrentState

variable {V : Type} {M : Merge V} {g : DataflowGraph V} {init : Initial V} {s s' : ConcurrentState V}

theorem step_cases {a : WorkerAction V} (h : s.step M g init a = some s') :
    (∃ n ∈ g.nodes, a = .run n.name ∧ s.ended n.name = none ∧ (∀ e ∈ g.into n.name, (s.ended e.fromNode).isSome) ∧
      s' = { s.finish n.name (.done (concurrentOutcome M g init s.seen n)) with
        cancel := if (concurrentOutcome M g init s.seen n).isFailed then s.cancel.or (some n.name) else s.cancel }) ∨
    ∃ name sent, a = .stop name sent ∧ name ∈ g.names ∧ s.ended name = none ∧ s.cancel.isSome ∧
      s' = s.finish name (.cancelled sent) := by
  cases a with
  | run name =>
    simp only [step] at h
    split at h
    · cases h
    · rename_i n hfind
      obtain ⟨⟨hnone, hready⟩, h⟩ := ite_none_right_eq_some.mp h
      have hname : n.name = name := by simpa using find?_some hfind
      subst hname
      refine .inl ⟨n, mem_of_find?_eq_some hfind, rfl, isNone_iff_eq_none.mp hnone, hready, ?_⟩
      cases h
      split_ifs <;> rfl
  | stop name sent =>
    obtain ⟨⟨hmem, hnone, hcancel⟩, h⟩ := ite_none_right_eq_some.mp h
    exact .inr ⟨name, sent, rfl, hmem, isNone_iff_eq_none.mp hnone, hcancel, (some.inj h).symm⟩

/-- A run that is not cancelled has ended nodes as a rule says. A cancelled one
has come to a node that fails by it. -/
structure Sound (rule : Ended V → Node V → Outcome V) (g : DataflowGraph V) (s : ConcurrentState V) : Prop where
  mem : ∀ name, (s.ended name).isSome → name ∈ g.names
  consistent : s.cancel = none → Consistent g.needs (byName g rule) (fun _ => none) s.seen
  fine : s.cancel = none → ∀ name o, s.seen name = some o → o.isFailed = false
  failing : s.cancel.isSome → ∃ v, ∃ n ∈ g.nodes, Consistent g.needs (byName g rule) (fun _ => none) v ∧
    (∀ e ∈ g.into n.name, (v e.fromNode).isSome) ∧ (rule v n).isFailed

theorem seen_finish (s : ConcurrentState V) (name : String) (e : WorkerEnd V) :
    (s.finish name e).seen = Function.update s.seen name (some e.seen) := by
  funext m
  by_cases hm : m = name
  · subst hm
    simp [finish, seen]
  · simp [finish, seen, Function.update_of_ne hm]

theorem mem_finish {name : String} (hs : ∀ m, (s.ended m).isSome → m ∈ g.names) (hname : name ∈ g.names)
    (e : WorkerEnd V) : ∀ m, ((s.finish name e).ended m).isSome → m ∈ g.names := by
  intro m hm
  by_cases hne : m = name
  · exact hne ▸ hname
  · simp only [finish, Function.update_of_ne hne] at hm
    exact hs m hm

theorem isSome_seen (name : String) : (s.seen name).isSome = (s.ended name).isSome := by
  simp [seen]

section Sound

variable {rule : Ended V → Node V → Outcome V}

theorem Sound.start : Sound rule g start :=
  ⟨by simp [ConcurrentState.start], fun _ i b hb => by simp [ConcurrentState.start, seen] at hb,
    fun _ name o ho => by simp [ConcurrentState.start, seen] at ho, by simp [ConcurrentState.start]⟩

theorem Sound.run {n : Node V} {o : Outcome V} (h : Sound rule g s) (hlocal : Local g.needs (byName g rule))
    (hn : n ∈ g.nodes) (hnew : s.ended n.name = none) (hready : ∀ e ∈ g.into n.name, (s.ended e.fromNode).isSome)
    (ho : o = rule s.seen n) :
    Sound rule g { s.finish n.name (.done o) with
      cancel := if o.isFailed then s.cancel.or (some n.name) else s.cancel } := by
  have hmem := mem_finish h.mem (mem_map_of_mem hn) (.done o)
  have hseen : (s.finish n.name (.done o)).seen = Function.update s.seen n.name (some o) := seen_finish s n.name _
  have hready' : ∀ e ∈ g.into n.name, (s.seen e.fromNode).isSome := fun e he => isSome_seen e.fromNode ▸ hready e he
  cases hcancel : s.cancel with
  | some m =>
    -- the run was already cancelled
    refine ⟨hmem, fun hc => ?_, fun hc => ?_, fun _ => h.failing (by simp [hcancel])⟩
    all_goals simp at hc
  | none =>
    by_cases hfail : o.isFailed
    · refine ⟨hmem, fun hc => ?_, fun hc => ?_, fun _ =>
        ⟨s.seen, n, hn, h.consistent hcancel, hready', ho ▸ hfail⟩⟩
      all_goals simp [hfail] at hc
    · refine ⟨hmem, fun _ => (h.consistent hcancel).extend hlocal ?_ rfl (fun j hj => ?_) ?_ hseen,
        fun _ name o' ho' => ?_, fun hc => ?_⟩
      · simp [seen, hnew]
      · obtain ⟨e, he, rfl, hto⟩ := hj
        exact hready' e (DataflowGraph.mem_into.mpr ⟨he, hto⟩)
      · rw [byName_name hn, ho]
      · have ho' : (s.finish n.name (.done o)).seen name = some o' := ho'
        by_cases hne : name = n.name
        · rw [hseen, hne, Function.update_self] at ho'
          cases ho'
          exact Bool.eq_false_iff.mpr hfail
        · rw [hseen, Function.update_of_ne hne] at ho'
          exact h.fine hcancel name o' ho'
      · simp [hfail] at hc

theorem Sound.stop {name : String} {sent : Ports V} (h : Sound rule g s) (hname : name ∈ g.names)
    (hcancel : s.cancel.isSome) : Sound rule g (s.finish name (.cancelled sent)) := by
  have hsome : (s.finish name (.cancelled sent)).cancel ≠ none := isSome_iff_ne_none.mp hcancel
  exact ⟨mem_finish h.mem hname _, fun hc => (hsome hc).elim, fun hc => (hsome hc).elim, fun _ => h.failing hcancel⟩

theorem Sound.isSome_seen_iff (h : Sound rule g s) (hfin : s.finished g) (name : String) :
    (s.seen name).isSome ↔ name ∈ g.names := by
  rw [isSome_seen]
  refine ⟨h.mem name, fun hname => ?_⟩
  obtain ⟨n, hn, rfl⟩ := mem_map.mp hname
  exact all_eq_true.mp hfin n hn

end Sound

theorem sound_of_reachable (h : Library.Transition.Reachable (step M g init) start s) :
    Sound (concurrentOutcome M g init) g s := by
  refine h.invariant Sound.start fun s a s' hs ha => ?_
  obtain ⟨n, hn, -, hnew, hready, rfl⟩ | ⟨name, sent, -, hname, -, hcancel, rfl⟩ := step_cases ha
  · exact hs.run local_concurrentRule hn hnew hready rfl
  · exact hs.stop hname hcancel

end ConcurrentState

end Rag3db.Weaver
