import Rag3db.Weaver.LevelInvariant
import Rag3db.Weaver.ConcurrentExecutor
import Rag3db.Weaver.PortMerge

open List Option

namespace Rag3db.Weaver

open Library.Schedule Library.Transition DataflowGraph ConcurrentState PortValue

variable {V : Type} {M : Merge V} {g : DataflowGraph V} {init : Initial V}

/-- A worker starts with inputs that the level executor gives its node too: what
came on a port merges, and it came on no port that has an initial value. -/
def meets (M : Merge V) (g : DataflowGraph V) (init : Initial V) (s : ConcurrentState V) : WorkerAction V → Bool
  | .run name =>
    match g.nodes.find? fun n => n.name = name with
    | none => true
    | some n => n.inputs.all fun input =>
      (M.clash (g.arrived s.seen n input.name)).isNone &&
        ((init n.name input.name).isNone || (g.arrived s.seen n input.name).isEmpty)
  | .stop _ _ => true

def Declared (g : DataflowGraph V) (init : Initial V) : Prop :=
  ∀ n ∈ g.nodes, ∀ port, (init n.name port).isSome → port ∈ n.inputs.map (·.name)

variable {n : Node V}

theorem arrived_of_not_declared (hn : n ∈ g.nodes) {port : String} (hport : port ∉ n.inputs.map (·.name))
    (v : Ended V) :
    g.arrived v n port = [] := by
  have hnone : g.incoming n.name port = [] := by
    refine eq_nil_iff_forall_not_mem.mpr fun e he => hport ?_
    obtain ⟨hedge, hto, rfl⟩ := mem_incoming.mp he
    obtain ⟨m, hm, hname, hmem⟩ := g.to_mem e hedge
    exact eq_of_name hm hn (hname.trans hto) ▸ hmem
  rw [arrived, hnone, filterMap_nil]

theorem concurrentOutcome_eq {v : Ended V} (hn : n ∈ g.nodes) (hinit : Declared g init)
    (hmeets : ∀ input ∈ n.inputs, M.clash (g.arrived v n input.name) = none ∧
      (init n.name input.name = none ∨ g.arrived v n input.name = [])) :
    concurrentOutcome M g init v n = levelOutcome M g init v n := by
  have hinputs : concurrentInputs M g init v n = levelInputs M g init v n := by
    funext port
    unfold concurrentInputs levelInputs
    split_ifs with hport
    · obtain ⟨input, hinput, rfl⟩ := mem_map.mp hport
      rcases (hmeets input hinput).2 with hnone | hnil
      · rw [hnone, or_none, none_or]
      · rw [hnil, Merge.fold, none_or, or_none]
    · have hnone : init n.name port = none := by
        by_contra hsome
        exact hport (hinit n hn port (isSome_iff_ne_none.mpr hsome))
      rw [hnone, arrived_of_not_declared hn hport, Merge.fold, none_or]
  have hclash : (n.inputs.findSome? fun input =>
      (M.clash (g.arrived v n input.name)).map fun e => (input, e)) = none := by
    refine findSome?_eq_none_iff.mpr fun input hinput => ?_
    rw [(hmeets input hinput).1, map_none]
  simp only [concurrentOutcome, levelOutcome, hclash, hinputs]

theorem meets_run {s : ConcurrentState V} (hn : n ∈ g.nodes) (h : meets M g init s (.run n.name)) :
    ∀ input ∈ n.inputs, M.clash (g.arrived s.seen n input.name) = none ∧
      (init n.name input.name = none ∨ g.arrived s.seen n input.name = []) := by
  simp only [meets, find?_name hn, List.all_eq_true] at h
  intro input hinput
  simpa using h input hinput

theorem sound_of_meets (hinit : Declared g init) {c : ConcurrentState V}
    (hc : Reachable (guarded (meets M g init) (step M g init)) .start c) :
    c.Sound (levelOutcome M g init) g := by
  refine hc.invariant ConcurrentState.Sound.start fun s a s' hs ha => ?_
  obtain ⟨hmeets, ha⟩ := guarded_eq_some.mp ha
  obtain ⟨n, hn, rfl, hnew, hready, rfl⟩ | ⟨name, sent, -, hname, -, hcancel, rfl⟩ := step_cases ha
  · exact hs.run local_levelRule hn hnew hready (concurrentOutcome_eq hn hinit (meets_run hn hmeets))
  · exact hs.stop hname hcancel

theorem LevelState.Settled.isSome_iff {s : LevelState V} {given : Ended V} (h : Settled M g init given s)
    (hall : s.allCompleted g) (name : String) : (s.ended name).isSome ↔ name ∈ g.names := by
  refine ⟨h.mem name, fun hname => ?_⟩
  obtain ⟨n, hn, rfl⟩ := mem_map.mp hname
  exact LevelState.allCompleted_iff.mp hall n hn

/-- On an acyclic graph, unless a node fails and the run with it, every node has
its one turn after all its producers, and is skipped in it if a required input
got nothing. -/
theorem every_node_once {maxIterations : Nat} (hwf : WellFounded g.needs) (hconnected : g.unconnected init = [])
    (hmax : g.nodes.length ≤ maxIterations) :
    (∃ n ∈ g.nodes, ∃ inputs e, n.run inputs = .error e ∧ executeInner M g maxIterations init = .error e) ∨
    ∃ order s, g.topologicalSort = .ok order ∧ executeInner M g maxIterations init = .ok s ∧
      let turns := levelTurns M g order maxIterations (.start g init)
      turns.flatten.Perm g.names ∧
      (∀ before t after, turns = before ++ t :: after → ∀ e ∈ g.edges, e.toNode ∈ t → e.fromNode ∈ before.flatten) ∧
      ∀ n ∈ g.nodes, if ∃ input ∈ n.inputs, g.missing init s.ended n input
        then ∃ reason, s.ended n.name = some (.skipped reason)
        else ∃ inputs outputs, s.ended n.name = some (.ran inputs outputs) := by
  obtain ⟨order, hsort⟩ := topologicalSort_ok_iff.mpr hwf
  have hvalid : g.validate init = .ok order := by simp only [validate, hsort, hconnected, bind, Except.bind]
  rcases executeInner_cases hvalid hmax with ⟨s, hok, hquiet, hall, hleads⟩ | ⟨e, s, n, herror, -, hn⟩
  · refine .inr ⟨order, s, hsort, hok, ?_, fun before t after hturns e he hto => ?_, fun n hn => ?_⟩
    · refine (perm_ext_iff_of_nodup hleads.once.1 g.nodup).mpr fun m => ?_
      have hm := hquiet.settled.isSome_iff hall m
      rwa [show (s.ended m).isSome = _ from hleads.completed_eq m,
        show (LevelState.start g init).completed m = false from rfl,
        Bool.false_or, contains_iff_mem] at hm
    · exact (hleads.closed hturns he hto).resolve_left Bool.false_ne_true
    · obtain ⟨o, ho⟩ := isSome_iff_exists.mp (LevelState.allCompleted_iff.mp hall n hn)
      have hfine := hquiet.settled.fine _ _ ho
      obtain ⟨-, rfl⟩ := hquiet.settled.consistent.rule rfl ho
      rw [levelRule, byName_name hn, levelOutcome] at ho hfine
      split_ifs with hmissing
      · obtain ⟨input, hfind⟩ := isSome_iff_exists.mp (find?_isSome.mpr hmissing)
        rw [hfind] at ho
        exact ⟨_, ho⟩
      · rw [find?_eq_none.mpr fun input hi hm => hmissing ⟨input, hi, hm⟩] at ho hfine
        cases hrun : n.run (levelInputs M g init s.ended n) with
        | error e =>
          rw [hrun] at hfine
          cases hfine
        | ok outputs => exact ⟨_, outputs, hrun ▸ ho⟩
  · have hfailed := hn.outcome
    unfold levelOutcome at hfailed
    split at hfailed
    · cases hfailed
    · cases hrun : n.run (levelInputs M g init s.ended n) with
      | error e' =>
        rw [hrun] at hfailed
        cases hfailed
        exact .inl ⟨n, hn.mem, _, e, hrun, herror⟩
      | ok outputs =>
        rw [hrun] at hfailed
        cases hfailed

theorem isFailed_of_done {rule : Ended V → Node V → Outcome V} (hwf : WellFounded g.needs)
    (hlocal : Local g.needs (byName g rule)) {v w : Ended V} (hv : Consistent g.needs (byName g rule) (fun _ => none) v)
    (hfine : ∀ name o, v name = some o → o.isFailed = false) (hw : Consistent g.needs (byName g rule) (fun _ => none) w)
    (hn : n ∈ g.nodes) (hdone : (v n.name).isSome) (hready : ∀ e ∈ g.into n.name, (w e.fromNode).isSome) :
    (rule w n).isFailed = false := by
  obtain ⟨o, ho⟩ := isSome_iff_exists.mp hdone
  have heq : o = byName g rule n.name w := by
    refine hv.value_eq hwf hlocal hw ho fun j hj => ?_
    obtain ⟨e, he, rfl, hto⟩ := hj
    exact hready e (mem_into.mpr ⟨he, hto⟩)
  rw [byName_name hn] at heq
  rw [← heq]
  exact hfine n.name o ho

/-- Whatever the order of the workers, if one complete run succeeds then all do,
and every node ends the same way in them. -/
theorem complete_runs_agree (hwf : WellFounded g.needs) {s s' : ConcurrentState V}
    (h : Reachable (step M g init) .start s) (h' : Reachable (step M g init) .start s') (hfin : s.finished g)
    (hfin' : s'.finished g) (hok : s.failed = false) : s'.failed = false ∧ s.seen = s'.seen := by
  have hs := sound_of_reachable h
  have hs' := sound_of_reachable h'
  have hnone : s.cancel = none := by simpa [failed] using hok
  have hnone' : s'.cancel = none := by
    by_contra hcancel
    obtain ⟨v, n, hn, hv, hready, hfailed⟩ := hs'.failing (isSome_iff_ne_none.mpr hcancel)
    -- the node that fails there has ended well here, on the same values
    have hdone := (hs.isSome_seen_iff hfin n.name).mpr (mem_map_of_mem hn)
    rw [isFailed_of_done hwf local_concurrentRule (hs.consistent hnone) (hs.fine hnone) hv hn hdone hready] at hfailed
    cases hfailed
  refine ⟨by simp [failed, hnone'], ?_⟩
  apply (hs.consistent hnone).eq_of_isSome_iff hwf local_concurrentRule (hs'.consistent hnone')
  exact fun name => (hs.isSome_seen_iff hfin name).trans (hs'.isSome_seen_iff hfin' name).symm

/-- On a valid graph, if a node fails both executors return an error; if none
does they agree on every node, on what it was given and on what it put out, and
they return the same values. -/
theorem agree_of_valid {order : List (Node V)} {maxIterations : Nat} (hvalid : g.validate init = .ok order)
    (hmax : g.nodes.length ≤ maxIterations) (hinit : Declared g init) {c : ConcurrentState V}
    (hc : Reachable (guarded (meets M g init) (step M g init)) .start c) (hfin : c.finished g) :
    match executeInner M g maxIterations init with
    | .error _ => c.failed
    | .ok s => c.failed = false ∧ s.ended = c.seen ∧ s.portData = c.data g := by
  have hwf := wellFounded_of_topologicalSort (validate_eq_ok hvalid).1
  have hsound := sound_of_meets hinit hc
  rcases executeInner_cases (M := M) hvalid hmax with
    ⟨s, hok, hquiet, hall, -⟩ | ⟨e, s, n, herror, hs, hpending⟩
  · have hs := hquiet.settled
    simp only [hok]
    have hnot : c.cancel = none := by
      by_contra hcancel
      obtain ⟨v, n, hn, hv, hready, hfailed⟩ := hsound.failing (isSome_iff_ne_none.mpr hcancel)
      have hdone := LevelState.allCompleted_iff.mp hall n hn
      rw [isFailed_of_done hwf local_levelRule hs.consistent hs.fine hv hn hdone hready] at hfailed
      cases hfailed
    have hended : s.ended = c.seen :=
      hs.consistent.eq_of_isSome_iff hwf local_levelRule (hsound.consistent hnot) fun name =>
        (hs.isSome_iff hall name).trans (hsound.isSome_seen_iff hfin name).symm
    refine ⟨by simp [failed, hnot], hended, ?_⟩
    funext k
    rw [hquiet.portData_of_allCompleted hall, data, LevelState.value, hended]
  · simp only [herror]
    by_contra hfailed
    have hnot : c.cancel = none := by
      simpa [failed] using hfailed
    have hdone := (hsound.isSome_seen_iff hfin n.name).mpr (mem_map_of_mem hpending.mem)
    have hfine := isFailed_of_done hwf local_levelRule (hsound.consistent hnot) (hsound.fine hnot) hs.consistent
      hpending.mem hdone hpending.closed
    rw [hpending.outcome] at hfine
    cases hfine

/-- Both executors run every graph to the same end. -/
theorem executors_agree {maxIterations : Nat} (hmax : g.nodes.length ≤ maxIterations) (hinit : Declared g init) :
    match enter g init with
    | .error e => executeInner M g maxIterations init = .error e
    | .ok c₀ => ∀ c, Reachable (guarded (meets M g init) (step M g init)) c₀ c → c.finished g →
        match executeInner M g maxIterations init with
        | .error _ => c.failed
        | .ok s => c.failed = false ∧ s.ended = c.seen ∧ s.portData = c.data g := by
  unfold enter
  cases hvalid : g.validate init with
  | error e => simp only [executeInner, hvalid, bind, Except.bind]
  | ok order => exact fun c hc hfin => agree_of_valid hvalid hmax hinit hc hfin

def source (name text : String) : Node (PortValue Unit Unit Unit) where
  name := name
  inputs := []
  outputs := [⟨"out", true⟩]
  execute _ := .ok fun port => if port = "out" then some (.other text) else none

def echo (name : String) : Node (PortValue Unit Unit Unit) where
  name := name
  inputs := [⟨"in", true⟩]
  outputs := [⟨"out", true⟩]
  execute inputs := .ok fun port => if port = "out" then inputs "in" else none

def sourceAndEcho : DataflowGraph (PortValue Unit Unit Unit) where
  nodes := [source "a" "computed", echo "b"]
  edges := [⟨"a", "out", "b", "in"⟩]
  nodup := by decide
  from_mem := by decide
  to_mem := by
    intro e he
    obtain rfl := mem_singleton.mp he
    exact ⟨echo "b", by simp, rfl, by decide⟩

theorem every_node_once_echo : ∃ order s, sourceAndEcho.topologicalSort = .ok order ∧
    executeInner merging sourceAndEcho 2 (fun _ _ => none) = .ok s ∧
    (levelTurns merging sourceAndEcho order 2 (.start sourceAndEcho fun _ _ => none)).flatten.Perm ["a", "b"] := by
  rcases @every_node_once _ merging sourceAndEcho (fun _ _ => none) 2 (wellFounded_of_topologicalSort rfl) rfl
    (by decide) with ⟨-, -, -, e, -, herror⟩ | ⟨order, s, hsort, hok, hperm, -⟩
  · cases herror
  · exact ⟨order, s, hsort, hok, hperm⟩

def twoSources : DataflowGraph (PortValue Unit Unit Unit) :=
  ⟨[source "a" "1", source "b" "2"], [], by decide, nofun, nofun⟩

theorem complete_runs_agree_sources :
    let go := run (step merging twoSources fun _ _ => none) .start
    ∃ s s', go [.run "a", .run "b"] = some s ∧ go [.run "b", .run "a"] = some s' ∧
      s'.failed = false ∧ s.seen = s'.seen := by
  intro go
  have hab : go [.run "a", .run "b"] = some _ := rfl
  have hba : go [.run "b", .run "a"] = some _ := rfl
  exact ⟨_, _, hab, hba, complete_runs_agree (wellFounded_of_topologicalSort rfl) (.run .init hab) (.run .init hba)
    rfl rfl rfl⟩

theorem level_left_out : ∃ e, executeInner merging sourceAndEcho 1 (fun _ _ => none) = .error e := ⟨_, rfl⟩

def given (name port text : String) : Initial (PortValue Unit Unit Unit) := fun n p =>
  if n = name ∧ p = port then some (.other text) else none

theorem initial_value_overrides_edge : (∃ s, executeInner merging sourceAndEcho 10 (given "b" "in" "given") = .ok s ∧
      s.portData ("b", "out") = some (.other "given")) ∧
    ∃ c, Reachable (step merging sourceAndEcho (given "b" "in" "given")) .start c ∧
      c.finished sourceAndEcho ∧ c.failed = false ∧ c.data sourceAndEcho ("b", "out") = some (.other "computed") := by
  refine ⟨⟨_, rfl, rfl⟩, _, Reachable.init.run (show run _ _ [.run "a", .run "b"] = some _ from rfl), ?_, ?_, ?_⟩
  all_goals rfl

theorem executors_agree_echo : ∃ c, Reachable (guarded (meets merging sourceAndEcho fun _ _ => none)
        (step merging sourceAndEcho fun _ _ => none)) .start c ∧ c.finished sourceAndEcho ∧
      match executeInner merging sourceAndEcho 10 fun _ _ => none with
      | .error _ => c.failed
      | .ok s => c.failed = false ∧ s.ended = c.seen ∧ s.portData = c.data sourceAndEcho := by
  refine ⟨_, Reachable.init.run (show run _ _ [.run "a", .run "b"] = some _ from rfl), rfl, ?_⟩
  exact @executors_agree _ merging sourceAndEcho (fun _ _ => none) 10 (by decide)
    nofun _ (Reachable.init.run (show run _ _ [.run "a", .run "b"] = some _ from rfl)) rfl

end Rag3db.Weaver
