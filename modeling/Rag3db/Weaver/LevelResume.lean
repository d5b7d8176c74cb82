import Rag3db.Weaver.CheckpointRuns

open List Option Function

namespace Rag3db.Weaver

open Library.Schedule Library.Transition Checkpoint

/-- The steps of a run whose nodes are deterministic. A node that the run's
cancellation stopped is given up. -/
inductive ExactAction
  | trigger
  | advance
  | execute (storeError : Option String)
  | giveUp
  | mark (written : Bool)

namespace LevelRun

variable {V : Type} (M : Merge V) (g : DataflowGraph V) (order : List (Node V)) (maxIterations : Nat) (keepState : Bool)

def prepared (s : LevelRun V) : List (Node V × Ports V) :=
  match s.phase with
  | .storing l => l
  | _ => []

def exactStep (s : LevelRun V) : ExactAction → Option (LevelRun V)
  | .trigger => s.step M g order maxIterations keepState .trigger
  | .advance => s.step M g order maxIterations keepState .advance
  | .execute storeError =>
    match s.prepared with
    | (n, inputs) :: _ => s.step M g order maxIterations keepState (.result (n.execute inputs) storeError)
    | [] => none
  | .giveUp =>
    if s.cancelled then s.step M g order maxIterations keepState (.result (.error "annulé") none) else none
  | .mark written => s.step M g order maxIterations keepState (.mark written)

/-- What the store can hold after runs that were broken off anywhere, each a
resumption of the one before. -/
inductive Stored (init : Initial V) : Checkpoint V → Prop
  | fresh : Stored init ⟨.running, fun _ => none⟩
  | broken {cp : Checkpoint V} {s : LevelRun V} : Stored init cp → cp.status ≠ .completed →
      Reachable (exactStep M g order maxIterations keepState) (start g maxIterations init cp) s → Stored init s.store

end LevelRun

namespace LevelState

variable {V : Type} {M : Merge V} {g : DataflowGraph V} {init : Initial V} {saved : String → Option (Ports V)}

/-- What was saved of a node is what it puts out for the nodes that are not
saved. -/
def Right (M : Merge V) (g : DataflowGraph V) (init : Initial V) (saved : String → Option (Ports V)) : Prop :=
  ∀ name outs, saved name = some outs → name ∈ g.names ∧
    ∀ v o, Consistent g.needs (levelRule M g init) (fun _ => none) v → v name = some o →
      ∀ e ∈ g.edges, e.fromNode = name → saved e.toNode = none → outs e.fromPort = o.outputs e.fromPort

theorem readers_resume (saved : String → Option (Ports V)) (k : PortKey) : readers g (fun m => (saved m).isSome) k =
      (g.edges.countP fun e => e.key = k) - g.edges.countP fun e => e.key = k ∧ (saved e.toNode).isSome := by
  unfold readers
  dsimp only
  generalize g.edges = edges
  have hsplit : (edges.countP fun e => e.key = k) = (edges.countP fun e => e.key = k ∧ !(saved e.toNode).isSome) +
      edges.countP fun e => e.key = k ∧ (saved e.toNode).isSome := by
    induction edges with
    | nil => rfl
    | cons e es ih =>
      rw [countP_cons, countP_cons, countP_cons, ih]
      by_cases hk : e.key = k
      · cases saved e.toNode <;> simp [hk] <;> omega
      · simp [hk]
  omega

theorem Quiet.resume (hmem : ∀ name, (saved name).isSome → name ∈ g.names) :
    Quiet M g init (resume g init saved).ended (resume g init saved) where
  books := by
    have hvalue : ∀ k, (LevelState.resume g init saved).value k = (saved k.1).bind fun outputs => outputs k.2 := by
      intro k
      cases hs : saved k.1 <;> simp [value, LevelState.resume, hs, Outcome.outputs]
    have hcompleted : ∀ m, (LevelState.resume g init saved).completed m = (saved m).isSome := fun m => by
      simp [completed, LevelState.resume]
    have hremaining : ∀ k, (LevelState.resume g init saved).remaining k = readers g (fun m => (saved m).isSome) k :=
      fun k => (readers_resume saved k).symm
    refine ⟨fun k => by rw [hvalue]; rfl, fun k _ => ?_, fun k => ?_, fun m _ _ => rfl, fun m hm hgiven => ?_⟩
    · simp [hremaining, hcompleted]
    · have hdata : (LevelState.resume g init saved).portData k = (LevelState.resume g init saved).value k := by
        rw [hvalue]
        rfl
      by_cases hlast : (g.edges.any fun e => e.key = k) = true ∧ (LevelState.resume g init saved).remaining k = 0
      · obtain ⟨e, he, hek⟩ := any_eq_true.mp hlast.1
        have hread := countP_eq_zero.mp ((hremaining k).symm.trans hlast.2) e he
        refine .inr ⟨hdata, e, he, of_decide_eq_true hek, ?_⟩
        simpa [LevelState.resume, of_decide_eq_true hek, isSome_iff_ne_none] using hread
      · exact .inl (by rw [if_neg hlast, hdata])
    · simp only [completed, hgiven] at hm
      simp at hm
  settled := by
    refine ⟨fun name hname => hmem name ?_, fun name o ho => .inl ho, fun name o ho => ?_, fun name o ho => ho⟩
    · simpa [completed, LevelState.resume] using hname
    · obtain ⟨outputs, -, rfl⟩ := map_eq_some_iff.mp ho
      rfl

section Agreement

variable {s : LevelState V} {v : Ended V} {e : Edge} {n : Node V} (hwf : WellFounded g.needs)
  (hright : Right M g init saved) (hs : Settled M g init (resume g init saved).ended s)
  (hv : Consistent g.needs (levelRule M g init) (fun _ => none) v)
include hright hs hv

theorem bind_outputs_eq (he : e ∈ g.edges) (hto : saved e.toNode = none) (hve : (v e.fromNode).isSome)
    (hsame : saved e.fromNode = none → s.ended e.fromNode = v e.fromNode) :
    ((s.ended e.fromNode).bind fun o => o.outputs e.fromPort) = (v e.fromNode).bind fun o => o.outputs e.fromPort := by
  cases hfrom : saved e.fromNode with
  | none => rw [hsame hfrom]
  | some outs =>
    obtain ⟨o, ho⟩ := isSome_iff_exists.mp hve
    have hkept := hs.kept e.fromNode (.ran (fun _ => none) outs) (by simp [resume, hfrom])
    rw [hkept, ho]
    exact (hright _ outs hfrom).2 v o hv ho e he rfl hto

include hwf in
theorem ended_eq {name : String} {o o' : Outcome V} (hname : saved name = none) (ho : s.ended name = some o)
    (ho' : v name = some o') : o = o' := by
  have hgiven : ∀ m, (resume g init saved).ended m = none ↔ saved m = none := fun m => by
    simp [resume]
  refine hs.consistent.agree hwf hv (fun m hm hdone hsame => ?_) ((hgiven name).mpr hname) ho ho'
  unfold levelRule byName
  split
  · rename_i n hn
    have hnm : n.name = m := by simpa using find?_some hn
    refine levelOutcome_congr (arrived_congr fun e he => ?_)
    obtain ⟨hedge, hto⟩ := DataflowGraph.mem_into.mp he
    have hneeds : g.needs e.fromNode m := ⟨e, hedge, rfl, hto.trans hnm⟩
    refine bind_outputs_eq hright hs hv hedge ?_ (hdone _ hneeds).2 fun hfrom => ?_
    · rw [hto, hnm]
      exact (hgiven m).mp hm
    · exact hsame _ hneeds ((hgiven _).mpr hfrom)
  · rfl

include hwf in
theorem arrived_eq_of_done (hname : saved n.name = none) (hclosed : ∀ e ∈ g.into n.name, s.completed e.fromNode)
    (hclosed' : ∀ e ∈ g.into n.name, (v e.fromNode).isSome) (port : String) :
    g.arrived s.ended n port = g.arrived v n port := by
  refine arrived_congr (fun e he => ?_) port
  obtain ⟨hedge, hto⟩ := DataflowGraph.mem_into.mp he
  refine bind_outputs_eq hright hs hv hedge (by rw [hto, hname]) (hclosed' e he) fun hfrom => ?_
  obtain ⟨o, ho⟩ := isSome_iff_exists.mp (hclosed e he)
  obtain ⟨o', ho'⟩ := isSome_iff_exists.mp (hclosed' e he)
  rw [ho, ho', ended_eq hwf hright hs hv hfrom ho ho']

end Agreement

end LevelState

namespace LevelRun

variable {V : Type} {M : Merge V} {g : DataflowGraph V} {order : List (Node V)} {maxIterations : Nat}
  {keepState : Bool} {init : Initial V} {saved : String → Option (Ports V)} {s s' : LevelRun V}

open LevelState

/-- The nodes that are under way, each with what its producers made for it. -/
structure UnderWay (M : Merge V) (g : DataflowGraph V) (init : Initial V) (given : Ended V) (s : LevelRun V)
    (l : List (Node V × Ports V)) (prepared : String → Bool) : Prop where
  books : Books g init given prepared s.level
  nodup : (l.map fun p => p.1.name).Nodup
  mem : ∀ p ∈ l, prepared p.1.name
  pending : ∀ p ∈ l, LevelState.Pending M g init s.level p.1 (.ofResult p.2 (p.1.run p.2))
  inputs : ∀ p ∈ l, p.2 = levelInputs M g init s.level.ended p.1
  all : s.cancelled = false → ∀ m, prepared m → m ∈ l.map fun p => p.1.name

/-- What holds all along a run that goes on from what was saved. -/
structure Sane (M : Merge V) (g : DataflowGraph V) (init : Initial V) (saved : String → Option (Ports V))
    (s : LevelRun V) : Prop where
  settled : Settled M g init (resume g init saved).ended s.level
  right : Right M g init s.store.nodes
  still : s.phase ≠ .marked → ∀ name, (saved name).isSome → (s.store.nodes name).isSome
  head : s.phase = .head → s.cancelled = false → Books g init (resume g init saved).ended (fun _ => false) s.level
  storing : ∀ l, s.phase = .storing l → ∃ prepared, UnderWay M g init (resume g init saved).ended s l prepared

variable {status : ExecutionStatus}

theorem Sane.start (hright : Right M g init saved) :
    Sane M g init saved (start g maxIterations init ⟨status, saved⟩) := by
  have hquiet : Quiet M g init (resume g init saved).ended (resume g init saved) := by
    refine .resume fun name hname => ?_
    obtain ⟨outs, houts⟩ := isSome_iff_exists.mp hname
    exact (hright name outs houts).1
  exact ⟨hquiet.settled, hright, fun _ _ h => h, fun _ _ => hquiet.books, nofun⟩

variable {level : LevelState V} {given : Ended V}

theorem underWay_prepareAll (hperm : order.Perm g.nodes)
    (h : Quiet M g init given level) (hs : s.level = (level.prepareAll M g (level.ready g order)).1) :
    UnderWay M g init given s (level.prepareAll M g (level.ready g order)).2
      fun m => ((level.ready g order).map (·.name)).contains m := by
  obtain ⟨hnames, hended, hbooks, hpending⟩ := h.prepareAll hperm
  refine ⟨hs ▸ hbooks, hnames ▸ ready_nodup hperm, fun p hp => ?_, fun p hp => hs ▸ (hpending p hp).1, fun p hp => ?_,
    fun _ m hm => ?_⟩
  · exact contains_iff_mem.mpr (hnames ▸ mem_map_of_mem hp)
  · rw [hs, hended]
    exact (hpending p hp).2
  · rw [hnames]
    exact contains_iff_mem.mp hm

theorem Sane.leave {phase : LevelPhase V} (h : Sane M g init saved s)
    (hlevel : Settled M g init (resume g init saved).ended level) (hs : s.phase ≠ .marked)
    (hphase : phase = .ending ∨ ∃ r, phase = .returned r) : Sane M g init saved { s with level, phase } := by
  refine ⟨hlevel, h.right, fun _ => h.still hs, fun hp => ?_, fun l hl => ?_⟩
  · rcases hphase with rfl | ⟨r, rfl⟩ <;> cases hp
  · rcases hphase with rfl | ⟨r, rfl⟩ <;> cases hl

theorem Sane.advance (hperm : order.Perm g.nodes) (h : Sane M g init saved s)
    (hs : s.advance M g order maxIterations = some s') : Sane M g init saved s' := by
  unfold LevelRun.advance at hs
  split at hs
  · rename_i hphase
    have hmarked : s.phase ≠ .marked := by rw [hphase]; nofun
    split_ifs at hs with hstop
    · cases hs
      exact h.leave h.settled hmarked (.inl rfl)
    · have hnot : s.cancelled = false := by
        rw [not_or, Bool.not_eq_true] at hstop
        exact hstop.2
      have hquiet : Quiet M g init (resume g init saved).ended s.level := ⟨h.head hphase hnot, h.settled⟩
      obtain ⟨hquiet', -, -⟩ := hquiet.skipUntilFixpoint hperm (waiting_lt_succ hperm)
      generalize skipUntilFixpoint g order (g.nodes.length + 1) s.level = level at hquiet' hs
      dsimp only at hs
      split at hs
      · cases hs
        refine h.leave hquiet'.settled hmarked ?_
        split_ifs
        · exact .inl rfl
        · exact .inr ⟨_, rfl⟩
      · cases hs
        have hway := underWay_prepareAll (s := { s with level := (level.prepareAll M g (level.ready g order)).1 })
          hperm hquiet' rfl
        refine ⟨hquiet'.settled.congr (ended_prepareAll _ _), h.right, fun _ => h.still hmarked,
          nofun, fun l hl => ?_⟩
        cases hl
        exact ⟨_, hway.books, hway.nodup, hway.mem, hway.pending, hway.inputs, hway.all⟩
  · rename_i hphase
    obtain ⟨prepared, hway⟩ := h.storing [] hphase
    have hmarked : s.phase ≠ .marked := by rw [hphase]; nofun
    split_ifs at hs
    · cases hs
      exact h.leave h.settled hmarked (.inl rfl)
    · cases hs
      refine ⟨h.settled, h.right, fun _ => h.still hmarked, fun _ hc => ?_, nofun⟩
      have hnone : prepared = fun _ => false := by
        funext m
        by_contra hm
        have := hway.all hc m (by simpa using hm)
        cases this
      exact hnone ▸ hway.books
  · rename_i hphase
    have hmarked : s.phase ≠ .marked := by rw [hphase]; nofun
    split_ifs at hs
    · cases hs
      exact h.leave h.settled hmarked (.inr ⟨_, rfl⟩)
    · cases hs
      exact h.leave h.settled hmarked (.inr ⟨_, rfl⟩)
  · cases hs

variable {prepared : String → Bool} {n : Node V}

theorem remaining_pos {e : Edge} (h : Books g init (resume g init saved).ended prepared level)
    (hn : level.completed n.name = false) (he : e ∈ g.edges) (hfrom : e.fromNode = n.name)
    (hto : saved e.toNode = none) :
    0 < level.remaining (n.name, e.fromPort) := by
  have hkey : e.key = (n.name, e.fromPort) := by rw [Edge.key, hfrom]
  rw [h.remaining (n.name, e.fromPort) fun hc => by rw [hn] at hc; cases hc]
  refine countP_pos_iff.mpr ⟨e, he, ?_⟩
  cases hread : level.completed e.toNode || prepared e.toNode with
  | false => simpa [hkey] using hread
  | true =>
    have hclosed := h.closed e.toNode hread (by simp [resume, hto]) e (DataflowGraph.mem_into.mpr ⟨he, rfl⟩)
    rw [hfrom, hn] at hclosed
    cases hclosed

variable {inputs outputs : Ports V} {l : List (Node V × Ports V)}

theorem UnderWay.store (h : UnderWay M g init given s ((n, inputs) :: l) prepared)
    (hs : s'.level = s.level.store n inputs outputs) (hc : s'.cancelled = s.cancelled) :
    UnderWay M g init given s' l fun m => prepared m && m != n.name := by
  have hended : s'.level.ended = update s.level.ended n.name (some (.ran inputs outputs)) := by
    rw [hs]
    rfl
  have hhead := h.pending _ mem_cons_self
  have hnodup := h.nodup
  rw [map_cons, nodup_cons] at hnodup
  have hne : ∀ p ∈ l, p.1.name ≠ n.name := fun p hp heq => hnodup.1 (mem_map.mpr ⟨p, hp, heq⟩)
  refine ⟨?_, hnodup.2, fun p hp => ?_, fun p hp => ?_, fun p hp => ?_, fun hcancel m hm => ?_⟩
  · rw [hs]
    exact h.books.store hhead.new (h.mem _ mem_cons_self)
  · simp [h.mem p (mem_cons_of_mem _ hp), hne p hp]
  · exact (h.pending p (mem_cons_of_mem _ hp)).other hhead.new (hne p hp) hended
  · have hp' := h.pending p (mem_cons_of_mem _ hp)
    rw [h.inputs p (mem_cons_of_mem _ hp)]
    exact levelInputs_congr (arrived_congr fun e he => by rw [hp'.ended_into hhead.new hended he])
  · obtain ⟨hm, hmn⟩ := Bool.and_eq_true_iff.mp hm
    have hin := h.all (hc ▸ hcancel) m hm
    rw [map_cons, mem_cons] at hin
    exact hin.resolve_left (by simpa using hmn)

variable (hwf : WellFounded g.needs)

include hwf

theorem Sane.saveNode (hright : Right M g init saved) (h : Sane M g init saved s)
    (hphase : s.phase = .storing ((n, inputs) :: l))
    (hway : UnderWay M g init (resume g init saved).ended s ((n, inputs) :: l) prepared)
    (hlevel : Settled M g init (resume g init saved).ended level)
    (hended : level.ended n.name = some (.ran inputs outputs)) :
    Right M g init (s.store.saveNodeCompleted n.name (toSave s.level n.name outputs)).nodes := by
  have hhead := hway.pending _ mem_cons_self
  have hstill := h.still (by rw [hphase]; exact nofun)
  have hnew : saved n.name = none := by
    by_contra hsome
    obtain ⟨outs, houts⟩ := ne_none_iff_exists'.mp hsome
    have hkept := h.settled.kept n.name (.ran (fun _ => none) outs) (by simp [resume, houts])
    have := hhead.new
    rw [completed, hkept] at this
    cases this
  intro name outs hname
  by_cases heq : name = n.name
  · subst heq
    have houts : outs = toSave s.level n.name outputs := by
      simpa [nodes_saveNodeCompleted, eq_comm] using hname
    refine ⟨mem_map_of_mem hhead.mem, fun v o hv ho e he hfrom hto => ?_⟩
    have ho' : Outcome.ran inputs outputs = o := ended_eq hwf hright hlevel hv hnew hended ho
    have hread : saved e.toNode = none := by
      by_contra hsome
      have hstored := hstill _ (isSome_iff_ne_none.mpr hsome)
      have hne : e.toNode ≠ n.name := fun heq => hsome (heq ▸ hnew)
      rw [nodes_saveNodeCompleted, update_of_ne hne] at hto
      rw [hto] at hstored
      cases hstored
    rw [houts, toSave, if_pos (remaining_pos hway.books hhead.new he hfrom hread), ← ho']
    rfl
  · have hold : s.store.nodes name = some outs := by
      simpa [nodes_saveNodeCompleted, update_of_ne heq] using hname
    refine ⟨(h.right name outs hold).1, fun v o hv ho e he hfrom hto => ?_⟩
    refine (h.right name outs hold).2 v o hv ho e he hfrom ?_
    by_contra hsome
    by_cases hto' : e.toNode = n.name
    · simp [nodes_saveNodeCompleted, hto'] at hto
    · rw [nodes_saveNodeCompleted, update_of_ne hto'] at hto
      exact hsome hto

theorem Sane.result {r : Except String (Ports V)} {storeError : Option String} (hright : Right M g init saved)
    (h : Sane M g init saved s) (hr : ∀ n inputs l, s.phase = .storing ((n, inputs) :: l) →
      r = n.execute inputs ∨ s.cancelled ∧ ∃ e, r = .error e)
    (hs : result keepState s r storeError = some s') : Sane M g init saved s' := by
  unfold LevelRun.result at hs
  split at hs
  · rename_i n inputs l hphase
    have hmarked : s.phase ≠ .marked := by rw [hphase]; nofun
    obtain ⟨prepared, hway⟩ := h.storing _ hphase
    have hhead := hway.pending _ mem_cons_self
    split at hs
    · rename_i outputs hok
      have hrun : n.run inputs = .ok outputs := by
        rcases hr n inputs l hphase with rfl | ⟨-, e, rfl⟩
        · exact hok
        · cases hok
      have houtcome : levelOutcome M g init s.level.ended n = .ran inputs outputs := by
        have := hhead.outcome
        rwa [hrun] at this
      have hlevel : Settled M g init (resume g init saved).ended (s.level.store n inputs outputs) :=
        h.settled.finish hhead.mem hhead.new hhead.closed houtcome.symm rfl rfl
      have hended : (s.level.store n inputs outputs).ended n.name = some (.ran inputs outputs) :=
        update_self ..
      split_ifs at hs
      · split at hs
        · cases hs
          refine ⟨hlevel, h.saveNode hwf hright hphase hway hlevel hended, fun _ name hname => ?_,
            nofun, fun l' hl => ?_⟩
          · rw [nodes_saveNodeCompleted]
            by_cases heq : name = n.name
            · rw [heq, update_self]
              rfl
            · rw [update_of_ne heq]
              exact h.still hmarked name hname
          · cases hl
            exact ⟨_, hway.store rfl rfl⟩
        · cases hs
          exact h.leave h.settled hmarked (.inr ⟨_, rfl⟩)
      · cases hs
        refine ⟨hlevel, h.right, fun _ => h.still hmarked, nofun, fun l' hl => ?_⟩
        cases hl
        exact ⟨_, hway.store rfl rfl⟩
    · split_ifs at hs with hc
      · cases hs
        refine ⟨h.settled, h.right, fun _ => h.still hmarked, nofun, fun l' hl => ?_⟩
        cases hl
        refine ⟨prepared, hway.books, ?_, fun p hp => hway.mem p (mem_cons_of_mem _ hp),
          fun p hp => hway.pending p (mem_cons_of_mem _ hp),
          fun p hp => hway.inputs p (mem_cons_of_mem _ hp), fun hnot => ?_⟩
        · have := hway.nodup
          rw [map_cons, nodup_cons] at this
          exact this.2
        · rw [hc] at hnot
          cases hnot
      · cases hs
        exact h.leave h.settled hmarked (.inr ⟨_, rfl⟩)
  · cases hs

theorem Sane.step {a : ExactAction} (hperm : order.Perm g.nodes) (hright : Right M g init saved)
    (h : Sane M g init saved s) (hs : s.exactStep M g order maxIterations keepState a = some s') :
    Sane M g init saved s' := by
  cases a with
  | trigger =>
    cases hs
    refine ⟨h.settled, h.right, h.still, (fun _ hc => by cases hc), fun l hl => ?_⟩
    obtain ⟨prepared, hway⟩ := h.storing l hl
    exact ⟨prepared, hway.books, hway.nodup, hway.mem, hway.pending, hway.inputs, fun hc => by cases hc⟩
  | advance => exact h.advance hperm hs
  | execute storeError =>
    simp only [exactStep] at hs
    split at hs
    · rename_i n inputs l hprepared
      refine h.result hwf hright (fun n' inputs' l' hphase => .inl ?_) hs
      rw [prepared, hphase] at hprepared
      cases hprepared
      rfl
    · cases hs
  | giveUp =>
    obtain ⟨hc, hs⟩ := ite_none_right_eq_some.mp hs
    have hs : LevelRun.result keepState s (.error "annulé") none = some s' := hs
    exact h.result hwf hright (fun _ _ _ _ => .inr ⟨hc, _, rfl⟩) hs
  | mark written =>
    simp only [exactStep, LevelRun.step, LevelRun.mark] at hs
    split at hs
    · rename_i r hphase
      cases hs
      have hnodes : Right M g init (if written then s.store.mark r else s.store).nodes := by
        cases written with
        | false => exact h.right
        | true =>
          cases r with
          | error e => exact h.right
          | ok => exact fun name outs hname => by cases hname
      exact ⟨h.settled, hnodes, fun hp => (hp rfl).elim, (fun hp => by cases hp), fun l hl => by cases hl⟩
    · cases hs

theorem sane_of_reachable (hperm : order.Perm g.nodes) (hright : Right M g init saved)
    (hs : Reachable (exactStep M g order maxIterations keepState) (start g maxIterations init ⟨status, saved⟩) s) :
    Sane M g init saved s :=
  hs.invariant (Sane.start hright) fun _ _ _ h ha => h.step hwf hperm hright ha

theorem Stored.right {cp : Checkpoint V} (hperm : order.Perm g.nodes)
    (h : Stored M g order maxIterations keepState init cp) : Right M g init cp.nodes := by
  induction h with
  | fresh => nofun
  | broken _ _ hs ih => exact (sane_of_reachable hwf hperm ih hs).right

omit hwf

theorem Sane.not_saved (h : Sane M g init saved s) (hn : (n, inputs) ∈ s.prepared) : saved n.name = none := by
  unfold prepared at hn
  split at hn
  · rename_i l hphase
    obtain ⟨_, hway⟩ := h.storing l hphase
    have hnew := (hway.pending _ hn).new
    by_contra hsome
    obtain ⟨outs, houts⟩ := ne_none_iff_exists'.mp hsome
    rw [completed, h.settled.kept n.name (.ran (fun _ => none) outs) (by simp [resume, houts])] at hnew
    cases hnew
  · cases hn

theorem Sane.prepared_spec (h : Sane M g init saved s) (hn : (n, inputs) ∈ s.prepared) :
    inputs = levelInputs M g init s.level.ended n ∧ ∀ e ∈ g.into n.name, s.level.completed e.fromNode := by
  unfold prepared at hn
  split at hn
  · rename_i l hphase
    obtain ⟨_, hway⟩ := h.storing l hphase
    exact ⟨hway.inputs _ hn, (hway.pending _ hn).closed⟩
  · cases hn

/-- What a resumed run executes gets the inputs that it gets in a run from the
start, and both end it alike. -/
theorem Sane.agree {u : LevelRun V} (hwf : WellFounded g.needs) (hright : Right M g init saved)
    (hs : Sane M g init saved s) (hu : Sane M g init (fun _ => none) u) :
    (∀ n inputs inputs', (n, inputs) ∈ s.prepared → (n, inputs') ∈ u.prepared → inputs = inputs') ∧
      ∀ name o o', saved name = none → s.level.ended name = some o → u.level.ended name = some o' → o = o' := by
  have hfresh : Consistent g.needs (levelRule M g init) (fun _ => none) u.level.ended := hu.settled.consistent
  refine ⟨fun n inputs inputs' hn hn' => ?_, fun name o o' hname ho ho' => ?_⟩
  · obtain ⟨rfl, hclosed⟩ := hs.prepared_spec hn
    obtain ⟨rfl, hclosed'⟩ := hu.prepared_spec hn'
    exact levelInputs_congr (arrived_eq_of_done hwf hright hs.settled hfresh (hs.not_saved hn) hclosed hclosed')
  · exact ended_eq hwf hright hs.settled hfresh hname ho ho'

end LevelRun

end Rag3db.Weaver
