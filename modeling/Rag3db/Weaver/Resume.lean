import Rag3db.Weaver.LevelResume
import Rag3db.Weaver.StreamResume

open List

namespace Rag3db.Weaver

open Library.Transition StreamRun LevelRun Reachable

/-- A resumption, under either executor and after any number of broken runs,
does not execute a node again that was saved; every other node gets on its
inputs what it gets in a run that is not broken off. Under the concurrent
executor neither run gives a node more than the other one has given it at its end. -/
theorem resume_agrees {V Q : Type} (M : Folding V) (g : DataflowGraph V) {order : List (Node V)} (maxIterations : Nat)
    (keepState : Bool) (init : Initial V) {cp : Checkpoint V} (sg : StreamGraph V Q) (capacity : Nat)
    {saved : SavedStreams V} (hsort : g.topologicalSort = .ok order)
    (hcp : LevelRun.Stored M.toMerge g order maxIterations keepState init cp)
    (hwf : WellFounded sg.needs) (hg : sg.Ordered) (hplain : ∀ n ∈ sg.nodes, n.within = none)
    (hsaved : StreamRun.Stored sg (heardStep M sg capacity) saved) (hfits : Fits sg capacity saved) :
    (∀ s u, Reachable (exactStep M.toMerge g order maxIterations keepState) (.start g maxIterations init cp) s →
      Reachable (exactStep M.toMerge g order maxIterations keepState)
        (.start g maxIterations init ⟨.running, fun _ => none⟩) u →
      (∀ n inputs, (n, inputs) ∈ s.prepared → cp.nodes n.name = none) ∧
      (∀ n inputs inputs', (n, inputs) ∈ s.prepared → (n, inputs') ∈ u.prepared → inputs = inputs') ∧
      ∀ name o o', cp.nodes name = none → s.level.ended name = some o → u.level.ended name = some o' → o = o') ∧
    ∀ s u, Reachable (heardStep M sg capacity) (start sg saved) s →
      Reachable (heardStep M sg capacity) (start sg fun _ => none) u →
      ∀ n ∈ sg.nodes,
        ((saved n.name).isSome → (∃ rest, (s n.name).phase = .replaying rest) ∨ (s n.name).phase = .ended .completed) ∧
        (saved n.name = none → ((s n.name).Before (u n.name) ∨ (u n.name).Before (s n.name)) ∧
          (Final M sg capacity s → (u n.name).Before (s n.name)) ∧
          (Final M sg capacity u → (s n.name).Before (u n.name))) := by
  have hlevelwf := DataflowGraph.wellFounded_of_topologicalSort hsort
  have hperm := DataflowGraph.perm_of_topologicalSort hsort
  have hlevel := hcp.right hlevelwf hperm
  have hstreams := right_of_stored hplain hg hwf hsaved
  constructor
  · intro s u hs hu
    have hsane := sane_of_reachable hlevelwf hperm hlevel hs
    have hsane' := sane_of_reachable hlevelwf hperm (fun _ _ h => by cases h) hu
    exact ⟨fun n inputs hn => hsane.not_saved hn, hsane.agree hlevelwf hlevel hsane'⟩
  · intro s u hs hu n hn
    refine ⟨fun hsome => ?_, fun hnone => ?_⟩
    · obtain ⟨r, hr⟩ := Option.isSome_iff_exists.mp hsome
      exact (replaying hplain hstreams hs hn hr).imp (fun ⟨rest, hphase, _⟩ => ⟨rest, hphase⟩) And.left
    · have hnew : ¬ Given sg saved n.name := by
        rintro ⟨m, -, hm, r, hr⟩
        rw [hm, hnone] at hr
        cases hr
      obtain ⟨hagree, hresumed, hwhole⟩ := resumed_agree hplain hstreams hs hg hu hwf hnew
      exact ⟨hagree, hresumed hfits, hwhole⟩

def apart : Folding Nat := ⟨⟨0, fun _ _ => .error "apart"⟩, fun _ _ => .error "apart"⟩

def passOn (name : String) (within : Option String) (inputs : List StreamInput) : StreamNode Nat Nat where
  name := name
  within := within
  inputs := inputs
  outputs := [⟨"out", true, false⟩]
  initial _ := none
  initialStream _ := []
  start values := (values "in").getD 7
  act q := .finish (.ok fun port => if port = "out" then some q else none)

def subGraphThenNode : StreamGraph Nat Nat where
  nodes := [passOn "sub/x" (some "sub") [], passOn "b" none [⟨"in", true, false⟩]]
  edges := [⟨"sub/x", "out", "b", "in"⟩]
  nodup := by decide

theorem restored_sub_graph_sends_nothing :
    ∃ saved, StreamRun.Stored subGraphThenNode (step apart subGraphThenNode 64) saved ∧
      (∃ s reason, Reachable (step apart subGraphThenNode 64) (start subGraphThenNode saved) s ∧
        (s "b").phase = .ended (.skipped reason)) ∧
      ∃ u, Reachable (step apart subGraphThenNode 64) (start subGraphThenNode fun _ => none) u ∧
        (u "b").phase = .ended .completed ∧ (u "b").inputs "in" = some 7 := by
  have hrun := init.run (show run (step apart subGraphThenNode 64)
    (start subGraphThenNode fun _ => none) ["sub/x", "sub/x", "sub/x", "sub/x"] = some _ from rfl)
  refine ⟨_, .broken (fun name => name == "sub") .fresh hrun fun name hname => ?_, ⟨_, _,
    init.run (show run _ _ ["b"] = some _ from rfl), rfl⟩, _,
    hrun.run (show run _ _ ["b", "b", "b"] = some _ from rfl), rfl, rfl⟩
  obtain rfl : name = "sub" := by simpa using hname
  exact ⟨rfl, rfl⟩

def valuePair : DataflowGraph Nat where
  nodes := [⟨"a", [], [⟨"out", true⟩], fun _ => .ok fun port => if port = "out" then some 7 else none⟩,
    ⟨"b", [⟨"in", true⟩], [], fun _ => .ok fun _ => none⟩]
  edges := [⟨"a", "out", "b", "in"⟩]
  nodup := by decide
  from_mem := by decide
  to_mem := by
    intro e he
    obtain rfl := mem_singleton.mp he
    exact ⟨_, mem_cons_of_mem _ mem_cons_self, rfl, by decide⟩

def emitter : StreamNode Nat Nat where
  name := "a"
  within := none
  inputs := []
  outputs := [⟨"out", true, true⟩]
  initial _ := none
  initialStream _ := []
  start _ := 0
  act q := if q < 3 then .emit "out" q fun _ => q + 1 else .finish (.ok fun _ => none)

def reader : StreamNode Nat Nat where
  name := "b"
  within := none
  inputs := [⟨"in", true, true⟩]
  outputs := []
  initial _ := none
  initialStream _ := []
  start _ := 0
  act q := if q = 0 then .next "in" fun v => if v.isNone then 1 else 0 else .finish (.ok fun _ => none)

def streamPair : StreamGraph Nat Nat where
  nodes := [emitter, reader]
  edges := [⟨"a", "out", "b", "in"⟩]
  nodup := by decide

theorem streamPair_wellFounded : WellFounded streamPair.needs := by
  refine Subrelation.wf ?_ (measure fun name : String => if name = "b" then 1 else 0).wf
  rintro m n ⟨e, he, rfl, rfl⟩
  obtain rfl := mem_singleton.mp he
  show (if "a" = "b" then 1 else 0) < (if "b" = "b" then 1 else 0)
  decide

theorem streamPair_ordered : streamPair.Ordered := by
  refine ⟨fun n _ port _ => length_filter_le .., fun n hn q k => ?_⟩
  rcases mem_pair.mp hn with rfl | rfl
  · show (if q < 3 then _ else _) ≠ _
    split <;> nofun
  · show (if q = 0 then _ else _) ≠ _
    split <;> nofun

def emitted : SavedStreams Nat := fun name =>
  if name = "a" then some fun port => if port = "out" then [0, 1, 2] else [] else none

/-- The emitter is ahead by what the channel holds, in the run that is broken off
after it and in the one that resumes it. -/
theorem resume_agrees_pair :
    ∃ cp, LevelRun.Stored apart.toMerge valuePair valuePair.nodes 10 true (fun _ _ => none) cp ∧
      StreamRun.Stored streamPair (heardStep apart streamPair 1) emitted ∧
      (cp.nodes "a").isSome ∧
      (∃ s, Reachable (exactStep apart.toMerge valuePair valuePair.nodes 10 true)
        (.start valuePair 10 (fun _ _ => none) cp) s ∧ s.prepared ≠ [] ∧
        ∀ n inputs, (n, inputs) ∈ s.prepared → cp.nodes n.name = none) ∧
      ∃ s u, Reachable (heardStep apart streamPair 1) (start streamPair emitted) s ∧
        Reachable (heardStep apart streamPair 1) (start streamPair fun _ => none) u ∧
        Final apart streamPair 1 s ∧ Final apart streamPair 1 u ∧ (u "b").received "in" = [0, 1, 2] ∧
        s "b" = u "b" := by
  have hlevel := init.run (show run (exactStep apart.toMerge valuePair valuePair.nodes 10 true)
    (.start valuePair 10 (fun _ _ => none) ⟨.running, fun _ => none⟩) [.advance, .execute none] = some _ from rfl)
  have hcp := LevelRun.Stored.broken .fresh (by decide) hlevel
  have hplain : ∀ n ∈ streamPair.nodes, n.within = none := fun n hn => by
    rcases mem_pair.mp hn with rfl | rfl <;> rfl
  have hend : ∀ s : StreamRun Nat Nat, (s "a").isEnded && (s "b").isEnded → Final apart streamPair 1 s := by
    refine fun s hs => final_of_ended fun n hn => ?_
    rcases mem_pair.mp hn with rfl | rfl
    · exact (Bool.and_eq_true_iff.mp hs).1
    · exact (Bool.and_eq_true_iff.mp hs).2
  obtain ⟨t, ht, htcheck⟩ := (Option.any_eq_true
    (fun t => completed streamPair t "a" && (t "a").recorded "out" == [0, 1, 2])
    (run (heardStep apart streamPair 1) (start streamPair fun _ => none)
      ["a", "a", "a", "b", "b", "b", "a", "a", "a"])).mp (by decide +kernel)
  obtain ⟨hcompleted, hout⟩ := Bool.and_eq_true_iff.mp htcheck
  have hbroken := StreamRun.Stored.broken (fun name => name == "a") .fresh (init.run ht) fun name hname => by
    obtain rfl : name = "a" := by simpa using hname
    exact ⟨rfl, hcompleted⟩
  have hsaved : StreamRun.Stored streamPair (heardStep apart streamPair 1) emitted := by
    convert hbroken using 2 with name
    by_cases hname : name = "a"
    · subst hname
      refine congrArg some (funext fun port => ?_)
      by_cases hport : port = "out"
      · subst hport
        exact (beq_iff_eq.mp hout).symm
      · refine (if_neg hport).trans (Eq.symm ?_)
        by_contra hne
        have hright :=
          right_of_stored hplain streamPair_ordered streamPair_wellFounded hbroken emitter mem_cons_self _ rfl
        exact hport (mem_singleton.mp (hright.sends port hne).1)
    · exact (if_neg hname).trans (by simp [hname])
  obtain ⟨u, hu, hucheck⟩ := (Option.any_eq_true
    (fun u : StreamRun Nat Nat => ((u "a").isEnded && (u "b").isEnded) && (u "b").received "in" == [0, 1, 2])
    (run (heardStep apart streamPair 1) (start streamPair fun _ => none)
      ["a", "a", "a", "b", "b", "b", "a", "a", "a", "b", "b", "b", "b"])).mp (by decide +kernel)
  obtain ⟨hufinal, hreceived⟩ := Bool.and_eq_true_iff.mp hucheck
  obtain ⟨s, hs, hsfinal⟩ := (Option.any_eq_true (fun s : StreamRun Nat Nat => (s "a").isEnded && (s "b").isEnded)
    (run (heardStep apart streamPair 1) (start streamPair emitted)
      ["a", "a", "b", "b", "b", "a", "a", "b", "b", "b", "b"])).mp (by decide +kernel)
  have hfits := fits_of_right (right_of_stored hplain streamPair_ordered streamPair_wellFounded hsaved) fun n hn => by
    rcases mem_pair.mp hn with rfl | rfl <;> decide
  have hagrees := resume_agrees apart valuePair 10 true (fun _ _ => none) streamPair 1 rfl hcp streamPair_wellFounded
    streamPair_ordered hplain hsaved hfits
  have hb := (hagrees.2 s u (init.run hs) (init.run hu) reader (by simp [streamPair])).2 rfl
  exact ⟨_, hcp, hsaved, rfl, ⟨_, init.run (show run _ _ [.advance] = some _ from rfl), cons_ne_nil _ _,
    (hagrees.1 _ _ (init.run (show run _ _ [.advance] = some _ from rfl)) .init).1⟩, s, u, init.run hs, init.run hu,
    hend s hsfinal, hend u hufinal, beq_iff_eq.mp hreceived,
    (hb.2.1 (hend s hsfinal)).ended (Bool.and_eq_true_iff.mp hufinal).2⟩

end Rag3db.Weaver
