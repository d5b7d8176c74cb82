import Rag3db.Transaction.GroupedAcquire

open Option Function AList

namespace Rag3db.Transaction

open Library.Transition LockManager LockSystem LockSystem

/-- Where a transaction stands with its one grouped acquire: not made yet,
running, refused by its deadline and open to a retry with the same requests,
or over. -/
inductive Plan
  | fresh
  | running (requests : List LockRequest)
  | timedOut (requests : List LockRequest)
  | settled
  deriving DecidableEq, Repr

def Plan.after (requests : List LockRequest) : Progress → Plan
  | .waiting _ _ => .running requests
  | .returned .timeout _ => .timedOut requests
  | .returned _ _ => .settled

/-- The lock manager used as `Transaction::acquireLocks` uses it. -/
structure GroupedSystem where
  system : LockSystem := {}
  plan : TransactionId → Plan := fun _ => .fresh

namespace GroupedSystem

variable {g g' : GroupedSystem} {a : LockAction} {t u : TransactionId}

/-- A transaction acquires once, or again with the same requests after a
timeout, and releases when no acquire of its own is left running. -/
def Permits (g : GroupedSystem) : LockAction → Prop
  | .acquire t requests _ => g.plan t = .fresh ∨ g.plan t = .timedOut requests
  | .wakeUp _ _ => True
  | .releaseAll t => t ∉ g.system.calls

instance (g : GroupedSystem) (a : LockAction) : Decidable (g.Permits a) :=
  match a with
  | .acquire t requests _ => inferInstanceAs (Decidable (g.plan t = .fresh ∨ g.plan t = .timedOut requests))
  | .wakeUp _ _ => inferInstanceAs (Decidable True)
  | .releaseAll t => inferInstanceAs (Decidable (t ∉ g.system.calls))

def nextPlan (g : GroupedSystem) : LockAction → Option Progress → TransactionId → Plan
  | .acquire t requests _, some p => update g.plan t (Plan.after requests p)
  | .wakeUp t _, some p =>
    match g.plan t with
    | .running requests => update g.plan t (Plan.after requests p)
    | _ => g.plan
  | .releaseAll t, _ => update g.plan t .settled
  | _, none => g.plan

def step (g : GroupedSystem) (a : LockAction) : Option GroupedSystem :=
  if g.Permits a then (g.system.perform a).map fun result => ⟨result.1, g.nextPlan a result.2⟩ else none

/-- What the plan of a transaction says of its locks and its thread. -/
def Follows (s : LockSystem) (t : TransactionId) : Plan → Prop
  | .fresh => t ∉ s.calls ∧ HoldsExactly s.manager t []
  | .running requests => ∃ taken call, s.calls.lookup t = some call ∧
      ordered requests = taken ++ call.request :: call.rest ∧ HoldsExactly s.manager t taken
  | .timedOut requests => t ∉ s.calls ∧ ∃ taken rest, ordered requests = taken ++ rest ∧
      HoldsExactly s.manager t taken
  | .settled => t ∉ s.calls

structure Disciplined (g : GroupedSystem) : Prop where
  sound : Sound g.system
  follows : ∀ t, Follows g.system t (g.plan t)

theorem Follows.congr {s s' : LockSystem} {p : Plan} (hcalls : s'.calls.lookup u = s.calls.lookup u)
    (hholders : ∀ r, (s'.manager.stateOf r).holders.lookup u = (s.manager.stateOf r).holders.lookup u)
    (h : Follows s u p) : Follows s' u p := by
  have hmem : u ∈ s'.calls ↔ u ∈ s.calls := by rw [← lookup_isSome, hcalls, lookup_isSome]
  cases p <;> simpa only [Follows, HoldsExactly, hmem, hcalls, hholders] using h

theorem Disciplined.waitsUpwards (hd : Disciplined g) (u : TransactionId) : WaitsUpwards g.system.manager u := by
  intro r r' hr hh
  have hcall : u ∈ g.system.calls := (hd.sound.blocked_iff u).mpr (lookup_isSome.mp (by rw [hr]; rfl))
  have hf := hd.follows u
  generalize g.plan u = p at hf
  match p with
  | .fresh => exact absurd hcall hf.1
  | .timedOut _ => exact absurd hcall hf.1
  | .settled => exact absurd hcall hf
  | .running requests =>
    obtain ⟨taken, call, hlookup, hreq, hholds⟩ := hf
    have hw := (hd.sound.manager.coherent.waiting_iff u _).mpr ⟨_, hd.sound.calls u call hlookup⟩
    rw [some.inj (hr.symm.trans hw)]
    exact hholds.below (hreq ▸ ordered_ascending requests) r' hh

variable {s : LockSystem}

theorem follows_of_leavesPart {requests : List LockRequest} {result : LockManager × Progress}
    (h : LeavesPart t (ordered requests) result) : Follows (s.settle t result) t (Plan.after requests result.2) := by
  obtain ⟨m, ⟨outcome, failedOn⟩ | ⟨request, rest⟩⟩ := result
  · have hcalls : t ∉ (s.settle t (m, .returned outcome failedOn)).calls := by
      simp [settle]
    cases outcome with
    | timeout => exact ⟨hcalls, h.2⟩
    | acquired | deadlock | interrupted => exact hcalls
  · obtain ⟨taken, hreq, hholds⟩ := h
    exact ⟨taken, ⟨request, rest⟩, lookup_insert _, hreq, hholds⟩

theorem Disciplined.running (hd : Disciplined g) {call : Call} (h : g.system.calls.lookup t = some call) :
    ∃ requests taken, g.plan t = .running requests ∧
      ordered requests = taken ++ call.request :: call.rest ∧ HoldsExactly g.system.manager t taken := by
  have hcall : t ∈ g.system.calls := lookup_isSome.mp (by rw [h]; rfl)
  have hf := hd.follows t
  generalize g.plan t = p at hf
  match p with
  | .fresh => exact absurd hcall hf.1
  | .timedOut _ => exact absurd hcall hf.1
  | .settled => exact absurd hcall hf
  | .running requests =>
    obtain ⟨taken, call', hlookup, hreq, hholds⟩ := hf
    rw [h] at hlookup
    cases hlookup
    exact ⟨requests, taken, rfl, hreq, hholds⟩

/-- Every call that runs under the discipline keeps to its ascending group. -/
theorem Disciplined.perform_cases (hd : Disciplined g) (hp : g.Permits a) {p : Progress}
    (h : g.system.perform a = some (s, some p)) : ∃ t requests result,
      Advance t g.system.manager result ∧ LeavesPart t (ordered requests) result ∧
      s = g.system.settle t result ∧ p = result.2 ∧
      g.nextPlan a (some p) = update g.plan t (Plan.after requests p) := by
  cases a with
  | acquire t requests poll =>
    simp only [perform] at h
    split_ifs at h with ht
    obtain ⟨rfl, hr⟩ := Prod.mk.inj (some.inj h)
    cases hr
    have hn := hd.sound.idle t ht
    have hpart : ∃ taken rest, ordered requests = taken ++ rest ∧ HoldsExactly g.system.manager t taken := by
      have hf := hd.follows t
      rcases hp with hp | hp <;> rw [hp] at hf
      · exact ⟨[], ordered requests, rfl, hf.2⟩
      · exact hf.2
    obtain ⟨taken, rest, hreq, hholds⟩ := hpart
    exact ⟨t, requests, _, acquireRest_advance hd.sound.manager hn,
      acquire_leavesPart hd.sound.manager hn (fun u _ => hd.waitsUpwards u) hholds hreq, rfl, rfl, rfl⟩
  | wakeUp t poll =>
    simp only [perform] at h
    split at h
    · cases h
    · next call hcall =>
        obtain ⟨rfl, hr⟩ := Prod.mk.inj (some.inj h)
        cases hr
        obtain ⟨requests, taken, hplan, hreq, hholds⟩ := hd.running hcall
        have hq := hd.sound.calls t call hcall
        have hasc := ordered_ascending requests
        rw [hreq] at hasc
        refine ⟨t, requests, _, wakeUp_advance hd.sound.manager hq, ?_, rfl, rfl, by simp [nextPlan, hplan]⟩
        rw [hreq]
        exact wakeUp_leavesPart hd.sound.manager hq (fun u _ => hd.waitsUpwards u) hholds hasc
  | releaseAll t => simp [perform] at h

theorem Disciplined.step (hd : Disciplined g) (h : g.step a = some g') : Disciplined g' := by
  unfold GroupedSystem.step at h
  split_ifs at h with hp
  obtain ⟨⟨s, p⟩, hperform, rfl⟩ := map_eq_some_iff.mp h
  have hsound : Sound s := hd.sound.step (map_eq_some_iff.mpr ⟨_, hperform, rfl⟩)
  refine ⟨hsound, fun u => ?_⟩
  cases p with
  | some p =>
    obtain ⟨t, requests, result, hadv, hpart, rfl, rfl, hnext⟩ := hd.perform_cases hp hperform
    simp only [hnext]
    by_cases hu : u = t
    · subst hu
      rw [update_self]
      exact follows_of_leavesPart hpart
    · rw [update_of_ne hu]
      refine Follows.congr (lookup_calls_settle_ne g.system result hu) (fun r => ?_) (hd.follows u)
      rw [manager_settle]
      exact hadv.moves.othersKeep.holders r u hu
  | none =>
    cases a with
    | acquire t requests poll =>
      simp only [perform] at hperform
      simp at hperform
    | wakeUp t poll =>
      simp only [perform] at hperform
      split at hperform <;> simp at hperform
    | releaseAll t =>
      simp only [perform, Option.some.injEq, Prod.mk.injEq, and_true] at hperform
      subst hperform
      simp only [nextPlan]
      by_cases hu : u = t
      · subst hu
        rw [update_self]
        exact hp
      · rw [update_of_ne hu]
        refine Follows.congr (s := g.system) rfl (fun r => ?_) (hd.follows u)
        rw [stateOf_releaseAll hd.sound.manager.coherent]
        exact lookup_erase_ne hu

theorem Disciplined.init : Disciplined {} where
  sound := Sound.init
  follows t := ⟨notMem_empty t, fun r mode => by simp [stateOf]⟩

/-- Transactions that take their locks in one group each never deadlock. -/
theorem grouped_never_deadlocks (h : Reachable step {} g) {outcome : LockOutcome} {failedOn : Option LockResource}
    (hp : g.Permits a) (ha : g.system.perform a = some (s, some (.returned outcome failedOn))) :
    outcome ≠ .deadlock := by
  have hd : Disciplined g := h.invariant Disciplined.init fun _ _ _ hd hstep => hd.step hstep
  obtain ⟨t, requests, ⟨m, p⟩, _, hpart, _, hprogress, _⟩ := hd.perform_cases hp ha
  subst hprogress
  exact hpart.1

def crossing : List LockAction :=
  [.acquire 1 [⟨⟨.row, 3, [65]⟩, .exclusive⟩, ⟨⟨.row, 3, [66]⟩, .shared⟩] fun _ => ⟨false, false⟩,
    .acquire 2 [⟨⟨.row, 3, [66]⟩, .exclusive⟩, ⟨⟨.row, 3, [65]⟩, .exclusive⟩] fun _ => ⟨false, true⟩]

theorem grouped_never_deadlocks_crossing : ∃ g s failedOn, run step {} crossing = some g ∧
    g.system.perform (.acquire 2 [⟨⟨.row, 3, [66]⟩, .exclusive⟩, ⟨⟨.row, 3, [65]⟩, .exclusive⟩]
      fun _ => ⟨false, true⟩) = some (s, some (.returned .timeout failedOn)) ∧
    LockOutcome.timeout ≠ .deadlock :=
  ⟨_, _, _, rfl, rfl, grouped_never_deadlocks (a := .acquire 2
      [⟨⟨.row, 3, [66]⟩, .exclusive⟩, ⟨⟨.row, 3, [65]⟩, .exclusive⟩] fun _ => ⟨false, true⟩)
    (Reachable.init.run (show run step {} crossing = some _ from rfl)) (by decide) rfl⟩

end GroupedSystem

end Rag3db.Transaction
