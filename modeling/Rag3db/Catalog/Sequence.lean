import Mathlib
import Rag3db.Library.Transition

open List Option Except

namespace Rag3db.Catalog

open Library.Transition

def int64Min : Int := -2 ^ 63

def int64Max : Int := 2 ^ 63 - 1

/-- What `bindCreateSequence` lets through. -/
structure BoundCreateSequenceInfo where
  sequenceName : String
  startWith : Int
  increment : Int
  minValue : Int
  maxValue : Int
  cycle : Bool
  increment_ne : increment ≠ 0
  min_le : minValue ≤ startWith
  le_max : startWith ≤ maxValue
  int64Min_le : int64Min ≤ minValue
  le_int64Max : maxValue ≤ int64Max

structure SequenceData where
  usageCount : Nat
  currVal : Int
  increment : Int
  minValue : Int
  maxValue : Int
  cycle : Bool

def SequenceData.new (info : BoundCreateSequenceInfo) : SequenceData where
  usageCount := 0
  currVal := info.startWith
  increment := info.increment
  minValue := info.minValue
  maxValue := info.maxValue
  cycle := info.cycle

structure SequenceRollbackData where
  usageCount : Nat
  currVal : Int

structure SequenceCatalogEntry where
  name : String
  sequenceData : SequenceData

namespace SequenceCatalogEntry

variable (e : SequenceCatalogEntry)

/-- `function::Add::operation`, which raises when the sum does not fit. -/
def add (x y : Int) : Option Int :=
  if int64Min ≤ x + y ∧ x + y ≤ int64Max then some (x + y) else none

def next : Except String Int :=
  let d := e.sequenceData
  if d.cycle then
    match add d.currVal d.increment with
    | none => .ok (if d.increment < 0 then d.maxValue else d.minValue)
    | some next => .ok (if next < d.minValue then d.maxValue else if next > d.maxValue then d.minValue else next)
  else
    let sum := add d.currVal d.increment
    let minError := sum.elim (decide (d.increment < 0)) fun next => decide (next < d.minValue)
    let maxError := sum.elim (decide (d.increment > 0)) fun next => decide (next > d.maxValue)
    if minError then
      .error ("nextval: reached minimum value of sequence \"" ++ e.name ++ "\" " ++ toString d.minValue)
    else if maxError then
      .error ("nextval: reached maximum value of sequence \"" ++ e.name ++ "\" " ++ toString d.maxValue)
    else .ok (sum.getD d.currVal)

/-- `usageCount` is a `uint64_t`. -/
def nextValNoLock : Except String SequenceCatalogEntry :=
  if e.sequenceData.usageCount = 0 then
    .ok { e with sequenceData.usageCount := 1 }
  else
    e.next.map fun next => { e with
      sequenceData.currVal := next
      sequenceData.usageCount := (e.sequenceData.usageCount + 1) % 2 ^ 64 }

/-- The loop of `nextKVal`. The values taken before an exception stay taken. -/
def nextVals : Nat → SequenceCatalogEntry → SequenceCatalogEntry × Except String (List Int)
  | 0, e => (e, .ok [])
  | count + 1, e =>
    match e.nextValNoLock with
    | .error message => (e, .error message)
    | .ok e' => ((nextVals count e').1, (nextVals count e').2.map (e'.sequenceData.currVal :: ·))

def rollbackData : SequenceRollbackData := ⟨e.sequenceData.usageCount, e.sequenceData.currVal⟩

def rollbackVal (data : SequenceRollbackData) : SequenceCatalogEntry :=
  { e with sequenceData.usageCount := data.usageCount, sequenceData.currVal := data.currVal }

end SequenceCatalogEntry

/-- A call of `nextKVal`: what its undo record keeps, and the values it has given. -/
structure SequenceCall where
  data : SequenceRollbackData
  values : List Int

/-- A transaction and its calls, the latest first. -/
structure SequenceCaller where
  calls : List SequenceCall := []
  committed : Bool := false

def SequenceCaller.values (x : SequenceCaller) : List Int := x.calls.flatMap SequenceCall.values

/-- A sequence and the transactions that have not been rolled back. -/
structure SequenceRun where
  entry : SequenceCatalogEntry
  lastTransactionID : Nat := 0
  callers : Nat → Option SequenceCaller := fun _ => none

inductive SequenceAction
  | begin
  | nextKVal (id count : Nat)
  | commit (id : Nat)
  | rollback (id : Nat)

namespace SequenceRun

variable (s : SequenceRun)

def openCaller (id : Nat) : Option SequenceCaller := (s.callers id).filter fun x => !x.committed

def setCaller (id : Nat) (x : Option SequenceCaller) : Nat → Option SequenceCaller :=
  fun other => if other = id then x else s.callers other

/-- A call that raises pushes no undo record. -/
def nextKVal (id count : Nat) (x : SequenceCaller) : Option SequenceRun :=
  if count = 0 then none
  else
    let (entry, values) := s.entry.nextVals count
    match values with
    | .error _ => some { s with entry }
    | .ok values =>
      let call : SequenceCall := ⟨s.entry.rollbackData, values⟩
      some { s with entry, callers := s.setCaller id (some { x with calls := call :: x.calls }) }

def rollback (id : Nat) (x : SequenceCaller) : SequenceRun :=
  { s with
    entry := x.calls.foldl (fun entry call => entry.rollbackVal call.data) s.entry
    callers := s.setCaller id none }

def step : SequenceAction → Option SequenceRun
  | .begin => some { s with
      lastTransactionID := s.lastTransactionID + 1
      callers := s.setCaller (s.lastTransactionID + 1) (some {}) }
  | .nextKVal id count => (s.openCaller id).bind (s.nextKVal id count)
  | .commit id => (s.openCaller id).map fun x =>
    { s with callers := s.setCaller id (some { x with committed := true }) }
  | .rollback id => (s.openCaller id).map (s.rollback id)

/-- Whether nobody else holds a value that was handed out since the first call of
the transaction. -/
def isLatest (id : Nat) (x : SequenceCaller) : Bool :=
  x.calls.getLast?.all fun first => (List.range (s.lastTransactionID + 1)).all fun other =>
    other = id || (s.callers other).all fun y =>
      y.calls.all fun call => call.data.usageCount + call.values.length ≤ first.data.usageCount

def careful : SequenceAction → Bool
  | .rollback id => (s.openCaller id).all (s.isLatest id)
  | _ => true

end SequenceRun

variable {info : BoundCreateSequenceInfo} {e e' : SequenceCatalogEntry} {s s' : SequenceRun}
  {x y : SequenceCaller} {call : SequenceCall} {id other count n : Nat} {v : Int}

namespace SequenceCatalogEntry

def valueAt (info : BoundCreateSequenceInfo) (n : Nat) : Int := info.startWith + ((n - 1 : Nat) : Int) * info.increment

theorem valueAt_injective {m : Nat} (hn : 0 < n) (hm : 0 < m) (h : valueAt info n = valueAt info m) : n = m := by
  have hmul := mul_right_cancel₀ info.increment_ne (add_left_cancel h)
  omega

/-- The entry of the sequence stands at one of its positions. -/
structure Positioned (info : BoundCreateSequenceInfo) (e : SequenceCatalogEntry) : Prop where
  increment : e.sequenceData.increment = info.increment
  minValue : e.sequenceData.minValue = info.minValue
  maxValue : e.sequenceData.maxValue = info.maxValue
  cycle : e.sequenceData.cycle = info.cycle
  usageCount : e.sequenceData.usageCount < 2 ^ 64
  currVal : e.sequenceData.currVal = valueAt info e.sequenceData.usageCount

theorem Positioned.rollbackVal {data : SequenceRollbackData} (h : Positioned info e)
    (hcount : data.usageCount < 2 ^ 64) (hval : data.currVal = valueAt info data.usageCount) :
    Positioned info (e.rollbackVal data) :=
  ⟨h.increment, h.minValue, h.maxValue, h.cycle, hcount, hval⟩

theorem next_eq_ok (hcycle : e.sequenceData.cycle = false) (h : e.next = .ok v) :
    v = e.sequenceData.currVal + e.sequenceData.increment ∨ e.sequenceData.increment = 0 := by
  unfold next add at h
  simp only [hcycle, Bool.false_eq_true, if_false] at h
  split_ifs at h with hfits hmin hmax hmin hmax
  · exact .inl (ok.inj h).symm
  · simp only [elim_none, decide_eq_true_eq] at hmin hmax
    exact .inr (by omega)

theorem next_bounds (hcycle : e.sequenceData.cycle = false) (hinc : e.sequenceData.increment ≠ 0)
    (h : e.next = .ok v) : e.sequenceData.minValue ≤ v ∧ v ≤ e.sequenceData.maxValue := by
  unfold next add at h
  simp only [hcycle, Bool.false_eq_true, if_false] at h
  split_ifs at h with hfits hmin hmax hmin hmax
  · obtain rfl := ok.inj h
    simp only [elim_some, decide_eq_true_eq] at hmin hmax
    exact ⟨not_lt.mp hmin, not_lt.mp hmax⟩
  · simp only [elim_none, decide_eq_true_eq] at hmin hmax
    omega

section NonCycling

variable (hcycle : info.cycle = false) (hrange : info.maxValue - info.minValue < 2 ^ 64 - 1)

include hcycle hrange

theorem Positioned.nextValNoLock (h : Positioned info e) (hs : e.nextValNoLock = .ok e') :
    Positioned info e' ∧ e'.sequenceData.usageCount = e.sequenceData.usageCount + 1 := by
  unfold SequenceCatalogEntry.nextValNoLock at hs
  split_ifs at hs with hzero
  · -- the first call gives the start value itself
    obtain rfl := ok.inj hs
    refine ⟨⟨h.increment, h.minValue, h.maxValue, h.cycle, by norm_num, ?_⟩, by simp [hzero]⟩
    simp [h.currVal, hzero, valueAt]
  · cases hnext : e.next with
    | error message => simp [hnext, Except.map] at hs
    | ok v =>
      rw [hnext] at hs
      obtain rfl := ok.inj hs
      have hinc : e.sequenceData.increment ≠ 0 := h.increment ▸ info.increment_ne
      have hv := (next_eq_ok (h.cycle.trans hcycle) hnext).resolve_right hinc
      have hbounds := next_bounds (h.cycle.trans hcycle) hinc hnext
      rw [h.minValue, h.maxValue] at hbounds
      have hval : v = valueAt info (e.sequenceData.usageCount + 1) := by
        rw [hv, h.currVal, h.increment, valueAt, valueAt]
        obtain ⟨n, hn⟩ := Nat.exists_eq_succ_of_ne_zero hzero
        simp only [hn]
        push_cast
        ring
      -- as many values as the range has numbers at most
      have hfits : e.sequenceData.usageCount + 1 < 2 ^ 64 := by
        have hstart := info.min_le
        have hend := info.le_max
        have hstep : |info.increment| ≥ 1 := Int.one_le_abs info.increment_ne
        rw [hval, valueAt, Nat.add_sub_cancel] at hbounds
        have hmul : |e.sequenceData.usageCount * info.increment| < 2 ^ 64 - 1 := by
          rw [abs_lt]
          constructor <;> linarith
        rw [abs_mul, Nat.abs_cast] at hmul
        have hle : e.sequenceData.usageCount ≤ e.sequenceData.usageCount * |info.increment| :=
          le_mul_of_one_le_right (Int.natCast_nonneg _) hstep
        omega
      have hmod := Nat.mod_eq_of_lt hfits
      exact ⟨⟨h.increment, h.minValue, h.maxValue, h.cycle, hmod.symm ▸ hfits, by simp only [hmod, hval]⟩, hmod⟩

theorem Positioned.nextVals (h : Positioned info e) (count : Nat) : Positioned info (e.nextVals count).1 ∧
      e.sequenceData.usageCount ≤ (e.nextVals count).1.sequenceData.usageCount ∧
      ∀ values, (e.nextVals count).2 = .ok values →
        e.sequenceData.usageCount + values.length = (e.nextVals count).1.sequenceData.usageCount ∧
        ∀ v ∈ values, ∃ n, e.sequenceData.usageCount < n ∧ n ≤ e.sequenceData.usageCount + values.length ∧
          v = valueAt info n := by
  induction count generalizing e with
  | zero =>
    refine ⟨h, le_rfl, fun values hv => ?_⟩
    obtain rfl := ok.inj hv
    simp [SequenceCatalogEntry.nextVals]
  | succ count ih =>
    cases hs : e.nextValNoLock with
    | error message =>
      simp only [SequenceCatalogEntry.nextVals, hs]
      exact ⟨h, le_rfl, by simp⟩
    | ok e' =>
      simp only [SequenceCatalogEntry.nextVals, hs]
      obtain ⟨h', hcount⟩ := h.nextValNoLock hcycle hrange hs
      obtain ⟨hend, hle, hvalues⟩ := ih h'
      refine ⟨hend, by omega, fun values hv => ?_⟩
      cases hrest : (e'.nextVals count).2 with
      | error message => simp [hrest, Except.map] at hv
      | ok rest =>
        rw [hrest] at hv
        obtain rfl := ok.inj hv
        obtain ⟨hlen, hmem⟩ := hvalues rest hrest
        refine ⟨by simp only [length_cons]; omega, fun v hv => ?_⟩
        simp only [length_cons]
        rcases mem_cons.mp hv with rfl | hv
        · exact ⟨_, by omega, by omega, h'.currVal⟩
        · obtain ⟨n, hn, hn', rfl⟩ := hmem v hv
          exact ⟨n, by omega, by omega, rfl⟩

end NonCycling

end SequenceCatalogEntry

def SequenceCall.stop (call : SequenceCall) : Nat := call.data.usageCount + call.values.length

namespace SequenceRun

open SequenceCatalogEntry

/-- Each call holds the positions between what it saved and where it stopped. -/
structure Held (info : BoundCreateSequenceInfo) (s : SequenceRun) (call : SequenceCall) : Prop where
  currVal : call.data.currVal = valueAt info call.data.usageCount
  stop : call.stop ≤ s.entry.sequenceData.usageCount
  values : ∀ v ∈ call.values, ∃ n, call.data.usageCount < n ∧ n ≤ call.stop ∧ v = valueAt info n

def Apart (x y : SequenceCaller) : Prop :=
  ∀ c ∈ x.calls, ∀ d ∈ y.calls, c.stop ≤ d.data.usageCount ∨ d.stop ≤ c.data.usageCount

theorem Apart.symm (h : Apart x y) : Apart y x := fun c hc d hd => (h d hd c hc).symm

structure Inv (info : BoundCreateSequenceInfo) (s : SequenceRun) : Prop where
  positioned : Positioned info s.entry
  issued : ∀ id, s.lastTransactionID < id → s.callers id = none
  held : ∀ id x, s.callers id = some x → ∀ call ∈ x.calls, Held info s call
  apart : ∀ id other x y, id ≠ other → s.callers id = some x → s.callers other = some y → Apart x y

theorem openCaller_eq_some (h : s.openCaller id = some x) : s.callers id = some x :=
  (filter_eq_some_iff.mp h).1

variable {z : Option SequenceCaller}

theorem setCaller_eq_some (h : s.setCaller id z other = some y) :
    other = id ∧ z = some y ∨ other ≠ id ∧ s.callers other = some y := by
  unfold setCaller at h
  split_ifs at h with he
  · exact .inl ⟨he, h⟩
  · exact .inr ⟨he, h⟩

theorem Inv.setCaller (h : Inv info s) {entry : SequenceCatalogEntry} (hentry : Positioned info entry)
    (hid : id ≤ s'.lastTransactionID) (hlast : s.lastTransactionID ≤ s'.lastTransactionID) (hs : s'.entry = entry)
    (hcallers : s'.callers = s.setCaller id z) (hheld : ∀ y, z = some y → ∀ call ∈ y.calls, Held info s' call)
    (hothers : ∀ other y, other ≠ id → s.callers other = some y → (∀ call ∈ y.calls, Held info s' call) ∧
      ∀ x, z = some x → Apart x y) : Inv info s' := by
  refine ⟨hs ▸ hentry, fun other ho => ?_, fun other y hy => ?_, fun other other' y y' hne hy hy' => ?_⟩
  · rw [hcallers, SequenceRun.setCaller, if_neg (by omega)]
    exact h.issued other (by omega)
  · rw [hcallers] at hy
    rcases setCaller_eq_some hy with ⟨-, hz⟩ | ⟨ho, hy⟩
    · exact hheld y hz
    · exact (hothers other y ho hy).1
  · rw [hcallers] at hy hy'
    rcases setCaller_eq_some hy with ⟨he, hz⟩ | ⟨ho, hm⟩ <;>
      rcases setCaller_eq_some hy' with ⟨he', hz'⟩ | ⟨ho', hm'⟩
    · exact absurd (he.trans he'.symm) hne
    · exact (hothers other' y' ho' hm').2 y hz
    · exact ((hothers other y ho hm).2 y' hz').symm
    · exact h.apart other other' y y' hne hm hm'

theorem foldl_rollbackVal (calls : List SequenceCall) (e : SequenceCatalogEntry) :
    calls.foldl (fun entry call => entry.rollbackVal call.data) e =
      calls.getLast?.elim e fun first => e.rollbackVal first.data := by
  induction calls generalizing e with
  | nil => rfl
  | cons call calls ih =>
    rw [foldl_cons, ih]
    cases hlast : calls.getLast? with
    | none => simp [getLast?_eq_none_iff.mp hlast]
    | some first => simp [getLast?_cons, hlast, rollbackVal]

theorem Inv.le_lastTransactionID (h : Inv info s) (hx : s.callers id = some x) : id ≤ s.lastTransactionID := by
  by_contra hlt
  simp [h.issued id (by omega)] at hx

theorem Inv.rollback (h : Inv info s) (hx : s.callers id = some x) (hlatest : s.isLatest id x = true) :
    Inv info (s.rollback id x) := by
  have hentry := foldl_rollbackVal x.calls s.entry
  have hid := h.le_lastTransactionID hx
  cases hlast : x.calls.getLast? with
  | none =>
    rw [hlast] at hentry
    refine h.setCaller h.positioned hid le_rfl hentry rfl (by simp) fun other y ho hy =>
      ⟨fun call hc => ?_, by simp⟩
    have hheld := h.held other y hy call hc
    exact ⟨hheld.currVal, hheld.stop.trans (congrArg (·.sequenceData.usageCount) hentry).ge, hheld.values⟩
  | some first =>
    rw [hlast] at hentry
    have hfirst := h.held id x hx first (List.mem_of_getLast? hlast)
    have hcount : first.data.usageCount < 2 ^ 64 :=
      (Nat.le_add_right _ _).trans_lt (hfirst.stop.trans_lt h.positioned.usageCount)
    refine h.setCaller (h.positioned.rollbackVal hcount hfirst.currVal) hid le_rfl hentry rfl (by simp)
      fun other y ho hy => ⟨fun call hc => ?_, by simp⟩
    have hheld := h.held other y hy call hc
    have hbehind : call.stop ≤ first.data.usageCount := by
      simp only [isLatest, hlast, Option.all_some, List.all_eq_true, List.mem_range, Bool.or_eq_true,
        decide_eq_true_eq] at hlatest
      have hall := (hlatest other (Nat.lt_succ_of_le (h.le_lastTransactionID hy))).resolve_left ho
      rw [hy, Option.all_some, List.all_eq_true] at hall
      exact of_decide_eq_true (hall call hc)
    exact ⟨hheld.currVal, hbehind.trans (congrArg (·.sequenceData.usageCount) hentry).ge, hheld.values⟩

section NonCycling

variable (hcycle : info.cycle = false) (hrange : info.maxValue - info.minValue < 2 ^ 64 - 1)

include hcycle hrange

theorem Inv.nextKVal (h : Inv info s) (hx : s.callers id = some x) (hs : s.nextKVal id count x = some s') :
    Inv info s' := by
  unfold SequenceRun.nextKVal at hs
  obtain ⟨hpos, hle, hvalues⟩ := h.positioned.nextVals hcycle hrange count
  split_ifs at hs with hzero
  have hheld : ∀ other y, s.callers other = some y → ∀ call ∈ y.calls, Held info
      { s with entry := (s.entry.nextVals count).1 } call := fun other y hy call hc =>
    have hheld := h.held other y hy call hc
    ⟨hheld.currVal, hheld.stop.trans hle, hheld.values⟩
  cases hr : (s.entry.nextVals count).2 with
  | error message =>
    simp only [hr] at hs
    cases hs
    exact ⟨hpos, h.issued, hheld, h.apart⟩
  | ok values =>
    simp only [hr] at hs
    cases hs
    obtain ⟨hlen, hmem⟩ := hvalues values hr
    refine h.setCaller hpos (h.le_lastTransactionID hx) le_rfl rfl rfl (fun y hy call hc => ?_)
      fun other y ho hy => ⟨fun call hc => ?_, fun z hz c hc d hd => ?_⟩
    · cases hy
      rcases mem_cons.mp hc with rfl | hc
      · exact ⟨h.positioned.currVal, hlen.le, hmem⟩
      · have hheld := hheld id x hx call hc
        exact ⟨hheld.currVal, hheld.stop, hheld.values⟩
    · have hheld := hheld other y hy call hc
      exact ⟨hheld.currVal, hheld.stop, hheld.values⟩
    · cases hz
      rcases mem_cons.mp hc with rfl | hc
      · exact .inr (h.held other y hy d hd).stop
      · exact h.apart id other x y ho.symm hx hy c hc d hd

theorem Inv.step {a : SequenceAction} (h : Inv info s) (hs : guarded careful SequenceRun.step s a = some s') :
    Inv info s' := by
  obtain ⟨hcareful, hs⟩ := guarded_eq_some.mp hs
  cases a with
  | begin =>
    cases hs
    refine h.setCaller h.positioned le_rfl (Nat.le_succ _) rfl rfl (fun y hy call hc => ?_)
      fun other y ho hy => ⟨fun call hc => ?_, fun z hz c hc => ?_⟩
    · cases hy
      simp at hc
    · have hheld := h.held other y hy call hc
      exact ⟨hheld.currVal, hheld.stop, hheld.values⟩
    · cases hz
      simp at hc
  | nextKVal id count =>
    obtain ⟨x, hopen, hs⟩ := bind_eq_some_iff.mp hs
    exact h.nextKVal hcycle hrange (openCaller_eq_some hopen) hs
  | commit id =>
    obtain ⟨x, hopen, rfl⟩ := map_eq_some_iff.mp hs
    have hx := openCaller_eq_some hopen
    have hheld : ∀ other y, s.callers other = some y → ∀ call ∈ y.calls, Held info
        { s with callers := s.setCaller id (some { x with committed := true }) } call := fun other y hy call hc =>
      have hheld := h.held other y hy call hc
      ⟨hheld.currVal, hheld.stop, hheld.values⟩
    refine h.setCaller h.positioned (h.le_lastTransactionID hx) le_rfl rfl rfl (fun y hy => ?_)
      fun other y ho hy => ⟨hheld other y hy, fun z hz => ?_⟩
    · cases hy
      exact hheld id x hx
    · cases hz
      exact h.apart id other x y ho.symm hx hy
  | rollback id =>
    obtain ⟨x, hopen, rfl⟩ := map_eq_some_iff.mp hs
    simp only [careful, hopen] at hcareful
    exact h.rollback (openCaller_eq_some hopen) hcareful

end NonCycling

def new (info : BoundCreateSequenceInfo) : SequenceRun := { entry := ⟨info.sequenceName, .new info⟩ }

theorem inv_new : Inv info (new info) :=
  ⟨⟨rfl, rfl, rfl, rfl, by simp [new, SequenceData.new], by simp [new, SequenceData.new, valueAt]⟩,
    fun _ _ => rfl, (fun _ _ h => nomatch h), (fun _ _ _ _ _ h => nomatch h)⟩

theorem Inv.disjoint (h : Inv info s) (hne : id ≠ other) (hx : s.callers id = some x)
    (hy : s.callers other = some y) : List.Disjoint x.values y.values := by
  intro v hv hv'
  obtain ⟨c, hc, hv⟩ := mem_flatMap.mp hv
  obtain ⟨d, hd, hv'⟩ := mem_flatMap.mp hv'
  obtain ⟨n, hn, hn', rfl⟩ := (h.held id x hx c hc).values v hv
  obtain ⟨m, hm, hm', he⟩ := (h.held other y hy d hd).values _ hv'
  have heq := valueAt_injective (by omega) (by omega) he
  rcases h.apart id other x y hne hx hy c hc d hd with hle | hle <;> omega

/-- No value goes to two transactions that commit, or that are still open, as long
as a transaction is rolled back only if nobody else holds a value handed out
since its first call. -/
theorem handed_values_disjoint (hcycle : info.cycle = false) (hrange : info.maxValue - info.minValue < 2 ^ 64 - 1)
    (h : Reachable (guarded careful step) (new info) s) (hne : id ≠ other)
    (hx : s.callers id = some x) (hy : s.callers other = some y) : List.Disjoint x.values y.values :=
  have hinv : Inv info s := h.invariant inv_new fun _ _ _ hi hs => hi.step hcycle hrange hs
  hinv.disjoint hne hx hy

/-- `CREATE SEQUENCE` with the defaults of the binder. -/
def defaults : BoundCreateSequenceInfo where
  sequenceName := "seq"
  startWith := 1
  increment := 1
  minValue := 1
  maxValue := int64Max
  cycle := false
  increment_ne := by decide
  min_le := by decide
  le_max := by decide
  int64Min_le := by decide
  le_int64Max := by decide

def committedValues (s : SequenceRun) (id : Nat) : List Int :=
  ((s.callers id).filter SequenceCaller.committed).elim [] SequenceCaller.values

/-- The second transaction commits 2; the first is rolled back, and the counter
with it, so that the third gets 2 again. -/
theorem value_committed_twice :
    (run step (new defaults) [.begin, .begin, .nextKVal 1 1, .nextKVal 2 1, .commit 2, .rollback 1,
      .begin, .nextKVal 3 2, .commit 3]).map (fun s => (s.committedValues 2, s.committedValues 3)) =
      some ([2], [1, 2]) := by
  decide

def rolledBackFirst : List SequenceAction :=
  [.begin, .begin, .nextKVal 1 1, .nextKVal 2 2, .rollback 2, .commit 1, .begin, .nextKVal 3 2, .commit 3]

theorem handed_values_disjoint_defaults : ∃ s x y, run (guarded careful step) (new defaults) rolledBackFirst = some s ∧
      s.callers 1 = some x ∧ s.callers 3 = some y ∧ x.values = [1] ∧ y.values = [2, 3] ∧
      List.Disjoint x.values y.values := by
  have hrun : (run (guarded careful step) (new defaults) rolledBackFirst).any (fun s =>
      (s.callers 1).any (fun x => x.values = [1]) && (s.callers 3).any fun y => y.values = [2, 3]) = true := by
    decide
  obtain ⟨s, hs, h⟩ := (any_eq_true _ _).mp hrun
  obtain ⟨hfirst, hthird⟩ := (Bool.and_eq_true _ _).mp h
  obtain ⟨x, hx, hvx⟩ := (any_eq_true _ _).mp hfirst
  obtain ⟨y, hy, hvy⟩ := (any_eq_true _ _).mp hthird
  exact ⟨s, x, y, hs, hx, hy, of_decide_eq_true hvx, of_decide_eq_true hvy,
    handed_values_disjoint rfl (by decide) (Reachable.init.run hs) (by decide : 1 ≠ 3) hx hy⟩

end SequenceRun

end Rag3db.Catalog
