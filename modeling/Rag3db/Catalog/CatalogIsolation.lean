import Rag3db.Catalog.CatalogRuns

open Option

namespace Rag3db.Catalog

open Library.Interruptible Library.Transition Storage CatalogSets DDLState

variable {init s s' : CatalogRun} {x y : CatalogWriter} {op : CatalogOperation} {set : SetName} {k : List Char}
  {id other : Nat} {v w : CatalogEntry}

namespace CatalogRun

def Works (s : CatalogRun) (id : Nat) (x : CatalogWriter) : Prop :=
  ∃ R pending, (x.failed = false → pending = []) ∧
    Working True s.lastTimestamp s.lastTransactionID id R pending (x.state s.catalog)

structure Inv (s : CatalogRun) : Prop where
  time : s.lastTimestamp < startTransactionId
  issued : startTransactionId ≤ s.lastTransactionID
  ids : ∀ id x, s.active id = some x → x.snapshot.id = id ∧ startTransactionId ≤ id ∧
    id ≤ s.lastTransactionID ∧ x.snapshot.startTS ≤ s.lastTimestamp
  sound : Sound True s.lastTimestamp s.lastTransactionID s.catalog
  works : ∀ id x, s.active id = some x → s.Works id x

theorem setWriter_eq_some {z : Option CatalogWriter} (h : s.setWriter id z other = some y) :
    other = id ∧ z = some y ∨ other ≠ id ∧ s.active other = some y := by
  unfold setWriter at h
  split_ifs at h with he
  · exact .inl ⟨he, h⟩
  · exact .inr ⟨he, h⟩

theorem Inv.beginTransaction (h : Inv s) (hs : s.beginTransaction = some s') : Inv s' := by
  unfold CatalogRun.beginTransaction at hs
  dsimp only at hs
  split_ifs at hs with hnumbers
  cases hs
  have hsound := h.sound.mono le_rfl (Nat.le_succ s.lastTransactionID)
  refine ⟨h.time, hnumbers.2.1, fun id x hx => ?_, hsound, fun id x hx => ?_⟩
  · rcases setWriter_eq_some hx with ⟨rfl, hz⟩ | ⟨-, hx⟩
    · cases hz
      exact ⟨rfl, hnumbers.2.1, le_rfl, le_rfl⟩
    · obtain ⟨hid, hstart, hle, hts⟩ := h.ids id x hx
      exact ⟨hid, hstart, hle.trans (Nat.le_succ _), hts⟩
  · rcases setWriter_eq_some hx with ⟨rfl, hz⟩ | ⟨-, hx⟩
    · cases hz
      refine ⟨[], [], fun _ => rfl, hsound, ⟨.nil, .nil⟩, .nil, fun set k v hv => ?_, by simp⟩
      -- the identifier is new
      refine iff_of_false (fun hts => ?_) (by simp)
      have hb := (h.sound.chain_of_mem trivial hv).bounds v hv
      omega
    · obtain ⟨R, pending, hp, hw⟩ := h.works id x hx
      exact ⟨R, pending, hp, hw.mono le_rfl (Nat.le_succ _)⟩

variable (hx : s.active id = some x)

include hx

theorem Inv.done (h : Inv s) (hf : x.failed = false) :
    Done True s.lastTimestamp s.lastTransactionID x.snapshot s.catalog (x.state s.catalog) := by
  obtain ⟨R, pending, hp, hw⟩ := h.works id x hx
  rw [hp hf, ← (h.ids id x hx).1] at hw
  exact ⟨R, hw, fun _ _ => .inl rfl, fun _ _ _ _ _ _ hw => hw⟩

theorem Inv.steps_contract (h : Inv s) (hf : x.failed = false) (hcareful : s.careful (.execute id op) = true) :
    Contract (x.state s.catalog = ·) (op.steps x.snapshot)
      (Passed True s.lastTimestamp s.lastTransactionID x.snapshot s.catalog)
      (Done True s.lastTimestamp s.lastTransactionID x.snapshot s.catalog)
      (Half True s.lastTimestamp s.lastTransactionID x.snapshot s.catalog) := by
  obtain ⟨hid, hstart, hissued, -⟩ := h.ids id x hx
  have hdone := h.done hx hf
  rw [← hid] at hstart hissued
  cases op with
  | createEntry set name data => exact createEntry_contract hstart hissued hdone data fun _ => Done.half
  | dropEntry set name =>
    refine dropEntryOf_contract hstart hissued hdone hdone.half fun _ head older hc => ?_
    have hc' : s.catalog.chain set name = head :: older := hc
    simp only [careful, hx, all_some, hc', List.head?_cons, Bool.not_eq_true'] at hcareful
    exact free_of_sees (sees_of_no_conflict hcareful)
  | alterTableEntry info => exact alterTableEntry_contract hstart hissued hdone hdone.half fun _ _ _ h => h

theorem Inv.execute (h : Inv s) (hcareful : s.careful (.execute id op) = true) (hs : s.execute id x op = some s') :
    Inv s' := by
  unfold CatalogRun.execute at hs
  split_ifs at hs with hf
  cases hs
  have hf : x.failed = false := Bool.eq_false_iff.mpr hf
  have hcontract := h.steps_contract hx hf hcareful
  obtain ⟨R, pending, hhalf⟩ := hcontract.last rfl fun _ => Done.half
  obtain ⟨hid, hstart, hle, hts⟩ := h.ids id x hx
  refine ⟨h.time, h.issued, fun other y hy => ?_, hhalf.working.sound, fun other y hy => ?_⟩
  · rcases setWriter_eq_some hy with ⟨rfl, hz⟩ | ⟨-, hy⟩
    · cases hz
      exact ⟨hid, hstart, hle, hts⟩
    · exact h.ids other y hy
  · rcases setWriter_eq_some hy with ⟨rfl, hz⟩ | ⟨hne, hy⟩
    · cases hz
      by_cases hfin : (op.steps x.snapshot (x.state s.catalog)).finished = true
      · obtain ⟨R, hdone⟩ := hcontract.ends rfl hfin
        exact ⟨R, [], fun _ => rfl, hid ▸ hdone.working⟩
      · exact ⟨R, pending, fun hf' => by simp [hfin] at hf', hid ▸ hhalf.working⟩
    · obtain ⟨R', pending', hp, hw⟩ := h.works other y hy
      exact ⟨R', pending', hp, hhalf.frame other R' pending' y.undoBuffer (h.ids other y hy).2.1 (hid ▸ hne) hw⟩

theorem Inv.entries_commit (h : Inv s) (hf : x.failed = false) (commitTS : Nat) (set : SetName) (k : List Char) :
    ((x.state s.catalog).commit commitTS).entries set k =
      (s.catalog.entries set k).map fun v => if v.timestamp = id then { v with timestamp := commitTS } else v := by
  obtain ⟨R, pending, hp, hw⟩ := h.works id x hx
  obtain rfl := hp hf
  refine (hw.recorded.entries_commit hw.sound.toLinked set k).trans (List.map_congr_left fun v hv => ?_)
  simp [hw.own set k v hv]

theorem Inv.commit (h : Inv s) (hs : s.commit id x = some s') : Inv s' := by
  unfold CatalogRun.commit at hs
  split_ifs at hs with hguard
  cases hs
  rw [not_or, not_le] at hguard
  have hf : x.failed = false := Bool.eq_false_iff.mpr hguard.1
  have hentries := h.entries_commit hx hf (s.lastTimestamp + 1)
  have hid := (h.ids id x hx).2.1
  have hsound := h.sound.stamp hid (Nat.le_succ _) hguard.2 nextRef_commit hentries
  refine ⟨hguard.2, h.issued, fun other y hy => ?_, hsound, fun other y hy => ?_⟩
  · rcases setWriter_eq_some hy with ⟨-, hz⟩ | ⟨-, hy⟩
    · cases hz
    · obtain ⟨hid, hstart, hle, hts⟩ := h.ids other y hy
      exact ⟨hid, hstart, hle, hts.trans (Nat.le_succ _)⟩
  · rcases setWriter_eq_some hy with ⟨-, hz⟩ | ⟨hne, hy⟩
    · cases hz
    · obtain ⟨R, pending, hp, hw⟩ := h.works other y hy
      exact ⟨R, pending, hp, hw.stampOther hsound hne.symm (h.ids other y hy).2.1 hguard.2 nextRef_commit hentries⟩

theorem Inv.entries_rollback (h : Inv s) :
    ∃ p : CatalogEntry → Bool, (∀ set k, (s.rollback id x).catalog.entries set k = (s.catalog.entries set k).filter p) ∧
      ∀ set k, ∀ v ∈ s.catalog.entries set k, p v = false → v.timestamp = id := by
  obtain ⟨R, pending, -, hw⟩ := h.works id x hx
  refine ⟨fun v => v.ref ∉ R, fun set k => hw.recorded.entries_rollback hw.sound.toLinked set k,
    fun set k v hv hp => ?_⟩
  exact (hw.own set k v hv).mpr (.inl (by simpa using hp))

theorem Inv.rollback (h : Inv s) : Inv (s.rollback id x) := by
  obtain ⟨p, hentries, hp⟩ := h.entries_rollback hx
  have hid := (h.ids id x hx).2.1
  have hpos : 0 < startTransactionId := by decide
  have hsound := h.sound.filter hentries nextRef_rollback fun set k v hv hz =>
    Bool.of_not_eq_false fun hf => by have := hp set k v hv hf; omega
  refine ⟨h.time, h.issued, fun other y hy => ?_, hsound, fun other y hy => ?_⟩
  · rcases setWriter_eq_some hy with ⟨-, hz⟩ | ⟨-, hy⟩
    · cases hz
    · exact h.ids other y hy
  · rcases setWriter_eq_some hy with ⟨-, hz⟩ | ⟨hne, hy⟩
    · cases hz
    · obtain ⟨R, pending, hpend, hw⟩ := h.works other y hy
      exact ⟨R, pending, hpend, hw.filterOther trivial hentries nextRef_rollback hp hne.symm (h.ids other y hy).2.1 hid⟩

omit hx

theorem Inv.step {a : CatalogAction} (h : Inv s) (hs : guarded careful CatalogRun.step s a = some s') : Inv s' := by
  obtain ⟨hcareful, hs⟩ := guarded_eq_some.mp hs
  cases a with
  | begin => exact h.beginTransaction hs
  | execute id op =>
    obtain ⟨x, hx, hs⟩ := bind_eq_some_iff.mp hs
    exact h.execute hx hcareful hs
  | commit id =>
    obtain ⟨x, hx, hs⟩ := bind_eq_some_iff.mp hs
    exact h.commit hx hs
  | rollback id =>
    obtain ⟨x, hx, rfl⟩ := map_eq_some_iff.mp hs
    exact h.rollback hx

/-- A catalog that nobody works on. -/
structure Quiet (s : CatalogRun) : Prop where
  idle : ∀ id, s.active id = none
  time : s.lastTimestamp < startTransactionId
  issued : startTransactionId ≤ s.lastTransactionID
  sound : Sound True s.lastTimestamp s.lastTransactionID s.catalog

theorem inv_of_reachable (hinit : Quiet init) (h : Reachable (guarded careful step) init s) : Inv s := by
  refine h.invariant ⟨hinit.time, hinit.issued, ?_, hinit.sound, ?_⟩ fun _ _ _ hi hs => hi.step hs
  · simp [hinit.idle]
  · simp [hinit.idle]

section Conflicts

variable {t : DDLState} {tx : Snapshot} {name : String} {oid : Nat} {head : CatalogEntry} {older : List CatalogEntry}

/-- No version comes in front of one that the transaction does not see, if it is to be created or altered. -/
theorem createEntryNoLock_finished {data : EntryData} (h : (createEntryNoLock tx set name oid data t).finished = true)
    (hc : t.catalog.chain set name = head :: older) : tx.sees head.timestamp = true := by
  obtain ⟨⟨u, hok⟩, -⟩ := check_finished (Steps.andThen_finished h).1
  exact (checkCreate_eq_ok hok hc).1

theorem alterTableEntry_finished {info : BoundAlterInfo} (h : (alterTableEntry tx info t).finished = true) :
    ∃ e, t.catalog.checkAlter tx info.tableName = .ok e := by
  unfold alterTableEntry at h
  cases hcheck : t.catalog.checkAlter tx info.tableName with
  | error message => simp [hcheck] at h
  | ok e => exact ⟨e, rfl⟩

theorem sees_of_finished (hx : s.active id = some x) (hcareful : s.careful (.execute id op) = true)
    (h : (op.steps x.snapshot (x.state s.catalog)).finished = true) (ht : op.touches set k)
    (hc : s.catalog.entries set k = head :: older) : x.snapshot.sees head.timestamp = true := by
  cases op with
  | createEntry set' name data =>
    obtain ⟨rfl, rfl⟩ := ht
    exact createEntryNoLock_finished (Steps.andThen_finished (Steps.andThen_finished h).2).1 hc
  | dropEntry set' name =>
    obtain ⟨rfl, rfl⟩ := ht
    have hc' : s.catalog.chain set name = head :: older := hc
    simp only [careful, hx, all_some, hc', List.head?_cons, Bool.not_eq_true'] at hcareful
    exact sees_of_no_conflict hcareful
  | alterTableEntry info =>
    obtain ⟨rfl, hk⟩ := ht
    obtain ⟨e, hcheck⟩ := alterTableEntry_finished h
    obtain ⟨⟨older', hc'⟩, hsees, -⟩ := checkAlter_eq_ok hcheck
    by_cases hold : k = key info.tableName
    · rw [hold] at hc
      obtain rfl : head = e := (List.cons.inj (hc.symm.trans hc')).1
      exact hsees
    · -- the new name of a table is written to after the old one
      obtain ⟨newName, htype, rfl⟩ := hk.resolve_left hold
      unfold CatalogOperation.steps alterTableEntry at h
      simp only [hcheck, htype] at h
      obtain ⟨hdrop, h⟩ := Steps.andThen_finished h
      have hcreate := (Steps.andThen_finished h).1
      rw [dropEntryNoLock_last hdrop] at hcreate
      refine createEntryNoLock_finished hcreate (?_ : CatalogSets.chain _ _ _ = head :: older)
      rw [CatalogSets.chain, CatalogSets.push, entries_setChain_of_ne fun hk => hold hk.2]
      exact hc

end Conflicts

/-- The version under a name that a transaction is to see: its own last one, or
else the newest of those with the greatest timestamp up to its snapshot. -/
def IsCurrent (tx : Snapshot) (versions : List CatalogEntry) (e : CatalogEntry) : Prop :=
  versions.find? (·.timestamp = tx.id) = some e ∨
    (∀ v ∈ versions, v.timestamp ≠ tx.id) ∧ versions.find? (·.timestamp ≤ tx.startTS) = some e ∧
      ∀ v ∈ versions, v.timestamp ≤ tx.startTS → v.timestamp ≤ e.timestamp

theorem Inv.traverse (h : Inv s) (hx : s.active id = some x) (hne : s.catalog.entries set k ≠ []) :
    ∃ e, CatalogSets.traverse x.snapshot (s.catalog.entries set k) = some e ∧
      IsCurrent x.snapshot (s.catalog.entries set k) e := by
  obtain ⟨hid, hstart, -⟩ := h.ids id x hx
  have hchain := h.sound.chains trivial set k hne
  by_cases hown : ∃ v ∈ s.catalog.entries set k, v.timestamp = x.snapshot.id
  · obtain ⟨v, hv, hts⟩ := hown
    obtain ⟨e, hhead, he, htraverse⟩ := hchain.traverse_own (hid ▸ hstart) hv hts
    refine ⟨e, htraverse, .inl ?_⟩
    cases hc : s.catalog.entries set k with
    | nil => exact absurd hc hne
    | cons head older =>
      rw [hc] at hhead
      cases hhead
      exact List.find?_cons_of_pos (by simpa using he)
  · have hnot : ∀ v ∈ s.catalog.entries set k, v.timestamp ≠ x.snapshot.id := fun v hv hts => hown ⟨v, hv, hts⟩
    obtain ⟨e, htraverse, hfind, -, -, hmax⟩ := hchain.traverse_committed hnot
    exact ⟨e, htraverse, .inr ⟨hnot, hfind, hmax⟩⟩

theorem Inv.traverse_rollback (h : Inv s) (hx : s.active id = some x) (hy : s.active other = some y)
    (hne : other ≠ id) (set : SetName) (k : List Char) :
    CatalogSets.traverse y.snapshot ((s.rollback id x).catalog.entries set k) =
      CatalogSets.traverse y.snapshot (s.catalog.entries set k) := by
  obtain ⟨p, hentries, hp⟩ := h.entries_rollback hx
  rw [hentries]
  refine traverse_filter fun v hv hsees => Bool.of_not_eq_false fun hf => ?_
  have hts := hp set k v hv hf
  have hstart : startTransactionId ≤ v.timestamp := hts ▸ (h.ids id x hx).2.1
  have hunseen := y.snapshot.not_sees_other hstart (by rw [hts, (h.ids other y hy).1]; exact hne.symm)
  simp [hunseen] at hsees

/-- As long as an entry is dropped only by a transaction that might as well alter
it, the versions of a chain that are not committed are of one transaction, any
other is refused, everybody sees the version of his snapshot, and a rollback
changes nothing for the others. -/
theorem catalog_isolated (hinit : Quiet init) (h : Reachable (guarded careful step) init s) :
    (∀ set k, ∀ v ∈ s.catalog.entries set k, ∀ w ∈ s.catalog.entries set k,
      startTransactionId ≤ v.timestamp → startTransactionId ≤ w.timestamp → v.timestamp = w.timestamp) ∧
    (∀ id x op set k head older, s.active id = some x → s.careful (.execute id op) = true →
      op.touches set k → s.catalog.entries set k = head :: older → startTransactionId ≤ head.timestamp →
      head.timestamp ≠ id → (op.steps x.snapshot (x.state s.catalog)).finished = false) ∧
    (∀ id x set k, s.active id = some x → s.catalog.entries set k ≠ [] →
      ∃ e, traverse x.snapshot (s.catalog.entries set k) = some e ∧ IsCurrent x.snapshot (s.catalog.entries set k) e) ∧
    ∀ id x other y set k, s.active id = some x → s.active other = some y → other ≠ id →
      traverse y.snapshot ((s.rollback id x).catalog.entries set k) =
        traverse y.snapshot (s.catalog.entries set k) := by
  have hi := inv_of_reachable hinit h
  refine ⟨fun set k v hv => (hi.sound.chain_of_mem trivial hv).single v hv, ?_, ?_, ?_⟩
  · intro id x op set k head older hx hcareful ht hc hstart hne
    refine Bool.eq_false_iff.mpr fun hfin => ?_
    have hsees := sees_of_finished hx hcareful hfin ht hc
    have hunseen := x.snapshot.not_sees_other hstart ((hi.ids id x hx).1.symm ▸ hne)
    simp [hunseen] at hsees
  · exact fun id x set k hx hne => hi.traverse hx hne
  · exact fun id x other y set k hx hy hne => hi.traverse_rollback hx hy hne set k

section Runs

def new : CatalogRun := { catalog := {}, lastTimestamp := 1, lastTransactionID := startTransactionId }

theorem quiet_new : Quiet new where
  idle _ := rfl
  time := by decide
  issued := le_rfl
  sound := ⟨⟨fun _ _ => .nil, by simp [new]⟩, fun _ _ _ h => absurd rfl h, by simp [new], by simp [new]⟩

def first : Nat := startTransactionId + 1

def second : Nat := startTransactionId + 2

def third : Nat := startTransactionId + 3

def commentOpen : List CatalogAction :=
  [.begin, .execute first (.createEntry .tables "A" (.table {})), .commit first, .begin, .begin,
    .execute second (.alterTableEntry ⟨"A", .comment "a"⟩)]

/-- The third transaction drops the table under the hands of the second. -/
theorem chain_with_two_owners : (run step new (commentOpen ++ [.execute third (.dropEntry .tables "A")])).map
      (fun s => (s.catalog.chain .tables "A").map (·.timestamp)) = some [third, second, 2, 0] := by
  decide +kernel

/-- The second transaction is rolled back while the third looks on. -/
theorem catalog_isolated_comment :
    ∃ s x y, run (guarded careful step) new commentOpen = some s ∧ s.active second = some x ∧
      s.active third = some y ∧ (s.catalog.chain .tables "A").map (·.timestamp) = [second, 2, 0] ∧
      traverse y.snapshot ((s.rollback second x).catalog.chain .tables "A") =
        traverse y.snapshot (s.catalog.chain .tables "A") := by
  have hrun : (run (guarded careful step) new commentOpen).any (fun s => (s.active second).isSome &&
      (s.active third).isSome && (s.catalog.chain .tables "A").map (·.timestamp) = [second, 2, 0]) = true := by
    decide +kernel
  obtain ⟨s, hs, h⟩ := (any_eq_true _ _).mp hrun
  obtain ⟨h, hchain⟩ := (Bool.and_eq_true _ _).mp h
  obtain ⟨hx, hy⟩ := (Bool.and_eq_true _ _).mp h
  obtain ⟨x, hx⟩ := isSome_iff_exists.mp hx
  obtain ⟨y, hy⟩ := isSome_iff_exists.mp hy
  exact ⟨s, x, y, hs, hx, hy, of_decide_eq_true hchain,
    (catalog_isolated quiet_new (Reachable.init.run hs)).2.2.2 second x third y .tables (key "A") hx hy (by decide)⟩

end Runs

end CatalogRun

end Rag3db.Catalog
