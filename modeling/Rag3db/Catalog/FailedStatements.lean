import Rag3db.Catalog.CatalogStatements

open List

namespace Rag3db.Catalog

open Library.Interruptible Library.Transition Storage CatalogSets CatalogSets

variable {c c₀ : CatalogSets} {s : DDLState} {tx : Snapshot} {set : SetName} {name : String} {k : List Char}
  {time issued id : Nat} {R : List Nat} {U : List CatalogEntryRecord} {v : CatalogEntry}

def DDLState.HasRecord (s : DDLState) (set : SetName) (k : List Char) (v : CatalogEntry) : Prop :=
  ∃ r ∈ s.undoBuffer, r.set = set ∧ key r.name = k ∧ Adjacent v.ref r.ref (s.catalog.entries set k)

/-- What a state in the middle of an operation needs for a rollback: records of
all versions that the transaction has written, and the chains of the others. -/
structure DDLState.Undoable (s : DDLState) (id : Nat) (c₀ : CatalogSets) : Prop where
  recorded : ∀ set k, ∀ v ∈ s.catalog.entries set k, v.timestamp = id → s.HasRecord set k v
  others : ∀ set k, SameName (c₀.others id set k) (s.catalog.others id set k)

variable {versions : List CatalogEntry}

theorem Adjacent.unique {newer newer' ref : Nat} (hrefs : RefsDecrease versions)
    (h : Adjacent newer ref versions) (h' : Adjacent newer' ref versions) : newer = newer' := by
  obtain ⟨v, hv, rfl⟩ := h.mem
  by_contra hne
  have hmem : v ∈ versions.filter fun w => w.ref ≠ newer' := mem_filter.mpr ⟨hv, by simpa using hne⟩
  rw [← removeNext_eq hrefs h', removeNext_eq hrefs h] at hmem
  simpa using (mem_filter.mp hmem).2

theorem Recorded.exists_adjacent (h : Recorded c U R) : (∀ r ∈ U, ∃ n ∈ R, Adjacent n r.ref (c.chain r.set r.name)) ∧
      ∀ n ∈ R, ∃ r ∈ U, Adjacent n r.ref (c.chain r.set r.name) := by
  have hadj := h.adjacent
  clear h
  induction hadj with
  | nil => simp
  | cons ha _ ih =>
    refine ⟨fun r hr => ?_, fun n hn => ?_⟩
    · rcases mem_cons.mp hr with rfl | hr
      · exact ⟨_, mem_cons_self, ha⟩
      · exact (ih.1 r hr).imp fun _ hn => ⟨mem_cons_of_mem _ hn.1, hn.2⟩
    · rcases mem_cons.mp hn with rfl | hn
      · exact ⟨_, mem_cons_self, ha⟩
      · exact (ih.2 n hn).imp fun _ hr => ⟨mem_cons_of_mem _ hr.1, hr.2⟩

theorem Recorded.hasRecord_iff (h : Recorded c U R) (hl : Linked c) (hv : v ∈ c.entries set k) :
    DDLState.HasRecord ⟨c, U⟩ set k v ↔ v.ref ∈ R := by
  refine ⟨fun ⟨r, hr, hset, hk, ha⟩ => ?_, fun hn => ?_⟩
  · obtain ⟨n, hn, ha'⟩ := h.exists_adjacent.1 r hr
    rw [chain, hset, hk] at ha'
    rwa [ha.unique (hl.refs set k) ha']
  · obtain ⟨r, hr, ha⟩ := h.exists_adjacent.2 v.ref hn
    obtain ⟨w, hw, href⟩ := ha.mem
    obtain ⟨rfl, rfl⟩ := hl.apart set k r.set (key r.name) v hv w hw href.symm
    exact ⟨r, hr, rfl, rfl, ha⟩

variable {set' : SetName} {name' : String}

theorem setChain_of_key (hset : set' = set)
    (hk : key name' = key name) : c.setChain set' name' versions = c.setChain set name versions := by
  unfold setChain
  rw [hset, hk]

theorem setChain_comm {versions' : List CatalogEntry} (hk : ¬(set' = set ∧ key name' = key name)) :
    (c.setChain set name versions).setChain set' name' versions' =
      (c.setChain set' name' versions').setChain set name versions := by
  simp only [setChain, mk.injEq, and_true]
  funext set₀ k
  by_cases h' : set₀ = set' ∧ k = key name'
  · have h : ¬(set₀ = set ∧ k = key name) := fun h => hk ⟨h'.1.symm.trans h.1, h'.2.symm.trans h.2⟩
    simp only [if_neg h]
  · simp only [if_neg h']

theorem rollback_setChain_nil :
    DDLState.rollback ⟨c.setChain set name [], U⟩ = (DDLState.rollback ⟨c, U⟩).setChain set name [] := by
  induction U generalizing c with
  | nil => rfl
  | cons r U ih =>
    have hstep : r.rollback (c.setChain set name []) = (r.rollback c).setChain set name [] := by
      unfold CatalogEntryRecord.rollback
      by_cases hk : r.set = set ∧ key r.name = key name
      · have hnil : (c.setChain set name []).chain r.set r.name = [] := if_pos hk
        rw [hnil, setChain_of_key hk.1 hk.2, setChain_of_key hk.1 hk.2, setChain_setChain, setChain_setChain]
        rfl
      · have hkept : (c.setChain set name []).chain r.set r.name = c.chain r.set r.name := if_neg hk
        rw [hkept, setChain_comm hk]
    have hfold : ∀ c', DDLState.rollback ⟨c', r :: U⟩ = DDLState.rollback ⟨r.rollback c', U⟩ := fun _ => rfl
    rw [hfold, hfold, hstep, ih]

/-- What a rollback takes out of the chains of a state. -/
structure Undone (id : Nat) (s : DDLState) (R : List Nat) : Prop where
  entries : ∀ set k, s.rollback.entries set k = (s.catalog.entries set k).filter fun v => v.ref ∉ R
  own : ∀ set k, ∀ v ∈ s.catalog.entries set k, v.ref ∈ R → v.timestamp = id
  hasRecord : ∀ set k, ∀ v ∈ s.catalog.entries set k, s.HasRecord set k v ↔ v.ref ∈ R

variable {strict : Prop} {pending : List Nat}

theorem Working.undone (h : Working strict time issued id R pending s) : Undone id s R where
  entries := h.recorded.entries_rollback h.sound.toLinked
  own set k v hv hn := (h.own set k v hv).mpr (.inl hn)
  hasRecord _ _ _ hv := h.recorded.hasRecord_iff h.sound.toLinked hv

theorem Undone.setChain_nil (h : Undone id s R) (set : SetName) (name : String) :
    Undone id { s with catalog := s.catalog.setChain set name [] } R := by
  have hcases : ∀ {set' k v}, v ∈ (s.catalog.setChain set name []).entries set' k →
      ¬(set' = set ∧ k = key name) ∧ v ∈ s.catalog.entries set' k := by
    intro set' k v hv
    by_cases hk : set' = set ∧ k = key name
    · obtain ⟨rfl, rfl⟩ := hk
      rw [entries_setChain] at hv
      cases hv
    · exact ⟨hk, (entries_setChain_of_ne hk).subst hv⟩
  refine ⟨fun set' k => ?_, fun set' k v hv => h.own set' k v (hcases hv).2, fun set' k v hv => ?_⟩
  · rw [rollback_setChain_nil]
    by_cases hk : set' = set ∧ k = key name
    · simp [setChain, hk]
    · rw [entries_setChain_of_ne hk, h.entries, entries_setChain_of_ne hk]
  · obtain ⟨hk, hv⟩ := hcases hv
    rw [← h.hasRecord set' k v hv]
    unfold DDLState.HasRecord
    rw [entries_setChain_of_ne hk]

theorem Passed.undone (h : Passed strict time issued tx c₀ s) : ∃ R, Undone tx.id s R := by
  rcases h with ⟨R, pending, h⟩ | ⟨s', set, name, ⟨R, pending, h⟩, rfl⟩
  · exact ⟨R, h.working.undone⟩
  · exact ⟨R, h.working.undone.setChain_nil set name⟩

/-- What a rollback leaves is what the others had, if and only if the state was fit for it. -/
theorem Undone.restored_iff (h : Undone id s R) (c₀ : CatalogSets) (hid : id ≠ 0) :
    (∀ set k, SameName (c₀.others id set k) (s.rollback.entries set k)) ↔ s.Undoable id c₀ := by
  have hothers : (∀ set k, ∀ v ∈ s.catalog.entries set k, v.timestamp = id → v.ref ∈ R) →
      ∀ set k, s.rollback.entries set k = s.catalog.others id set k := by
    intro hrec set k
    rw [h.entries]
    exact filter_congr fun v hv => decide_eq_decide.mpr (not_congr ⟨h.own set k v hv, hrec set k v hv⟩)
  refine ⟨fun hsame => ?_, fun hu set k => ?_⟩
  · have hrec : ∀ set k, ∀ v ∈ s.catalog.entries set k, v.timestamp = id → v.ref ∈ R := by
      intro set k v hv hts
      by_contra hn
      have hleft : v ∈ s.rollback.entries set k := by
        rw [h.entries]
        exact mem_filter.mpr ⟨hv, by simpa using hn⟩
      rcases hsame set k with he | ⟨-, e, he, hzero, -⟩
      · rw [he] at hleft
        simpa [hts] using (mem_filter.mp hleft).2
      · rw [he, mem_singleton] at hleft
        exact hid (hts.symm.trans (hleft ▸ hzero))
    exact ⟨fun set k v hv hts => (h.hasRecord set k v hv).mpr (hrec set k v hv hts),
      fun set k => hothers hrec set k ▸ hsame set k⟩
  · rw [hothers fun set k v hv hts => (h.hasRecord set k v hv).mp (hu.recorded set k v hv hts)]
    exact hu.others set k

def resolve (tx : Snapshot) (versions : List CatalogEntry) : Option CatalogEntry :=
  (traverse tx versions).filter fun e => !e.isDeleted

theorem SameName.resolve {before after : List CatalogEntry} (h : SameName before after) :
    resolve tx after = resolve tx before := by
  rcases h with rfl | ⟨rfl, e, rfl, -, hdeleted⟩
  · rfl
  · unfold Catalog.resolve CatalogSets.traverse
    cases hsees : tx.sees e.timestamp <;> simp [hdeleted]

theorem resolve_others (hstart : startTransactionId ≤ id) (hne : tx.id ≠ id) :
    resolve tx (c.others id set k) = resolve tx (c.entries set k) := by
  have hsees : ∀ v ∈ c.entries set k, tx.sees v.timestamp = true → decide (v.timestamp ≠ id) = true := by
    refine fun v _ hsees => decide_eq_true fun hts => ?_
    simp [tx.not_sees_other (hts ▸ hstart) (hts.trans_ne hne.symm)] at hsees
  rw [resolve, others, traverse_filter hsees, resolve]

theorem Working.loose (h : Working strict time issued id R pending s) : Working False time issued id R pending s :=
  ⟨⟨h.sound.toLinked, False.elim, h.sound.named, h.sound.fresh⟩, h.recorded, h.ascending, h.own, h.fresh⟩

theorem Half.others (h : Half strict time issued tx c₀ s) :
    ∀ set k, SameName (c₀.others tx.id set k) (s.catalog.others tx.id set k) := by
  obtain ⟨R, pending, h⟩ := h
  exact h.others

/-- With records of all its versions a transaction can always be rolled back. -/
theorem Done.undoable (h : Done strict time issued tx c₀ s) : s.Undoable tx.id c₀ := by
  refine ⟨fun set k v hv hts => ?_, h.half.others⟩
  obtain ⟨R, h⟩ := h
  exact (h.working.undone.hasRecord set k v hv).mpr (((h.working.own set k v hv).mp hts).resolve_right (by simp))

namespace CatalogRun

variable {init s : CatalogRun} {x : CatalogWriter} {p : DDLState}

theorem Inv.done_loose (h : Inv s) (hx : s.active id = some x) (hf : x.failed = false) :
    Done False s.lastTimestamp s.lastTransactionID x.snapshot s.catalog (x.state s.catalog) := by
  obtain ⟨R, hdone⟩ := h.done hx hf
  exact ⟨R, hdone.working.loose, hdone.others, fun _ _ _ _ _ _ hw => hw⟩

/-- What a statement has done up to the point where it raises an exception is
undone by the rollback if and only if every version of the transaction has its
record there and no chain is out of the map. Then each name stands for what it
stood for, whoever looks. All statements but a table's new name see to it
themselves before they raise an exception. -/
theorem failed_statement_undone_iff (hinit : Quiet init) (h : Reachable (guarded careful step) init s)
    (hx : s.active id = some x) (hf : x.failed = false) (statement : CatalogStatement) (order : MapOrder)
    (hp : p ∈ (statement.steps x.snapshot order).points (x.state s.catalog)) :
    ((∀ set k, SameName ((s.rollback id x).catalog.entries set k) (p.rollback.entries set k)) ↔
      p.Undoable id s.catalog) ∧
    (p.Undoable id s.catalog → ∀ tx : Snapshot, tx.id ≠ id → ∀ set k,
      resolve tx (p.rollback.entries set k) = resolve tx (s.catalog.entries set k)) ∧
    ((∀ name newName, statement ≠ .alterTableEntry ⟨name, .rename newName⟩) →
      (statement.steps x.snapshot order (x.state s.catalog)).finished = false →
      ((statement.steps x.snapshot order (x.state s.catalog)).last (x.state s.catalog)).Undoable id s.catalog) := by
  have hi := inv_of_reachable hinit h
  obtain ⟨hid, hstart, hissued, -⟩ := hi.ids id x hx
  have hdone := hi.done_loose hx hf
  have hpos : 0 < startTransactionId := by decide
  have hbase : ∀ set k, (s.rollback id x).catalog.entries set k = s.catalog.others id set k := by
    obtain ⟨R, hh⟩ := hdone
    refine fun set k => (hh.working.undone.entries set k).trans (filter_congr fun v hv => ?_)
    have hown := hh.working.own set k v hv
    simp only [not_mem_nil, or_false, hid] at hown
    exact decide_eq_decide.mpr (not_congr hown.symm)
  have hcontract := statement.sequential (hid.symm ▸ hstart) (hid.symm ▸ hissued)
    (E := Half False s.lastTimestamp s.lastTransactionID x.snapshot s.catalog) (fun _ => Done.half) order
    (fun _ _ _ _ h => h)
  have hpassed : Passed False s.lastTimestamp s.lastTransactionID x.snapshot s.catalog p := by
    rcases mem_cons.mp hp with rfl | hp
    · exact .inl hdone.half
    · exact hcontract.passes hdone p hp
  obtain ⟨R, hundone⟩ := hpassed.undone
  rw [hid] at hundone
  have hiff := hundone.restored_iff s.catalog (by omega)
  refine ⟨by simpa only [hbase] using hiff, fun hu tx hne set k => ?_, fun hrename hfin => ?_⟩
  · exact ((hiff.mpr hu set k).resolve).trans (resolve_others hstart hne)
  · have hraises := statement.sequential (hid.symm ▸ hstart) (hid.symm ▸ hissued)
      (E := Done False s.lastTimestamp s.lastTransactionID x.snapshot s.catalog) (fun _ h => h) order
      (fun name newName he => absurd he (hrename name newName))
    exact hid ▸ (hraises.raises hdone hfin).undoable

section Runs

def tableOpen : List CatalogAction :=
  [.begin, .execute first (.createEntry .tables "A" (.table {})), .commit first, .begin, .begin]

def alterable (id : Nat) (name : String) (s : CatalogRun) : Option (List Nat × Bool) :=
  (s.active id).map fun x => ((s.catalog.chain .tables name).map (·.timestamp),
    (s.catalog.checkAlter x.snapshot name).toOption.isSome)

/-- The third transaction is about to create `B` when the second wants to give
this name to `A`. It is refused, and rolled back, but `A` remains hidden under
a tombstone that nobody will take away. An exception while a comment is put in
its place loses the table. -/
theorem name_hidden_by_failed_rename :
    (run step new (tableOpen ++ [.execute third (.createEntry .tables "B" (.table {})),
      .execute second (.alterTableEntry ⟨"A", .rename "B"⟩), .rollback second])).bind (alterable third "A") =
        some ([second, 2, 0], false) ∧
    (run step new (tableOpen ++ [.execute third (.createEntry .tables "B" (.table {})),
      .rollback second])).bind (alterable third "A") = some ([2, 0], true) ∧
    ((run step new tableOpen).bind fun s => (s.active second).map fun x =>
      ((CatalogStatement.alterTableEntry ⟨"A", .comment "a"⟩).steps x.snapshot (fun _ => [])).points
        (x.state s.catalog) |>.map fun p => (p.rollback.chain .tables "A").map (·.timestamp)) =
          some [[2, 0], [], [second, 2, 0], [2, 0]] := by
  decide +kernel

def createAgain : CatalogStatement := .createTableEntry "A" false { properties := [⟨"id", true⟩] }

theorem failed_statement_undone_create :
    ∃ s x, run (guarded careful step) new tableOpen = some s ∧ s.active second = some x ∧
      (createAgain.steps x.snapshot (fun _ => []) (x.state s.catalog)).finished = false ∧
      ∀ tx : Snapshot, tx.id ≠ second → ∀ set k,
        resolve tx (((createAgain.steps x.snapshot (fun _ => []) (x.state s.catalog)).last
          (x.state s.catalog)).rollback.entries set k) = resolve tx (s.catalog.entries set k) := by
  have hrun : (run (guarded careful step) new tableOpen).any (fun s => (s.active second).any fun x =>
      !x.failed && !(createAgain.steps x.snapshot (fun _ => []) (x.state s.catalog)).finished) = true := by
    decide +kernel
  obtain ⟨s, hs, hrun⟩ := (Option.any_eq_true _ _).mp hrun
  obtain ⟨x, hx, hrun⟩ := (Option.any_eq_true _ _).mp hrun
  rw [Bool.and_eq_true, Bool.not_eq_true', Bool.not_eq_true'] at hrun
  obtain ⟨-, hresolve, hundoable⟩ := failed_statement_undone_iff quiet_new (Reachable.init.run hs) hx hrun.1
    createAgain (fun _ => []) (Steps.last_mem_points _ _)
  exact ⟨s, x, hs, hx, hrun.2, hresolve (hundoable (fun _ _ h => nomatch h) hrun.2)⟩

end Runs

end CatalogRun

end Rag3db.Catalog
