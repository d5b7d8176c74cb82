import Rag3db.Catalog.CatalogMoves

open Option

namespace Rag3db.Catalog

open Library.Transition Storage CatalogSets

def committed (time : Nat) (X : Nat → Bool) : Nat → Bool := fun ts => decide (ts ≤ time) || X ts

namespace CatalogRun

variable (s : CatalogRun)

def spares (id : Nat) (set : SetName) (name : String) (oid : Nat) : Bool :=
  (seen (committed s.lastTimestamp fun _ => false) (s.catalog.chain set name)).all (·.oid = oid) &&
    (List.range' startTransactionId (s.lastTransactionID + 1 - startTransactionId)).all fun other =>
      other = id || (s.active other).all fun y => (seen y.snapshot.sees (s.catalog.chain set name)).all (·.oid = oid)

/-- Whether a name is given to an object only when nobody sees another one under it. -/
def separate : CatalogAction → Bool
  | .execute id (.createEntry set name _) => s.spares id set name (s.catalog.nextOID set)
  | .execute id (.alterTableEntry ⟨name, .rename newName⟩) =>
    (s.catalog.chain .tables name).head?.all fun e => s.spares id .tables newName e.oid
  | _ => true

/-- Under every view objects and names go together. -/
structure Objects (s : CatalogRun) : Prop where
  numbered : Numbered s.catalog
  own : ∀ id x, s.active id = some x → OneName x.snapshot.sees s.catalog ∧ SameObject x.snapshot.sees s.catalog
  latest : SameObject (committed s.lastTimestamp fun _ => false) s.catalog
  mixed : ∀ X : Nat → Bool, (∀ id, X id = true → ∃ x, s.active id = some x ∧ x.failed = false) →
    OneName (committed s.lastTimestamp X) s.catalog

variable {s} {s' init : CatalogRun} {x y : CatalogWriter} {id other : Nat} {set : SetName} {name : String}
  {k : List Char} {op : CatalogOperation}

theorem Inv.bounds {e : CatalogEntry} (h : Inv s) (he : e ∈ s.catalog.entries set k) :
    e.timestamp ≤ s.lastTimestamp ∨ startTransactionId ≤ e.timestamp ∧ e.timestamp ≤ s.lastTransactionID :=
  (h.sound.chain_of_mem trivial he).bounds e he

theorem Inv.not_sees (h : Inv s) (hx : s.active id = some x) (hy : s.active other = some y) (hne : other ≠ id) :
    y.snapshot.sees id = false :=
  y.snapshot.not_sees_other (h.ids id x hx).2.1 ((h.ids other y hy).1.symm ▸ hne.symm)

theorem Inv.not_committed {X : Nat → Bool} (h : Inv s) (hx : s.active id = some x) (hX : X id = false) :
    committed s.lastTimestamp X id = false := by
  have htime := h.time
  have hstart := (h.ids id x hx).2.1
  simp only [committed, hX, Bool.or_false, decide_eq_false_iff_not]
  omega

theorem Objects.beginTransaction (hi : Inv s) (h : Objects s) (hs : s.beginTransaction = some s') : Objects s' := by
  unfold CatalogRun.beginTransaction at hs
  dsimp only at hs
  split_ifs at hs with hnumbers
  cases hs
  -- nothing carries the new identifier
  have hnew : ∀ set k, ∀ e ∈ s.catalog.entries set k, e.timestamp ≠ s.lastTransactionID + 1 := by
    intro set k e he hts
    have hb := hi.bounds he
    omega
  have hsees : ∀ set k, ∀ e ∈ s.catalog.entries set k, committed s.lastTimestamp (fun _ => false) e.timestamp =
      Snapshot.sees ⟨s.lastTimestamp, s.lastTransactionID + 1, hnumbers.1, hnumbers.2.2, .inr hnumbers.2.1⟩
        e.timestamp := by
    intro set k e he
    rw [Bool.eq_iff_iff, Snapshot.sees_iff]
    simp [committed, hnew set k e he]
  refine ⟨h.numbered, fun id x hx => ?_, h.latest, fun X hX => ?_⟩
  · rcases setWriter_eq_some hx with ⟨rfl, hz⟩ | ⟨-, hx⟩
    · cases hz
      exact ⟨(h.mixed _ (by simp)).congr hsees, h.latest.congr hsees⟩
    · exact h.own id x hx
  · have hold := h.mixed (fun i => X i && i ≠ s.lastTransactionID + 1) fun id hid => by
      simp only [Bool.and_eq_true, decide_eq_true_eq] at hid
      obtain ⟨x, hx, hf⟩ := hX id hid.1
      rcases setWriter_eq_some hx with ⟨he, -⟩ | ⟨-, hx⟩
      · exact absurd he hid.2
      · exact ⟨x, hx, hf⟩
    exact hold.congr fun set k e he => by simp [committed, hnew set k e he]

theorem all_of_spares {oid : Nat} (hi : Inv s) (h : s.spares id set name oid = true) :
    (∀ v, seen (committed s.lastTimestamp fun _ => false) (s.catalog.chain set name) = some v → v.oid = oid) ∧
      ∀ other y, s.active other = some y → other ≠ id →
        ∀ v, seen y.snapshot.sees (s.catalog.chain set name) = some v → v.oid = oid := by
  obtain ⟨hlatest, hothers⟩ := (Bool.and_eq_true _ _).mp h
  refine ⟨fun v hv => ?_, fun other y hy hne v hv => ?_⟩
  · simpa [hv] using hlatest
  · obtain ⟨-, hstart, hissued, -⟩ := hi.ids other y hy
    have hmem : other ∈ List.range' startTransactionId (s.lastTransactionID + 1 - startTransactionId) :=
      List.mem_range'_1.mpr ⟨hstart, by omega⟩
    simpa [hne, hy, hv] using List.all_eq_true.mp hothers other hmem

theorem sameObject_of_separate {V : Nat → Bool} {c' : CatalogSets} (hm : Move x.snapshot op s.catalog c')
    (hseparate : s.separate (.execute id op) = true) (h : SameObject V s.catalog)
    (hspared : V x.snapshot.id = false → ∀ set name oid, s.spares id set name oid = true →
      ∀ v, seen V (s.catalog.chain set name) = some v → v.oid = oid) : SameObject V c' := by
  refine hm.sameObject h (fun hV set name data hop => ?_) fun hV name newName head older hop hc => ?_
  · subst hop
    exact hspared hV set name _ hseparate
  · subst hop
    refine hspared hV .tables newName head.oid ?_
    simpa [separate, hc] using hseparate

theorem Objects.execute (hi : Inv s) (h : Objects s) (hx : s.active id = some x)
    (hcareful : s.careful (.execute id op) = true) (hseparate : s.separate (.execute id op) = true)
    (hs : s.execute id x op = some s') : Objects s' := by
  unfold CatalogRun.execute at hs
  split_ifs at hs with hf
  cases hs
  obtain ⟨hid, hstart, -, hts⟩ := hi.ids id x hx
  have hm : Move x.snapshot op s.catalog
      ((op.steps x.snapshot (x.state s.catalog)).last (x.state s.catalog)).catalog := by
    refine op.move (x.state s.catalog) fun set name hop head older hc => ?_
    subst hop
    have hc' : s.catalog.chain set name = head :: older := hc
    simp only [careful, hx, all_some, hc', List.head?_cons, Bool.not_eq_true'] at hcareful
    exact sees_of_no_conflict hcareful
  refine ⟨hm.numbered h.numbered, fun other y hy => ?_, ?_, fun X hX => ?_⟩
  · rcases setWriter_eq_some hy with ⟨rfl, hz⟩ | ⟨hne, hy⟩
    · cases hz
      obtain ⟨hone, hsame⟩ := h.own other x hx
      refine ⟨hm.oneName h.numbered hone fun _ _ hts => hts, sameObject_of_separate hm hseparate hsame fun hV => ?_⟩
      exact absurd (x.snapshot.sees_iff.mpr (.inl rfl)) (by simp [hV])
    · obtain ⟨hone, hsame⟩ := h.own other y hy
      have hunseen : y.snapshot.sees x.snapshot.id = false := hid.symm ▸ hi.not_sees hx hy hne
      exact ⟨hm.oneName h.numbered hone fun hV => by simp [hunseen] at hV,
        sameObject_of_separate hm hseparate hsame fun _ _ _ _ hspares => (all_of_spares hi hspares).2 other y hy hne⟩
  · exact sameObject_of_separate hm hseparate h.latest fun _ _ _ _ hspares => (all_of_spares hi hspares).1
  · have hold : ∀ other, X other = true → ∃ y, s.active other = some y ∧ y.failed = false := by
      intro other hother
      obtain ⟨y, hy, hyf⟩ := hX other hother
      rcases setWriter_eq_some hy with ⟨rfl, -⟩ | ⟨-, hy⟩
      · exact ⟨x, hx, Bool.eq_false_iff.mpr hf⟩
      · exact ⟨y, hy, hyf⟩
    refine hm.oneName h.numbered (h.mixed X hold) fun hV ts hsees => ?_
    rcases x.snapshot.sees_iff.mp hsees with rfl | hle
    · exact hV
    · simp [committed, hle.trans hts]

theorem Inv.sameObject_committed (hi : Inv s) (h : SameObject (committed s.lastTimestamp fun _ => false) s.catalog)
    (hx : s.active id = some x) : SameObject (committed s.lastTimestamp (· = id)) s.catalog := by
  intro set k v hv w hw
  by_cases hown : ∃ e ∈ s.catalog.entries set k, e.timestamp = id
  · obtain ⟨e, he, hts⟩ := hown
    obtain ⟨hid, hstart, -⟩ := hi.ids id x hx
    obtain ⟨head, hhead, hheadts, -⟩ := (hi.sound.chain_of_mem trivial he).traverse_own
      (show startTransactionId ≤ x.snapshot.id from hid.symm ▸ hstart) he (hts.trans hid.symm)
    obtain ⟨older, hc⟩ := List.head?_eq_some_iff.mp hhead
    rw [hc, unseen_cons_self (by simp [committed, hheadts, hid])] at hw
    cases hw
  · have hcongr : ∀ e ∈ s.catalog.entries set k, committed s.lastTimestamp (· = id) e.timestamp =
        committed s.lastTimestamp (fun _ => false) e.timestamp := fun e he => by
      have hne : e.timestamp ≠ id := fun hts => hown ⟨e, he, hts⟩
      simp [committed, hne]
    rw [seen_congr hcongr] at hv
    rw [unseen_congr hcongr] at hw
    exact h set k v hv w hw

theorem Objects.commit (hi : Inv s) (h : Objects s) (hx : s.active id = some x) (hs : s.commit id x = some s') :
    Objects s' := by
  unfold CatalogRun.commit at hs
  split_ifs at hs with hguard
  cases hs
  rw [not_or] at hguard
  have hf : x.failed = false := Bool.eq_false_iff.mpr hguard.1
  have hentries := hi.entries_commit hx hf (s.lastTimestamp + 1)
  have hdata : ∀ e : CatalogEntry,
      (if e.timestamp = id then { e with timestamp := s.lastTimestamp + 1 } else e).isDeleted =
      e.isDeleted ∧ (if e.timestamp = id then { e with timestamp := s.lastTimestamp + 1 } else e).oid = e.oid :=
    fun e => by split_ifs <;> exact ⟨rfl, rfl⟩
  -- a view of what is committed now is a view of what was, and of the transaction
  have hcommitted : ∀ X : Nat → Bool, ∀ set k, ∀ e ∈ s.catalog.entries set k, committed (s.lastTimestamp + 1) X
      (if e.timestamp = id then { e with timestamp := s.lastTimestamp + 1 } else e).timestamp =
        committed s.lastTimestamp (fun i => X i || i = id) e.timestamp := by
    intro X set k e he
    have hb := hi.bounds he
    split_ifs with hts
    · simp [committed, hts]
    · have hle : e.timestamp ≤ s.lastTimestamp + 1 ↔ e.timestamp ≤ s.lastTimestamp := by omega
      simp [committed, hts, hle]
  refine ⟨fun set k v hv => ?_, fun other y hy => ?_, ?_, fun X hX => ?_⟩
  · rw [hentries] at hv
    obtain ⟨e, he, rfl⟩ := List.mem_map.mp hv
    rw [(hdata e).2]
    have hnext : ((x.state s.catalog).commit (s.lastTimestamp + 1)).nextOID = s.catalog.nextOID :=
      DDLState.nextOID_commit
    exact (h.numbered set k e he).trans_eq (congrFun hnext set).symm
  · rcases setWriter_eq_some hy with ⟨-, hz⟩ | ⟨hne, hy⟩
    · cases hz
    obtain ⟨hone, hsame⟩ := h.own other y hy
    have hview : ∀ set k, ∀ e ∈ s.catalog.entries set k, y.snapshot.sees
        (if e.timestamp = id then { e with timestamp := s.lastTimestamp + 1 } else e).timestamp =
          y.snapshot.sees e.timestamp := by
      intro set k e he
      split_ifs with hts
      · rw [hts, hi.not_sees hx hy hne]
        refine Bool.eq_false_iff.mpr fun (hsees : y.snapshot.sees (s.lastTimestamp + 1) = true) => ?_
        have hids := hi.ids other y hy
        rcases y.snapshot.sees_iff.mp hsees with he | hle <;> omega
      · rfl
    exact ⟨hone.map hentries hview hdata, hsame.map hentries hview hdata⟩
  · refine (hi.sameObject_committed h.latest hx).map hentries (fun set k e he => ?_) hdata
    rw [hcommitted _ set k e he]
    simp
  · refine (h.mixed (fun i => X i || i = id) fun other hother => ?_).map hentries (hcommitted X) hdata
    rw [Bool.or_eq_true, decide_eq_true_eq] at hother
    rcases hother with hother | rfl
    · obtain ⟨y, hy, hyf⟩ := hX other hother
      rcases setWriter_eq_some hy with ⟨-, hz⟩ | ⟨-, hy⟩
      · cases hz
      · exact ⟨y, hy, hyf⟩
    · exact ⟨x, hx, hf⟩

theorem Objects.rollback (hi : Inv s) (h : Objects s) (hx : s.active id = some x) : Objects (s.rollback id x) := by
  obtain ⟨p, hentries, hp⟩ := hi.entries_rollback hx
  -- a view that does not see the transaction misses nothing
  have hkept : ∀ V : Nat → Bool, V id = false →
      ∀ set k, ∀ e ∈ s.catalog.entries set k, V e.timestamp = true → p e = true :=
    fun V hV set k e he hsees => Bool.of_not_eq_false fun hf => by simp [hp set k e he hf, hV] at hsees
  refine ⟨fun set k v hv => ?_, fun other y hy => ?_, ?_, fun X hX => ?_⟩
  · rw [hentries] at hv
    have hnext : (x.state s.catalog).rollback.nextOID = s.catalog.nextOID := DDLState.nextOID_rollback
    exact (h.numbered set k v (List.mem_filter.mp hv).1).trans_eq (congrFun hnext set).symm
  · rcases setWriter_eq_some hy with ⟨-, hz⟩ | ⟨hne, hy⟩
    · cases hz
    obtain ⟨hone, hsame⟩ := h.own other y hy
    have hview := hkept _ (hi.not_sees hx hy hne)
    exact ⟨hone.filter hentries hview, hsame.filter hentries hview⟩
  · exact h.latest.filter hentries (hkept _ (hi.not_committed hx rfl))
  · have hout : X id = false := Bool.eq_false_iff.mpr fun hid => by
      obtain ⟨y, hy, -⟩ := hX id hid
      rcases setWriter_eq_some hy with ⟨-, hz⟩ | ⟨hne, -⟩
      · cases hz
      · exact hne rfl
    refine (h.mixed X fun other hother => ?_).filter hentries (hkept _ (hi.not_committed hx hout))
    obtain ⟨y, hy, hyf⟩ := hX other hother
    rcases setWriter_eq_some hy with ⟨-, hz⟩ | ⟨-, hy⟩
    · cases hz
    · exact ⟨y, hy, hyf⟩

theorem Objects.step {a : CatalogAction} (hi : Inv s) (h : Objects s)
    (hs : guarded (fun s a => s.careful a && s.separate a) CatalogRun.step s a = some s') : Objects s' := by
  obtain ⟨hguard, hs⟩ := guarded_eq_some.mp hs
  obtain ⟨hcareful, hseparate⟩ := (Bool.and_eq_true _ _).mp hguard
  cases a with
  | begin => exact h.beginTransaction hi hs
  | execute id op =>
    obtain ⟨x, hx, hs⟩ := bind_eq_some_iff.mp hs
    exact h.execute hi hx hcareful hseparate hs
  | commit id =>
    obtain ⟨x, hx, hs⟩ := bind_eq_some_iff.mp hs
    exact h.commit hi hx hs
  | rollback id =>
    obtain ⟨x, hx, rfl⟩ := map_eq_some_iff.mp hs
    exact h.rollback hi hx

/-- A catalog that nobody works on, with its objects in order. -/
structure QuietObjects (s : CatalogRun) : Prop extends Quiet s where
  numbered : Numbered s.catalog
  oneName : OneName (committed s.lastTimestamp fun _ => false) s.catalog
  sameObject : SameObject (committed s.lastTimestamp fun _ => false) s.catalog

theorem objects_of_reachable (hinit : QuietObjects init)
    (h : Reachable (guarded (fun s a => s.careful a && s.separate a) step) init s) : Inv s ∧ Objects s := by
  refine h.invariant (P := fun s => Inv s ∧ Objects s) ?_ fun s s' a ⟨hi, ho⟩ hs => ⟨?_, ho.step hi hs⟩
  · refine ⟨inv_of_reachable hinit.toQuiet .init, hinit.numbered, by simp [hinit.idle], hinit.sameObject,
      fun X hX => ?_⟩
    obtain rfl : X = fun _ => false := funext fun id => Bool.eq_false_iff.mpr fun hid => by
      obtain ⟨x, hx, -⟩ := hX id hid
      simp [hinit.idle] at hx
    exact hinit.oneName
  · obtain ⟨hguard, hs⟩ := guarded_eq_some.mp hs
    exact hi.step (guarded_eq_some.mpr ⟨((Bool.and_eq_true _ _).mp hguard).1, hs⟩)

theorem getEntryOfOID_eq_some {c : CatalogSets} {tx : Snapshot} {names : List (List Char)} {oid : Nat}
    {v : CatalogEntry}
    (h : c.getEntryOfOID tx set names oid = some v) :
    ∃ k head older, c.entries set k = head :: older ∧ head.oid = oid ∧ seen tx.sees (c.entries set k) = some v := by
  obtain ⟨k, -, hk⟩ := List.exists_of_findSome?_eq_some h
  cases hc : c.entries set k with
  | nil => simp [hc] at hk
  | cons head older =>
    simp only [hc, ne_eq] at hk
    split_ifs at hk with ho
    exact ⟨k, head, older, hc, ho, hc ▸ hk⟩

/-- As long as nobody drops what he might not alter, and no name is given to an
object while another is still seen under it, a transaction finds by its number
exactly the object that it sees under some name. -/
theorem oid_lookup_iff (hinit : QuietObjects init)
    (h : Reachable (guarded (fun s a => s.careful a && s.separate a) step) init s) (hx : s.active id = some x)
    {names : List (List Char)} (hnames : ∀ k, s.catalog.entries set k ≠ [] → k ∈ names) (oid : Nat) (v : CatalogEntry) :
    s.catalog.getEntryOfOID x.snapshot set names oid = some v ↔
      ∃ k, (traverse x.snapshot (s.catalog.entries set k)).filter (fun e => !e.isDeleted) = some v ∧ v.oid = oid := by
  obtain ⟨hi, ho⟩ := objects_of_reachable hinit h
  obtain ⟨hone, hsame⟩ := ho.own id x hx
  -- the head under whose name an object is seen has its number
  have hhead : ∀ {k head older v}, s.catalog.entries set k = head :: older →
      seen x.snapshot.sees (s.catalog.entries set k) = some v → v.oid = head.oid := by
    intro k head older v hc hv
    have hkey : key head.name = k := hi.sound.named set k head (hc ▸ List.mem_cons_self)
    subst hkey
    exact hsame.head_oid hc hv
  refine ⟨fun hget => ?_, fun ⟨k, hv, ho⟩ => ?_⟩
  · obtain ⟨k, head, older, hc, ho, hv⟩ := getEntryOfOID_eq_some hget
    exact ⟨k, hv, (hhead hc hv).trans ho⟩
  · have hv : seen x.snapshot.sees (s.catalog.entries set k) = some v := hv
    cases hget : s.catalog.getEntryOfOID x.snapshot set names oid with
    | some w =>
      obtain ⟨k', head, older, hc, ho', hw⟩ := getEntryOfOID_eq_some hget
      obtain rfl := hone set k k' v w hv hw (ho.trans ((hhead hc hw).trans ho').symm)
      exact hw.symm.trans hv
    | none =>
      cases hc : s.catalog.entries set k with
      | nil => simp [hc, seen] at hv
      | cons head older =>
        have hnone := List.findSome?_eq_none_iff.mp hget k (hnames k (by simp [hc]))
        have ho' := (hhead hc hv).symm.trans ho
        simp only [hc, ho', ne_eq] at hnone
        rw [hc] at hv
        exact absurd (hnone.symm.trans hv) (by simp)

section Runs

theorem quietObjects_new : QuietObjects new :=
  ⟨quiet_new, by simp [Numbered, new], by simp [OneName, new, seen], by simp [SameObject, new, seen]⟩

def fourth : Nat := startTransactionId + 4

def tableDropped : List CatalogAction :=
  [.begin, .execute first (.createEntry .tables "A" (.table {})), .commit first, .begin, .begin,
    .execute third (.dropEntry .tables "A"), .commit third]

/-- Another table of that name is created. The number of the old one is no
longer found by the second transaction, and that of the new one leads it to the old. -/
theorem number_of_recreated_table :
    (run step new (tableDropped ++ [.begin, .execute fourth (.createEntry .tables "A" (.table {})),
      .commit fourth])).bind (fun s => (s.active second).map fun x =>
        ((s.catalog.getEntry x.snapshot .tables "A").toOption.map (·.oid),
          (s.catalog.getEntryOfOID x.snapshot .tables [key "A"] 0).map (·.oid),
          (s.catalog.getEntryOfOID x.snapshot .tables [key "A"] 1).map (·.oid))) =
      some (some 0, none, some 0) := by
  decide +kernel

/-- Before, the second transaction finds the table by its number. -/
theorem oid_lookup_dropped :
    ∃ s x v, run (guarded (fun s a => s.careful a && s.separate a) step) new tableDropped = some s ∧
      s.active second = some x ∧ traverse x.snapshot (s.catalog.chain .tables "A") = some v ∧
      ∀ names, (∀ k, s.catalog.entries .tables k ≠ [] → k ∈ names) →
        s.catalog.getEntryOfOID x.snapshot .tables names v.oid = some v := by
  have hrun : (run (guarded (fun s a => s.careful a && s.separate a) step) new tableDropped).any (fun s =>
      (s.active second).any fun x => (traverse x.snapshot (s.catalog.chain .tables "A")).any fun v =>
        !v.isDeleted) = true := by
    decide +kernel
  obtain ⟨s, hs, hrun⟩ := (any_eq_true _ _).mp hrun
  obtain ⟨x, hx, hrun⟩ := (any_eq_true _ _).mp hrun
  obtain ⟨v, hv, hlive⟩ := (any_eq_true _ _).mp hrun
  refine ⟨s, x, v, hs, hx, hv, fun names hnames => ?_⟩
  exact (oid_lookup_iff quietObjects_new (Reachable.init.run hs) hx hnames v.oid v).mpr
    ⟨key "A", filter_eq_some_iff.mpr ⟨hv, hlive⟩, rfl⟩

end Runs

end CatalogRun

end Rag3db.Catalog
