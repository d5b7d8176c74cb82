import Rag3db.Catalog.VersionChains

open List

namespace Rag3db.Catalog

open Storage CatalogEntryRecord DDLState

variable {c c' : CatalogSets} {s : DDLState} {set : SetName} {name : String} {k : List Char}
  {versions : List CatalogEntry} {nextRef other time' issued' : Nat}
  {time issued id newer oid timestamp commitTS : Nat} {R pending : List Nat} {U : List CatalogEntryRecord}
  {r : CatalogEntryRecord} {data : Option EntryData} {v e : CatalogEntry} {strict : Prop}

namespace CatalogSets

theorem entries_setChain (versions : List CatalogEntry) :
    (c.setChain set name versions).entries set (key name) = versions := if_pos ⟨rfl, rfl⟩

theorem entries_setChain_of_ne {set' : SetName}
    (h : ¬(set' = set ∧ k = key name)) : (c.setChain set name versions).entries set' k = c.entries set' k :=
  if_neg h

def push (c : CatalogSets) (set : SetName) (name : String) (oid timestamp : Nat) (data : Option EntryData) :
    CatalogSets :=
  { c.setChain set name (⟨c.nextRef, name, oid, timestamp, data⟩ :: c.chain set name) with nextRef := c.nextRef + 1 }

/-- Each address belongs to one chain, and the addresses of a chain decrease. -/
structure Linked (c : CatalogSets) : Prop where
  refs : ∀ set k, RefsDecrease (c.entries set k)
  apart : ∀ set k set' k', ∀ v ∈ c.entries set k, ∀ w ∈ c.entries set' k', v.ref = w.ref → set = set' ∧ k = k'

theorem Linked.filter {p : CatalogEntry → Bool} (h : Linked c)
    (he : ∀ set k, c'.entries set k = (c.entries set k).filter p) : Linked c' where
  refs set k := he set k ▸ (h.refs set k).filter p
  apart set k set' k' v hv w hw := by
    rw [he] at hv hw
    exact h.apart set k set' k' v (mem_filter.mp hv).1 w (mem_filter.mp hw).1

theorem Linked.map {f : CatalogEntry → CatalogEntry} (h : Linked c) (hf : ∀ v, (f v).ref = v.ref)
    (he : ∀ set k, c'.entries set k = (c.entries set k).map f) : Linked c' where
  refs set k := he set k ▸ pairwise_map.mpr ((h.refs set k).imp fun hvw => by rwa [hf, hf])
  apart set k set' k' v hv w hw hvw := by
    rw [he] at hv hw
    obtain ⟨v₀, hv₀, rfl⟩ := mem_map.mp hv
    obtain ⟨w₀, hw₀, rfl⟩ := mem_map.mp hw
    rw [hf, hf] at hvw
    exact h.apart set k set' k' v₀ hv₀ w₀ hw₀ hvw

theorem Linked.ne_of_adjacent (h : Linked c) (ha : Adjacent newer r.ref (c.chain r.set r.name))
    (hk : ¬(set = r.set ∧ k = key r.name)) (hv : v ∈ c.entries set k) : v.ref ≠ newer := by
  obtain ⟨w, hw, rfl⟩ := ha.mem
  exact fun he => hk (h.apart set k r.set (key r.name) v hv w hw he)

end CatalogSets

open CatalogSets

section Undo

section

variable (h : Linked c) (ha : Adjacent newer r.ref (c.chain r.set r.name)) (set : SetName) (k : List Char)

include h ha

theorem CatalogEntryRecord.entries_rollback
    :
    (r.rollback c).entries set k = (c.entries set k).filter fun v => v.ref ≠ newer := by
  by_cases hk : set = r.set ∧ k = key r.name
  · obtain ⟨rfl, rfl⟩ := hk
    exact (entries_setChain _).trans (removeNext_eq (h.refs _ _) ha)
  · rw [rollback, entries_setChain_of_ne hk, eq_comm, filter_eq_self]
    exact fun v hv => decide_eq_true (h.ne_of_adjacent ha hk hv)

theorem CatalogEntryRecord.entries_commit
    :
    (r.commit commitTS c).entries set k =
      (c.entries set k).map fun v => if v.ref = newer then { v with timestamp := commitTS } else v := by
  by_cases hk : set = r.set ∧ k = key r.name
  · obtain ⟨rfl, rfl⟩ := hk
    exact (entries_setChain _).trans (stampNext_eq (h.refs _ _) ha)
  · rw [commit, entries_setChain_of_ne hk, eq_comm]
    exact (map_congr_left fun v hv => if_neg (h.ne_of_adjacent ha hk hv)).trans (map_id _)

end

/-- The records of an undo buffer, the latest first, and the versions that they stand for. -/
structure Recorded (c : CatalogSets) (U : List CatalogEntryRecord) (R : List Nat) : Prop where
  adjacent : List.Forall₂ (fun r n => Adjacent n r.ref (c.chain r.set r.name)) U R
  sorted : R.Pairwise (· > ·)

theorem Recorded.mono (h : Recorded c U R) (hc : ∀ r ∈ U, ∀ n ∈ R, Adjacent n r.ref (c.chain r.set r.name) →
    Adjacent n r.ref (c'.chain r.set r.name)) : Recorded c' U R where
  adjacent := by
    have hadj := h.adjacent
    clear h
    induction hadj with
    | nil => exact .nil
    | cons ha _ ih =>
      exact .cons (hc _ (by simp) _ (by simp) ha)
        (ih fun r hr n hn => hc r (mem_cons_of_mem _ hr) n (mem_cons_of_mem _ hn))
  sorted := h.sorted

theorem Recorded.entries_rollback (h : Recorded c U R) (hl : Linked c) (set : SetName) (k : List Char) :
    (rollback ⟨c, U⟩).entries set k = (c.entries set k).filter fun v => v.ref ∉ R := by
  induction U generalizing c R with
  | nil =>
    obtain rfl := List.forall₂_nil_left_iff.mp h.adjacent
    simp [DDLState.rollback]
  | cons r U ih =>
    obtain ⟨newer, R, ha, hU, rfl⟩ := List.forall₂_cons_left_iff.mp h.adjacent
    have hsorted := pairwise_cons.mp h.sorted
    have hentries := entries_rollback hl ha
    have hrest : Recorded (r.rollback c) U R := by
      refine Recorded.mono ⟨hU, hsorted.2⟩ fun r' _ n hn ha' => ?_
      rw [chain, hentries]
      have hlt := ha'.lt (hl.refs _ _)
      have hgt := hsorted.1 n hn
      exact ha'.filter fun v _ hv => decide_eq_true (by omega)
    refine (ih hrest (hl.filter hentries)).trans ?_
    rw [hentries, filter_filter]
    exact filter_congr fun v _ => by simp [Bool.and_comm]

theorem Recorded.entries_commit (h : Recorded c U R) (hl : Linked c) (set : SetName) (k : List Char) :
    (commit commitTS ⟨c, U⟩).entries set k =
      (c.entries set k).map fun v => if v.ref ∈ R then { v with timestamp := commitTS } else v := by
  induction U generalizing R set k with
  | nil =>
    obtain rfl := List.forall₂_nil_left_iff.mp h.adjacent
    simp [DDLState.commit]
  | cons r U ih =>
    obtain ⟨newer, R, ha, hU, rfl⟩ := List.forall₂_cons_left_iff.mp h.adjacent
    have hrest : Recorded c U R := ⟨hU, (pairwise_cons.mp h.sorted).2⟩
    have hentries := fun set k => ih hrest set k
    have href : ∀ v : CatalogEntry, (if v.ref ∈ R then { v with timestamp := commitTS } else v).ref = v.ref :=
      fun v => by split_ifs <;> rfl
    have ha' : Adjacent newer r.ref ((commit commitTS ⟨c, U⟩).chain r.set r.name) := by
      rw [chain, hentries]
      exact ha.map href
    refine (entries_commit (hl.map href hentries) ha' set k).trans ?_
    rw [hentries, map_map]
    refine map_congr_left fun v _ => ?_
    simp only [Function.comp]
    split_ifs <;> simp_all

end Undo

/-- The catalog between two operations. That the chains are in order holds in a
`strict` use of the catalog. -/
structure Sound (strict : Prop) (time issued : Nat) (c : CatalogSets) : Prop extends Linked c where
  chains : strict → ∀ set k, c.entries set k ≠ [] → Chain time issued (c.entries set k)
  named : ∀ set k, ∀ v ∈ c.entries set k, key v.name = k
  fresh : ∀ set k, ∀ v ∈ c.entries set k, v.ref < c.nextRef

theorem Sound.chain_of_mem (h : Sound strict time issued c) (hs : strict) (hv : v ∈ c.entries set k) :
    Chain time issued (c.entries set k) := h.chains hs set k (ne_nil_of_mem hv)

theorem Sound.setChain (h : Sound strict time issued c)
    (hrefs : RefsDecrease versions) (hchain : strict → Chain time issued versions) (hnext : c.nextRef ≤ nextRef)
    (hmem : ∀ v ∈ versions, v ∈ c.chain set name ∨ key v.name = key name ∧ c.nextRef ≤ v.ref ∧ v.ref < nextRef) :
    Sound strict time issued { c.setChain set name versions with nextRef } := by
  have hcases : ∀ set' k, ∀ v ∈ ({ c.setChain set name versions with nextRef } : CatalogSets).entries set' k,
      v ∈ c.entries set' k ∨
        (set' = set ∧ k = key name) ∧ key v.name = key name ∧ c.nextRef ≤ v.ref ∧ v.ref < nextRef := by
    intro set' k v hv
    by_cases hk : set' = set ∧ k = key name
    · obtain ⟨rfl, rfl⟩ := hk
      exact (hmem v ((entries_setChain versions).subst hv)).imp_right fun hn => ⟨⟨rfl, rfl⟩, hn⟩
    · exact .inl ((entries_setChain_of_ne hk).subst hv)
  have hkept : ∀ {set' k}, ¬(set' = set ∧ k = key name) →
      ({ c.setChain set name versions with nextRef } : CatalogSets).entries set' k = c.entries set' k :=
    entries_setChain_of_ne
  refine ⟨⟨fun set' k => ?_, fun set₁ k₁ set₂ k₂ v hv w hw hvw => ?_⟩, fun hs set' k hne => ?_,
    fun set' k v hv => ?_, fun set' k v hv => ?_⟩
  · by_cases hk : set' = set ∧ k = key name
    · obtain ⟨rfl, rfl⟩ := hk
      exact (entries_setChain versions).symm.subst hrefs
    · rw [hkept hk]
      exact h.refs set' k
  · rcases hcases set₁ k₁ v hv with hm | ⟨⟨rfl, rfl⟩, -, hge, -⟩ <;>
      rcases hcases set₂ k₂ w hw with hm' | ⟨⟨rfl, rfl⟩, -, hge', -⟩
    · exact h.apart set₁ k₁ set₂ k₂ v hm w hm' hvw
    · exact absurd (h.fresh set₁ k₁ v hm) (by omega)
    · exact absurd (h.fresh set₂ k₂ w hm') (by omega)
    · exact ⟨rfl, rfl⟩
  · by_cases hk : set' = set ∧ k = key name
    · obtain ⟨rfl, rfl⟩ := hk
      exact (entries_setChain versions).symm.subst (hchain hs)
    · rw [hkept hk] at hne ⊢
      exact h.chains hs set' k hne
  · rcases hcases set' k v hv with hm | ⟨⟨-, rfl⟩, hn, -⟩
    · exact h.named set' k v hm
    · exact hn
  · rcases hcases set' k v hv with hm | ⟨-, -, -, hlt⟩
    · exact (h.fresh set' k v hm).trans_le hnext
    · exact hlt

/-- A transaction at work: its versions are those that have a record and those
whose record is still to be made. -/
structure Working (strict : Prop) (time issued id : Nat) (R pending : List Nat) (s : DDLState) : Prop where
  sound : Sound strict time issued s.catalog
  recorded : Recorded s.catalog s.undoBuffer R
  ascending : (R.reverse ++ pending).Pairwise (· < ·)
  own : ∀ set k, ∀ v ∈ s.catalog.entries set k, v.timestamp = id ↔ v.ref ∈ R ∨ v.ref ∈ pending
  fresh : ∀ n, n ∈ R ∨ n ∈ pending → n < s.catalog.nextRef

namespace Working

/-- Whether the transaction may put a version in front of the chain. -/
def Free (id : Nat) (head : CatalogEntry) : Prop := head.timestamp = id ∨ head.timestamp < startTransactionId

variable (h : Working strict time issued id R pending s)

include h

theorem takeOID {nextOID : SetName → Nat} :
    Working strict time issued id R pending { s with catalog := { s.catalog with nextOID } } :=
  ⟨⟨⟨h.sound.refs, h.sound.apart⟩, h.sound.chains, h.sound.named, h.sound.fresh⟩,
  ⟨h.recorded.adjacent, h.recorded.sorted⟩,
    h.ascending, h.own, h.fresh⟩

theorem setChain (new : List CatalogEntry) (pending' : List Nat)
    (hrefs : RefsDecrease (new ++ s.catalog.chain set name))
    (hchain : strict → Chain time issued (new ++ s.catalog.chain set name)) (hnext : s.catalog.nextRef ≤ nextRef)
    (hnew : ∀ v ∈ new, key v.name = key name ∧ s.catalog.nextRef ≤ v.ref ∧ v.ref < nextRef ∧
      (v.timestamp = id ↔ v.ref ∈ pending'))
    (hpending : ∀ n, n ∈ pending ++ pending' → n < nextRef) (hsorted : pending'.Pairwise (· < ·))
    (hge : ∀ n ∈ pending', s.catalog.nextRef ≤ n) :
    Working strict time issued id R (pending ++ pending')
      { s with catalog := { s.catalog.setChain set name (new ++ s.catalog.chain set name) with nextRef } } := by
  have hentries : ∀ set' k, ∃ front, (∀ v ∈ front, v ∈ new) ∧
      ({ s.catalog.setChain set name (new ++ s.catalog.chain set name) with nextRef } : CatalogSets).entries set' k =
        front ++ s.catalog.entries set' k := by
    intro set' k
    by_cases hk : set' = set ∧ k = key name
    · obtain ⟨rfl, rfl⟩ := hk
      exact ⟨new, fun _ hv => hv, entries_setChain _⟩
    · exact ⟨[], by simp, entries_setChain_of_ne hk⟩
  refine ⟨h.sound.setChain hrefs hchain hnext fun v hv => ?_, h.recorded.mono fun r _ n _ ha => ?_, ?_,
    fun set' k v hv => ?_, fun n hn => ?_⟩
  · exact (mem_append.mp hv).symm.imp_right fun hm =>
      ⟨(hnew v hm).1, (hnew v hm).2.1, (hnew v hm).2.2.1⟩
  · obtain ⟨front, -, he⟩ := hentries r.set (key r.name)
    rw [chain, he]
    obtain ⟨pre, a, b, post, hc, ha, hb⟩ := ha
    exact ⟨front ++ pre, a, b, post, by rw [append_assoc, ← hc, chain], ha, hb⟩
  · rw [← append_assoc]
    refine pairwise_append.mpr ⟨h.ascending, hsorted, fun n hn m hm => ?_⟩
    have hlt := h.fresh n ((mem_append.mp hn).imp_left mem_reverse.mp)
    exact hlt.trans_le (hge m hm)
  · obtain ⟨front, hfront, he⟩ := hentries set' k
    rw [he] at hv
    rcases mem_append.mp hv with hm | hm
    · have hv := hnew v (hfront v hm)
      rw [hv.2.2.2, mem_append]
      refine ⟨fun hp => .inr (.inr hp), fun hp => ?_⟩
      rcases hp with hp | hp | hp
      · exact absurd (h.fresh v.ref (.inl hp)) (by omega)
      · exact absurd (h.fresh v.ref (.inr hp)) (by omega)
      · exact hp
    · rw [h.own set' k v hm, mem_append]
      refine or_congr_right ⟨.inl, fun hp => hp.resolve_right fun hp => ?_⟩
      exact absurd (h.sound.fresh set' k v hm) (by have := hge _ hp; omega)
  · rcases hn with hn | hn
    · exact (h.fresh n (.inl hn)).trans_le hnext
    · exact hpending n hn

theorem emplaceDummyEntry (oid : Nat) (hid : id ≠ 0) (hnil : s.catalog.chain set name = []) :
    Working strict time issued id R pending { s with catalog :=
      { s.catalog.setChain set name [⟨s.catalog.nextRef, name, oid, 0, none⟩] with
        nextRef := s.catalog.nextRef + 1 } } := by
  have hchain : Chain time issued ([⟨s.catalog.nextRef, name, oid, 0, none⟩] ++ s.catalog.chain set name) := by
    rw [hnil]
    exact ⟨pairwise_singleton _ _, pairwise_singleton _ _, by simp, by simp, by simp⟩
  have hdone := h.setChain [⟨s.catalog.nextRef, name, oid, 0, none⟩] [] hchain.refs (fun _ => hchain)
    (Nat.le_succ _) (by simp [hid.symm]) (fun n hn => ?_) .nil (by simp)
  · rwa [hnil, append_nil] at hdone
  · rw [append_nil] at hn
    exact (h.fresh n (.inr hn)).trans (Nat.lt_succ_self _)

theorem refs_push (set : SetName) (name : String) (oid timestamp : Nat) (data : Option EntryData) :
    RefsDecrease (⟨s.catalog.nextRef, name, oid, timestamp, data⟩ :: s.catalog.chain set name) :=
  pairwise_cons.mpr ⟨fun w hw => h.sound.fresh set (key name) w hw, h.sound.refs set (key name)⟩

theorem chain_push {head : CatalogEntry} {older : List CatalogEntry} (oid : Nat) (data : Option EntryData) (hs : strict)
    (hstart : startTransactionId ≤ id) (hissued : id ≤ issued) (hc : s.catalog.chain set name = head :: older)
    (hfree : Free id head) :
    Chain time issued (⟨s.catalog.nextRef, name, oid, id, data⟩ :: s.catalog.chain set name) := by
  have hrefs := (pairwise_cons.mp (h.refs_push set name oid id data)).1
  rw [hc] at hrefs ⊢
  refine Chain.push ?_ hstart hissued hfree hrefs
  exact hc ▸ h.sound.chains hs set (key name) (by rw [← chain, hc]; simp)

theorem push (oid : Nat) (data : Option EntryData)
    (hchain : strict → Chain time issued (⟨s.catalog.nextRef, name, oid, id, data⟩ :: s.catalog.chain set name)) :
    Working strict time issued id R (pending ++ [s.catalog.nextRef])
      { s with catalog := s.catalog.push set name oid id data } := by
  refine h.setChain [⟨s.catalog.nextRef, name, oid, id, data⟩] [s.catalog.nextRef] (h.refs_push set name oid id data)
    hchain (Nat.le_succ _) (by simp) (fun n hn => ?_) (pairwise_singleton _ _) (by simp)
  rcases mem_append.mp hn with hn | hn
  · exact (h.fresh n (.inr hn)).trans (Nat.lt_succ_self _)
  · rw [mem_singleton.mp hn]
    exact Nat.lt_succ_self _

theorem pushOther (oid : Nat) (data : Option EntryData) (hne : other ≠ id)
    (hchain : strict → Chain time issued (⟨s.catalog.nextRef, name, oid, other, data⟩ :: s.catalog.chain set name)) :
    Working strict time issued id R pending { s with catalog := s.catalog.push set name oid other data } := by
  have hdone := h.setChain [⟨s.catalog.nextRef, name, oid, other, data⟩] [] (h.refs_push set name oid other data)
    hchain (Nat.le_succ _) (by simp [hne]) (fun n hn => ?_) .nil (by simp)
  · rwa [append_nil] at hdone
  · rw [append_nil] at hn
    exact (h.fresh n (.inr hn)).trans (Nat.lt_succ_self _)

omit h

theorem record {n : Nat} (h : Working strict time issued id R (n :: pending) s)
    (ha : Adjacent n e.ref (s.catalog.chain set e.name)) :
    Working strict time issued id (n :: R) pending { s with undoBuffer := ⟨set, e.name, e.ref⟩ :: s.undoBuffer } := by
  have hmem : ∀ m, m ∈ n :: R ∨ m ∈ pending ↔ m ∈ R ∨ m ∈ n :: pending := fun m => by
    simp only [mem_cons]
    tauto
  have hasc : ((n :: R).reverse ++ pending).Pairwise (· < ·) := by
    rw [reverse_cons, append_assoc]
    exact h.ascending
  refine ⟨h.sound, ⟨.cons ha h.recorded.adjacent, ?_⟩, hasc, fun set' k v hv => ?_, fun m hm => ?_⟩
  · exact pairwise_reverse.mp (pairwise_append.mp hasc).1
  · rw [hmem]
    exact h.own set' k v hv
  · exact h.fresh m ((hmem m).mp hm)

end Working

section Ends

theorem Sound.mono (h : Sound strict time issued c) (ht : time ≤ time') (hi : issued ≤ issued') :
    Sound strict time' issued' c :=
  { h with chains := fun hs set k hne => (h.chains hs set k hne).mono ht hi }

theorem Working.mono (h : Working strict time issued id R pending s) (ht : time ≤ time')
    (hi : issued ≤ issued') : Working strict time' issued' id R pending s :=
  { h with sound := h.sound.mono ht hi }

variable {p : CatalogEntry → Bool}

theorem Sound.filter (h : Sound strict time issued c) (he : ∀ set k, c'.entries set k = (c.entries set k).filter p)
    (hnext : c'.nextRef = c.nextRef) (hp : ∀ set k, ∀ v ∈ c.entries set k, v.timestamp = 0 → p v = true) :
    Sound strict time issued c' where
  toLinked := h.toLinked.filter he
  chains hs set k hne := by
    rw [he] at hne ⊢
    exact (h.chains hs set k fun hnil => hne (by rw [hnil]; rfl)).filter (hp set k)
  named set k v hv := h.named set k v (mem_filter.mp (he set k ▸ hv)).1
  fresh set k v hv := hnext ▸ h.fresh set k v (mem_filter.mp (he set k ▸ hv)).1

theorem Working.filterOther (hs : strict) (h : Working strict time issued id R pending ⟨c, U⟩)
    (he : ∀ set k, c'.entries set k = (c.entries set k).filter p) (hnext : c'.nextRef = c.nextRef)
    (hp : ∀ set k, ∀ v ∈ c.entries set k, p v = false → v.timestamp = other) (hne : other ≠ id)
    (hid : startTransactionId ≤ id) (hother : startTransactionId ≤ other) :
    Working strict time issued id R pending ⟨c', U⟩ := by
  have hkept : ∀ set k, ∀ v ∈ c.entries set k, v.timestamp ≠ other → p v = true := fun set k v hv ht =>
    Bool.of_not_eq_false fun hf => ht (hp set k v hv hf)
  refine ⟨h.sound.filter he hnext fun set k v hv hz => hkept set k v hv ?_, h.recorded.mono fun r hr n hn ha => ?_,
    h.ascending, fun set k v hv => ?_, fun n hn => hnext ▸ h.fresh n hn⟩
  · have hpos : 0 < startTransactionId := by decide
    omega
  · -- the transaction holds the chain, so that nothing in it is of the other
    rw [chain, he]
    obtain ⟨w, hw, hwn⟩ := ha.mem
    have hwid : w.timestamp = id := (h.own r.set (key r.name) w hw).mpr (.inl (hwn ▸ hn))
    refine ha.filter fun v hv _ => hkept r.set (key r.name) v hv fun hv' => hne ?_
    rw [← hv', ← hwid]
    exact (h.sound.chain_of_mem hs hw).single v hv w hw (hv' ▸ hother) (hwid ▸ hid)
  · exact h.own set k v (mem_filter.mp (he set k ▸ hv)).1

theorem Sound.stamp (h : Sound strict time issued c) (hid : startTransactionId ≤ id) (hts : time ≤ commitTS)
    (hlt : commitTS < startTransactionId) (hnext : c'.nextRef = c.nextRef)
    (he : ∀ set k, c'.entries set k =
      (c.entries set k).map fun v => if v.timestamp = id then { v with timestamp := commitTS } else v) :
    Sound strict commitTS issued c' := by
  have href : ∀ v : CatalogEntry, (if v.timestamp = id then { v with timestamp := commitTS } else v).ref = v.ref :=
    fun v => by split_ifs <;> rfl
  have hname : ∀ v : CatalogEntry, (if v.timestamp = id then { v with timestamp := commitTS } else v).name = v.name :=
    fun v => by split_ifs <;> rfl
  refine ⟨h.toLinked.map href he, fun hs set k hne => ?_, fun set k v hv => ?_, fun set k v hv => ?_⟩
  · rw [he] at hne ⊢
    exact (h.chains hs set k fun hnil => hne (by rw [hnil]; rfl)).stamp hid hts hlt
  · obtain ⟨w, hw, rfl⟩ := mem_map.mp (he set k ▸ hv)
    rw [hname]
    exact h.named set k w hw
  · obtain ⟨w, hw, rfl⟩ := mem_map.mp (he set k ▸ hv)
    rw [href, hnext]
    exact h.fresh set k w hw

theorem Working.stampOther (h : Working strict time issued id R pending ⟨c, U⟩)
    (hsound : Sound strict commitTS issued c') (hne : other ≠ id) (hid : startTransactionId ≤ id)
    (hlt : commitTS < startTransactionId) (hnext : c'.nextRef = c.nextRef)
    (he : ∀ set k, c'.entries set k =
      (c.entries set k).map fun v => if v.timestamp = other then { v with timestamp := commitTS } else v) :
    Working strict commitTS issued id R pending ⟨c', U⟩ := by
  refine ⟨hsound, h.recorded.mono fun r hr n hn ha => ?_, h.ascending, fun set k v hv => ?_,
    fun n hn => hnext ▸ h.fresh n hn⟩
  · rw [chain, he]
    exact ha.map fun v => by split_ifs <;> rfl
  · obtain ⟨w, hw, rfl⟩ := mem_map.mp (he set k ▸ hv)
    have hown := h.own set k w hw
    split_ifs with ho
    · rw [← hown, ho]
      exact iff_of_false (hlt.trans_le hid).ne hne
    · exact hown

theorem DDLState.nextRef_rollback : s.rollback.nextRef = s.catalog.nextRef := by
  obtain ⟨c, U⟩ := s
  induction U generalizing c with
  | nil => rfl
  | cons r U ih => exact ih (r.rollback c)

theorem DDLState.nextRef_commit : (s.commit commitTS).nextRef = s.catalog.nextRef := by
  obtain ⟨c, U⟩ := s
  induction U with
  | nil => rfl
  | cons r U ih => exact ih

theorem DDLState.nextOID_rollback : s.rollback.nextOID = s.catalog.nextOID := by
  obtain ⟨c, U⟩ := s
  induction U generalizing c with
  | nil => rfl
  | cons r U ih => exact ih (r.rollback c)

theorem DDLState.nextOID_commit : (s.commit commitTS).nextOID = s.catalog.nextOID := by
  obtain ⟨c, U⟩ := s
  induction U with
  | nil => rfl
  | cons r U ih => exact ih

end Ends

end Rag3db.Catalog
