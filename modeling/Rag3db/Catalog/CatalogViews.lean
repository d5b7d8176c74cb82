import Rag3db.Catalog.CatalogIsolation

open List Option

namespace Rag3db.Catalog

open CatalogSets CatalogSets

variable {c c' : CatalogSets} {set set' : SetName} {name : String} {k : List Char}
  {oid timestamp : Nat} {data : Option EntryData} {V V' : Nat → Bool} {versions : List CatalogEntry}
  {v head : CatalogEntry} {older : List CatalogEntry}

def seen (V : Nat → Bool) (versions : List CatalogEntry) : Option CatalogEntry :=
  (versions.find? fun e => V e.timestamp).filter fun e => !e.isDeleted

def unseen (V : Nat → Bool) (versions : List CatalogEntry) : List CatalogEntry :=
  versions.takeWhile fun e => !V e.timestamp

section Chains

theorem seen_congr (h : ∀ e ∈ versions, V e.timestamp = V' e.timestamp) : seen V versions = seen V' versions :=
  congrArg _ (find?_congr h)

theorem seen_cons (h : V v.timestamp = false) : seen V (v :: versions) = seen V versions :=
  congrArg (Option.filter _) (find?_cons_of_neg (by simpa using h))

theorem seen_cons_self (h : V v.timestamp = true) : seen V (v :: versions) = if v.isDeleted then none else some v := by
  unfold seen
  rw [find?_cons_of_pos (by simpa using h)]
  cases hd : v.isDeleted <;> simp [hd]

theorem unseen_cons (h : V v.timestamp = false) : unseen V (v :: versions) = v :: unseen V versions := by
  simp [unseen, h]

theorem unseen_cons_self (h : V v.timestamp = true) : unseen V (v :: versions) = [] := by simp [unseen, h]

theorem seen_singleton_deleted (h : v.isDeleted = true) : seen V [v] = none := by
  cases hV : V v.timestamp with
  | false => exact seen_cons hV
  | true => rw [seen_cons_self hV, if_pos h]

variable {p : CatalogEntry → Bool}

theorem seen_filter (hp : ∀ e ∈ versions, V e.timestamp = true → p e = true) :
    seen V (versions.filter p) = seen V versions := by
  refine congrArg (Option.filter _) (find?_filter.trans (find?_congr fun e he => ?_))
  cases hV : V e.timestamp with
  | false => simp
  | true => simp [hp e he hV]

theorem mem_unseen_filter (hp : ∀ e ∈ versions, V e.timestamp = true → p e = true)
    (h : v ∈ unseen V (versions.filter p)) : v ∈ unseen V versions := by
  induction versions with
  | nil => exact h
  | cons e versions ih =>
    have ih := ih fun e' he' => hp e' (mem_cons_of_mem _ he')
    cases hV : V e.timestamp with
    | true => rw [filter_cons_of_pos (hp e mem_cons_self hV), unseen_cons_self hV] at h; cases h
    | false =>
      rw [unseen_cons hV]
      cases hpe : p e with
      | false => exact mem_cons_of_mem _ (ih (by rwa [filter_cons_of_neg (by simp [hpe])] at h))
      | true =>
        rw [filter_cons_of_pos hpe, unseen_cons hV] at h
        exact (mem_cons.mp h).elim (· ▸ mem_cons_self) fun h => mem_cons_of_mem _ (ih h)

variable {f : CatalogEntry → CatalogEntry}

theorem seen_map (hV : ∀ e ∈ versions, V' (f e).timestamp = V e.timestamp)
    (hf : ∀ e, (f e).isDeleted = e.isDeleted) : seen V' (versions.map f) = (seen V versions).map f := by
  unfold seen
  rw [find?_map, Option.filter_map]
  simp only [Function.comp_def, hf, find?_congr hV]

theorem unseen_map (hV : ∀ e ∈ versions, V' (f e).timestamp = V e.timestamp) :
    unseen V' (versions.map f) = (unseen V versions).map f := by
  induction versions with
  | nil => rfl
  | cons e versions ih =>
    have he := hV e mem_cons_self
    have ih := ih fun e' he' => hV e' (mem_cons_of_mem _ he')
    rw [map_cons]
    cases hs : V e.timestamp with
    | false => rw [unseen_cons (he.trans hs), unseen_cons hs, ih, map_cons]
    | true => rw [unseen_cons_self (he.trans hs), unseen_cons_self hs, map_nil]

theorem unseen_congr (h : ∀ e ∈ versions, V e.timestamp = V' e.timestamp) : unseen V versions = unseen V' versions := by
  simpa using unseen_map (f := id) h

end Chains

def OneName (V : Nat → Bool) (c : CatalogSets) : Prop :=
  ∀ set k k' v v', seen V (c.entries set k) = some v → seen V (c.entries set k') = some v' → v.oid = v'.oid → k = k'

/-- Whatever has come in front of a version that is seen belongs to the same object. -/
def SameObject (V : Nat → Bool) (c : CatalogSets) : Prop :=
  ∀ set k v, seen V (c.entries set k) = some v → ∀ w ∈ unseen V (c.entries set k), w.oid = v.oid

theorem OneName.of_seen (h : OneName V c)
    (hs : ∀ set k v, seen V' (c'.entries set k) = some v → ∃ w, seen V (c.entries set k) = some w ∧ w.oid = v.oid) :
    OneName V' c' := by
  intro set k k' v v' hv hv' ho
  obtain ⟨w, hw, hoid⟩ := hs set k v hv
  obtain ⟨w', hw', hoid'⟩ := hs set k' v' hv'
  exact h set k k' w w' hw hw' (by omega)

theorem OneName.congr (h : OneName V c)
    (hV : ∀ set k, ∀ e ∈ c.entries set k, V e.timestamp = V' e.timestamp) : OneName V' c :=
  h.of_seen fun set k v hv => ⟨v, seen_congr (hV set k) ▸ hv, rfl⟩

theorem OneName.add (h : OneName V c) (hnone : ∀ k v, seen V (c.entries set k) = some v → v.oid ≠ oid)
    (hself : ∀ v, seen V (c'.entries set k) = some v → v.oid = oid)
    (hs : ∀ set' k', ¬(set' = set ∧ k' = k) → seen V (c'.entries set' k') = seen V (c.entries set' k')) :
    OneName V c' := by
  intro set' k₁ k₂ v₁ v₂ h₁ h₂ ho
  by_cases hk₁ : set' = set ∧ k₁ = k
  · obtain ⟨rfl, rfl⟩ := hk₁
    by_cases hk₂ : set' = set' ∧ k₂ = k₁
    · exact hk₂.2.symm
    · rw [hs _ _ hk₂] at h₂
      exact absurd (ho.symm.trans (hself v₁ h₁)) (hnone k₂ v₂ h₂)
  · rw [hs _ _ hk₁] at h₁
    by_cases hk₂ : set' = set ∧ k₂ = k
    · obtain ⟨rfl, rfl⟩ := hk₂
      exact absurd (ho.trans (hself v₂ h₂)) (hnone k₁ v₁ h₁)
    · rw [hs _ _ hk₂] at h₂
      exact h set' k₁ k₂ v₁ v₂ h₁ h₂ ho

theorem SameObject.congr (h : SameObject V c)
    (hV : ∀ set k, ∀ e ∈ c.entries set k, V e.timestamp = V' e.timestamp) : SameObject V' c := by
  intro set k v hv w hw
  rw [← seen_congr (hV set k)] at hv
  rw [← unseen_congr (hV set k)] at hw
  exact h set k v hv w hw

section Filter

variable {p : CatalogEntry → Bool} (he : ∀ set k, c'.entries set k = (c.entries set k).filter p)
  (hp : ∀ set k, ∀ e ∈ c.entries set k, V e.timestamp = true → p e = true)

include he hp

theorem OneName.filter (h : OneName V c) : OneName V c' :=
  h.of_seen fun set k v hv => ⟨v, by rwa [he, seen_filter (hp set k)] at hv, rfl⟩

theorem SameObject.filter (h : SameObject V c) : SameObject V c' := by
  intro set k v hv w hw
  rw [he] at hv hw
  rw [seen_filter (hp set k)] at hv
  exact h set k v hv w (mem_unseen_filter (hp set k) hw)

end Filter

section Map

variable {f : CatalogEntry → CatalogEntry} (he : ∀ set k, c'.entries set k = (c.entries set k).map f)
  (hV : ∀ set k, ∀ e ∈ c.entries set k, V' (f e).timestamp = V e.timestamp)
  (hf : ∀ e, (f e).isDeleted = e.isDeleted ∧ (f e).oid = e.oid)

include he hV hf

theorem OneName.map (h : OneName V c) : OneName V' c' := by
  refine h.of_seen fun set k v hv => ?_
  rw [he, seen_map (hV set k) fun e => (hf e).1] at hv
  obtain ⟨w, hw, rfl⟩ := map_eq_some_iff.mp hv
  exact ⟨w, hw, (hf w).2.symm⟩

theorem SameObject.map (h : SameObject V c) : SameObject V' c' := by
  intro set k v hv w hw
  rw [he, seen_map (hV set k) fun e => (hf e).1] at hv
  rw [he, unseen_map (hV set k)] at hw
  obtain ⟨v₀, hv₀, rfl⟩ := map_eq_some_iff.mp hv
  obtain ⟨w₀, hw₀, rfl⟩ := mem_map.mp hw
  rw [(hf w₀).2, (hf v₀).2]
  exact h set k v₀ hv₀ w₀ hw₀

end Map

section Push

theorem chain_push_of_ne (h : ¬(set' = set ∧ k = key name)) :
    (c.push set name oid timestamp data).entries set' k = c.entries set' k := entries_setChain_of_ne h

theorem seen_push (hV : V timestamp = false) (set' : SetName) (k : List Char) :
    seen V ((c.push set name oid timestamp data).entries set' k) = seen V (c.entries set' k) := by
  by_cases hk : set' = set ∧ k = key name
  · obtain ⟨rfl, rfl⟩ := hk
    rw [← chain, chain_push, seen_cons hV]
    rfl
  · rw [chain_push_of_ne hk]

theorem seen_withDummyEntry (set' : SetName) (k : List Char) :
    seen V ((c.withDummyEntry set name oid).entries set' k) = seen V (c.entries set' k) := by
  rcases chain_withDummyEntry c oid with ⟨head, older, -, he⟩ | ⟨hnil, he⟩
  · rw [he]
  · by_cases hk : set' = set ∧ k = key name
    · obtain ⟨rfl, rfl⟩ := hk
      rw [← chain, he, ← chain, hnil]
      exact seen_singleton_deleted rfl
    · simp only [withDummyEntry, hnil, entries_setChain_of_ne hk]

theorem SameObject.push (h : SameObject V c)
    (hoid : V timestamp = false → ∀ v, seen V (c.chain set name) = some v → v.oid = oid) :
    SameObject V (c.push set name oid timestamp data) := by
  intro set' k v hv w hw
  by_cases hk : set' = set ∧ k = key name
  · obtain ⟨rfl, rfl⟩ := hk
    rw [← chain, chain_push] at hv hw
    cases hV : V timestamp with
    | true => rw [unseen_cons_self hV] at hw; cases hw
    | false =>
      rw [seen_cons hV] at hv
      rw [unseen_cons hV] at hw
      rcases mem_cons.mp hw with rfl | hw
      · exact (hoid hV v hv).symm
      · exact h set' (key name) v hv w hw
  · rw [chain_push_of_ne hk] at hv hw
    exact h set' k v hv w hw

theorem SameObject.withDummyEntry (h : SameObject V c) : SameObject V (c.withDummyEntry set name oid) := by
  rcases chain_withDummyEntry c oid with ⟨head, older, -, he⟩ | ⟨hnil, he⟩
  · rwa [he]
  · intro set' k v hv w hw
    by_cases hk : set' = set ∧ k = key name
    · obtain ⟨rfl, rfl⟩ := hk
      rw [← chain, he, seen_singleton_deleted rfl] at hv
      cases hv
    · simp only [CatalogSets.withDummyEntry, hnil, entries_setChain_of_ne hk] at hv hw
      exact h set' k v hv w hw

theorem SameObject.head_oid (h : SameObject V c) (hc : c.chain set name = head :: older)
    (hv : seen V (c.chain set name) = some v) : v.oid = head.oid := by
  cases hV : V head.timestamp with
  | true =>
    rw [hc, seen_cons_self hV] at hv
    split_ifs at hv
    rw [some.inj hv]
  | false =>
    refine (h set (key name) v hv head ?_).symm
    rw [← chain, hc, unseen_cons hV]
    exact mem_cons_self

variable (hc : c.chain set name = head :: older)
include hc

theorem SameObject.over (h : SameObject V c) : SameObject V (c.push set name head.oid timestamp data) :=
  h.push fun _ _ hv => h.head_oid hc hv

theorem OneName.over (h : OneName V c) (hlive : head.isDeleted = false)
    (hV : V timestamp = true → V head.timestamp = true) :
    OneName V (c.push set name head.oid timestamp data) := by
  cases hts : V timestamp with
  | false => exact h.of_seen fun set' k v hv => ⟨v, seen_push hts set' k ▸ hv, rfl⟩
  | true =>
    refine h.of_seen fun set' k v hv => ?_
    by_cases hk : set' = set ∧ k = key name
    · obtain ⟨rfl, rfl⟩ := hk
      refine ⟨head, ?_, ?_⟩
      · rw [← chain, hc, seen_cons_self (hV hts), hlive]
        rfl
      · rw [← chain, chain_push, seen_cons_self hts] at hv
        split_ifs at hv
        rw [← some.inj hv]
    · exact ⟨v, chain_push_of_ne hk ▸ hv, rfl⟩

omit hc in
theorem OneName.create {data : EntryData} (h : OneName V c)
    (hnone : V timestamp = true → ∀ k v, seen V (c.entries set k) = some v → v.oid ≠ oid) :
    OneName V (c.create set name oid timestamp data) := by
  cases hts : V timestamp with
  | false => exact h.of_seen fun set' k v hv =>
      ⟨v, by rwa [CatalogSets.create, seen_push hts, seen_withDummyEntry] at hv, rfl⟩
  | true =>
    refine h.add (hnone hts) (k := key name) (fun v hv => ?_) fun set' k hk => ?_
    · rw [CatalogSets.create, ← CatalogSets.chain, chain_push, seen_cons_self hts] at hv
      split_ifs at hv
      rw [← some.inj hv]
    · rw [CatalogSets.create, chain_push_of_ne hk, seen_withDummyEntry]

/-- An object under a new name: its tombstone stands where it has been. -/
theorem OneName.rename {newName : String} {data : EntryData} (h : OneName V c) (hlive : head.isDeleted = false)
    (hV : V timestamp = true → V head.timestamp = true) :
    OneName V ((c.push set name head.oid timestamp none).create set newName head.oid timestamp data) := by
  refine (h.over hc hlive hV).create fun hts k v hv ho => ?_
  by_cases hk : set = set ∧ k = key name
  · rw [hk.2, ← chain, chain_push, seen_cons_self hts] at hv
    simp [CatalogEntry.isDeleted] at hv
  · rw [chain_push_of_ne hk] at hv
    have hhead : seen V (c.entries set (key name)) = some head := by
      rw [← chain, hc, seen_cons_self (hV hts), hlive]
      rfl
    exact hk ⟨rfl, h set k (key name) v head hv hhead ho⟩

omit hc in
theorem SameObject.create {data : EntryData} (h : SameObject V c)
    (hoid : V timestamp = false → ∀ v, seen V (c.chain set name) = some v → v.oid = oid) :
    SameObject V (c.create set name oid timestamp data) :=
  h.withDummyEntry.push fun hV v hv => hoid hV v (by rwa [chain, seen_withDummyEntry] at hv)

end Push

end Rag3db.Catalog
