import Rag3db.Catalog.CatalogSet

open List

namespace Rag3db.Catalog

open Storage CatalogSets

variable {versions older : List CatalogEntry} {tx : Snapshot} {v e : CatalogEntry}
  {ref newer time issued commitTS : Nat} {p : CatalogEntry → Bool}

def Adjacent (newer ref : Nat) (versions : List CatalogEntry) : Prop :=
  ∃ pre a b post, versions = pre ++ a :: b :: post ∧ a.ref = newer ∧ b.ref = ref

abbrev RefsDecrease (versions : List CatalogEntry) : Prop := versions.Pairwise fun v w => w.ref < v.ref

namespace Adjacent

variable (h : Adjacent newer ref versions)

include h

theorem cons : Adjacent newer ref (v :: versions) := by
  obtain ⟨pre, a, b, post, rfl, ha, hb⟩ := h
  exact ⟨v :: pre, a, b, post, rfl, ha, hb⟩

omit h in
theorem of_head : Adjacent v.ref e.ref (v :: e :: older) :=
  ⟨[], v, e, older, rfl, rfl, rfl⟩

theorem filter (hp : ∀ v ∈ versions, v.ref = newer ∨ v.ref = ref → p v = true) :
    Adjacent newer ref (versions.filter p) := by
  obtain ⟨pre, a, b, post, rfl, ha, hb⟩ := h
  have hpa := hp a (by simp) (.inl ha)
  have hpb := hp b (by simp) (.inr hb)
  exact ⟨pre.filter p, a, b, post.filter p, by simp [hpa, hpb], ha, hb⟩

theorem map {f : CatalogEntry → CatalogEntry} (hf : ∀ v, (f v).ref = v.ref) : Adjacent newer ref (versions.map f) := by
  obtain ⟨pre, a, b, post, rfl, ha, hb⟩ := h
  exact ⟨pre.map f, f a, f b, post.map f, by simp, (hf a).trans ha, (hf b).trans hb⟩

theorem mem : ∃ v ∈ versions, v.ref = newer := by
  obtain ⟨pre, a, b, post, rfl, ha, -⟩ := h
  exact ⟨a, by simp, ha⟩

theorem lt (hrefs : RefsDecrease versions) : ref < newer := by
  obtain ⟨pre, a, b, post, rfl, rfl, rfl⟩ := h
  have htail := (pairwise_append.mp hrefs).2.1
  exact (pairwise_cons.mp htail).1 b mem_cons_self

end Adjacent

section Undo

private theorem exists_cons_of_append {a b : CatalogEntry} {pre post : List CatalogEntry}
    (hrefs : RefsDecrease (pre ++ a :: b :: post)) :
    ∃ y l, pre ++ a :: b :: post = y :: l ∧ y.ref ≠ b.ref := by
  cases pre with
  | nil => exact ⟨a, b :: post, rfl, ((pairwise_cons.mp hrefs).1 b mem_cons_self).ne'⟩
  | cons y pre =>
    have hlt := (pairwise_cons.mp hrefs).1 b (by simp)
    exact ⟨y, _, rfl, hlt.ne'⟩

theorem removeNext_eq (hrefs : RefsDecrease versions) (h : Adjacent newer ref versions) :
    removeNext ref versions = versions.filter fun v => v.ref ≠ newer := by
  obtain ⟨pre, a, b, post, rfl, rfl, rfl⟩ := h
  induction pre with
  | nil =>
    have hlt := (pairwise_cons.mp hrefs).1
    rw [nil_append, removeNext, if_pos rfl, filter_cons_of_neg (by simp), eq_comm, filter_eq_self]
    exact fun v hv => decide_eq_true (hlt v hv).ne
  | cons x pre ih =>
    have htail := (pairwise_cons.mp hrefs).2
    obtain ⟨y, l, hl, hne⟩ := exists_cons_of_append htail
    have hx : x.ref ≠ a.ref := ((pairwise_cons.mp hrefs).1 a (by simp)).ne'
    rw [cons_append, filter_cons_of_pos (by simpa using hx), ← ih htail, hl, removeNext, if_neg hne]

theorem stampNext_eq (hrefs : RefsDecrease versions) (h : Adjacent newer ref versions) :
    stampNext ref commitTS versions =
      versions.map fun v => if v.ref = newer then { v with timestamp := commitTS } else v := by
  obtain ⟨pre, a, b, post, rfl, rfl, rfl⟩ := h
  induction pre with
  | nil =>
    have hlt := (pairwise_cons.mp hrefs).1
    rw [nil_append, stampNext, if_pos rfl, map_cons, if_pos rfl, cons_inj_right, eq_comm]
    exact (map_congr_left fun v hv => if_neg (hlt v hv).ne).trans (map_id _)
  | cons x pre ih =>
    have htail := (pairwise_cons.mp hrefs).2
    obtain ⟨y, l, hl, hne⟩ := exists_cons_of_append htail
    have hx : x.ref ≠ a.ref := ((pairwise_cons.mp hrefs).1 a (by simp)).ne'
    rw [cons_append, map_cons, if_neg hx, ← ih htail, hl, stampNext, if_neg hne]

end Undo

/-- The chain of a name: the versions go back in time, those that are not
committed are of one transaction, and the oldest is seen by everybody. -/
structure Chain (time issued : Nat) (versions : List CatalogEntry) : Prop where
  refs : RefsDecrease versions
  sorted : versions.Pairwise fun v w => w.timestamp ≤ v.timestamp
  single : ∀ v ∈ versions, ∀ w ∈ versions, startTransactionId ≤ v.timestamp → startTransactionId ≤ w.timestamp →
    v.timestamp = w.timestamp
  bounds : ∀ v ∈ versions, v.timestamp ≤ time ∨ startTransactionId ≤ v.timestamp ∧ v.timestamp ≤ issued
  bottom : ∃ v ∈ versions, v.timestamp = 0

namespace Chain

variable (h : Chain time issued versions)

include h

theorem mono {time' issued' : Nat} (ht : time ≤ time') (hi : issued ≤ issued') : Chain time' issued' versions :=
  { h with bounds := fun v hv => (h.bounds v hv).imp (·.trans ht) (And.imp_right (·.trans hi)) }

theorem filter (hp : ∀ v ∈ versions, v.timestamp = 0 → p v = true) : Chain time issued (versions.filter p) where
  refs := h.refs.filter p
  sorted := h.sorted.filter p
  single v hv w hw := h.single v (mem_filter.mp hv).1 w (mem_filter.mp hw).1
  bounds v hv := h.bounds v (mem_filter.mp hv).1
  bottom := by
    obtain ⟨v, hv, hz⟩ := h.bottom
    exact ⟨v, mem_filter.mpr ⟨hv, hp v hv hz⟩, hz⟩

omit h in
theorem push {head : CatalogEntry} (h : Chain time issued (head :: older))
    (hstart : startTransactionId ≤ v.timestamp) (hissued : v.timestamp ≤ issued)
    (hhead : head.timestamp = v.timestamp ∨ head.timestamp < startTransactionId)
    (hrefs : ∀ w ∈ head :: older, w.ref < v.ref) : Chain time issued (v :: head :: older) := by
  have hle : ∀ w ∈ head :: older, w.timestamp ≤ head.timestamp := fun w hw => by
    rcases mem_cons.mp hw with rfl | hw
    · exact le_rfl
    · exact (pairwise_cons.mp h.sorted).1 w hw
  have hhead' : head.timestamp ≤ v.timestamp := hhead.elim le_of_eq fun hlt => hlt.le.trans hstart
  have hown : ∀ w ∈ head :: older, startTransactionId ≤ w.timestamp → v.timestamp = w.timestamp := by
    intro w hw hs
    have heq := h.single head mem_cons_self w hw (hs.trans (hle w hw)) hs
    rcases hhead with he | hlt
    · exact he.symm.trans heq
    · exact absurd (heq ▸ hs) hlt.not_ge
  refine ⟨pairwise_cons.mpr ⟨hrefs, h.refs⟩,
    pairwise_cons.mpr ⟨fun w hw => (hle w hw).trans hhead', h.sorted⟩, ?_, ?_, ?_⟩
  · intro u hu w hw hus hws
    rcases mem_cons.mp hu with rfl | hm <;> rcases mem_cons.mp hw with rfl | hm'
    · rfl
    · exact hown w hm' hws
    · exact (hown u hm hus).symm
    · exact h.single u hm w hm' hus hws
  · intro w hw
    rcases mem_cons.mp hw with rfl | hw
    · exact .inr ⟨hstart, hissued⟩
    · exact h.bounds w hw
  · obtain ⟨w, hw, hz⟩ := h.bottom
    exact ⟨w, mem_cons_of_mem v hw, hz⟩

theorem stamp {id : Nat} (hid : startTransactionId ≤ id) (hts : time ≤ commitTS) (hlt : commitTS < startTransactionId) :
    Chain commitTS issued (versions.map fun v => if v.timestamp = id then { v with timestamp := commitTS } else v) := by
  refine ⟨?_, ?_, ?_, ?_, ?_⟩
  · refine pairwise_map.mpr (h.refs.imp fun hvw => ?_)
    split_ifs <;> exact hvw
  · refine pairwise_map.mpr (h.sorted.imp_of_mem fun {v w} hv hw hvw => ?_)
    have hb := h.bounds w hw
    have hs := h.single v hv w hw
    simp only [apply_ite CatalogEntry.timestamp]
    split_ifs <;> omega
  · simp only [mem_map, forall_exists_index, and_imp, forall_apply_eq_imp_iff₂]
    intro v hv w hw hvs hws
    have hs := h.single v hv w hw
    simp only [apply_ite CatalogEntry.timestamp] at hvs hws ⊢
    split_ifs at hvs hws ⊢ <;> omega
  · simp only [mem_map, forall_exists_index, and_imp, forall_apply_eq_imp_iff₂]
    intro v hv
    have hb := h.bounds v hv
    simp only [apply_ite CatalogEntry.timestamp]
    split_ifs <;> omega
  · obtain ⟨v, hv, hz⟩ := h.bottom
    exact ⟨v, mem_map.mpr ⟨v, hv, if_neg (by omega)⟩, hz⟩

theorem traverse_own (hid : startTransactionId ≤ tx.id) (hv : v ∈ versions) (hts : v.timestamp = tx.id) :
    ∃ e, versions.head? = some e ∧ e.timestamp = tx.id ∧ traverse tx versions = some e := by
  cases versions with
  | nil => simp at hv
  | cons e older =>
    have hle : v.timestamp ≤ e.timestamp := by
      rcases mem_cons.mp hv with rfl | hv
      · exact le_rfl
      · exact (pairwise_cons.mp h.sorted).1 v hv
    have hown : e.timestamp = tx.id :=
      (h.single e mem_cons_self v hv (hid.trans (hts ▸ hle)) (hid.trans hts.ge)).trans hts
    exact ⟨e, rfl, hown, find?_cons_of_pos (by simp [Snapshot.sees, hown])⟩

theorem traverse_committed (hown : ∀ v ∈ versions, v.timestamp ≠ tx.id) :
    ∃ e, traverse tx versions = some e ∧ versions.find? (·.timestamp ≤ tx.startTS) = some e ∧
      e ∈ versions ∧ e.timestamp ≤ tx.startTS ∧
      ∀ v ∈ versions, v.timestamp ≤ tx.startTS → v.timestamp ≤ e.timestamp := by
  have hfind : traverse tx versions = versions.find? (·.timestamp ≤ tx.startTS) :=
    find?_congr fun v hv => by simp [Snapshot.sees, hown v hv]
  obtain ⟨z, hz, hzero⟩ := h.bottom
  cases he : versions.find? (·.timestamp ≤ tx.startTS) with
  | none => exact absurd (find?_eq_none.mp he z hz) (by simp [hzero])
  | some e =>
    have hseen : e.timestamp ≤ tx.startTS := by simpa using find?_some he
    refine ⟨e, hfind.trans he, rfl, mem_of_find?_eq_some he, hseen, fun v hv hle => ?_⟩
    obtain ⟨pre, post, rfl, hpre⟩ := find?_eq_some_iff_append.mp he |>.2
    rcases mem_append.mp hv with hv | hv
    · exact absurd (decide_eq_true hle) (by simpa using hpre v hv)
    · rcases mem_cons.mp hv with rfl | hv
      · exact le_rfl
      · exact (pairwise_cons.mp (pairwise_append.mp h.sorted).2.1).1 v hv

end Chain

theorem traverse_filter (hp : ∀ v ∈ versions, tx.sees v.timestamp = true → p v = true) :
    traverse tx (versions.filter p) = traverse tx versions := by
  rw [CatalogSets.traverse, find?_filter]
  refine find?_congr fun v hv => ?_
  cases hs : tx.sees v.timestamp with
  | false => simp
  | true => simp [hp v hv hs]

end Rag3db.Catalog
