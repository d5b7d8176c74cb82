import Rag3db.Library.Saturation

open List Relation.ReflTransGen

namespace Rag3db.Weaver

open Library.Saturation

inductive GatherDirection where
  | outward
  | inward

structure GatherRule where
  relation : String
  direction : GatherDirection

/-- A derived entity: its root, and what is gathered around each row. -/
structure DerivedEntity where
  root : String
  gather : List GatherRule

/-- What of a configuration ties tables together: the ends of the declared
relations, the derived entities, and the `derived_from` of their declarations. -/
structure TableTies where
  relations : String → Option (String × String)
  derived : AList fun _ : String => DerivedEntity
  derivedFrom : String → Option String

/-- The queue: each record with the name of its table, or of its relation. -/
structure PendingWork (R : Type) where
  entities : List (String × R)
  relations : List (String × R)
  updates : List (String × R)
  deletes : List (String × R)
  derivations : List (String × R)

variable {R : Type}

namespace PendingWork

/-- `extraire_les_tables`: what is taken, and what stays. -/
def extract (q : PendingWork R) (table relation : String → Bool) : PendingWork R × PendingWork R :=
  let entities := q.entities.partition (table ·.1)
  let relations := q.relations.partition (relation ·.1)
  let updates := q.updates.partition (table ·.1)
  let deletes := q.deletes.partition (table ·.1)
  let derivations := q.derivations.partition (table ·.1)
  (⟨entities.1, relations.1, updates.1, deletes.1, derivations.1⟩,
    ⟨entities.2, relations.2, updates.2, deletes.2, derivations.2⟩)

def only (q : PendingWork R) (table relation : String → Bool) : PendingWork R where
  entities := q.entities.filter (table ·.1)
  relations := q.relations.filter (relation ·.1)
  updates := q.updates.filter (table ·.1)
  deletes := q.deletes.filter (table ·.1)
  derivations := q.derivations.filter (table ·.1)

end PendingWork

namespace TableTies

variable (c : TableTies)

/-- `bouts_des_relations`: a declared relation, or the link of a derived entity to its root. -/
def ends (name : String) : Option (String × String) :=
  match c.relations name with
  | some ends => some ends
  | none =>
    let mark := "_DERIVED_FROM".toList
    if mark <:+ name.toList then
      let derived := String.ofList (name.toList.take (name.length - mark.length))
      (c.derivedFrom derived).map fun root => (derived, root)
    else none

def gathered (rule : GatherRule) : Option String :=
  (c.relations rule.relation).map fun ends =>
    match rule.direction with
    | .outward => ends.2
    | .inward => ends.1

def touches (d : DerivedEntity) (t : String) : Bool :=
  d.root == t || d.gather.any fun rule => c.gathered rule == some t

/-- A queued relation that draws in its ends. A reader leaves the implicit ones aside. -/
def drawn (writes : Bool) (name : String) : Option (String × String) :=
  if (c.relations name).isNone && !writes then none else c.ends name

def draw (writes : Bool) (tables : Finset String) (r : String × R) : Finset String :=
  match c.drawn writes r.1 with
  | some (a, b) => if a ∈ tables ∨ b ∈ tables then insert b (insert a tables) else tables
  | none => tables

/-- What a table brings in by the derived entities. -/
def dependents (writes : Bool) (t : String) : Finset String :=
  let sources := match c.derived.lookup t with
    | some d => (d.root :: d.gather.filterMap c.gathered).toFinset
    | none => ∅
  if writes then sources ∪ ((c.derived.entries.filter fun e => c.touches e.2 t).map (·.1)).toFinset else sources

/-- One turn of the loop of `fermeture`. -/
def round (q : PendingWork R) (writes : Bool) (tables : Finset String) : Finset String :=
  q.relations.foldl (c.draw writes) (tables ∪ tables.biUnion (c.dependents writes))

def names (q : PendingWork R) : Finset String :=
  (c.derived.keys ++ c.derived.entries.flatMap (fun e => e.2.root :: e.2.gather.filterMap c.gathered) ++
    q.relations.flatMap fun r => (c.ends r.1).elim [] fun ends => [ends.1, ends.2]).toFinset

/-- The closure of a table, for a writer or for a reader. -/
def fermeture (q : PendingWork R) (seed : String) (writes : Bool) : Finset String :=
  saturate (c.round q writes) (insert seed (c.names q)).card {seed}

def within (tables : Finset String) (name : String) : Bool :=
  match c.ends name with
  | some (a, b) => decide (a ∈ tables) && decide (b ∈ tables)
  | none => false

/-- What a drain of a target takes, and the queue that it leaves. -/
def drainTarget (q : PendingWork R) (target : String × Bool) : PendingWork R × PendingWork R :=
  let tables := c.fermeture q target.1 target.2
  q.extract (· ∈ tables) (c.within tables)

/-- The rules by which a table brings in another. -/
inductive Brings (q : PendingWork R) (writes : Bool) : String → String → Prop
  | source {t u d} : c.derived.lookup t = some d → c.touches d u → Brings q writes t u
  | dependent {t u d} : writes → c.derived.lookup u = some d → c.touches d t → Brings q writes t u
  | toEnd {r a b} : r ∈ q.relations → c.drawn writes r.1 = some (a, b) → Brings q writes a b
  | fromEnd {r a b} : r ∈ q.relations → c.drawn writes r.1 = some (a, b) → Brings q writes b a

variable {c} {q : PendingWork R} {writes : Bool} {s : Finset String} {S : Set String} {t u seed : String}

theorem touches_iff {d : DerivedEntity} : c.touches d t ↔ t ∈ d.root :: d.gather.filterMap c.gathered := by
  simp only [touches, Bool.or_eq_true, beq_iff_eq, any_eq_true, mem_cons, mem_filterMap]
  exact or_congr_left eq_comm

theorem mem_dependents : u ∈ c.dependents writes t ↔ (∃ d, c.derived.lookup t = some d ∧ c.touches d u) ∨
    (writes ∧ ∃ d, c.derived.lookup u = some d ∧ c.touches d t) := by
  have hsource : u ∈ (match c.derived.lookup t with
      | some d => (d.root :: d.gather.filterMap c.gathered).toFinset
      | none => ∅) ↔ ∃ d, c.derived.lookup t = some d ∧ c.touches d u := by
    cases c.derived.lookup t with
    | none => simp
    | some d => simp only [mem_toFinset, Option.some.injEq, exists_eq_left', touches_iff]
  have hdependent : u ∈ ((c.derived.entries.filter fun e => c.touches e.2 t).map (·.1)).toFinset ↔
      ∃ d, c.derived.lookup u = some d ∧ c.touches d t := by
    simp only [mem_toFinset, mem_map, mem_filter, ← Option.mem_def, AList.mem_lookup_iff]
    constructor
    · rintro ⟨⟨_, d⟩, ⟨he, ht⟩, rfl⟩
      exact ⟨d, he, ht⟩
    · rintro ⟨d, he, ht⟩
      exact ⟨⟨u, d⟩, ⟨he, ht⟩, rfl⟩
  cases writes with
  | false => simpa [dependents] using hsource
  | true => simp only [dependents, if_true, Finset.mem_union, hsource, hdependent, true_and]

theorem subset_foldl_draw (l : List (String × R)) : s ⊆ l.foldl (c.draw writes) s := by
  induction l generalizing s with
  | nil => exact Finset.Subset.refl s
  | cons r l ih =>
    refine Finset.Subset.trans ?_ ih
    unfold draw
    split
    · split_ifs
      · exact (Finset.subset_insert _ _).trans (Finset.subset_insert _ _)
      · exact Finset.Subset.refl s
    · exact Finset.Subset.refl s

theorem ends_mem_foldl_draw {l : List (String × R)} {r : String × R} {a b : String} (hr : r ∈ l)
    (hdrawn : c.drawn writes r.1 = some (a, b)) (h : a ∈ s ∨ b ∈ s) :
    a ∈ l.foldl (c.draw writes) s ∧ b ∈ l.foldl (c.draw writes) s := by
  induction l generalizing s with
  | nil => cases hr
  | cons x l ih =>
    rcases mem_cons.mp hr with rfl | hr
    · have hdraw : c.draw writes s r = insert b (insert a s) := by simp [draw, hdrawn, h]
      rw [foldl_cons, hdraw]
      exact ⟨subset_foldl_draw l (by simp), subset_foldl_draw l (by simp)⟩
    · exact ih hr (h.imp (fun ha => subset_foldl_draw [x] ha) fun hb => subset_foldl_draw [x] hb)

theorem foldl_draw_subset {l : List (String × R)} (hl : l ⊆ q.relations)
    (hclosed : ∀ t ∈ S, ∀ u, c.Brings q writes t u → u ∈ S) (hs : ↑s ⊆ S) : ↑(l.foldl (c.draw writes) s) ⊆ S := by
  induction l generalizing s with
  | nil => exact hs
  | cons r l ih =>
    obtain ⟨hr, hl⟩ := cons_subset.mp hl
    refine ih hl ?_
    unfold draw
    split
    · rename_i a b hdrawn
      split_ifs with h
      · have hab : a ∈ S ∧ b ∈ S := by
          rcases h with ha | hb
          · exact ⟨hs ha, hclosed a (hs ha) b (.toEnd hr hdrawn)⟩
          · exact ⟨hclosed b (hs hb) a (.fromEnd hr hdrawn), hs hb⟩
        rw [Finset.coe_insert, Finset.coe_insert]
        exact Set.insert_subset hab.2 (Set.insert_subset hab.1 hs)
      · exact hs
    · exact hs

theorem subset_round (s : Finset String) : s ⊆ c.round q writes s :=
  Finset.subset_union_left.trans (subset_foldl_draw _)

theorem mem_round_of_brings (ht : t ∈ s) (h : c.Brings q writes t u) : u ∈ c.round q writes s := by
  have hstart : ∀ {x}, x ∈ s → x ∈ s ∪ s.biUnion (c.dependents writes) := fun hx => Finset.mem_union_left _ hx
  have hdependent : u ∈ c.dependents writes t → u ∈ c.round q writes s := fun hu =>
    subset_foldl_draw _ (Finset.mem_union_right _ (Finset.mem_biUnion.mpr ⟨t, ht, hu⟩))
  cases h with
  | source hd hu => exact hdependent (mem_dependents.mpr (.inl ⟨_, hd, hu⟩))
  | dependent hw hd hu => exact hdependent (mem_dependents.mpr (.inr ⟨hw, _, hd, hu⟩))
  | toEnd hr hdrawn => exact (ends_mem_foldl_draw hr hdrawn (.inl (hstart ht))).2
  | fromEnd hr hdrawn => exact (ends_mem_foldl_draw hr hdrawn (.inr (hstart ht))).1

theorem round_subset (hclosed : ∀ t ∈ S, ∀ u, c.Brings q writes t u → u ∈ S) (hs : ↑s ⊆ S) :
    ↑(c.round q writes s) ⊆ S := by
  refine foldl_draw_subset (List.Subset.refl _) hclosed fun u hu => ?_
  rcases Finset.mem_union.mp hu with hu | hu
  · exact hs hu
  · obtain ⟨t, ht, hu⟩ := Finset.mem_biUnion.mp hu
    rcases mem_dependents.mp hu with ⟨d, hd, htouch⟩ | ⟨hw, d, hd, htouch⟩
    · exact hclosed t (hs ht) u (.source hd htouch)
    · exact hclosed t (hs ht) u (.dependent hw hd htouch)

theorem ends_of_drawn {name : String} {ends : String × String} (h : c.drawn writes name = some ends) :
    c.ends name = some ends := by
  unfold drawn at h
  split_ifs at h
  exact h

theorem mem_names_of_brings (h : c.Brings q writes t u) : u ∈ c.names q := by
  have hends : ∀ {r a b}, r ∈ q.relations → c.drawn writes r.1 = some (a, b) → a ∈ c.names q ∧ b ∈ c.names q := by
    intro r a b hr hdrawn
    have hmem : ∀ x ∈ [a, b], x ∈ c.names q := fun x hx => mem_toFinset.mpr
      (mem_append_right _ (mem_flatMap.mpr ⟨r, hr, by rw [ends_of_drawn hdrawn]; exact hx⟩))
    exact ⟨hmem a (by simp), hmem b (by simp)⟩
  cases h with
  | source hd hu =>
    refine mem_toFinset.mpr (mem_append_left _ (mem_append_right _ ?_))
    exact mem_flatMap.mpr ⟨⟨t, _⟩, AList.mem_lookup_iff.mp hd, touches_iff.mp hu⟩
  | dependent _ hd =>
    refine mem_toFinset.mpr (mem_append_left _ (mem_append_left _ ?_))
    exact AList.mem_keys.mp (AList.lookup_isSome.mp (by rw [hd]; rfl))
  | toEnd hr hdrawn => exact (hends hr hdrawn).2
  | fromEnd hr hdrawn => exact (hends hr hdrawn).1

theorem mem_fermeture : t ∈ c.fermeture q seed writes ↔ Relation.ReflTransGen (c.Brings q writes) seed t := by
  constructor
  · have hall := saturate_induction (s := {seed})
      (P := fun s => ↑s ⊆ {t | Relation.ReflTransGen (c.Brings q writes) seed t})
      (fun s hs => round_subset (fun t ht u hu => tail ht hu) hs)
      (by simpa using refl) (insert seed (c.names q)).card
    exact fun ht => hall ht
  · have hfixed := saturate_fixed (f := c.round q writes) (s := {seed}) (t := insert seed (c.names q)) subset_round
      (fun s hs => round_subset (fun _ _ u hu => Finset.mem_insert_of_mem (mem_names_of_brings hu)) hs)
      (by simp) (Nat.lt_add_of_pos_left (by simp))
    intro h
    induction h with
    | refl =>
      exact saturate_induction (fun s hs => subset_round s hs) (Finset.mem_singleton_self seed) _
    | tail _ hstep ih =>
      unfold fermeture
      rw [← hfixed]
      exact mem_round_of_brings ih hstep

theorem isLeast_fermeture (c : TableTies) (q : PendingWork R) (seed : String) (writes : Bool) :
    IsLeast {S : Set String | seed ∈ S ∧ ∀ t ∈ S, ∀ u, c.Brings q writes t u → u ∈ S} ↑(c.fermeture q seed writes) := by
  refine ⟨⟨mem_fermeture.mpr .refl, fun t ht u hu => mem_fermeture.mpr ((mem_fermeture.mp ht).tail hu)⟩, ?_⟩
  rintro S ⟨hseed, hclosed⟩ t ht
  induction mem_fermeture.mp ht with
  | refl => exact hseed
  | tail hpath hstep ih => exact hclosed _ (ih (mem_fermeture.mpr hpath)) _ hstep

theorem fermeture_symm (h : u ∈ c.fermeture q t true) : t ∈ c.fermeture q u true := by
  induction mem_fermeture.mp h with
  | refl => exact mem_fermeture.mpr .refl
  | tail hpath hstep ih =>
    refine mem_fermeture.mpr (.head ?_ (mem_fermeture.mp (ih (mem_fermeture.mpr hpath))))
    cases hstep with
    | source hd hu => exact .dependent rfl hd hu
    | dependent _ hd hu => exact .source hd hu
    | toEnd hr hdrawn => exact .fromEnd hr hdrawn
    | fromEnd hr hdrawn => exact .toEnd hr hdrawn

theorem drainTarget_eq (target : String × Bool) : c.drainTarget q target =
    (q.only (· ∈ c.fermeture q target.1 target.2) (c.within (c.fermeture q target.1 target.2)),
      q.only (· ∉ c.fermeture q target.1 target.2) (!c.within (c.fermeture q target.1 target.2) ·)) := by
  simp [drainTarget, PendingWork.extract, PendingWork.only, Function.comp_def]

variable {a b : String × Bool} (h : Disjoint (c.fermeture q a.1 a.2) (c.fermeture q b.1 b.2))

include h

theorem fermeture_drainTarget : c.fermeture (c.drainTarget q a).2 b.1 b.2 = c.fermeture q b.1 b.2 := by
  ext t
  rw [mem_fermeture, mem_fermeture]
  constructor
  · refine fun hpath => mono (fun t u hstep => ?_) _ _ hpath
    rw [drainTarget_eq] at hstep
    cases hstep with
    | source hd hu => exact .source hd hu
    | dependent hw hd hu => exact .dependent hw hd hu
    | toEnd hr hdrawn => exact .toEnd (mem_filter.mp hr).1 hdrawn
    | fromEnd hr hdrawn => exact .fromEnd (mem_filter.mp hr).1 hdrawn
  · intro hpath
    induction hpath with
    | refl => exact .refl
    | @tail t u hpath hstep ih =>
      have hnot : t ∉ c.fermeture q a.1 a.2 := fun hmem =>
        Finset.disjoint_left.mp h hmem (mem_fermeture.mpr hpath)
      have hstays : ∀ {r x y}, r ∈ q.relations → c.drawn b.2 r.1 = some (x, y) → t = x ∨ t = y →
          r ∈ (c.drainTarget q a).2.relations := by
        intro r x y hr hdrawn ht
        have hends : c.ends r.1 = some (x, y) := ends_of_drawn hdrawn
        rw [drainTarget_eq]
        refine mem_filter.mpr ⟨hr, ?_⟩
        rcases ht with rfl | rfl <;> simp [within, hends, hnot]
      refine ih.tail ?_
      cases hstep with
      | source hd hu => exact .source hd hu
      | dependent hw hd hu => exact .dependent hw hd hu
      | toEnd hr hdrawn => exact .toEnd (hstays hr hdrawn (.inl rfl)) hdrawn
      | fromEnd hr hdrawn => exact .fromEnd (hstays hr hdrawn (.inr rfl)) hdrawn

theorem drainTarget_drainTarget : (c.drainTarget (c.drainTarget q a).2 b).1 = (c.drainTarget q b).1 := by
  have hout : ∀ t, t ∈ c.fermeture q b.1 b.2 → t ∉ c.fermeture q a.1 a.2 :=
    fun t ht hmem => Finset.disjoint_left.mp h hmem ht
  have hwithin : ∀ name, c.within (c.fermeture q b.1 b.2) name → !c.within (c.fermeture q a.1 a.2) name := by
    intro name hname
    unfold within at hname ⊢
    cases hends : c.ends name with
    | none => simp [hends] at hname
    | some ends =>
      simp only [hends, Bool.and_eq_true, decide_eq_true_eq] at hname
      simp [hout _ hname.1]
  rw [drainTarget_eq, fermeture_drainTarget h, drainTarget_eq a, drainTarget_eq b]
  have hfilter : ∀ (l : List (String × R)) (p p' : String → Bool), (∀ t, p t → p' t) →
      (l.filter (p' ·.1)).filter (p ·.1) = l.filter (p ·.1) := by
    intro l p p' hp
    rw [filter_filter]
    refine filter_congr fun x _ => ?_
    cases hx : p x.1 with
    | false => rfl
    | true => exact hp _ hx
  simp only [PendingWork.only, hfilter _ _ _ hwithin,
    hfilter _ (· ∈ c.fermeture q b.1 b.2) (· ∉ c.fermeture q a.1 a.2) (by simpa using hout)]

omit h

/-- A closure is the least set that the rules do not leave, for writers the
closures are the parts of a partition, a drain takes the work of the closure and
leaves the rest in its order, and drains of closures that are apart do not matter
to each other. -/
theorem closures_apart (c : TableTies) (q : PendingWork R) :
    (∀ seed writes, IsLeast {S : Set String | seed ∈ S ∧ ∀ t ∈ S, ∀ u, c.Brings q writes t u → u ∈ S}
      ↑(c.fermeture q seed writes)) ∧
    (∀ t u, u ∈ c.fermeture q t true → t ∈ c.fermeture q u true ∧ c.fermeture q u true = c.fermeture q t true) ∧
    (∀ target, c.drainTarget q target =
      (q.only (· ∈ c.fermeture q target.1 target.2) (c.within (c.fermeture q target.1 target.2)),
        q.only (· ∉ c.fermeture q target.1 target.2) (!c.within (c.fermeture q target.1 target.2) ·))) ∧
    ∀ a b : String × Bool, Disjoint (c.fermeture q a.1 a.2) (c.fermeture q b.1 b.2) →
      (c.drainTarget (c.drainTarget q a).2 b).1 = (c.drainTarget q b).1 ∧
        (c.drainTarget (c.drainTarget q b).2 a).1 = (c.drainTarget q a).1 := by
  refine ⟨isLeast_fermeture c q, fun t u hu => ⟨fermeture_symm hu, ?_⟩, drainTarget_eq,
    fun a b h => ⟨drainTarget_drainTarget h, drainTarget_drainTarget h.symm⟩⟩
  ext x
  rw [mem_fermeture, mem_fermeture]
  exact ⟨(mem_fermeture.mp hu).trans, (mem_fermeture.mp (fermeture_symm hu)).trans⟩

/-- `A` and `B` are tied by a queued relation, `C` is apart. -/
theorem closures_apart_two :
    let c : TableTies := ⟨fun r => if r = "LINKS" then some ("A", "B") else none, ∅, fun _ => none⟩
    let q : PendingWork Nat := ⟨[("A", 0), ("C", 1), ("B", 2)], [("LINKS", 3)], [], [], []⟩
    Disjoint (c.fermeture q "A" true) (c.fermeture q "C" true) ∧
      (c.drainTarget (c.drainTarget q ("A", true)).2 ("C", true)).1 = (c.drainTarget q ("C", true)).1 ∧
      (c.drainTarget q ("A", true)).1.entities = [("A", 0), ("B", 2)] ∧
      (c.drainTarget q ("C", true)).1.entities = [("C", 1)] := by
  intro c q
  have hapart : Disjoint (c.fermeture q "A" true) (c.fermeture q "C" true) := by decide +kernel
  exact ⟨hapart, ((closures_apart c q).2.2.2 ("A", true) ("C", true) hapart).1, by decide +kernel, by decide +kernel⟩

end TableTies

end Rag3db.Weaver
