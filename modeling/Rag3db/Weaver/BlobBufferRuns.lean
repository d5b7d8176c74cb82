import Rag3db.Weaver.BufferedBlobStore

open List Option AList Function

namespace Rag3db.Weaver

open Library.Registers Library.Transition

def BlobAction.begins : BlobAction → Bool
  | .save .. | .read .. | .delete _ | .list _ | .flush => true
  | .inner _ | .push .. | .go => false

namespace BlobCall

/-- The call has the key in its hands: its blob is out of the buffer, or is being deleted. -/
def holds (key : BlobKey) : BlobCall → Bool
  | .flushing _ backup _ => backup.any (·.1 = key)
  | .restoring backup _ _ => backup.any (·.1 = key)
  | .deleting k _ => k = key
  | _ => false

def Carries (key : BlobKey) (data : Blob) : BlobCall → Prop
  | .flushing _ backup _ => (key, data) ∈ backup
  | .restoring backup _ _ => (key, data) ∈ backup
  | .deleting k dropped => k = key ∧ dropped = some data
  | _ => False

theorem Carries.holds {key : BlobKey} {data : Blob} {call : BlobCall} (h : call.Carries key data) : call.holds key := by
  cases call with
  | flushing left backup stats | restoring backup stats e =>
    exact any_eq_true.mpr ⟨(key, data), h, decide_eq_true rfl⟩
  | deleting k dropped => exact decide_eq_true h.1
  | idle | reading | listing | merging | answered => exact h.elim

end BlobCall

/-- A read answers with what its key held at some moment of the call, and a
listing names only keys that held something. -/
def BlobReply.Truthful (base : BlobKey → Option Blob) (log : List (BlobKey × Option Blob)) : BlobReply → Prop
  | .loaded key start data => HeldSince base start key data log
  | .found key start there => ∃ v, HeldSince base start key v log ∧ v.isSome = there
  | .length key start bytes => ∃ v, HeldSince base start key v log ∧ v.map List.length = bytes
  | .listed index start names => ∀ f ∈ names, ∃ d, HeldSince base start (index, f) (some d) log
  | _ => True

namespace BlobSystem

/-- No call touches a key that a flush or a delete has in its hands, but for
saves during a flush, and no delete fails that has dropped a pending write. -/
def Apart (s : BlobSystem) : Nat × BlobAction → Prop
  | (_, .save key _) => ∀ t dropped, s.calls t ≠ .deleting key dropped
  | (_, .read _ key) => s.pending.writes.lookup key = none → ∀ t, ¬ (s.calls t).holds key
  | (_, .delete key) => ∀ t, ¬ (s.calls t).holds key
  | (_, .flush) => ∀ key ∈ s.pending.writes, ∀ t, ¬ (s.calls t).holds key
  | (t, .inner answer) => ∀ key data, s.calls t = .deleting key (some data) → answer.isOk
  | _ => True

/-- What the store is for: its answers are truthful, and every key that no call
has in its hands reads as what it holds. -/
structure Faithful (s : BlobSystem) : Prop where
  truthful : ∀ t reply, s.calls t = .answered reply → reply.Truthful s.base s.log
  visible : ∀ key, (∀ t, ¬ (s.calls t).holds key) →
    (s.pending.writes.lookup key).or (s.inner.lookup key) = current s.base key s.log

/-- What holds of a call under way. -/
def SoundCall (s : BlobSystem) : BlobCall → Prop
  | .reading _ key start =>
    start ≤ s.log.length ∧ HeldSince s.base start key (s.inner.lookup key) s.log ∧
      ∀ t data, (s.calls t).Carries key data → HeldSince s.base start key (some data) s.log
  | .deleting key _ => s.pending.writes.lookup key = none
  | .listing _ start => start ≤ s.log.length
  | .merging index start names =>
    start ≤ s.log.length ∧ ∀ f ∈ names, ∃ d, HeldSince s.base start (index, f) (some d) s.log
  | .flushing left backup _ =>
    (backup.map (·.1)).Nodup ∧ left ⊆ backup ∧ ∀ p ∈ backup, p ∉ left → s.inner.lookup p.1 = some p.2
  | .restoring backup _ _ => (backup.map (·.1)).Nodup
  | .answered reply => reply.Truthful s.base s.log
  | .idle => True

/-- A key holds what the buffer has, or what was taken out of it, or what the store has. -/
structure Kept (s : BlobSystem) : Prop where
  buffered : ∀ key data, s.pending.writes.lookup key = some data → current s.base key s.log = some data
  carried : ∀ key data t, s.pending.writes.lookup key = none → (s.calls t).Carries key data →
    current s.base key s.log = some data
  stored : ∀ key, s.pending.writes.lookup key = none → (∀ t data, ¬ (s.calls t).Carries key data) →
    s.inner.lookup key = current s.base key s.log
  one : ∀ key t t', (s.calls t).holds key → (s.calls t').holds key → t = t'
  sound : ∀ t, s.SoundCall (s.calls t)

section Blobs

variable {blobs : Blobs} {key : BlobKey} {data : Blob} {pushed : List (BlobKey × Blob)}

theorem mem_items : (key, data) ∈ items blobs ↔ blobs.lookup key = some data := by
  rw [← mem_def, mem_lookup_iff]
  constructor
  · intro h
    obtain ⟨e, he, heq⟩ := mem_map.mp h
    cases heq
    exact he
  · exact fun h => mem_map.mpr ⟨_, h, rfl⟩

theorem nodup_items (blobs : Blobs) : ((items blobs).map (·.1)).Nodup := by
  have hkeys : (items blobs).map (·.1) = blobs.keys := by simp [items, AList.keys, List.keys]
  rw [hkeys]
  exact blobs.keys_nodup

theorem lookup_of_mem_files {index f : String} (h : f ∈ files blobs index) :
    ∃ data, blobs.lookup (index, f) = some data := by
  obtain ⟨k, hk, rfl⟩ := mem_map.mp h
  obtain ⟨hkeys, hindex⟩ := mem_filter.mp hk
  cases of_decide_eq_true hindex
  exact isSome_iff_exists.mp (lookup_isSome.mpr (mem_keys.mpr hkeys))

theorem lookup_insertAll_of_not_mem (h : key ∉ pushed.map (·.1)) :
    (insertAll blobs pushed).lookup key = blobs.lookup key := by
  induction pushed generalizing blobs with
  | nil => rfl
  | cons p pushed ih =>
    rw [map_cons, mem_cons, not_or] at h
    exact (ih h.2).trans (lookup_insert_ne h.1)

theorem lookup_insertAll_of_mem (hone : ∀ d, (key, d) ∈ pushed → d = data) (h : (key, data) ∈ pushed) :
    (insertAll blobs pushed).lookup key = some data := by
  induction pushed generalizing blobs with
  | nil => cases h
  | cons p pushed ih =>
    -- a later entry of the key is written over this one, and says the same
    by_cases hlater : (key, data) ∈ pushed
    · exact ih (fun d hd => hone d (mem_cons_of_mem _ hd)) hlater
    · have hp : (key, data) = p := (mem_cons.mp h).resolve_right hlater
      have hkey : key ∉ pushed.map (·.1) := by
        intro hk
        obtain ⟨⟨k, d⟩, hd, rfl⟩ := mem_map.mp hk
        exact hlater (hone d (mem_cons_of_mem _ hd) ▸ hd)
      rw [← hp]
      exact (lookup_insertAll_of_not_mem hkey).trans (lookup_insert _)

theorem lookup_orInsert (p : BlobKey × Blob) :
    (orInsert blobs p).lookup key = (blobs.lookup key).or (if p.1 = key then some p.2 else none) := by
  unfold orInsert
  by_cases hkey : p.1 = key
  · subst hkey
    cases hold : blobs.lookup p.1 with
    | some d => simp [hold]
    | none => simp
  · cases blobs.lookup p.1 with
    | some d => simp [hkey]
    | none => simp [hkey, lookup_insert_ne (Ne.symm hkey)]

theorem lookup_restored_of_some (h : blobs.lookup key = some data) :
    (pushed.foldl orInsert blobs).lookup key = some data := by
  induction pushed generalizing blobs with
  | nil => exact h
  | cons p pushed ih => exact ih (by rw [lookup_orInsert, h]; rfl)

theorem lookup_restored_of_not_mem (h : key ∉ pushed.map (·.1)) :
    (pushed.foldl orInsert blobs).lookup key = blobs.lookup key := by
  induction pushed generalizing blobs with
  | nil => rfl
  | cons p pushed ih =>
    rw [map_cons, mem_cons, not_or] at h
    rw [foldl_cons, ih h.2, lookup_orInsert, if_neg (Ne.symm h.1), or_none]

theorem lookup_restored_of_mem (hnodup : (pushed.map (·.1)).Nodup) (h : (key, data) ∈ pushed)
    (hnone : blobs.lookup key = none) : (pushed.foldl orInsert blobs).lookup key = some data := by
  induction pushed generalizing blobs with
  | nil => cases h
  | cons p pushed ih =>
    rw [map_cons, nodup_cons] at hnodup
    rcases mem_cons.mp h with rfl | h
    · have hfirst : (orInsert blobs (key, data)).lookup key = some data := by
        rw [lookup_orInsert, hnone, if_pos rfl]
        rfl
      rw [foldl_cons]
      exact lookup_restored_of_some hfirst
    · refine ih hnodup.2 h ?_
      have hne : p.1 ≠ key := fun he => hnodup.1 (he ▸ mem_map_of_mem h)
      rw [lookup_orInsert, hnone, if_neg hne]
      rfl

end Blobs

variable {s s' : BlobSystem} {t t' : Nat} {call : BlobCall} {key : BlobKey} {v : Option Blob}

/-- What a step of `t` does to a key when its call goes on as `call`: nothing;
or the buffer has what the key holds now; or nobody else has the key in its
hands, and its blob is carried on or has reached the store. -/
inductive KeyMove (s s' : BlobSystem) (t : Nat) (call : BlobCall) (key : BlobKey) : Prop
  | untouched (hpending : s'.pending.writes.lookup key = s.pending.writes.lookup key)
      (hinner : s'.inner.lookup key = s.inner.lookup key)
      (hcurrent : current s.base key s'.log = current s.base key s.log)
      (hcarries : ∀ data, call.Carries key data ↔ (s.calls t).Carries key data)
  | buffered (data : Blob) (hpending : s'.pending.writes.lookup key = some data)
      (hcurrent : current s.base key s'.log = some data)
      (hdeleting : s.pending.writes.lookup key = none → ∀ t' dropped, t' ≠ t → s.calls t' ≠ .deleting key dropped)
  | passed (hpending : s'.pending.writes.lookup key = none) (hothers : ∀ t', t' ≠ t → ¬ (s.calls t').holds key)
      (hcarried : ∀ data, call.Carries key data → current s.base key s'.log = some data)
      (hstored : (∀ data, ¬ call.Carries key data) → s'.inner.lookup key = current s.base key s'.log)

structure Move (s s' : BlobSystem) (t : Nat) (call : BlobCall) : Prop where
  base : s'.base = s.base
  calls : s'.calls = update s.calls t call
  log : s'.log = s.log ∨ ∃ e, s'.log = e :: s.log
  key : ∀ key, KeyMove s s' t call key
  hands : ∀ key, call.holds key → (s.calls t).holds key ∨ ∀ t', ¬ (s.calls t').holds key
  carries : ∀ key data, call.Carries key data → (s.calls t).Carries key data ∨ current s.base key s'.log = some data
  inner : ∀ key, s'.inner.lookup key = s.inner.lookup key ∨ (s.calls t).holds key ∧
    (s'.inner.lookup key = current s.base key s'.log ∨
      ∃ data, (s.calls t).Carries key data ∧ s'.inner.lookup key = some data)
  sound : s'.SoundCall call

namespace Move

variable (m : Move s s' t call)

include m

theorem calls_self : s'.calls t = call := by
  rw [m.calls, update_self]

theorem calls_of_ne (ht : t' ≠ t) : s'.calls t' = s.calls t' := by
  rw [m.calls, update_of_ne ht]

theorem carries_iff (h : ∀ data, call.Carries key data ↔ (s.calls t).Carries key data)
    (t' : Nat) (data : Blob) : (s'.calls t').Carries key data ↔ (s.calls t').Carries key data := by
  by_cases ht : t' = t
  · rw [ht, m.calls_self]
    exact h data
  · rw [m.calls_of_ne ht]

theorem held {start : Nat} (h : HeldSince s.base start key v s.log) : HeldSince s'.base start key v s'.log := by
  rw [m.base]
  rcases m.log with hlog | ⟨e, hlog⟩
  · exact hlog ▸ h
  · exact hlog ▸ h.cons e

theorem length_le : s.log.length ≤ s'.log.length := by
  rcases m.log with hlog | ⟨e, hlog⟩ <;> simp [hlog]

theorem sound_of_ne (h : s.Kept) (ht : t' ≠ t) : s'.SoundCall (s.calls t') := by
  have hs := h.sound t'
  have hlen := m.length_le
  generalize hcall : s.calls t' = other at hs ⊢
  cases other with
  | idle => trivial
  | reading kind key start =>
    obtain ⟨hstart, hinner, hcarried⟩ := hs
    have hnow : HeldSince s'.base start key (current s.base key s'.log) s'.log :=
      m.base ▸ .now (hstart.trans hlen)
    refine ⟨hstart.trans hlen, ?_, fun u data hd => ?_⟩
    · rcases m.inner key with hi | ⟨-, hi | ⟨data, hd, hi⟩⟩
      · exact hi ▸ m.held hinner
      · exact hi ▸ hnow
      · exact hi ▸ m.held (hcarried t data hd)
    · by_cases hu : u = t
      · rw [hu, m.calls_self] at hd
        rcases m.carries key data hd with hd | hcur
        · exact m.held (hcarried t data hd)
        · exact hcur ▸ hnow
      · rw [m.calls_of_ne hu] at hd
        exact m.held (hcarried u data hd)
  | deleting key dropped =>
    cases m.key key with
    | untouched hpending => exact hpending.trans hs
    | buffered data _ _ hdeleting => exact absurd hcall (hdeleting hs t' dropped ht)
    | passed hpending => exact hpending
  | listing index start =>
    exact Nat.le_trans hs hlen
  | merging index start names =>
    exact ⟨hs.1.trans hlen, fun f hf => (hs.2 f hf).imp fun d hd => m.held hd⟩
  | flushing left backup stats =>
    refine ⟨hs.1, hs.2.1, fun p hp hleft => ?_⟩
    rcases m.inner p.1 with hi | ⟨hold, -⟩
    · exact hi.trans (hs.2.2 p hp hleft)
    · have hcarries : (s.calls t').Carries p.1 p.2 := by
        rw [hcall]
        exact hp
      exact absurd (h.one p.1 _ _ hcarries.holds hold) ht
  | restoring backup stats e =>
    exact hs
  | answered reply =>
    cases reply with
    | loaded key start data => exact m.held hs
    | found key start there | length key start bytes => exact hs.imp fun v hv => ⟨m.held hv.1, hv.2⟩
    | listed index start names => exact fun f hf => (hs f hf).imp fun d hd => m.held hd
    | saved | deleted | flushed | failed => trivial

theorem eq_of_holds (h : s.Kept) (hkey : call.holds key) (hother : (s.calls t').holds key) : t' = t := by
  rcases m.hands key hkey with hold | hnone
  · exact h.one key _ _ hother hold
  · exact absurd hother (hnone t')

end Move

variable (h : s.Kept) {backup : List (BlobKey × Blob)} {stats : FlushStats}

include h

theorem Kept.move (m : Move s s' t call) : s'.Kept where
  buffered key data hd := by
    rw [m.base]
    cases m.key key with
    | untouched hpending _ hcurrent => exact hcurrent.trans (h.buffered key data (hpending ▸ hd))
    | buffered _ hpending hcurrent =>
      cases hpending.symm.trans hd
      exact hcurrent
    | passed hpending => cases hpending.symm.trans hd
  carried key data t' hnone hd := by
    rw [m.base]
    cases m.key key with
    | untouched hpending _ hcurrent hcarries =>
      exact hcurrent.trans (h.carried key data t' (hpending ▸ hnone) ((m.carries_iff hcarries t' data).mp hd))
    | buffered _ hpending => cases hpending.symm.trans hnone
    | passed _ hothers hcarried =>
      by_cases ht : t' = t
      · rw [ht, m.calls_self] at hd
        exact hcarried data hd
      · rw [m.calls_of_ne ht] at hd
        exact absurd hd.holds (hothers t' ht)
  stored key hnone hfree := by
    rw [m.base]
    cases m.key key with
    | untouched hpending hinner hcurrent hcarries =>
      rw [hinner, hcurrent]
      exact h.stored key (hpending ▸ hnone) fun t' data hd => hfree t' data ((m.carries_iff hcarries t' data).mpr hd)
    | buffered _ hpending => cases hpending.symm.trans hnone
    | passed _ _ _ hstored => exact hstored fun data hd => hfree t data (m.calls_self ▸ hd)
  one key t₁ t₂ h₁ h₂ := by
    by_cases ht₁ : t₁ = t
    · by_cases ht₂ : t₂ = t
      · rw [ht₁, ht₂]
      · rw [ht₁, m.calls_self] at h₁
        rw [m.calls_of_ne ht₂] at h₂
        rw [ht₁, m.eq_of_holds h h₁ h₂]
    · rw [m.calls_of_ne ht₁] at h₁
      by_cases ht₂ : t₂ = t
      · rw [ht₂, m.calls_self] at h₂
        rw [ht₂, m.eq_of_holds h h₂ h₁]
      · rw [m.calls_of_ne ht₂] at h₂
        exact h.one key _ _ h₁ h₂
  sound t' := by
    by_cases ht : t' = t
    · rw [ht, m.calls_self]
      exact m.sound
    · rw [m.calls_of_ne ht]
      exact m.sound_of_ne h ht

theorem Kept.become (hcarry : ∀ key data, call.Carries key data ↔ (s.calls t).Carries key data)
    (hholds : ∀ key, call.holds key → (s.calls t).holds key) (hsound : s.SoundCall call) :
    (s.become t call).Kept := by
  have hcalls : ∀ {t' key data}, ((s.become t call).calls t').Carries key data → (s.calls t').Carries key data := by
    intro t' key data hd
    by_cases ht : t' = t
    · subst ht
      refine (hcarry key data).mp ?_
      simpa [become] using hd
    · simpa [BlobSystem.become, update_of_ne ht] using hd
  have m : Move s (s.become t call) t call :=
    { base := rfl
      calls := rfl
      log := .inl rfl
      key := fun key => .untouched rfl rfl rfl (hcarry key)
      hands := fun key hk => .inl (hholds key hk)
      carries := fun key data hd => .inl ((hcarry key data).mp hd)
      inner := fun _ => .inl rfl
      sound := by
        cases call with
        | reading kind key start => exact ⟨hsound.1, hsound.2.1, fun t' data hd => hsound.2.2 t' data (hcalls hd)⟩
        | _ => exact hsound }
  exact h.move m

def Free (s : BlobSystem) (t : Nat) : Prop := ∀ key, ¬ (s.calls t).holds key

omit h in
theorem Free.of_eq (hcall : s.calls t = call) (hnot : ∀ key, call.holds key = false) : s.Free t := fun key => by
  simp [hcall, hnot]

theorem Kept.save {data : Blob} (hfree : s.Free t) (hapart : ∀ t' dropped, s.calls t' ≠ .deleting key dropped) :
    (s.save t key data).Kept := by
  have m : Move s (s.save t key data) t (.answered .saved) :=
    { base := rfl
      calls := rfl
      log := .inr ⟨_, rfl⟩
      key := fun k => ?_
      hands := fun _ hk => absurd hk Bool.false_ne_true
      carries := fun _ _ hd => hd.elim
      inner := fun _ => .inl rfl
      sound := trivial }
  · exact h.move m
  by_cases hk : k = key
  · subst hk
    exact .buffered data (lookup_insert _) current_self fun _ t' dropped _ => hapart t' dropped
  · exact .untouched (lookup_insert_ne hk) rfl (current_of_ne (Ne.symm hk)) fun _ =>
      ⟨False.elim, fun hd => absurd hd.holds (hfree k)⟩

theorem Kept.delete (hfree : s.Free t) (hapart : ∀ t', ¬ (s.calls t').holds key) : (s.delete t key).Kept := by
  have m : Move s (s.delete t key) t (.deleting key (s.pending.writes.lookup key)) :=
    { base := rfl
      calls := rfl
      log := .inl rfl
      key := fun k => ?_
      hands := fun k hk => .inr (of_decide_eq_true hk ▸ hapart)
      carries := fun k d hd => .inr (h.buffered k d (hd.1 ▸ hd.2))
      inner := fun _ => .inl rfl
      sound := lookup_erase _ _ }
  · exact h.move m
  by_cases hk : k = key
  · subst hk
    -- its blob is carried if it had one in the buffer
    refine .passed (lookup_erase _ _) (fun t' _ => hapart t') (fun d hd => h.buffered k d hd.2) fun hd => ?_
    exact h.stored k (eq_none_iff_forall_ne_some.mpr fun d hd' => hd d ⟨rfl, hd'⟩) fun t' d hd' => hapart t' hd'.holds
  · exact .untouched (lookup_erase_ne hk) rfl rfl fun _ =>
      ⟨fun hd => absurd hd.1.symm hk, fun hd => absurd hd.holds (hfree k)⟩

theorem Kept.deleteInner {dropped : Option Blob} (hcall : s.calls t = .deleting key dropped) :
    (s.deleteInner t key).Kept := by
  have hnone : s.pending.writes.lookup key = none := by
    have hs := h.sound t
    rw [hcall] at hs
    exact hs
  have hlog : (s.deleteInner t key).log = (key, none) :: s.log := by
    unfold BlobSystem.deleteInner
    rw [hnone]
    rfl
  have hholds : (s.calls t).holds key := by
    rw [hcall]
    exact decide_eq_true rfl
  have hgone : (s.deleteInner t key).inner.lookup key = current s.base key (s.deleteInner t key).log := by
    rw [hlog, current_self]
    exact lookup_erase _ _
  have m : Move s (s.deleteInner t key) t (.answered .deleted) :=
    { base := rfl
      calls := rfl
      log := .inr ⟨_, hlog⟩
      key := fun k => ?_
      hands := fun _ hk => absurd hk Bool.false_ne_true
      carries := fun _ _ hd => hd.elim
      inner := fun k => ?_
      sound := trivial }
  · exact h.move m
  · by_cases hk : k = key
    · subst hk
      exact .passed hnone (fun t' ht hk => ht (h.one k _ _ hk hholds)) (fun _ hd => hd.elim) fun _ => hgone
    · refine .untouched rfl (lookup_erase_ne hk) (hlog ▸ current_of_ne (Ne.symm hk)) fun d => ⟨False.elim, ?_⟩
      rw [hcall]
      exact fun hd => absurd hd.1.symm hk
  · by_cases hk : k = key
    · subst hk
      exact .inr ⟨hholds, .inl hgone⟩
    · exact .inl (lookup_erase_ne hk)

omit h in
theorem carries_taken {data : Blob} {a b : FlushStats} :
    (if (items s.pending.writes).isEmpty then BlobCall.answered (.flushed a)
      else .flushing (items s.pending.writes) (items s.pending.writes) b).Carries key data ↔
      s.pending.writes.lookup key = some data := by
  rw [← mem_items]
  split_ifs with hempty
  · rw [isEmpty_iff.mp hempty]
    exact ⟨False.elim, fun hd => absurd hd not_mem_nil⟩
  · exact Iff.rfl

theorem Kept.flush (hfree : s.Free t) (hapart : ∀ key ∈ s.pending.writes, ∀ t', ¬ (s.calls t').holds key) :
    (s.flush t).Kept := by
  have hmem : ∀ {k d}, s.pending.writes.lookup k = some d → k ∈ s.pending.writes :=
    fun hd => lookup_isSome.mp (isSome_iff_exists.mpr ⟨_, hd⟩)
  have m : Move s (s.flush t) t _ :=
    { base := rfl
      calls := rfl
      log := .inl rfl
      key := fun k => ?_
      hands := fun k hk => .inr ?_
      carries := fun k d hd => .inr (h.buffered k d (carries_taken.mp hd))
      inner := fun _ => .inl rfl
      sound := ?_ }
  · exact h.move m
  · cases hbuf : s.pending.writes.lookup k with
    | some d =>
      exact .passed (lookup_empty k) (fun t' _ => hapart k (hmem hbuf) t')
        (fun d' hd => h.buffered k d' (carries_taken.mp hd)) fun hd => absurd (carries_taken.mpr hbuf) (hd d)
    | none =>
      refine .untouched ((lookup_empty k).trans hbuf.symm) rfl rfl fun d =>
        ⟨fun hd => ?_, fun hd => absurd hd.holds (hfree k)⟩
      cases hbuf.symm.trans (carries_taken.mp hd)
  · split_ifs at hk with hnil
    · cases hk
    · obtain ⟨⟨k', d⟩, hd, hk'⟩ := any_eq_true.mp hk
      cases of_decide_eq_true hk'
      exact hapart k' (hmem (mem_items.mp hd))
  · split_ifs with hnil
    · trivial
    · exact ⟨nodup_items _, List.Subset.refl _, fun p hp hleft => absurd hp hleft⟩

omit h in
theorem eq_of_mem_backup {d d' : Blob}
    (hnodup : (backup.map (·.1)).Nodup) (h : (key, d) ∈ backup) (h' : (key, d') ∈ backup) : d = d' :=
  congrArg Prod.snd (inj_on_of_nodup_map hnodup h h' rfl)

omit h in
theorem lookup_push {pushed : List (BlobKey × Blob)} (hnodup : (backup.map (·.1)).Nodup)
    (hsub : pushed ⊆ backup) (blobs : Blobs) (key : BlobKey) :
    (insertAll blobs pushed).lookup key = blobs.lookup key ∧ key ∉ pushed.map (·.1) ∨
      ∃ d, (key, d) ∈ backup ∧ (insertAll blobs pushed).lookup key = some d := by
  by_cases hkey : key ∈ pushed.map (·.1)
  · obtain ⟨⟨k, d⟩, hd, rfl⟩ := mem_map.mp hkey
    refine .inr ⟨d, hsub hd, lookup_insertAll_of_mem (fun d' hd' => ?_) hd⟩
    exact eq_of_mem_backup hnodup (hsub hd') (hsub hd)
  · exact .inl ⟨lookup_insertAll_of_not_mem hkey, hkey⟩

theorem Kept.push {left : List (BlobKey × Blob)} (n : Nat)
    (hcall : s.calls t = .flushing left backup stats) : (s.push t n left backup stats).Kept := by
  have hs := h.sound t
  rw [hcall] at hs
  obtain ⟨hnodup, hleft, hpushed⟩ := hs
  have hold : ∀ {k d}, (s.calls t).Carries k d ↔ (k, d) ∈ backup := by
    rw [hcall]
    exact Iff.rfl
  have hsub : left.take n ⊆ backup := fun p hp => hleft (mem_of_mem_take hp)
  have hcases := lookup_push hnodup hsub s.inner
  -- what is not left over has reached the store
  have hdone : ∀ p ∈ backup, p ∉ left.drop n → (insertAll s.inner (left.take n)).lookup p.1 = some p.2 := by
    rintro ⟨k, d⟩ hp hdrop
    rcases hcases k with ⟨hsame, hk⟩ | ⟨d', hd', hsome⟩
    · refine hsame.trans (hpushed _ hp fun hl => ?_)
      rw [← take_append_drop n left] at hl
      exact (mem_append.mp hl).elim (fun ht => hk (mem_map_of_mem ht)) hdrop
    · exact eq_of_mem_backup hnodup hd' hp ▸ hsome
  have hnew : ∀ {k d}, (if (left.drop n).isEmpty then BlobCall.answered (.flushed stats)
      else .flushing (left.drop n) backup stats).Carries k d ↔ left.drop n ≠ [] ∧ (k, d) ∈ backup := by
    split_ifs with hnil
    · exact ⟨False.elim, fun hd => absurd (isEmpty_iff.mp hnil) hd.1⟩
    · exact ⟨fun hd => ⟨fun he => hnil (isEmpty_iff.mpr he), hd⟩, fun hd => hd.2⟩
  have m : Move s (s.push t n left backup stats) t _ :=
    { base := rfl
      calls := rfl
      log := .inl rfl
      key := fun k => ?_
      hands := fun k hk => .inl ?_
      carries := fun k d hd => .inl (hold.mpr (hnew.mp hd).2)
      inner := fun k => (hcases k).imp And.left fun ⟨d, hd, hsome⟩ =>
        ⟨(hold.mpr hd).holds, .inr ⟨d, hold.mpr hd, hsome⟩⟩
      sound := ?_ }
  · exact h.move m
  · by_cases hk : ∃ d, (k, d) ∈ backup
    · obtain ⟨d, hk⟩ := hk
      cases hbuf : s.pending.writes.lookup k with
      | some d' => exact .buffered d' hbuf (h.buffered k d' hbuf) fun hn => nomatch hbuf.symm.trans hn
      | none =>
        refine .passed hbuf (fun t' ht hk' => ht (h.one k _ _ hk' (hold.mpr hk).holds))
          (fun d' hd => h.carried k d' t hbuf (hold.mpr (hnew.mp hd).2)) fun hfree => ?_
        refine (hdone (k, d) hk fun hd => ?_).trans (h.carried k d t hbuf (hold.mpr hk)).symm
        exact hfree d (hnew.mpr ⟨ne_nil_of_mem hd, hk⟩)
    · rcases hcases k with ⟨hsame, -⟩ | ⟨d, hd, -⟩
      · exact .untouched rfl hsame rfl fun d =>
          ⟨fun hd => absurd ⟨d, (hnew.mp hd).2⟩ hk, fun hd => absurd ⟨d, hold.mp hd⟩ hk⟩
      · exact absurd ⟨d, hd⟩ hk
  · rw [hcall]
    split_ifs at hk with hnil
    · cases hk
    · exact hk
  · split_ifs with hnil
    · trivial
    · exact ⟨hnodup, fun p hp => hleft (mem_of_mem_drop hp), hdone⟩

omit h in
theorem lookup_restore (hnodup : (backup.map (·.1)).Nodup) (blobs : Blobs) (key : BlobKey) :
    (backup.foldl orInsert blobs).lookup key = blobs.lookup key ∧ (blobs.lookup key = none → key ∉ backup.map (·.1)) ∨
      blobs.lookup key = none ∧ ∃ d, (key, d) ∈ backup ∧ (backup.foldl orInsert blobs).lookup key = some d := by
  cases hold : blobs.lookup key with
  | some d => exact .inl ⟨lookup_restored_of_some hold, fun h => nomatch h⟩
  | none =>
    by_cases hkey : key ∈ backup.map (·.1)
    · obtain ⟨⟨k, d⟩, hd, rfl⟩ := mem_map.mp hkey
      exact .inr ⟨rfl, d, hd, lookup_restored_of_mem hnodup hd hold⟩
    · exact .inl ⟨(lookup_restored_of_not_mem hkey).trans hold, fun _ => hkey⟩

theorem Kept.restore {e : String}
    (hcall : s.calls t = .restoring backup stats e) : (s.restore t backup stats e).Kept := by
  have hnodup := h.sound t
  rw [hcall] at hnodup
  have hold : ∀ {k d}, (s.calls t).Carries k d ↔ (k, d) ∈ backup := by
    rw [hcall]
    exact Iff.rfl
  have m : Move s (s.restore t backup stats e) t (.answered (.failed e)) :=
    { base := rfl
      calls := rfl
      log := .inl rfl
      key := fun k => ?_
      hands := fun _ hk => absurd hk Bool.false_ne_true
      carries := fun _ _ hd => hd.elim
      inner := fun _ => .inl rfl
      sound := trivial }
  · exact h.move m
  rcases lookup_restore hnodup s.pending.writes k with ⟨hsame, hk⟩ | ⟨hnone, d, hd, hsome⟩
  · cases hbuf : s.pending.writes.lookup k with
    | some d => exact .buffered d (hsame.trans hbuf) (h.buffered k d hbuf) fun hn => nomatch hbuf.symm.trans hn
    | none => exact .untouched hsame rfl rfl fun d =>
      ⟨False.elim, fun hd => absurd (mem_map_of_mem (hold.mp hd)) (hk hbuf)⟩
  · refine .buffered d hsome (h.carried k d t hnone (hold.mpr hd)) fun _ t' dropped ht hc => ?_
    have hk : (s.calls t').holds k := by
      rw [hc]
      exact decide_eq_true rfl
    exact ht (h.one k _ _ hk (hold.mpr hd).holds)

/-- A key that the store has holds something, though it may be something newer. -/
theorem Kept.current_of_stored (hkey : ∃ d, s.inner.lookup key = some d) : ∃ d, current s.base key s.log = some d := by
  cases hbuf : s.pending.writes.lookup key with
  | some d => exact ⟨d, h.buffered key d hbuf⟩
  | none =>
    by_cases hcarried : ∃ t d, (s.calls t).Carries key d
    · obtain ⟨t, d, hd⟩ := hcarried
      exact ⟨d, h.carried key d t hbuf hd⟩
    · have hstored := h.stored key hbuf fun t d hd => hcarried ⟨t, d, hd⟩
      exact hstored ▸ hkey

omit h in
theorem truthful_answer {base : BlobKey → Option Blob} {log : List (BlobKey × Option Blob)} {key : BlobKey}
    {start : Nat} (kind : BlobRead) (h : HeldSince base start key v log) :
    (kind.answer key start v).Truthful base log := by
  cases kind with
  | load => exact h
  | existence => exact ⟨v, h, rfl⟩
  | blobLen => exact ⟨v, h, rfl⟩

theorem Kept.goOn (hfree : s.Free t) (hnew : ∀ key, ¬ call.holds key) (hsound : s.SoundCall call) :
    (s.become t call).Kept :=
  h.become (fun key _ => ⟨fun hd => absurd hd.holds (hnew key), fun hd => absurd hd.holds (hfree key)⟩)
    (fun key hk => absurd hk (hnew key)) hsound

theorem Kept.read {kind : BlobRead} (hfree : s.Free t)
    (hapart : s.pending.writes.lookup key = none → ∀ t', ¬ (s.calls t').holds key) : (s.read t kind key).Kept := by
  have hnow : HeldSince s.base s.log.length key (current s.base key s.log) s.log := .now le_rfl
  unfold BlobSystem.read
  cases hbuf : s.pending.writes.lookup key with
  | some data =>
    refine h.goOn hfree (fun _ => Bool.false_ne_true) (truthful_answer kind ?_)
    exact h.buffered key data hbuf ▸ hnow
  | none =>
    have hnone : ∀ t' d, ¬ (s.calls t').Carries key d := fun t' d hd => hapart hbuf t' hd.holds
    refine h.goOn hfree (fun _ => Bool.false_ne_true) ⟨le_rfl, ?_, fun t' d hd => absurd hd (hnone t' d)⟩
    exact h.stored key hbuf hnone ▸ hnow

theorem Kept.merge {index : String} {start : Nat} {names : List String}
    (hcall : s.calls t = .merging index start names) :
    (s.merge t index start names).Kept := by
  have hs := h.sound t
  rw [hcall] at hs
  refine h.goOn (.of_eq hcall fun _ => rfl) (fun _ => Bool.false_ne_true) fun f hf => ?_
  rcases mem_append.mp ((mem_insertionSort _).mp hf) with hf | hf
  · exact hs.2 f hf
  · obtain ⟨d, hd⟩ := lookup_of_mem_files (mem_filter.mp hf).1
    exact ⟨d, h.buffered _ d hd ▸ .now hs.1⟩

variable {a : BlobAction}

theorem Kept.begin (hfree : s.Free t) (hapart : s.Apart (t, a)) (hstep : s.begin t a = some s') : s'.Kept := by
  cases a with
  | save key data => exact some.inj hstep ▸ h.save hfree hapart
  | read kind key => exact some.inj hstep ▸ h.read hfree hapart
  | delete key => exact some.inj hstep ▸ h.delete hfree hapart
  | list index =>
    have hlisting : s.SoundCall (.listing index s.log.length) := Nat.le_refl s.log.length
    exact some.inj hstep ▸ h.goOn hfree (fun _ => Bool.false_ne_true) hlisting
  | flush => exact some.inj hstep ▸ h.flush hfree hapart
  | inner | push | go => cases hstep

theorem Kept.answer {answer : Except String Unit} (hapart : s.Apart (t, .inner answer))
    (hstep : s.step (t, .inner answer) = some s') : s'.Kept := by
  have hs := h.sound t
  unfold step at hstep
  dsimp only at hstep
  cases hcall : s.calls t with
  | idle | merging | flushing | restoring | answered => simp [hcall, BlobSystem.begin] at hstep
  | reading kind key start =>
    rw [hcall] at hstep hs
    have hfree : s.Free t := .of_eq hcall fun _ => rfl
    cases answer with
    | error e => exact some.inj hstep ▸ h.goOn hfree (fun _ => Bool.false_ne_true) trivial
    | ok =>
      exact some.inj hstep ▸ h.goOn hfree (fun _ => Bool.false_ne_true) (truthful_answer kind hs.2.1)
  | listing index start =>
    rw [hcall] at hstep hs
    have hfree : s.Free t := .of_eq hcall fun _ => rfl
    cases answer with
    | error e => exact some.inj hstep ▸ h.goOn hfree (fun _ => Bool.false_ne_true) trivial
    | ok =>
      have hnames : s.SoundCall (.merging index start (files s.inner index)) := by
        refine ⟨hs, fun f hf => ?_⟩
        obtain ⟨d, hd⟩ := h.current_of_stored (lookup_of_mem_files hf)
        exact ⟨d, hd ▸ .now hs⟩
      exact some.inj hstep ▸ h.goOn hfree (fun _ => Bool.false_ne_true) hnames
  | deleting key dropped =>
    rw [hcall] at hstep
    cases answer with
    | error e =>
      -- a delete that fails had nothing to drop
      have hdropped : dropped = none := by
        refine eq_none_iff_forall_ne_some.mpr fun d hd => ?_
        cases hapart key d (hd ▸ hcall)
      refine some.inj hstep ▸ h.become ?_ (fun k hk => absurd hk Bool.false_ne_true) trivial
      intro k d
      rw [hcall, hdropped]
      exact ⟨False.elim, fun hd => nomatch hd.2⟩
    | ok => exact some.inj hstep ▸ h.deleteInner hcall

omit h

theorem begin_of_step (hbegins : a.begins) (hstep : s.step (t, a) = some s') : s.Free t ∧ s.begin t a = some s' := by
  unfold step at hstep
  dsimp only at hstep
  cases hcall : s.calls t with
  | idle | answered =>
    rw [hcall] at hstep
    exact ⟨.of_eq hcall fun _ => rfl, hstep⟩
  | _ =>
    rw [hcall] at hstep
    cases a <;> cases hbegins <;> cases hstep

theorem Kept.step {a : Nat × BlobAction} (h : s.Kept) (hapart : s.Apart a) (hstep : s.step a = some s') : s'.Kept := by
  obtain ⟨t, a⟩ := a
  cases a with
  | inner answer => exact h.answer hapart hstep
  | push n answer =>
    unfold BlobSystem.step at hstep
    dsimp only at hstep
    cases hcall : s.calls t with
    | flushing left backup stats =>
      rw [hcall] at hstep
      cases answer with
      | error e =>
        have hs := h.sound t
        rw [hcall] at hs
        refine some.inj hstep ▸ h.become ?_ ?_ hs.1
        · intro k d
          rw [hcall]
          exact Iff.rfl
        · intro k hk
          rw [hcall]
          exact hk
      | ok =>
        dsimp only at hstep
        split_ifs at hstep
        exact some.inj hstep ▸ h.push n hcall
    | _ => simp [hcall, BlobSystem.begin] at hstep
  | go =>
    unfold BlobSystem.step at hstep
    dsimp only at hstep
    cases hcall : s.calls t with
    | merging index start names =>
      rw [hcall] at hstep
      exact some.inj hstep ▸ h.merge hcall
    | restoring backup stats e =>
      rw [hcall] at hstep
      exact some.inj hstep ▸ h.restore hcall
    | _ => simp [hcall, BlobSystem.begin] at hstep
  | _ =>
    obtain ⟨hfree, hbegin⟩ := begin_of_step rfl hstep
    exact h.begin hfree hapart hbegin

theorem Kept.start (inner : Blobs) : (start inner).Kept where
  buffered key data h := by
    have hnone : (BlobSystem.start inner).pending.writes.lookup key = none := lookup_empty key
    cases hnone.symm.trans h
  carried _ _ _ _ h := h.elim
  stored _ _ _ := rfl
  one _ _ _ h := absurd h Bool.false_ne_true
  sound _ := trivial

theorem Kept.faithful (h : s.Kept) : s.Faithful where
  truthful t reply hcall := by
    have hs := h.sound t
    rw [hcall] at hs
    exact hs
  visible key hheld := by
    cases hbuf : s.pending.writes.lookup key with
    | some data => exact (h.buffered key data hbuf).symm
    | none => exact h.stored key hbuf fun t d hd => hheld t hd.holds

/-- Whatever the interleaving, as long as no call touches a key that a flush or
a delete has in its hands, and no delete fails that has dropped a pending
write, reads are truthful, deleted keys stay away and failed flushes lose nothing. -/
theorem reads_faithful {inner : Blobs} (h : ReachableUnder Apart step (start inner) s) : s.Faithful :=
  (h.invariant (Q := Kept) (.start inner) fun _ _ _ hk hapart hstep => hk.step hapart hstep).faithful

def noteKey : BlobKey := ("index", "note")

def noteBlob : Blob := [1]

/-- A flush fails, is tried again and succeeds; the blob is then read from the store. -/
theorem reads_faithful_retried : ∃ s, run step (start ∅) (List.map (0, ·)
      [.save noteKey noteBlob, .flush, .push 1 (.error "io"), .go, .flush, .push 1 (.ok ()),
        .read .load noteKey, .inner (.ok ())]) = some s ∧
    s.calls 0 = .answered (.loaded noteKey 1 (some noteBlob)) ∧ s.Faithful := by
  have hrun : run step (start ∅) (List.map (0, ·)
      [.save noteKey noteBlob, .flush, .push 1 (.error "io"), .go, .flush, .push 1 (.ok ()),
        .read .load noteKey, .inner (.ok ())]) = some _ := rfl
  refine ⟨_, hrun, rfl, reads_faithful (ReachableUnder.init.run ?_ hrun)⟩
  refine .intro nofun (.intro (fun key _ t => ?_) (.intro trivial (.intro trivial (.intro (fun key _ t => ?_)
    (.intro trivial (.intro (fun _ t => ?_) (.intro (fun _ _ _ => rfl) trivial))))))) <;> cases t <;> nofun

/-- A load between a flush and its push misses the buffer and the store. -/
theorem load_misses_saved : ∃ s, Reachable step (start ∅) s ∧
    s.calls 1 = .answered (.loaded noteKey 1 none) ∧ s.log = [(noteKey, some noteBlob)] ∧ ¬ s.Faithful := by
  have hrun : run step (start ∅)
      [(0, .save noteKey noteBlob), (0, .flush), (1, .read .load noteKey), (1, .inner (.ok ()))] = some _ := rfl
  refine ⟨_, Reachable.init.run hrun, rfl, rfl, fun h => ?_⟩
  obtain ⟨newer, older, hlog, hstart, hnone⟩ := h.truthful 1 _ rfl
  cases newer with
  | nil =>
    cases hlog
    cases hnone
  | cons e newer =>
    have hlen : 1 = (e :: newer ++ older).length := congrArg List.length hlog
    have hone : 1 ≤ older.length := hstart
    rw [length_append, length_cons] at hlen
    omega

end BlobSystem

end Rag3db.Weaver
