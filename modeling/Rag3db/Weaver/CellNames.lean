import Rag3db.Library.Fallible
import Rag3db.Library.Separated
import Rag3db.Weaver.Filter

open List

namespace Rag3db.Weaver

open Library.Separated

/-- The cell in which one writes and searches. -/
structure Scope where
  org : String
  project : String
  deriving DecidableEq

namespace Scope

def defaultId : String := "default"

def isDefault (s : Scope) : Bool := s.org == defaultId && s.project == defaultId

def allowed (c : Char) : Bool := c.isAlphanum || c == '_' || c == '.' || c == '-' || c == '/'

/-- An identifier has 1 to 128 letters, digits, `_ . -` and `/`, without empty segments. -/
def validateId (kind id : String) : Except String Unit :=
  if id = "" ∨ id.utf8ByteSize > 128 then .error s!"{kind}: identifiant vide ou > 128 caractères"
  else
    match id.toList.find? fun c => !allowed c with
    | some c =>
      .error s!"{kind} '{id}': caractère '{c}' interdit (autorisés : lettres, chiffres, _ . - /)"
    | none =>
      if ['/'] <+: id.toList ∨ ['/'] <:+ id.toList ∨ ['/', '/'] <:+: id.toList ∨ ['.', '.'] <:+: id.toList then
        .error s!"{kind} '{id}': segments vides ou '..' interdits"
      else .ok ()

def validate (s : Scope) : Except String Unit := do
  validateId "org" s.org
  validateId "project" s.project

def dashed (id : String) : String :=
  .ofList (id.toList.flatMap fun c => if c = '/' then ['-', '-'] else [c])

def indexSuffix (s : Scope) : String :=
  if s.isDefault then "" else "__" ++ dashed s.org ++ "__" ++ dashed s.project

def indexName (s : Scope) (base : String) : String := base ++ s.indexSuffix

end Scope

def inboxTopic (run : String) : String := "run." ++ run ++ ".inbox"

/-- A handle on the bus, seen from one cell. -/
structure EventBus where
  scope : Scope

namespace EventBus

def inScope (_ : EventBus) (scope : Scope) : EventBus := { scope }

def full (bus : EventBus) (topic : String) : String :=
  bus.scope.org ++ "/" ++ bus.scope.project ++ "/" ++ topic

def cursorKey (bus : EventBus) (topic name : String) : String := bus.full topic ++ "@" ++ name

end EventBus

section Session

-- `serde_json::to_string` of the values of a perimeter, or nothing if they have no text.
variable (json : List (String × Value) → String)

def sessionMark : String := "snapshot_session:"

/-- The key of the open session on a perimeter. -/
def Scope.sessionKey (s : Scope) (entityName : String) (scope : List (String × Value)) : String :=
  sessionMark ++ s.org ++ "/" ++ s.project ++ ":" ++ entityName ++ ":" ++ json scope

end Session

/-- A scope that `validate` accepts. -/
structure Cell extends Scope where
  valid : toScope.validate = .ok ()

/-- No name built in one scope is a name built in the other. -/
structure NamesApart (json : List (String × Value) → String) (bus : EventBus) (s s' : Scope) : Prop where
  index : ∀ table table', s.indexName table ≠ s'.indexName table'
  topic : ∀ topic topic', (bus.inScope s).full topic ≠ (bus.inScope s').full topic'
  inbox : ∀ run run', (bus.inScope s).full (inboxTopic run) ≠ (bus.inScope s').full (inboxTopic run')
  cursor : ∀ topic name topic' name', (bus.inScope s).cursorKey topic name ≠ (bus.inScope s').cursorKey topic' name'
  session : ∀ entity values entity' values', s.sessionKey json entity values ≠ s'.sessionKey json entity' values'

namespace Scope

def label (s : Scope) : List Char := ['_', '_'] ++ (dashed s.org).toList ++ ['_', '_'] ++ (dashed s.project).toList

def path (s : Scope) : List (List Char) := s.org.toList.splitOn '/' ++ s.project.toList.splitOn '/'

/-- Two scopes whose identifiers cannot be taken for one another when written in a row. -/
structure SpelledApart (s s' : Scope) : Prop where
  notDefault : ¬ s.isDefault ∧ ¬ s'.isDefault
  labels : ¬ s.label <:+ s'.label ∧ ¬ s'.label <:+ s.label
  paths : ¬ s.path <+: s'.path ∧ ¬ s'.path <+: s.path

variable {s s' : Scope}

theorem toList_indexSuffix (h : ¬ s.isDefault) : s.indexSuffix.toList = s.label := by
  simp [indexSuffix, h, label]

theorem indexSuffix_of_isDefault (h : s.isDefault) : s.indexSuffix = "" := by
  simp [indexSuffix, h]

theorem exists_indexName_eq_iff : (∃ table table', s.indexName table = s'.indexName table') ↔
    s.indexSuffix.toList <:+ s'.indexSuffix.toList ∨ s'.indexSuffix.toList <:+ s.indexSuffix.toList := by
  rw [← exists_eq_append_iff]
  constructor
  · rintro ⟨table, table', h⟩
    refine ⟨table.toList, table'.toList, ?_⟩
    simpa [indexName] using congrArg String.toList h
  · rintro ⟨us, vs, h⟩
    refine ⟨.ofList us, .ofList vs, String.toList_injective ?_⟩
    simpa [indexName] using h

theorem indexes_apart_iff : (∀ table table', s.indexName table ≠ s'.indexName table') ↔
    (¬ s.isDefault ∧ ¬ s'.isDefault) ∧ ¬ s.label <:+ s'.label ∧ ¬ s'.label <:+ s.label := by
  have hnot : (∀ table table', s.indexName table ≠ s'.indexName table') ↔
      ¬ (s.indexSuffix.toList <:+ s'.indexSuffix.toList ∨ s'.indexSuffix.toList <:+ s.indexSuffix.toList) := by
    rw [← exists_indexName_eq_iff]
    push Not
    rfl
  rw [hnot]
  by_cases h : s.isDefault
  · simp [indexSuffix_of_isDefault h, h]
  by_cases h' : s'.isDefault
  · simp [indexSuffix_of_isDefault h', h']
  · rw [toList_indexSuffix h, toList_indexSuffix h']
    simp [h, h']

theorem toList_full (bus : EventBus) (topic : String) :
    ((bus.inScope s).full topic).toList = terminated '/' s.path ++ topic.toList := by
  simp [EventBus.full, EventBus.inScope, path, terminated_append, terminated_splitOn]

theorem path_no_separator (s : Scope) : ∀ part ∈ s.path, '/' ∉ part := by
  intro part hpart
  rcases mem_append.mp hpart with h | h
  · exact not_mem_of_mem_splitOn h
  · exact not_mem_of_mem_splitOn h

theorem topics_apart_iff (bus : EventBus) :
    (∀ topic topic', (bus.inScope s).full topic ≠ (bus.inScope s').full topic') ↔
      ¬ s.path <+: s'.path ∧ ¬ s'.path <+: s.path := by
  rw [← not_or, ← terminated_prefix_iff s.path_no_separator s'.path_no_separator,
    ← terminated_prefix_iff s'.path_no_separator s.path_no_separator, ← exists_append_eq_iff, iff_not_comm]
  push Not
  constructor
  · rintro ⟨us, vs, h⟩
    refine ⟨.ofList us, .ofList vs, String.toList_injective ?_⟩
    simpa [toList_full] using h
  · rintro ⟨topic, topic', h⟩
    refine ⟨topic.toList, topic'.toList, ?_⟩
    simpa [toList_full] using congrArg String.toList h

theorem toList_sessionKey (json : List (String × Value) → String) (entity : String)
    (values : List (String × Value)) : (s.sessionKey json entity values).toList =
      sessionMark.toList ++ ((s.org.toList ++ '/' :: s.project.toList) ++
        ':' :: (entity.toList ++ ':' :: (json values).toList)) := by
  have hslash : "/".toList = ['/'] := rfl
  have hcolon : ":".toList = [':'] := rfl
  simp only [sessionKey, String.toList_append, hslash, hcolon, append_assoc, cons_append, nil_append]

theorem allowed_of_validateId {kind id : String} (h : validateId kind id = .ok ()) {c : Char}
    (hc : c ∈ id.toList) : allowed c := by
  cases hfind : id.toList.find? fun c => !allowed c with
  | none => simpa using find?_eq_none.mp hfind c hc
  | some bad =>
    unfold validateId at h
    rw [hfind] at h
    split_ifs at h

end Scope

namespace Cell

variable {c c' : Cell}

theorem colon_not_mem (c : Cell) : ':' ∉ c.org.toList ++ '/' :: c.project.toList := by
  have hvalid : (do Scope.validateId "org" c.org; Scope.validateId "project" c.project) = .ok () := c.valid
  obtain ⟨⟨⟩, horg, hproject⟩ := Library.Fallible.bind_eq_ok hvalid
  intro hmem
  rcases mem_append.mp hmem with h | h
  · exact absurd (Scope.allowed_of_validateId horg h) (by decide)
  rcases mem_cons.mp h with h | h
  · exact absurd h (by decide)
  · exact absurd (Scope.allowed_of_validateId hproject h) (by decide)

theorem path_eq_of_sessionKey_eq {json : List (String × Value) → String} {entity entity' : String}
    {values values' : List (String × Value)}
    (h : c.sessionKey json entity values = c'.sessionKey json entity' values') : c.path = c'.path := by
  have htext := congrArg String.toList h
  rw [Scope.toList_sessionKey, Scope.toList_sessionKey] at htext
  obtain ⟨hids, -⟩ := append_cons_inj c.colon_not_mem c'.colon_not_mem (append_cancel_left htext)
  have hpath : terminated '/' c.path = terminated '/' c'.path := by
    simpa [Scope.path, terminated_append, terminated_splitOn] using congrArg (· ++ ['/']) hids
  have hle : c.path <+: c'.path :=
    (terminated_prefix_iff c.path_no_separator c'.path_no_separator).mp (hpath ▸ prefix_rfl)
  have hge : c'.path <+: c.path :=
    (terminated_prefix_iff c'.path_no_separator c.path_no_separator).mp (hpath ▸ prefix_rfl)
  exact hle.eq_of_length (Nat.le_antisymm hle.length_le hge.length_le)

theorem names_apart_iff (json : List (String × Value) → String) (bus : EventBus) (c c' : Cell) :
    NamesApart json bus c.toScope c'.toScope ↔ c.SpelledApart c'.toScope := by
  constructor
  · rintro ⟨hindex, htopic, -, -, -⟩
    obtain ⟨hdefault, hlabels⟩ := Scope.indexes_apart_iff.mp hindex
    exact ⟨hdefault, hlabels, (Scope.topics_apart_iff bus).mp htopic⟩
  · rintro ⟨hdefault, hlabels, hpaths⟩
    have htopic := (Scope.topics_apart_iff bus).mpr hpaths
    refine ⟨Scope.indexes_apart_iff.mpr ⟨hdefault, hlabels⟩, htopic, fun run run' => htopic _ _, ?_, ?_⟩
    · intro topic name topic' name' h
      apply htopic (topic ++ "@" ++ name) (topic' ++ "@" ++ name')
      simpa [EventBus.cursorKey, EventBus.full, String.append_assoc] using h
    · intro entity values entity' values' h
      exact hpaths.1 (path_eq_of_sessionKey_eq h ▸ prefix_rfl)

example : (⟨"acme", "search"⟩ : Scope).SpelledApart ⟨"acme", "chat"⟩ :=
  ⟨by decide, by decide, by decide⟩

def nested : Cell := ⟨⟨"acme/eu", "search"⟩, rfl⟩
def flat : Cell := ⟨⟨"acme", "eu/search"⟩, rfl⟩
def joined : Cell := ⟨⟨"acme__eu", "search"⟩, rfl⟩
def parted : Cell := ⟨⟨"acme", "eu__search"⟩, rfl⟩

/-- Two pairs of cells: one shares every topic and every session key, the other every index name. -/
theorem cells_share_names : nested.toScope ≠ flat.toScope ∧ joined.toScope ≠ parted.toScope ∧
    (∀ bus : EventBus, ∀ topic, (bus.inScope nested.toScope).full topic = (bus.inScope flat.toScope).full topic) ∧
    (∀ json entity values, nested.sessionKey json entity values = flat.sessionKey json entity values) ∧
    ∀ table, joined.indexName table = parted.indexName table := by
  refine ⟨by decide, by decide, fun bus topic => rfl, fun json entity values => rfl, fun table => ?_⟩
  have hsuffix : joined.indexSuffix = parted.indexSuffix := by decide
  rw [Scope.indexName, hsuffix, Scope.indexName]

end Cell

end Rag3db.Weaver
