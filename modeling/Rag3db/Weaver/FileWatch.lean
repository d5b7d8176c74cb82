import Mathlib

open List

namespace Rag3db.Weaver

/-- The date and the length of a file. -/
abbrev FileStamp := Nat × Nat

inductive Change where
  | created
  | modified
  | removed
  deriving DecidableEq

structure FileChange where
  path : String
  change : Change
  hash : String
  deriving DecidableEq

/-- A file that the watch knows. One that the index does not admit is known, but no change of it is told. -/
structure KnownFile where
  stamp : FileStamp
  hash : String
  admitted : Bool

/-- A file that has changed and is not yet at rest. -/
structure MovingFile where
  stamp : FileStamp
  since : Nat

/-- What a scan finds: the two clocks, the disk and the answer of the source. -/
structure Disk where
  now : Nat
  systemTime : Nat
  rootIsDir : Bool
  dirDate : String → Option Nat
  list : Except String (List String)
  stamp : String → Option FileStamp
  -- the hash of a content, and whether the index admits it
  hash : String → Option (String × Bool)

/-- The watch of a source. `watches` stands for the configured paths and the gate of the index. -/
structure Scanner where
  root : String
  watches : String → Bool
  settle : Nat
  relist : Nat
  lastList : Nat
  known : AList fun _ : String => KnownFile
  moving : AList fun _ : String => MovingFile
  dirs : List (String × Option Nat)
  paused : Option String

namespace Scanner

/-- `DATE_DOUTEUSE`, in milliseconds. -/
def doubtful : Nat := 2000

/-- The directories above a file, the root first. -/
def parents (path : String) : List String := (path.splitOn "/").dropLast.inits.map "/".intercalate

/-- A date that is too young proves nothing. -/
def rememberDirs (s : Scanner) (d : Disk) (listed : List String) : Scanner :=
  { s with dirs := ("" :: listed.flatMap parents).dedup.map fun dir =>
      (dir, (d.dirDate dir).filter (· < d.systemTime - doubtful)) }

def dirsMoved (s : Scanner) (d : Disk) : Bool := s.dirs.any fun x => d.dirDate x.1 != x.2

def relists (s : Scanner) (d : Disk) : Bool := s.dirsMoved d || s.relist ≤ d.now - s.lastList

def forget (x : Scanner × List FileChange) (path : String) : Scanner × List FileChange :=
  ({ x.1 with known := x.1.known.erase path, moving := x.1.moving.erase path },
    if path ∈ x.1.known then x.2 ++ [⟨path, .removed, ""⟩] else x.2)

/-- What is told of a file whose content is known now. -/
def told (path hash : String) : Option KnownFile → Bool → List FileChange
  | some old, false => if old.admitted then [⟨path, .removed, ""⟩] else []
  | none, false => []
  | none, true => [⟨path, .created, hash⟩]
  | some old, true =>
    if !old.admitted then [⟨path, .created, hash⟩]
    else if old.hash ≠ hash then [⟨path, .modified, hash⟩]
    else []

def atRest (d : Disk) (path : String) (stamp : FileStamp) (x : Scanner × List FileChange) : Scanner × List FileChange :=
  let s := { x.1 with moving := x.1.moving.erase path }
  match d.hash path with
  | none => (s, x.2)
  | some (hash, admitted) =>
    ({ s with known := s.known.insert path ⟨stamp, hash, admitted⟩ },
      x.2 ++ told path hash (s.known.lookup path) admitted)

def look (d : Disk) (x : Scanner × List FileChange) (path : String) : Scanner × List FileChange :=
  match d.stamp path with
  | none => forget x path
  | some stamp =>
    if (x.1.known.lookup path).any (·.stamp = stamp) then
      ({ x.1 with moving := x.1.moving.erase path }, x.2)
    else
      let began := { x.1 with moving := x.1.moving.insert path ⟨stamp, d.now⟩ }
      match x.1.moving.lookup path with
      | some m =>
        if m.stamp ≠ stamp then (began, x.2)
        else if d.now - m.since < x.1.settle then x
        else atRest d path stamp x
      | none => if x.1.settle ≠ 0 then (began, x.2) else atRest d path stamp (began, x.2)

def lookAll (d : Disk) (candidates : List String) (x : Scanner × List FileChange) :
    Scanner × Except String (List FileChange) :=
  let x := candidates.foldl (look d) x
  (x.1, .ok (x.2.insertionSort fun a b => a.path ≤ b.path))

def scanList (s : Scanner) (d : Disk) : Scanner × Except String (List FileChange) :=
  let s := { s with lastList := d.now }
  match d.list with
  | .error e => (s, .error e)
  | .ok all =>
    let listed := all.filter s.watches
    if listed = [] ∧ s.known.keys ≠ [] then
      ({ s with paused := some s!"la source ne liste plus aucun fichier sous {s.root}" }, .ok [])
    else
      lookAll d listed ((s.known.keys.filter (· ∉ listed)).foldl forget (s.rememberDirs d listed, []))

/-- `scan_inner`; the dates of the directories are noted as soon as they are compared. -/
def scan (s : Scanner) (d : Disk) : Scanner × Except String (List FileChange) :=
  if !d.rootIsDir then ({ s with paused := some s!"racine absente : {s.root}" }, .ok [])
  else
    let looked := { s with paused := none, dirs := s.dirs.map fun x => (x.1, d.dirDate x.1) }
    if s.relists d then looked.scanList d
    else lookAll d (s.known.keys ++ s.moving.keys).dedup (looked, [])

def scans (s : Scanner) : List Disk → List (Except String (List FileChange))
  | [] => []
  | d :: ds => (s.scan d).2 :: (s.scan d).1.scans ds

/-- The root is missing, or the source lists nothing and no known file exists. -/
def Vanished (s : Scanner) (d : Disk) : Prop :=
  d.rootIsDir → d.list = .ok [] ∧ ∀ path ∈ s.known, d.stamp path = none

def AllRelist (s : Scanner) : List Disk → Prop
  | [] => True
  | d :: ds => (d.rootIsDir → s.relists d) ∧ (s.scan d).1.AllRelist ds

def Spares (report : Except String (List FileChange)) : Prop :=
  ∀ changes, report = .ok changes → ∀ c ∈ changes, c.change ≠ .removed

variable {s : Scanner} {d : Disk} {path : String} {x : Scanner × List FileChange}

theorem scan_of_relists (hknown : s.known.keys ≠ []) (hgone : s.Vanished d) (h : d.rootIsDir → s.relists d) :
    (s.scan d).1.known = s.known ∧ (s.scan d).2 = .ok [] := by
  cases hroot : d.rootIsDir with
  | false => simp [scan, hroot]
  | true => simp [scan, scanList, hroot, h hroot, (hgone hroot).1, hknown]

/-- A turn for one file forgets no other file, and takes no report back. -/
structure Keeps (path : String) (x y : Scanner × List FileChange) : Prop where
  known : ∀ other ∈ x.1.known, other ≠ path → other ∈ y.1.known
  told : x.2 ⊆ y.2

theorem keeps_atRest (d : Disk) (path : String) (stamp : FileStamp) (x : Scanner × List FileChange) :
    Keeps path x (atRest d path stamp x) := by
  unfold atRest
  split
  · exact ⟨fun _ h _ => h, List.Subset.refl _⟩
  · exact ⟨fun _ h _ => AList.mem_insert _ |>.mpr (.inr h), subset_append_left _ _⟩

theorem keeps_look (d : Disk) (x : Scanner × List FileChange) (path : String) : Keeps path x (look d x path) := by
  have hsame : ∀ moving, Keeps path x ({ x.1 with moving }, x.2) := fun _ => ⟨fun _ h _ => h, List.Subset.refl _⟩
  unfold look
  cases d.stamp path with
  | none =>
    refine ⟨fun other h hne => AList.mem_erase.mpr ⟨hne, h⟩, ?_⟩
    unfold forget
    split_ifs <;> simp
  | some stamp =>
    dsimp only
    by_cases hstamp : (x.1.known.lookup path).any (·.stamp = stamp)
    · rw [if_pos hstamp]
      exact hsame _
    cases x.1.moving.lookup path with
    | none =>
      split_ifs
      · exact hsame _
      · have hrest := keeps_atRest d path stamp ({ x.1 with moving := x.1.moving.insert path ⟨stamp, d.now⟩ }, x.2)
        exact ⟨hrest.known, hrest.told⟩
    | some m =>
      dsimp only
      split_ifs
      · exact hsame _
      · exact hsame x.1.moving
      · exact keeps_atRest d path stamp x

theorem foldl_look_told (candidates : List String) : x.2 ⊆ (candidates.foldl (look d) x).2 := by
  induction candidates generalizing x with
  | nil => exact List.Subset.refl _
  | cons path candidates ih => exact List.Subset.trans (keeps_look d x path).told ih

theorem foldl_look_removed {candidates : List String} (hpath : path ∈ candidates) (hknown : path ∈ x.1.known)
    (hstamp : d.stamp path = none) : ⟨path, .removed, ""⟩ ∈ (candidates.foldl (look d) x).2 := by
  induction candidates generalizing x with
  | nil => cases hpath
  | cons other candidates ih =>
    by_cases hne : path = other
    · subst hne
      apply foldl_look_told candidates
      simp [look, forget, hstamp, hknown]
    · exact ih ((mem_cons.mp hpath).resolve_left hne) ((keeps_look d x other).known path hknown hne)

theorem not_spares_scan (hknown : s.known.keys ≠ []) (hgone : s.Vanished d) (hroot : d.rootIsDir)
    (h : ¬ s.relists d) : ¬ Spares (s.scan d).2 := by
  obtain ⟨path, hpath⟩ := exists_mem_of_ne_nil _ hknown
  have hmem : path ∈ (s.known.keys ++ s.moving.keys).dedup :=
    mem_dedup.mpr (mem_append_left _ hpath)
  have hscan : s.scan d = lookAll d (s.known.keys ++ s.moving.keys).dedup
      ({ s with paused := none, dirs := s.dirs.map fun x => (x.1, d.dirDate x.1) }, []) := by
    simp [scan, hroot, h]
  rw [hscan]
  intro hspares
  exact hspares _ rfl ⟨path, .removed, ""⟩ ((mem_insertionSort _).mpr
    (foldl_look_removed hmem hpath ((hgone hroot).2 path hpath))) rfl

/-- While the source has vanished, no file is reported as removed exactly if
every scan that finds the root reads the list. -/
theorem spares_iff_allRelist (hknown : s.known.keys ≠ []) {ds : List Disk} (hgone : ∀ d ∈ ds, s.Vanished d) :
    (∀ report ∈ s.scans ds, Spares report) ↔ s.AllRelist ds := by
  induction ds generalizing s with
  | nil => simp [scans, AllRelist]
  | cons d ds ih =>
    obtain ⟨hd, hds⟩ := forall_mem_cons.mp hgone
    rw [scans, forall_mem_cons, AllRelist]
    by_cases hlist : d.rootIsDir → s.relists d
    · obtain ⟨hsame, hreport⟩ := scan_of_relists hknown hd hlist
      have hrest := ih (hsame ▸ hknown) fun e he => by
        unfold Vanished
        rw [hsame]
        exact hds e he
      have hspares : Spares (s.scan d).2 := by
        intro changes hc c hmem
        rw [hreport] at hc
        cases hc
        cases hmem
      rw [hrest, and_iff_right hspares, and_iff_right hlist]
    · obtain ⟨hroot, hno⟩ := Classical.not_imp.mp hlist
      exact iff_of_false (fun h => not_spares_scan hknown hd hroot hno h.1) fun h => hlist h.1

/-- A watch that knows the file `a.rs` and reads the list once a minute. -/
def watching : Scanner where
  root := "/src"
  watches _ := true
  settle := 0
  relist := 60000
  lastList := 0
  known := AList.singleton "a.rs" ⟨(1, 10), "abc", true⟩
  moving := ∅
  dirs := [("", some 1)]
  paused := none

def emptied (date now : Nat) : Disk where
  now := now
  systemTime := now
  rootIsDir := true
  dirDate _ := some date
  list := .ok []
  stamp _ := none
  hash _ := none

theorem vanished_emptied (s : Scanner) (date now : Nat) : s.Vanished (emptied date now) :=
  fun _ => ⟨rfl, fun _ _ => rfl⟩

theorem spares_iff_allRelist_touched : watching.known.keys ≠ [] ∧
    ∀ report ∈ watching.scans [emptied 2 100, emptied 3 200], Spares report := by
  refine ⟨by decide, ?_⟩
  refine (spares_iff_allRelist (by decide) ?_).mpr ⟨fun _ => by decide, fun _ => by decide, trivial⟩
  simp [vanished_emptied]

/-- The first scan pauses and notes the new date of the root; the second finds nothing new in it. -/
theorem second_scan_removes : watching.known.keys ≠ [] ∧ (∀ date now, watching.Vanished (emptied date now)) ∧
    watching.scans [emptied 2 100, emptied 2 200] = [.ok [], .ok [⟨"a.rs", .removed, ""⟩]] :=
  ⟨by decide, fun _ _ => vanished_emptied _ _ _, rfl⟩

end Scanner

end Rag3db.Weaver
