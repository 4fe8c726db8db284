import Mathlib.Data.List.Forall2
import Refill.Proofs.Files.Listing
import Refill.Proofs.Files.Written

/-!
# Collected files

What a list of paths is collected to: each path stands for one list of files (`StandsFor.unique`),
these come in the order of the paths, and the first path that leads nowhere is reported instead
(`collect_listings`).
-/

namespace Refill

namespace Directory

variable {root other inside : Directory} {location way : Location} {path : Path}

theorem face_append (lookup_eq : root.lookup location = some (.directory inside))
    (way : Location) : root.face? (location ++ way) = inside.face? way := by
  rw [face?, lookup_append, lookup_eq, face?]

theorem keeps_inside {otherInside : Directory} (keeps : Keeps root other)
    (lookup_eq : root.lookup location = some (.directory inside))
    (other_eq : other.lookup location = some (.directory otherInside)) :
    Keeps inside otherInside := by
  intro way
  rw [← face_append lookup_eq, ← face_append other_eq]
  exact keeps (location ++ way)

theorem keeps_of_entry (same : ∀ name, other.entry? name = root.entry? name) : Keeps root other := by
  intro location
  have face_eq : other.face? location = root.face? location := by
    cases location with
    | nil => rfl
    | cons name location => rw [face_cons, face_cons, same]
  rw [face_eq]
  exact ⟨id, id⟩

/-- It makes no difference which of two entries stands first. -/
theorem keeps_swap {name next : Name} (differs : name ≠ next) (first second : Entry)
    (rest : Directory) :
    Keeps (first.consAs name (second.consAs next rest))
      (second.consAs next (first.consAs name rest)) := by
  refine keeps_of_entry fun target => ?_
  rw [entry_consAs, entry_consAs, entry_consAs, entry_consAs]
  split
  next same => rw [if_neg (same ▸ differs)]
  · rfl

theorem exists_file_of_keeps (keeps : Keeps root other) (kept : Keeps other root)
    {content : ByteArray} (face_eq : root.face? location = some (.file content)) :
    ∃ later, other.face? location = some (.file later) := by
  cases other_eq : other.face? location with
  | none => exact absurd other_eq ((keeps location).1 (by simp [face_eq]))
  | some face =>
    cases face with
    | file later => exact ⟨later, rfl⟩
    | directory =>
      rw [(kept location).2 other_eq] at face_eq
      cases face_eq

theorem Lists.keeps (keeps : Keeps root other) (kept : Keeps other root)
    (lists : root.Lists path way) : other.Lists path way where
  markdown := lists.markdown
  entered := lists.entered
  plain := by
    rcases lists.plain with ⟨content, face_eq⟩ | ⟨face_eq, long⟩
    · exact .inl (exists_file_of_keeps keeps kept face_eq)
    · exact .inr ⟨(keeps way).2 face_eq, long⟩

end Directory

namespace Path

instance : Std.Irrefl Before := ⟨fun path => List.lt_irrefl path.key⟩

instance : Std.Antisymm Before := ⟨fun _ _ lt gt => absurd gt (List.lt_asymm lt)⟩

end Path

namespace FileSystem

variable {files other : FileSystem} {path : Path} {found : List Path} {location : Location}

/-- The files that a path stands for: a file for itself, and a directory for the files that it lists,
in the order of their paths. -/
inductive StandsFor (files : FileSystem) (path : Path) : List Path → Prop
  | file {location : Location} {content : ByteArray} (leadsTo : files.LeadsTo path location)
      (face_eq : files.root.face? location = some (.file content))
      (unslashed : path.endsInSlash = false) : StandsFor files path [path]
  | directory {location : Location} {inside : Directory} {ways : List Location}
      (leadsTo : files.LeadsTo path location)
      (lookup_eq : files.root.lookup location = some (.directory inside))
      (lists : ∀ way, way ∈ ways ↔ inside.Lists path way)
      (sorted : (ways.map path.descend).Pairwise Path.Before) :
      StandsFor files path (ways.map path.descend)

/-- There is one list only that the path can stand for. -/
theorem StandsFor.unique {later : List Path} (first : files.StandsFor path found)
    (second : files.StandsFor path later) : found = later := by
  cases first with
  | file leadsTo face_eq unslashed =>
    cases second with
    | file => rfl
    | directory otherLeadsTo lookup_eq =>
      cases leadsTo.unique otherLeadsTo
      rw [Directory.face?, lookup_eq] at face_eq
      cases face_eq
  | directory leadsTo lookup_eq lists sorted =>
    cases second with
    | file otherLeadsTo face_eq =>
      cases leadsTo.unique otherLeadsTo
      rw [Directory.face?, lookup_eq] at face_eq
      cases face_eq
    | directory otherLeadsTo other_eq otherLists otherSorted =>
      cases leadsTo.unique otherLeadsTo
      cases lookup_eq.symm.trans other_eq
      refine sorted.eq_of_mem_iff otherSorted fun file => ?_
      simp only [List.mem_map, lists, otherLists]

theorem StandsFor.alike (alike : files.Alike other) (stands : files.StandsFor path found) :
    other.StandsFor path found := by
  cases stands with
  | file leadsTo face_eq unslashed =>
    rcases Directory.exists_file_of_keeps alike.keeps alike.kept face_eq with ⟨content, other_eq⟩
    exact .file (alike.leadsTo_iff.mpr leadsTo) other_eq unslashed
  | @directory location inside ways leadsTo lookup_eq lists sorted =>
    have held := (alike.keeps location).2 (Directory.face_eq_directory_iff.mpr ⟨inside, lookup_eq⟩)
    rcases Directory.face_eq_directory_iff.mp held with ⟨otherInside, other_eq⟩
    have keeps := Directory.keeps_inside alike.keeps lookup_eq other_eq
    have kept := Directory.keeps_inside alike.kept other_eq lookup_eq
    refine .directory (alike.leadsTo_iff.mpr leadsTo) other_eq (fun way => ?_) sorted
    rw [lists]
    exact ⟨.keeps keeps kept, .keeps kept keeps⟩

/-! ## One path -/

theorem leadsSomewhere_iff : files.leadsSomewhere path ↔ ∃ entry, files.entry path = .ok entry := by
  rw [leadsSomewhere]
  cases files.entry path <;> simp [Except.toOption]

theorem isTooLong_of_checkPath (checked : checkPath path = .ok ()) : path.isTooLong = false := by
  cases long : path.isTooLong with
  | false => rfl
  | true =>
    rw [checkPath, if_pos long] at checked
    split at checked
    · cases checked
    · split at checked <;> cases checked

theorem expandPath_of_missing (missing : files.leadsSomewhere path = false) :
    files.expandPath path = .error (.missing path) := by
  rw [expandPath]
  cases entry_eq : files.entry path with
  | error fault => rfl
  | ok entry => simp [leadsSomewhere_iff.mpr ⟨entry, entry_eq⟩] at missing

theorem exists_expandPath (proper : files.root.Proper) (somewhere : files.leadsSomewhere path) :
    ∃ found, files.expandPath path = .ok found ∧ files.StandsFor path found := by
  rcases leadsSomewhere_iff.mp somewhere with ⟨entry, entry_eq⟩
  rw [expandPath, entry_eq]
  cases entry with
  | file content =>
    rcases entry_eq_file_iff.mp entry_eq with ⟨location, leadsTo, face_eq, unslashed⟩
    exact ⟨_, rfl, .file leadsTo face_eq unslashed⟩
  | directory inside =>
    rcases entry_eq_directory_iff.mp entry_eq with ⟨location, leadsTo, lookup_eq⟩
    have insideProper := proper.lookup lookup_eq
    have short := isTooLong_of_checkPath leadsTo.checked
    exact ⟨_, rfl, .directory leadsTo lookup_eq
      (fun way => Directory.mem_markdownFiles_iff insideProper short)
      (Directory.pairwise_before_markdownFiles insideProper short)⟩

theorem StandsFor.leadsSomewhere (stands : files.StandsFor path found) :
    files.leadsSomewhere path := by
  rw [leadsSomewhere_iff]
  cases stands with
  | file leadsTo face_eq unslashed =>
    exact ⟨_, entry_eq_file_iff.mpr ⟨_, leadsTo, face_eq, unslashed⟩⟩
  | directory leadsTo lookup_eq => exact ⟨_, entry_eq_directory_iff.mpr ⟨_, leadsTo, lookup_eq⟩⟩

theorem StandsFor.expandPath_eq (proper : files.root.Proper) (stands : files.StandsFor path found) :
    files.expandPath path = .ok found := by
  rcases exists_expandPath proper stands.leadsSomewhere with ⟨listed, expand_eq, other⟩
  rw [expand_eq, other.unique stands]

/-- The order in which directories have their entries makes no difference. -/
theorem expandPath_alike (proper : files.root.Proper) (otherProper : other.root.Proper)
    (alike : files.Alike other) : other.expandPath path = files.expandPath path := by
  cases somewhere : files.leadsSomewhere path with
  | true =>
    rcases exists_expandPath proper somewhere with ⟨found, expand_eq, stands⟩
    rw [expand_eq, (stands.alike alike).expandPath_eq otherProper]
  | false =>
    cases otherSomewhere : other.leadsSomewhere path with
    | true =>
      rcases exists_expandPath otherProper otherSomewhere with ⟨found, _, stands⟩
      rw [(stands.alike alike.symm).leadsSomewhere] at somewhere
      cases somewhere
    | false => rw [expandPath_of_missing somewhere, expandPath_of_missing otherSomewhere]

/-! ## Lists of paths -/

theorem collect_cons (files : FileSystem) (path : Path) (paths : List Path) :
    files.collect (path :: paths) =
      (files.expandPath path).bind fun found => (files.collect paths).map (found ++ ·) := rfl

theorem collect_of_missing {missing : Path} {paths : List Path} (proper : files.root.Proper)
    (first : paths.find? (!files.leadsSomewhere ·) = some missing) :
    files.collect paths = .error (.missing missing) := by
  induction paths with
  | nil => cases first
  | cons path paths ih =>
    rw [collect_cons]
    rw [List.find?_cons] at first
    split at first
    next nowhere =>
      cases first
      rw [expandPath_of_missing (by simpa using nowhere)]
      rfl
    next somewhere =>
      rcases exists_expandPath proper (by simpa using somewhere) with ⟨found, expand_eq, _⟩
      rw [expand_eq, ih first]
      rfl

theorem exists_collect {paths : List Path} (proper : files.root.Proper)
    (somewhere : ∀ path ∈ paths, files.leadsSomewhere path) :
    ∃ parts, files.collect paths = .ok parts.flatten ∧ List.Forall₂ files.StandsFor paths parts := by
  induction paths with
  | nil => exact ⟨[], rfl, .nil⟩
  | cons path paths ih =>
    rw [List.forall_mem_cons] at somewhere
    rcases exists_expandPath proper somewhere.1 with ⟨found, expand_eq, stands⟩
    rcases ih somewhere.2 with ⟨parts, collect_eq, all⟩
    refine ⟨found :: parts, ?_, .cons stands all⟩
    rw [collect_cons, expand_eq, collect_eq]
    rfl

theorem collect_alike (proper : files.root.Proper) (otherProper : other.root.Proper)
    (alike : files.Alike other) (paths : List Path) :
    other.collect paths = files.collect paths := by
  induction paths with
  | nil => rfl
  | cons path paths ih =>
    rw [collect_cons, collect_cons, expandPath_alike proper otherProper alike, ih]

/-- The first path that leads nowhere is missing. If there is none, the paths stand for lists of
files, one behind the other, and these are the same in whichever order directories have their
entries. -/
theorem collect_listings (proper : files.root.Proper) (paths : List Path) :
    (∀ missing, paths.find? (!files.leadsSomewhere ·) = some missing →
        files.collect paths = .error (.missing missing)) ∧
      ((∀ path ∈ paths, files.leadsSomewhere path) →
        ∃ parts, files.collect paths = .ok parts.flatten ∧
          List.Forall₂ files.StandsFor paths parts) ∧
      ∀ other : FileSystem, other.root.Proper → files.Alike other →
        other.collect paths = files.collect paths :=
  ⟨fun _ => collect_of_missing proper, exists_collect proper,
    fun _ otherProper alike => collect_alike proper otherProper alike paths⟩

/-- A file beside a directory with a name like that of a file. -/
def drawer : Directory :=
  .file "z.md".toList (encodeText []) <|
  .subdirectory "x.md".toList (.file "c.md".toList (encodeText []) .empty) .empty

def shelf : FileSystem where
  root :=
    .file "a-b.md".toList (encodeText []) <|
    .subdirectory "a".toList drawer <|
    .file ".md".toList (encodeText []) <|
    .file "notes.txt".toList (encodeText []) .empty
  workingDirectory := []

/-- The same shelf with the entries in another order. -/
def restacked : FileSystem where
  root :=
    .subdirectory "a".toList drawer <|
    .file "a-b.md".toList (encodeText []) <|
    .file ".md".toList (encodeText []) <|
    .file "notes.txt".toList (encodeText []) .empty
  workingDirectory := []

theorem proper_shelf : shelf.root.Proper := by decide

theorem proper_restacked : restacked.root.Proper := by decide

theorem alike_restacked : shelf.Alike restacked where
  workingDirectory := rfl
  keeps := Directory.keeps_swap (by decide) (.file _) (.directory _) _
  kept := Directory.keeps_swap (by decide) (.directory _) (.file _) _

theorem collect_shelf :
    shelf.collect [".".toList, "notes.txt".toList] =
      .ok ["./a/x.md/c.md".toList, "./a/z.md".toList, "./a-b.md".toList, "notes.txt".toList] := by
  have ways_eq : shelf.root.markdownWays ".".toList =
      [["a-b.md".toList], ["a".toList, "z.md".toList], ["a".toList, "x.md".toList, "c.md".toList]] := by
    decide
  have listed : shelf.root.markdownFiles ".".toList =
      [["a".toList, "x.md".toList, "c.md".toList], ["a".toList, "z.md".toList], ["a-b.md".toList]] := by
    refine (Directory.pairwise_markdownFiles proper_shelf).eq_of_mem_iff (by decide) fun way => ?_
    rw [Directory.markdownFiles, List.mem_mergeSort, ways_eq]
    exact List.Perm.mem_iff (by decide)
  have entry_eq : shelf.entry ".".toList = .ok (.directory shelf.root) := rfl
  rw [collect_cons, expandPath, entry_eq]
  dsimp only
  rw [listed]
  rfl

theorem collect_listings_shelf :
    shelf.root.Proper ∧
      shelf.collect [".".toList, "gone".toList, "a/c.md".toList] =
        .error (.missing "gone".toList) ∧
      (∃ parts, shelf.collect [".".toList, "notes.txt".toList] = .ok parts.flatten ∧
        List.Forall₂ shelf.StandsFor [".".toList, "notes.txt".toList] parts) ∧
      shelf.collect [".".toList, "notes.txt".toList] =
        .ok ["./a/x.md/c.md".toList, "./a/z.md".toList, "./a-b.md".toList, "notes.txt".toList] ∧
      restacked.collect [".".toList, "notes.txt".toList] =
        shelf.collect [".".toList, "notes.txt".toList] :=
  ⟨proper_shelf,
    (collect_listings proper_shelf _).1 _ (by decide),
    (collect_listings proper_shelf _).2.1 (by decide),
    collect_shelf,
    (collect_listings proper_shelf _).2.2 restacked proper_restacked alike_restacked⟩

/-! ## Paths that become too long -/

/-- A Markdown file in a directory with a name like its own. -/
def steep : FileSystem where
  root := .subdirectory "a".toList
    (.subdirectory "b".toList
      (.subdirectory "s.md".toList (.file "t.md".toList (encodeText "t".toList) .empty) .empty)
      .empty)
    .empty
  workingDirectory := []

/-- A path to the inner one of the two directories. -/
def stretched (count : Nat) : Path :=
  "a".toList ++ '/' :: (List.replicate count '/' ++ "b".toList)

theorem byteLength_stretched (count : Nat) : Text.byteLength (stretched count) = count + 3 := by
  have slashes : Text.byteLength (List.replicate count '/') = count := by
    induction count with
    | zero => rfl
    | succ count ih =>
      rw [List.replicate_succ, Text.byteLength_cons, ih]
      exact Nat.add_comm 1 count
  have slash : '/'.utf8Size = 1 := rfl
  have outer : Text.byteLength "a".toList = 1 := rfl
  have inner : Text.byteLength "b".toList = 1 := rfl
  rw [stretched, Text.byteLength_append, Text.byteLength_cons, Text.byteLength_append, slashes, slash,
    outer, inner]
  omega

theorem join_stretched (count : Nat) (name : Name) :
    (stretched count).join name = stretched count ++ '/' :: name := by
  have unslashed : (stretched count).endsInSlash = false := by
    rw [Path.endsInSlash, stretched, ← List.cons_append, ← List.append_assoc, List.getLast?_append]
    rfl
  rw [Path.join, unslashed]
  rfl

theorem leadsTo_stretched {count : Nat} (room : count + 3 ≤ Path.limit) :
    steep.LeadsTo (stretched count) ["a".toList, "b".toList] where
  checked := by
    have named : (stretched count).hasNul = false := by
      simp [Path.hasNul, stretched]
    have short : (stretched count).isTooLong = false := by
      rw [Path.isTooLong, byteLength_stretched, decide_eq_false_iff_not, Nat.not_lt]
      exact room
    rw [checkPath, named, short]
    rfl
  leads := by
    have steps_eq : (stretched count).steps = [.enter "a".toList, .enter "b".toList] := by
      rw [stretched, Path.steps_slashes]
      rfl
    rw [steps_eq]
    exact walk_eq_ok_iff.mp rfl

/-- A directory with a path that is too long is listed, and what is inside of it is not. -/
theorem collect_steep :
    steep.root.Proper ∧ steep.LeadsTo (stretched 4090) ["a".toList, "b".toList] ∧
      steep.root.face? ["a".toList, "b".toList, "s.md".toList] = some .directory ∧
      steep.root.face? ["a".toList, "b".toList, "s.md".toList, "t.md".toList] =
        some (.file (encodeText "t".toList)) ∧
      steep.collect [stretched 4090] = .ok [(stretched 4090).descend ["s.md".toList]] ∧
      steep.collect [stretched 4090] ≠
        .ok [(stretched 4090).descend ["s.md".toList, "t.md".toList]] := by
  have long : ((stretched 4090).join "s.md".toList).isTooLong := by
    rw [join_stretched, Path.isTooLong, Text.byteLength_append, byteLength_stretched]
    rfl
  have leadsTo : steep.LeadsTo (stretched 4090) ["a".toList, "b".toList] :=
    leadsTo_stretched (by decide)
  have entry_eq := entry_eq_directory_iff.mpr ⟨_, leadsTo, rfl⟩
  have proper : steep.root.Proper := by decide
  have deeper (path : Path) :
      path.descend ["s.md".toList] ≠ path.descend ["s.md".toList, "t.md".toList] :=
    Path.ne_join (path.join _) (by decide)
  have own : Directory.ownWay "s.md".toList = [["s.md".toList]] := by decide
  have collect_eq :
      steep.collect [stretched 4090] = .ok [(stretched 4090).descend ["s.md".toList]] := by
    rw [collect_cons, expandPath, entry_eq]
    dsimp only
    rw [Directory.markdownFiles, Directory.markdownWays, if_pos long, own, Directory.markdownWays,
      List.append_nil, List.mergeSort_singleton]
    rfl
  refine ⟨proper, leadsTo, rfl, rfl, collect_eq, ?_⟩
  rw [collect_eq]
  intro same
  exact deeper _ (List.cons.inj (Except.ok.inj same)).1

end FileSystem

end Refill
