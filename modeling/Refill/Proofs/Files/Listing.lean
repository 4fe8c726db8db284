import Mathlib.Data.Char
import Mathlib.Data.List.Lex
import Mathlib.Data.List.Sort
import Refill.Files.Access
import Refill.Proofs.Files.Face
import Refill.Proofs.Text.Encoding

/-!
# Listings

The Markdown files that a directory is listed as, seen as the faces of the tree below it
(`mem_markdownFiles_iff`). Each comes once, and they are in the order of their paths, step by step
and byte by byte (`pairwise_before_markdownFiles`).
-/

namespace Refill

open Refill.Path (Step)

/-! ## Names and steps -/

/-- The name is that of one step into a directory. -/
structure Name.IsProper (name : Name) : Prop where
  nonempty : name ≠ []
  unparted : '/' ∉ name
  enters : Step.ofName name = .enter name

instance (name : Name) : Decidable name.IsProper :=
  decidable_of_iff (name ≠ [] ∧ '/' ∉ name ∧ Step.ofName name = .enter name)
    ⟨fun ⟨nonempty, unparted, enters⟩ => ⟨nonempty, unparted, enters⟩,
      fun proper => ⟨proper.nonempty, proper.unparted, proper.enters⟩⟩

namespace Path

variable {path : Path} {name : Name} {way : Location}

theorem pieces_ne_nil (path : Path) : pieces path ≠ [] := by
  cases path with
  | nil => simp [pieces]
  | cons c rest =>
    rw [pieces]
    split
    · simp
    · split <;> simp

theorem pieces_slash (front back : List Char) :
    pieces (front ++ '/' :: back) = pieces front ++ pieces back := by
  induction front with
  | nil => simp [pieces]
  | cons c rest ih =>
    rw [List.cons_append, pieces, pieces, ih]
    split
    · rfl
    · cases pieces_eq : pieces rest with
      | nil => exact absurd pieces_eq (pieces_ne_nil rest)
      | cons piece later => rfl

theorem pieces_of_unparted (unparted : '/' ∉ name) : pieces name = [name] := by
  induction name with
  | nil => rfl
  | cons c rest ih =>
    rw [List.mem_cons, not_or] at unparted
    rw [pieces, if_neg (Ne.symm unparted.1), ih unparted.2]

/-- Slashes that follow one another count as one. -/
theorem steps_slashes (front : Path) (count : Nat) (back : Path) :
    steps (front ++ '/' :: (List.replicate count '/' ++ back)) = steps (front ++ '/' :: back) := by
  have filter_eq : (pieces (List.replicate count '/' ++ back)).filter (!·.isEmpty) =
      (pieces back).filter (!·.isEmpty) := by
    induction count with
    | zero => rfl
    | succ count ih => simpa [List.replicate_succ, pieces] using ih
  rw [steps, steps, pieces_slash, pieces_slash, List.filter_append, List.filter_append, filter_eq]

theorem steps_join (path : Path) (proper : name.IsProper) :
    (path.join name).steps = path.steps ++ [.enter name] := by
  have last : ([name].filter (!·.isEmpty)).map Step.ofName = [.enter name] := by
    simp [proper.nonempty, proper.enters]
  have pieces_eq := pieces_of_unparted proper.unparted
  rw [join]
  split
  next slashed =>
    rcases List.getLast?_eq_some_iff.mp (beq_iff_eq.mp slashed) with ⟨front, rfl⟩
    rw [List.append_assoc, List.singleton_append, steps, pieces_slash, pieces_eq, steps,
      pieces_slash, List.filter_append, List.filter_append, List.map_append, last]
    simp [pieces]
  · rw [steps, pieces_slash, pieces_eq, List.filter_append, List.map_append, last, steps]

theorem steps_descend (path : Path) (proper : ∀ name ∈ way, Name.IsProper name) :
    (path.descend way).steps = path.steps ++ way.map .enter := by
  induction way generalizing path with
  | nil => simp [descend]
  | cons name way ih =>
    rw [List.forall_mem_cons] at proper
    rw [descend, List.foldl_cons, ← descend, ih _ proper.2, steps_join path proper.1]
    simp

theorem ne_join (path : Path) (nonempty : name ≠ []) : path ≠ path.join name := by
  rw [join]
  split
  · simp [nonempty]
  · simp

theorem isTooLong_descend (long : path.isTooLong) (way : Location) :
    (path.descend way).isTooLong := by
  induction way generalizing path with
  | nil => exact long
  | cons name way ih =>
    apply ih
    simp only [isTooLong, decide_eq_true_eq] at long ⊢
    rw [join]
    split
    · rw [Text.byteLength_append]
      omega
    · rw [Text.byteLength_append, Text.byteLength_cons]
      omega

/-! ## The order of paths -/

/-- What a step counts in the order of paths: names come last, in the order of their bytes. -/
def stepKey : Step → List Nat
  | .stay => [0]
  | .up => [1]
  | .enter name => 2 :: Text.codes name

def key (path : Path) : List (List Nat) :=
  path.steps.map stepKey

/-- The first path comes before the second one, compared step by step. -/
def Before (first second : Path) : Prop :=
  first.key < second.key

theorem key_lt_key {way other : Location} (lt : way < other) :
    way.map (stepKey ∘ .enter) < other.map (stepKey ∘ .enter) := by
  induction lt with
  | nil => exact .nil
  | cons _ ih => exact .cons ih
  | rel below => exact .rel (.cons (Text.codes_lt_codes below))

theorem before_descend (path : Path) {way other : Location}
    (proper : ∀ name ∈ way, Name.IsProper name) (otherProper : ∀ name ∈ other, Name.IsProper name)
    (lt : way < other) : Before (path.descend way) (path.descend other) := by
  rw [Before, key, key, steps_descend path proper, steps_descend path otherProper, List.map_append,
    List.map_append, List.map_map, List.map_map]
  exact List.append_left_lt (key_lt_key lt)

end Path

/-! ## Directories -/

namespace Directory

/-- Each name is that of one entry, in the directory and in every one below. -/
inductive Proper : Directory → Prop
  | empty : Proper .empty
  | file {name : Name} {content : ByteArray} {rest : Directory} (proper : name.IsProper)
      (once : rest.entry? name = none) (later : Proper rest) : Proper (.file name content rest)
  | subdirectory {name : Name} {inside rest : Directory} (proper : name.IsProper)
      (once : rest.entry? name = none) (inner : Proper inside) (later : Proper rest) :
      Proper (.subdirectory name inside rest)

instance decidableProper : (directory : Directory) → Decidable directory.Proper
  | .empty => isTrue .empty
  | .file name _ rest =>
      have := decidableProper rest
      decidable_of_iff (name.IsProper ∧ rest.entry? name = none ∧ rest.Proper)
        ⟨fun ⟨proper, once, later⟩ => .file proper once later,
          fun | .file proper once later => ⟨proper, once, later⟩⟩
  | .subdirectory name inside rest =>
      have := decidableProper inside
      have := decidableProper rest
      decidable_of_iff (name.IsProper ∧ rest.entry? name = none ∧ inside.Proper ∧ rest.Proper)
        ⟨fun ⟨proper, once, inner, later⟩ => .subdirectory proper once inner later,
          fun | .subdirectory proper once inner later => ⟨proper, once, inner, later⟩⟩

/-- A listing at the path shows what stands at the end of the way: it has the extension of Markdown
files, the directories on the way can be entered, and it is a file, or a directory that cannot be told
from one as its path is too long. -/
structure Lists (path : Path) (directory : Directory) (way : Location) : Prop where
  markdown : way.getLast?.any Name.isMarkdown
  entered : (path.descend way.dropLast).isTooLong = false
  plain : (∃ content, directory.face? way = some (.file content)) ∨
    directory.face? way = some .directory ∧ (path.descend way).isTooLong

variable {directory : Directory} {path : Path} {way : Location} {name : Name}

theorem Proper.entry (proper : directory.Proper) {entry : Entry}
    (entry_eq : directory.entry? name = some entry) :
    name.IsProper ∧ ∀ inside, entry = .directory inside → inside.Proper := by
  induction proper with
  | empty => cases entry_eq
  | file isProper _ _ ih =>
    rw [ Directory.entry?] at entry_eq
    split at entry_eq
    next same =>
      cases entry_eq
      refine ⟨same ▸ isProper, fun inside inside_eq => ?_⟩
      cases inside_eq
    · exact ih entry_eq
  | subdirectory isProper _ inner _ _ ih =>
    rw [ Directory.entry?] at entry_eq
    split at entry_eq
    next same =>
      cases entry_eq
      refine ⟨same ▸ isProper, fun inside inside_eq => ?_⟩
      cases inside_eq
      exact inner
    · exact ih entry_eq

theorem Proper.lookup (proper : directory.Proper) {inside : Directory}
    (lookup_eq : directory.lookup way = some (.directory inside)) : inside.Proper := by
  induction way generalizing directory with
  | nil =>
    cases lookup_eq
    exact proper
  | cons name way ih =>
    rw [Directory.lookup] at lookup_eq
    cases entry_eq : directory.entry? name with
    | none => simp [entry_eq] at lookup_eq
    | some entry =>
      cases entry with
      | file content => cases way <;> simp [entry_eq] at lookup_eq
      | directory below =>
        rw [entry_eq] at lookup_eq
        exact ih ((proper.entry entry_eq).2 below rfl) lookup_eq

/-- The names on the way to an entry are those of steps. -/
theorem Proper.names (proper : directory.Proper) (filled : directory.face? way ≠ none) :
    ∀ name ∈ way, Name.IsProper name := by
  induction way generalizing directory with
  | nil => simp
  | cons name way ih =>
    rw [face_cons] at filled
    cases entry_eq : directory.entry? name with
    | none => simp [entry_eq] at filled
    | some entry =>
      have here := proper.entry entry_eq
      rw [entry_eq] at filled
      refine List.forall_mem_cons.mpr ⟨here.1, ?_⟩
      cases entry with
      | file content => cases way <;> simp at filled ⊢
      | directory inside => exact ih (here.2 inside rfl) filled

theorem mem_ownWay {other : Name} :
    name :: way ∈ ownWay other ↔ other = name ∧ name.isMarkdown ∧ way = [] := by
  rw [ownWay]
  split
  next markdown =>
    rw [List.mem_singleton, List.cons.injEq]
    constructor
    · rintro ⟨rfl, rfl⟩
      exact ⟨rfl, markdown, rfl⟩
    · rintro ⟨rfl, _, rfl⟩
      exact ⟨rfl, rfl⟩
  next other =>
    simp only [List.not_mem_nil, false_iff]
    rintro ⟨rfl, markdown, _⟩
    exact other markdown

/-- What a listing shows below an entry. -/
def ShowsBelow (path : Path) (name : Name) (way : Location) : Option Entry → Prop
  | none => False
  | some (.file _) => name.isMarkdown ∧ way = []
  | some (.directory inside) =>
      if (path.join name).isTooLong then name.isMarkdown ∧ way = []
      else way ∈ inside.markdownWays (path.join name)

/-- Which ways a listing shows depends on the entries they begin with. -/
theorem mem_markdownWays_cons (proper : directory.Proper) :
    name :: way ∈ directory.markdownWays path ↔
      ShowsBelow path name way (directory.entry? name) := by
  induction proper with
  | empty => simp [markdownWays, Directory.entry?, ShowsBelow]
  | @file other content rest _ once _ ih =>
    rw [markdownWays, List.mem_append, mem_ownWay, ih, Directory.entry?]
    by_cases same : other = name
    · subst same
      rw [once, if_pos rfl]
      simp [ShowsBelow]
    · simp [same]
  | @subdirectory other inside rest _ once _ _ _ ih =>
    have own : name :: way ∈ (if (path.join other).isTooLong then ownWay other
          else (inside.markdownWays (path.join other)).map (other :: ·)) ↔
        other = name ∧ ShowsBelow path other way (some (.directory inside)) := by
      rw [ShowsBelow]
      split
      · rw [mem_ownWay]
        constructor
        · rintro ⟨rfl, shown⟩
          exact ⟨rfl, shown⟩
        · rintro ⟨rfl, shown⟩
          exact ⟨rfl, shown⟩
      · simp [and_comm]
    rw [markdownWays, List.mem_append, own, ih, Directory.entry?]
    by_cases same : other = name
    · subst same
      rw [once, if_pos rfl]
      simp [ShowsBelow]
    · simp [same]

theorem nil_notMem_markdownWays : [] ∉ directory.markdownWays path := by
  have own (name : Name) : [] ∉ ownWay name := by
    rw [ownWay]
    split <;> simp
  induction directory with
  | empty => simp [markdownWays]
  | file name content rest ih => simp [markdownWays, own, ih]
  | subdirectory name inside rest _ ih =>
    rw [markdownWays, List.mem_append]
    split
    · simp [own, ih]
    · simp [ih]

theorem lists_of_file {content : ByteArray}
    (entry_eq : directory.entry? name = some (.file content)) (short : path.isTooLong = false) :
    directory.Lists path (name :: way) ↔ name.isMarkdown ∧ way = [] := by
  have face_eq : directory.face? (name :: way) = if way.isEmpty then some (.file content) else none := by
    rw [face_cons, entry_eq]
  cases way with
  | nil =>
    constructor
    · exact fun lists => ⟨by simpa using lists.markdown, rfl⟩
    · rintro ⟨markdown, _⟩
      exact ⟨by simpa using markdown, short, .inl ⟨content, face_eq⟩⟩
  | cons next way =>
    constructor
    · intro lists
      have plain := lists.plain
      simp [face_eq] at plain
    · nofun

/-- What is below a directory with a path that is too long is not listed. -/
theorem lists_of_long {inside : Directory}
    (entry_eq : directory.entry? name = some (.directory inside)) (short : path.isTooLong = false)
    (long : (path.join name).isTooLong) :
    directory.Lists path (name :: way) ↔ name.isMarkdown ∧ way = [] := by
  cases way with
  | nil =>
    have face_eq : directory.face? [name] = some .directory := by
      rw [face_cons, entry_eq]
      rfl
    constructor
    · exact fun lists => ⟨by simpa using lists.markdown, rfl⟩
    · rintro ⟨markdown, _⟩
      exact ⟨by simpa using markdown, short, .inr ⟨face_eq, long⟩⟩
  | cons next way =>
    constructor
    · intro lists
      have entered : ((path.join name).descend (next :: way).dropLast).isTooLong = false :=
        lists.entered
      rw [Path.isTooLong_descend long] at entered
      cases entered
    · nofun

theorem lists_below_iff {inside : Directory}
    (entry_eq : directory.entry? name = some (.directory inside))
    (short : (path.join name).isTooLong = false) :
    directory.Lists path (name :: way) ↔ inside.Lists (path.join name) way := by
  have face_eq (way : Location) : directory.face? (name :: way) = inside.face? way := by
    rw [face_cons, entry_eq]
  cases way with
  | nil =>
    constructor
    · intro lists
      have plain := lists.plain
      simp [face_eq, Path.descend, short] at plain
    · intro lists
      cases lists.markdown
  | cons next way =>
    constructor
    · rintro ⟨markdown, entered, plain⟩
      rw [face_eq] at plain
      exact ⟨by simpa using markdown, entered, plain⟩
    · rintro ⟨markdown, entered, plain⟩
      rw [← face_eq] at plain
      exact ⟨by simpa using markdown, entered, plain⟩

theorem mem_markdownWays_iff (proper : directory.Proper) (short : path.isTooLong = false) :
    way ∈ directory.markdownWays path ↔ directory.Lists path way := by
  induction way generalizing directory path with
  | nil =>
    constructor
    · exact fun mem => absurd mem nil_notMem_markdownWays
    · intro lists
      cases lists.markdown
  | cons name way ih =>
    rw [mem_markdownWays_cons proper]
    cases entry_eq : directory.entry? name with
    | none =>
      have face_eq : directory.face? (name :: way) = none := by rw [face_cons, entry_eq]
      constructor
      · nofun
      · intro lists
        have plain := lists.plain
        simp [face_eq] at plain
    | some entry =>
      cases entry with
      | file content => exact (lists_of_file entry_eq short).symm
      | directory inside =>
        rw [ShowsBelow]
        split
        next long => exact (lists_of_long entry_eq short long).symm
        next reached =>
          have reached : (path.join name).isTooLong = false := by simpa using reached
          rw [lists_below_iff entry_eq reached, ih ((proper.entry entry_eq).2 inside rfl) reached]

/-! ## Sorted listings -/

theorem exists_of_mem_ownWay (mem : way ∈ ownWay name) : ∃ below, way = name :: below := by
  cases way with
  | nil =>
    rw [ownWay] at mem
    split at mem <;> simp at mem
  | cons other below =>
    rcases mem_ownWay.mp mem with ⟨rfl, _, _⟩
    exact ⟨below, rfl⟩

/-- No two entries have their ways in common. -/
theorem nodup_entry {rest : Directory} (later : rest.Proper) (once : rest.entry? name = none)
    {front : List Location} (fresh : front.Nodup)
    (begins : ∀ way ∈ front, ∃ below, way = name :: below)
    (ih : (rest.markdownWays path).Nodup) : (front ++ rest.markdownWays path).Nodup := by
  refine List.nodup_append.mpr ⟨fresh, ih, ?_⟩
  rintro way mem _ otherMem rfl
  rcases begins way mem with ⟨below, rfl⟩
  rw [mem_markdownWays_cons later, once] at otherMem
  exact otherMem

theorem nodup_ownWay (name : Name) : (ownWay name).Nodup := by
  rw [ownWay]
  split <;> simp

theorem nodup_markdownWays (proper : directory.Proper) :
    (directory.markdownWays path).Nodup := by
  induction proper generalizing path with
  | empty => exact .nil
  | @file name content rest _ once later ih =>
    exact nodup_entry later once (nodup_ownWay name) (fun _ => exists_of_mem_ownWay) ih
  | @subdirectory name inside rest _ once _ later innerIh ih =>
    rw [markdownWays]
    split
    · exact nodup_entry later once (nodup_ownWay name) (fun _ => exists_of_mem_ownWay) ih
    · refine nodup_entry later once (innerIh.map List.cons_injective) ?_ ih
      rintro _ mem
      rcases List.mem_map.mp mem with ⟨below, _, rfl⟩
      exact ⟨below, rfl⟩

theorem markdownFiles_eq (path : Path) (directory : Directory) :
    directory.markdownFiles path =
      (directory.markdownWays path).mergeSort fun first second => decide (first ≤ second) := by
  rw [markdownFiles]
  congr
  funext first second
  have lex_iff : (second.lex first fun name other => name.lex other) ↔ second < first := by
    simp only [List.lex_eq_true_iff_lex, decide_eq_true_eq]
    exact Iff.rfl
  rw [Bool.eq_iff_iff, Bool.not_eq_true', ← Bool.not_eq_true, lex_iff, decide_eq_true_iff]
  exact not_lt

/-- A listing is strictly ascending. -/
theorem pairwise_markdownFiles (proper : directory.Proper) :
    (directory.markdownFiles path).Pairwise (· < ·) := by
  rw [markdownFiles_eq]
  have sorted := List.pairwise_mergeSort' (· ≤ ·) (directory.markdownWays path)
  have fresh : (directory.markdownWays path).Nodup := nodup_markdownWays proper
  have distinct :=
    (List.mergeSort_perm _ fun first second => decide (first ≤ second)).nodup_iff.mpr fresh
  exact (sorted.and distinct).imp fun ⟨le, ne⟩ => lt_of_le_of_ne le ne

theorem mem_markdownFiles_iff (proper : directory.Proper) (short : path.isTooLong = false) :
    way ∈ directory.markdownFiles path ↔ directory.Lists path way := by
  rw [markdownFiles, List.mem_mergeSort, mem_markdownWays_iff proper short]

theorem Lists.filled (lists : directory.Lists path way) : directory.face? way ≠ none := by
  rcases lists.plain with ⟨content, face_eq⟩ | ⟨face_eq, _⟩ <;> simp [face_eq]

/-- The files of a listing are in the order of their paths. -/
theorem pairwise_before_markdownFiles (proper : directory.Proper) (short : path.isTooLong = false) :
    ((directory.markdownFiles path).map path.descend).Pairwise Path.Before := by
  rw [List.pairwise_map]
  refine (pairwise_markdownFiles proper).imp_of_mem fun mem otherMem lt => ?_
  rw [mem_markdownFiles_iff proper short] at mem otherMem
  exact Path.before_descend path (proper.names mem.filled) (proper.names otherMem.filled) lt

end Directory

end Refill
