import Refill.Proofs.Document.Splice
import Refill.Proofs.Markdown.Exchange

/-!
# What may be refilled around a paragraph

The marks of a document in which a paragraph stands outside of all containers are those before it, its
own, and those behind it. Which of the paragraphs before or behind it may be refilled does not depend
on the paragraph (`isFreeIn_before`, `isFreeIn_behind`), and itself it may be refilled if it holds no
break (`isFreeIn_span`).
-/

namespace Refill.Document

open Markdown

/-! ## Marks of the blocks found -/

/-- The marks of the blocks found so far outside of all containers. -/
def progressMarks (definitions : Definitions) (progress : Progress) : List Mark :=
  Block.allMarks definitions false progress.blocks.reverse

section Found

variable {definitions : Definitions} {progress : Progress}

theorem allMarks_append (definitions : Definitions) (hidden : Bool) (front back : List Block) :
    Block.allMarks definitions hidden (front ++ back) =
      Block.allMarks definitions hidden front ++ Block.allMarks definitions hidden back := by
  induction front with
  | nil => rfl
  | cons block front ih =>
    rw [List.cons_append, Block.allMarks, Block.allMarks, ih, List.append_assoc]

theorem parts_of_closed (closed : progress.frames = []) :
    progress.parts = Block.allParts progress.blocks.reverse := by
  rw [Progress.parts, closed, Block.allParts_eq]
  exact List.append_nil _

theorem mem_paragraphs_of_mem_marks (closed : progress.frames = []) {span : Span}
    (mem : span ∈ (progressMarks definitions progress).filterMap paragraphSpan?) :
    span ∈ progress.paragraphs := by
  rcases Block.exists_gives_all definitions false progress.blocks.reverse with
    ⟨given, gives, marks_eq⟩
  rw [progressMarks, marks_eq] at mem
  rw [Progress.paragraphs, parts_of_closed closed]
  exact (paragraphs_sublist gives).subset mem

theorem mem_holders_iff (closed : progress.frames = []) {span : Span} :
    span ∈ progress.holders ↔
      span ∈ (progressMarks definitions progress).filterMap containerSpan? := by
  rw [progressMarks, Block.filterMap_allMarks, Block.allHolders_eq, Progress.holders, closed]
  simp

/-- A break is one of a line. -/
theorem exists_line_of_mem_marks (closed : progress.frames = []) {offset : Nat}
    (mem : .hardBreak offset ∈ progressMarks definitions progress) :
    ∃ block, .leaf block ∈ progress.parts ∧ ∃ line ∈ block.lines, line.breakAt = some offset := by
  rcases Block.exists_gives_all definitions false progress.blocks.reverse with
    ⟨given, gives, marks_eq⟩
  rw [progressMarks, marks_eq] at mem
  rcases exists_part_of_mem gives mem with ⟨part, partMem, partMarks, partGives, mem⟩
  rcases partGives.exists_broken mem with ⟨block, rfl, broken⟩
  rw [parts_of_closed closed]
  exact ⟨block, partMem, broken⟩

end Found

theorem encloses_eq_false_iff {outer inner : Span} :
    outer.encloses inner = false ↔ inner.start < outer.start ∨ outer.stop < inner.stop := by
  rw [Span.encloses, Bool.and_eq_false_iff, decide_eq_false_iff_not, decide_eq_false_iff_not,
    Nat.not_le, Nat.not_le]

theorem holds_eq_false_iff {span : Span} {offset : Nat} :
    span.holds offset = false ↔ offset < span.start ∨ span.stop ≤ offset := by
  rw [Span.holds, Bool.and_eq_false_iff, decide_eq_false_iff_not, decide_eq_false_iff_not,
    Nat.not_le, Nat.not_lt]

/-! ## Marks that do not concern each other -/

/-- Whether the marks leave it open to refill the paragraph with this stretch. -/
def isFreeIn (marks : List Mark) (span : Span) : Bool :=
  isEligible (marks.filterMap containerSpan?) (marks.filterMap breakOffset?) span

section Free

variable {marks front back : List Mark} {span : Span}

theorem isFreeIn_append :
    isFreeIn (front ++ back) span ↔ isFreeIn front span ∧ isFreeIn back span := by
  simp only [isFreeIn, isEligible_iff, List.mem_append]
  grind

/-- The marks tell of containers and breaks before the offset only. -/
structure EndsBefore (high : Nat) (marks : List Mark) : Prop where
  holders : ∀ outer ∈ marks.filterMap containerSpan?, outer.stop ≤ high
  breaks : ∀ offset, .hardBreak offset ∈ marks → offset < high

theorem EndsBefore.isFreeIn {high : Nat} (ends : EndsBefore high marks) (span : Span)
    (start_le : high ≤ span.start) (further : high < span.stop) : isFreeIn marks span := by
  rw [Document.isFreeIn, isEligible_iff]
  constructor
  · intro mark mem outer outer_eq
    have le := ends.holders outer (List.mem_filterMap.mpr ⟨mark, mem, outer_eq⟩)
    rw [encloses_eq_false_iff]
    omega
  · intro offset mem
    have lt := ends.breaks offset mem
    rw [holds_eq_false_iff]
    omega

/-- The marks of a paragraph, with its breaks. -/
def paragraphMarks (span : Span) (breaks : List Nat) : List Mark :=
  .paragraph span :: breaks.map .hardBreak

theorem isFreeIn_paragraphMarks {inner : Span} {breaks : List Nat} :
    isFreeIn (paragraphMarks inner breaks) span ↔ ∀ offset ∈ breaks, span.holds offset = false := by
  simp [isFreeIn, isEligible_iff, paragraphMarks, containerSpan?]

/-- The marks tell of breaks behind the second character only. -/
def BreaksLate (marks : List Mark) : Prop :=
  ∀ offset, .hardBreak offset ∈ marks → 2 ≤ offset

theorem BreaksLate.isFreeIn {d : Nat} (late : BreaksLate marks) (start_lt : span.start < d)
    (stop_le : span.stop ≤ 2 + d) : isFreeIn (marks.map (Mark.move (· + d))) span := by
  rw [Document.isFreeIn, isEligible_iff]
  constructor
  · intro mark mem outer outer_eq
    rcases List.mem_map.mp mem with ⟨origin, _, rfl⟩
    have moved : d ≤ outer.start := by
      cases origin <;> simp [Mark.move, containerSpan?] at outer_eq <;> subst outer_eq <;>
        exact Nat.le_add_left _ _
    rw [encloses_eq_false_iff]
    omega
  · intro offset mem
    rcases List.mem_map.mp mem with ⟨origin, originMem, moved⟩
    obtain ⟨place, rfl⟩ : ∃ place, origin = .hardBreak place := by
      cases origin <;> simp [Mark.move] at moved
      exact ⟨_, rfl⟩
    have le := late place originMem
    have offset_eq : place + d = offset := by simpa [Mark.move] using moved
    rw [holds_eq_false_iff]
    omega

theorem isFreeIn_move (marks : List Mark) (span : Span) (d : Nat) :
    isFreeIn (marks.map (Mark.move (· + d))) (span.move (· + d)) = isFreeIn marks span :=
  isEligible_move (fun _ _ lt => Nat.add_lt_add_right lt d) marks span

end Free

/-! ## Marks around a paragraph -/

/-- The marks before a paragraph, its own and those behind it, which are told as if the document began
two characters before the end of the paragraph. -/
def aroundMarks (front : List Mark) (span : Span) (breaks : List Nat) (back : List Mark) :
    List Mark :=
  front ++ (paragraphMarks span breaks ++ back.map (Mark.move (· + (span.stop - 2))))

/-- The marks before the paragraph tell of nothing behind its beginning, and those behind it of nothing
before its end. -/
structure Around (front : List Mark) (span : Span) (breaks : List Nat) (back : List Mark) : Prop where
  ends : EndsBefore span.start front
  inside : ∀ offset ∈ breaks, span.start ≤ offset ∧ offset < span.stop
  late : BreaksLate back
  wide : span.start + 3 ≤ span.stop ∨ back = [] ∧ span.start + 2 ≤ span.stop

namespace Around

variable {front back : List Mark} {span other : Span} {breaks : List Nat}

theorem isFreeIn_back (around : Around front span breaks back) (other : Span)
    (start_le : other.start ≤ span.start) (stop_le : other.stop ≤ span.stop) :
    isFreeIn (back.map (Mark.move (· + (span.stop - 2)))) other := by
  rcases around.wide with wide | ⟨rfl, _⟩
  · exact around.late.isFreeIn (by omega) (by omega)
  · rfl

theorem isFreeIn_before (around : Around front span breaks back) (le : other.start ≤ other.stop)
    (before : other.stop ≤ span.start) :
    isFreeIn (aroundMarks front span breaks back) other ↔ isFreeIn front other := by
  have wide : span.start + 2 ≤ span.stop := by
    rcases around.wide with wide | ⟨_, wide⟩ <;> omega
  have own : isFreeIn (paragraphMarks span breaks) other := by
    rw [isFreeIn_paragraphMarks]
    intro offset mem
    have bounds := around.inside offset mem
    rw [holds_eq_false_iff]
    omega
  have behind := around.isFreeIn_back other (by omega) (by omega)
  rw [aroundMarks, isFreeIn_append, isFreeIn_append]
  exact ⟨fun free => free.1, fun free => ⟨free, own, behind⟩⟩

theorem isFreeIn_span (around : Around front span breaks back) :
    isFreeIn (aroundMarks front span breaks back) span ↔ breaks = [] := by
  have wide : span.start + 2 ≤ span.stop := by
    rcases around.wide with wide | ⟨_, wide⟩ <;> omega
  have before := around.ends.isFreeIn span (Nat.le_refl _) (by omega)
  have behind := around.isFreeIn_back span (Nat.le_refl _) (Nat.le_refl _)
  have own : isFreeIn (paragraphMarks span breaks) span ↔ breaks = [] := by
    rw [isFreeIn_paragraphMarks]
    constructor
    · intro none
      rw [List.eq_nil_iff_forall_not_mem]
      intro offset mem
      have bounds := around.inside offset mem
      have outside := none offset mem
      rw [holds_eq_false_iff] at outside
      omega
    · rintro rfl
      simp
  rw [aroundMarks, isFreeIn_append, isFreeIn_append, own]
  exact ⟨fun free => free.2.1, fun none => ⟨before, none, behind⟩⟩

theorem isFreeIn_behind (around : Around front span breaks back) (two : 2 ≤ other.start)
    (le : other.start ≤ other.stop) :
    isFreeIn (aroundMarks front span breaks back) (other.move (· + (span.stop - 2))) ↔
      isFreeIn back other := by
  have wide : span.start + 2 ≤ span.stop := by
    rcases around.wide with wide | ⟨_, wide⟩ <;> omega
  have before := around.ends.isFreeIn (other.move (· + (span.stop - 2)))
    (by dsimp only [Span.move]; omega) (by dsimp only [Span.move]; omega)
  have own : isFreeIn (paragraphMarks span breaks) (other.move (· + (span.stop - 2))) := by
    rw [isFreeIn_paragraphMarks]
    intro offset mem
    have bounds := around.inside offset mem
    rw [holds_eq_false_iff]
    left
    dsimp only [Span.move]
    omega
  rw [aroundMarks, isFreeIn_append, isFreeIn_append, isFreeIn_move]
  exact ⟨fun free => free.2.2, fun free => ⟨before, own, free⟩⟩

end Around

theorem progressMarks_resume {definitions : Definitions} {base tail : Progress}
    (closed : base.frames = []) (span : Span) (lines : List TextLine) (d : Nat) :
    progressMarks definitions ((base.add (.paragraph span lines)).resume d tail) =
      progressMarks definitions base ++ (paragraphMarks span (hardBreaks definitions lines) ++
        (progressMarks definitions tail).map (Mark.move (· + d))) := by
  have blocks_eq : ((base.add (.paragraph span lines)).resume d tail).blocks.reverse =
      base.blocks.reverse ++ ([.paragraph span lines] ++ Block.shiftAll d tail.blocks.reverse) := by
    rcases base with ⟨blocks, frames, emptyItem, afterBlank, links, footnotes⟩
    cases closed
    simp [Progress.add, Progress.resume, Block.shiftAll_eq]
  rw [progressMarks, blocks_eq, allMarks_append, allMarks_append, Block.allMarks_shift]
  congr 1
  congr 1
  simp [Block.allMarks, Block.marks, paragraphMarks]

end Refill.Document
