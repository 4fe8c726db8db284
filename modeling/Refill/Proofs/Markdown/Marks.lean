import Mathlib.Data.List.Forall2
import Refill.Document
import Refill.Proofs.Markdown.Reading

/-!
# Marks of a document

The marks of a document are those that its parts give, in order (`exists_gives_read`). So its
paragraphs stand one behind the other in it (`orderly_marks`), none of its lines breaks if none ends
in a backslash or a blank (`hardBreak_notMem`), and it is read as a sole paragraph only if nothing
else is among its parts (`not_isOther_of_isSole`).
-/

namespace Refill

open Document

namespace Markdown

/-- The marks that the part gives, for some use of the definitions of links. -/
inductive Part.Gives (definitions : Definitions) : Part → List Mark → Prop
  | quote (span : Span) : Gives definitions .group [.quote span]
  | list : Gives definitions .group [.list]
  | footnote (span : Span) : Gives definitions .group [.footnote span]
  | item (span : Span) : Gives definitions .item [.item span]
  | leaf {block : Block} (hidden : Bool) (parts_eq : block.parts = [.leaf block]) :
      Gives definitions (.leaf block) (block.marks definitions hidden)

theorem Block.exists_gives_leaf {definitions : Definitions} (hidden : Bool) {block : Block}
    (parts_eq : block.parts = [.leaf block]) :
    ∃ marks, List.Forall₂ (Part.Gives definitions) block.parts marks ∧
      block.marks definitions hidden = marks.flatten := by
  refine ⟨[block.marks definitions hidden], ?_, by simp⟩
  rw [parts_eq]
  exact .cons (.leaf hidden parts_eq) .nil

mutual

theorem Block.exists_gives (definitions : Definitions) (hidden : Bool) :
    (block : Block) → ∃ marks, List.Forall₂ (Part.Gives definitions) block.parts marks ∧
      block.marks definitions hidden = marks.flatten
  | .paragraph _ _ => exists_gives_leaf hidden rfl
  | .heading _ => exists_gives_leaf hidden rfl
  | .thematicBreak => exists_gives_leaf hidden rfl
  | .code => exists_gives_leaf hidden rfl
  | .html => exists_gives_leaf hidden rfl
  | .table _ => exists_gives_leaf hidden rfl
  | .quote span blocks => by
      rcases Block.exists_gives_all definitions false blocks with ⟨marks, gives, marks_eq⟩
      exact ⟨[.quote span] :: marks, .cons (.quote span) gives, by rw [Block.marks, marks_eq]; rfl⟩
  | .list tight items => by
      rcases Block.exists_gives_all definitions tight items with ⟨marks, gives, marks_eq⟩
      exact ⟨[.list] :: marks, .cons .list gives, by rw [Block.marks, marks_eq]; rfl⟩
  | .item span blocks => by
      rcases Block.exists_gives_all definitions hidden blocks with ⟨marks, gives, marks_eq⟩
      exact ⟨[.item span] :: marks, .cons (.item span) gives, by rw [Block.marks, marks_eq]; rfl⟩
  | .footnote span blocks => by
      rcases Block.exists_gives_all definitions false blocks with ⟨marks, gives, marks_eq⟩
      exact ⟨[.footnote span] :: marks, .cons (.footnote span) gives,
        by rw [Block.marks, marks_eq]; rfl⟩

theorem Block.exists_gives_all (definitions : Definitions) (hidden : Bool) :
    (blocks : List Block) → ∃ marks, List.Forall₂ (Part.Gives definitions) (allParts blocks) marks ∧
      allMarks definitions hidden blocks = marks.flatten
  | [] => ⟨[], .nil, rfl⟩
  | block :: blocks => by
      rcases Block.exists_gives definitions hidden block with ⟨marks, gives, marks_eq⟩
      rcases Block.exists_gives_all definitions hidden blocks with ⟨later, laterGives, later_eq⟩
      refine ⟨marks ++ later, ?_, by rw [allMarks, marks_eq, later_eq, List.flatten_append]⟩
      rw [allParts]
      exact List.rel_append gives laterGives

end

/-- The marks of a document are those of its parts, in order. -/
theorem exists_gives_read (text : List Char) :
    ∃ given, List.Forall₂ (Part.Gives (Document.read text).definitions)
      ((Document.read text).blocks.flatMap Block.parts) given ∧ marks text = given.flatten := by
  rw [← Block.allParts_eq]
  exact Block.exists_gives_all _ false _

section Among

variable {definitions : Definitions} {parts : List Part} {given : List (List Mark)}

theorem exists_part_of_mem (gives : List.Forall₂ (Part.Gives definitions) parts given) {mark : Mark}
    (mem : mark ∈ given.flatten) :
    ∃ part ∈ parts, ∃ marks, part.Gives definitions marks ∧ mark ∈ marks := by
  induction gives with
  | nil => cases mem
  | @cons part marks parts given first _ ih =>
    rcases List.mem_append.mp mem with mem | mem
    · exact ⟨part, List.mem_cons_self, marks, first, mem⟩
    · rcases ih mem with ⟨other, otherMem, found⟩
      exact ⟨other, List.mem_cons_of_mem part otherMem, found⟩

theorem exists_given_of_mem (gives : List.Forall₂ (Part.Gives definitions) parts given)
    {part : Part} (mem : part ∈ parts) : ∃ marks ∈ given, part.Gives definitions marks := by
  induction gives with
  | nil => cases mem
  | @cons first marks parts given gives _ ih =>
    rcases List.mem_cons.mp mem with rfl | mem
    · exact ⟨marks, List.mem_cons_self, gives⟩
    · rcases ih mem with ⟨others, othersMem, found⟩
      exact ⟨others, List.mem_cons_of_mem marks othersMem, found⟩

end Among

/-! ## Paragraphs -/

def Part.span? : Part → Option Span
  | leaf block => block.span?
  | _ => none

theorem filterMap_hardBreaks (offsets : List Nat) :
    (offsets.map Mark.hardBreak).filterMap paragraphSpan? = [] := by
  rw [List.filterMap_map]
  exact List.filterMap_eq_nil_iff.mpr fun _ _ => rfl

theorem Part.Gives.paragraphs {definitions : Definitions} {part : Part} {marks : List Mark}
    (gives : part.Gives definitions marks) :
    (marks.filterMap paragraphSpan?).Sublist part.span?.toList := by
  cases gives with
  | quote | list | footnote | item => exact List.nil_sublist _
  | @leaf block hidden parts_eq =>
    cases block with
    | paragraph span lines =>
      rw [Block.marks]
      split
      · rw [filterMap_hardBreaks]
        exact List.nil_sublist _
      · rw [List.filterMap_cons, filterMap_hardBreaks]
        exact .refl _
    | heading lines =>
      rw [Block.marks, List.filterMap_cons_none rfl, filterMap_hardBreaks]
      exact List.nil_sublist _
    | thematicBreak | code | html | table => exact List.nil_sublist _
    | quote | list | item | footnote => cases parts_eq

theorem paragraphs_sublist {definitions : Definitions} {parts : List Part}
    {given : List (List Mark)} (gives : List.Forall₂ (Part.Gives definitions) parts given) :
    (given.flatten.filterMap paragraphSpan?).Sublist (parts.filterMap Part.span?) := by
  induction gives with
  | nil => exact List.nil_sublist _
  | @cons part marks parts given first _ ih =>
    rw [List.flatten_cons, List.filterMap_append, List.filterMap_cons]
    have joined := first.paragraphs.append ih
    rcases span_eq : part.span? with _ | span
    · simpa [span_eq] using joined
    · simpa [span_eq] using joined

/-- The paragraphs among parts that are laid in a text stand one behind the other, and in the text. -/
theorem Laid.orderly {place next : Place} {parts : List Part} (laid : Laid place next parts) :
    (parts.filterMap Part.span?).Pairwise (fun earlier later => earlier.stop ≤ later.start) ∧
      ∀ span ∈ parts.filterMap Part.span?, place.rest ≠ [] ∧ place.offset ≤ span.start ∧
        span.start ≤ span.stop ∧ span.stop ≤ place.offset + place.rest.length := by
  induction laid with
  | nil => simp
  | @opens place next part parts opened later ih =>
    have closed : part.span? = none := by
      rcases opened with rfl | rfl <;> rfl
    rwa [List.filterMap_cons_none closed]
  | @leaf place start stop next block parts before stands later ih =>
    rcases ih with ⟨apart, inside⟩
    have reached := before.trans stands.before
    -- a paragraph that comes later has something to read, so the text goes on at the places before
    have behind : ∀ span ∈ parts.filterMap Part.span?, place.rest ≠ [] ∧
        stop.offset ≤ span.start ∧ span.start ≤ span.stop ∧
          span.stop ≤ place.offset + place.rest.length := by
      intro span mem
      rcases inside span mem with ⟨left, start_le, le, stop_le⟩
      exact ⟨reached.rest_ne_nil left, start_le, le, reached.offset_add_length left ▸ stop_le⟩
    have le := reached.offset_le
    rcases span_eq : block.span? with _ | span
    · rw [List.filterMap_cons_none (by exact span_eq)]
      refine ⟨apart, fun other mem => ?_⟩
      rcases behind other mem with ⟨left, start_le, rest⟩
      exact ⟨left, le.trans start_le, rest⟩
    · rcases stands.span span span_eq with ⟨rfl, left, stop_le⟩
      rw [List.filterMap_cons_some (by exact span_eq), List.pairwise_cons, List.forall_mem_cons]
      rw [before.offset_add_length left] at stop_le
      refine ⟨⟨fun other mem => (behind other mem).2.1, apart⟩, ?_, fun other mem => ?_⟩
      · exact ⟨before.rest_ne_nil left, before.offset_le, stands.before.offset_le, stop_le⟩
      · rcases behind other mem with ⟨left, start_le, rest⟩
        exact ⟨left, le.trans start_le, rest⟩

/-- The paragraphs of a document stand one behind the other, and in the document. -/
theorem orderly_marks (text : List Char) :
    ((marks text).filterMap paragraphSpan?).Pairwise
        (fun earlier later => earlier.stop ≤ later.start) ∧
      ∀ span ∈ (marks text).filterMap paragraphSpan?,
        span.start ≤ span.stop ∧ span.stop ≤ text.length := by
  rcases exists_laid_read text with ⟨next, laid⟩
  rcases exists_gives_read text with ⟨given, gives, marks_eq⟩
  rw [marks_eq]
  have sublist := paragraphs_sublist gives
  rcases laid.orderly with ⟨apart, inside⟩
  refine ⟨apart.sublist sublist, fun span mem => ?_⟩
  rcases inside span (sublist.subset mem) with ⟨_, _, le, stop_le⟩
  exact ⟨le, by simpa using stop_le⟩

/-! ## Broken lines -/

theorem exists_of_mem_hardBreaks {definitions : Definitions} {lines : List TextLine} {offset : Nat}
    (mem : offset ∈ hardBreaks definitions lines) : ∃ line ∈ lines, line.breakAt = some offset := by
  have among (stretches : List Span) (before : Nat) (lines : List TextLine)
      (mem : offset ∈ hardBreaks.go stretches before lines) :
      ∃ line ∈ lines, line.breakAt = some offset := by
    fun_induction hardBreaks.go stretches before lines with
    | case1 => cases mem
    | case2 before line lines lineEnd later line_eq ih =>
      rcases ih mem with ⟨other, otherMem, other_eq⟩
      exact ⟨other, List.mem_cons_of_mem line otherMem, other_eq⟩
    | case3 before line lines lineEnd later place line_eq swallowed ih =>
      rcases ih mem with ⟨other, otherMem, other_eq⟩
      exact ⟨other, List.mem_cons_of_mem line otherMem, other_eq⟩
    | case4 before line lines lineEnd later place line_eq _ ih =>
      rcases List.mem_cons.mp mem with rfl | mem
      · exact ⟨line, List.mem_cons_self, line_eq⟩
      · rcases ih mem with ⟨other, otherMem, other_eq⟩
        exact ⟨other, List.mem_cons_of_mem line otherMem, other_eq⟩
  unfold hardBreaks at mem
  split at mem
  · cases mem
  · exact among _ 0 lines mem

theorem Part.Gives.exists_broken {definitions : Definitions} {part : Part} {marks : List Mark}
    {offset : Nat} (gives : part.Gives definitions marks) (mem : .hardBreak offset ∈ marks) :
    ∃ block, part = .leaf block ∧ ∃ line ∈ block.lines, line.breakAt = some offset := by
  cases gives with
  | quote | list | footnote | item => simp at mem
  | @leaf block hidden parts_eq =>
    refine ⟨block, rfl, ?_⟩
    cases block with
    | paragraph span lines =>
      apply exists_of_mem_hardBreaks
      rw [Block.marks] at mem
      rw [Block.lines]
      split at mem <;> simpa using mem
    | heading lines =>
      apply exists_of_mem_hardBreaks
      simpa [Block.marks, Block.lines] using mem
    | thematicBreak | code | html | table => simp [Block.marks] at mem
    | quote | list | item | footnote => cases parts_eq

theorem Laid.not_unbroken {place next : Place} {parts : List Part} (laid : Laid place next parts)
    {block : Block} (mem : .leaf block ∈ parts) {line : TextLine} (lineMem : line ∈ block.lines)
    (breaks : line.breakAt ≠ none) : ¬Unbroken place.rest := by
  intro unbroken
  induction laid with
  | nil => cases mem
  | opens opened _ ih =>
    rcases List.mem_cons.mp mem with rfl | mem
    · rcases opened with opened | opened <;> cases opened
    · exact ih mem unbroken
  | leaf before stands _ ih =>
    rcases List.mem_cons.mp mem with same | mem
    · cases same
      exact stands.lines line lineMem breaks (unbroken.of_infix before.rest_suffix.isInfix)
    · exact ih mem (unbroken.of_infix (before.trans stands.before).rest_suffix.isInfix)

/-- Where no line ends in a backslash or a blank, none breaks. -/
theorem hardBreak_notMem {text : List Char} (unbroken : Unbroken text) (offset : Nat) :
    .hardBreak offset ∉ marks text := by
  intro mem
  rcases exists_laid_read text with ⟨next, laid⟩
  rcases exists_gives_read text with ⟨given, gives, marks_eq⟩
  rw [marks_eq] at mem
  rcases exists_part_of_mem gives mem with ⟨part, partMem, partMarks, partGives, mem⟩
  rcases partGives.exists_broken mem with ⟨block, rfl, line, lineMem, breaks⟩
  exact laid.not_unbroken partMem lineMem (by simp [breaks]) unbroken

/-! ## Other blocks -/

/-- A part that is read as another block than a paragraph. -/
def Part.IsOther : Part → Prop
  | group => True
  | item => False
  | leaf block => block.span? = none

theorem Part.Gives.exists_other {definitions : Definitions} {part : Part} {marks : List Mark}
    (gives : part.Gives definitions marks) (other : part.IsOther) :
    ∃ mark ∈ marks, isOtherBlock mark := by
  cases gives with
  | quote span => exact ⟨_, List.mem_singleton_self _, rfl⟩
  | list => exact ⟨_, List.mem_singleton_self _, rfl⟩
  | footnote span => exact ⟨_, List.mem_singleton_self _, rfl⟩
  | item => exact absurd other id
  | @leaf block hidden parts_eq =>
    cases block with
    | paragraph => cases other
    | heading lines => exact ⟨_, List.mem_cons_self, rfl⟩
    | thematicBreak => exact ⟨_, List.mem_singleton_self _, rfl⟩
    | code => exact ⟨_, List.mem_singleton_self _, rfl⟩
    | html => exact ⟨_, List.mem_singleton_self _, rfl⟩
    | table span => exact ⟨_, List.mem_singleton_self _, rfl⟩
    | quote | list | item | footnote => cases parts_eq

/-- A document that is read as a sole paragraph has no other parts. -/
theorem not_isOther_of_isSole {text : List Char} (sole : isSoleParagraph text) :
    ∀ part ∈ (Document.read text).blocks.flatMap Block.parts, ¬part.IsOther := by
  rcases exists_gives_read text with ⟨given, gives, marks_eq⟩
  intro part mem other
  rcases exists_given_of_mem gives mem with ⟨partMarks, givenMem, partGives⟩
  rcases partGives.exists_other other with ⟨mark, markMem, isOther⟩
  rw [isSoleParagraph, Bool.and_eq_true, Bool.not_eq_true', List.any_eq_false] at sole
  refine sole.2 mark ?_ isOther
  rw [marks_eq]
  exact List.mem_flatten.mpr ⟨partMarks, givenMem, markMem⟩

end Markdown

end Refill
