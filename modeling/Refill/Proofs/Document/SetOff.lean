import Mathlib.Data.List.Infix
import Refill.Proofs.Document.Order
import Refill.Proofs.Document.Stretches
import Refill.Proofs.Markdown.Exchange

/-!
# Paragraphs that are set off

A paragraph is set off if empty lines, or the ends of the document, stand around it. If each paragraph
that refilling changes is (`SetOff`), then each of them stands at a `Seam` of the two documents
(`exists_seam`).
-/

namespace Refill.Document

open Text Markdown

/-! ## What stands before and behind -/

/-- Whether the text ends in an empty line, up to spaces before what follows. The line before the empty
one does not end in a backslash. A text of spaces only ends so as well. -/
def endsSetOff (above : List Char) : Bool :=
  match above.reverse.dropWhile (· == ' ') with
  | [] => true
  | '\n' :: before =>
      match before.dropWhile fun c => c == ' ' || c == '\t' || c == '\r' with
      | [] => true
      | '\n' :: last => last.head? != some '\\'
      | _ => false
  | _ => false

/-- The changed paragraph has an empty line before it, or nothing, and the end of its line and an empty
line behind it, or nothing. Nothing of it looks like a definition, and its last line is open. -/
structure StandsAlone (above : List Char) (piece : Piece) (behind : List Char) : Prop where
  above : endsSetOff above
  starts : startsBlank piece.before = false
  noSlash : (trimEnd piece.before).getLast? ≠ some '\\'
  apart : ¬"]:".toList <:+: piece.after
  behind : blankTail piece.before = ['\n'] ∧ isEmptyLine behind ∨
    blankTail piece.before = [] ∧ behind = []

/-- Each piece that changes stands alone, behind the text. What stands before a changed piece does not
matter behind it. -/
def SetOff : (above : List Char) → (pieces : List Piece) → (rest : List Char) → Prop
  | _, [], _ => True
  | above, piece :: pieces, rest =>
      if piece.after = piece.before then SetOff (above ++ piece.gap ++ piece.before) pieces rest
      else
        StandsAlone (above ++ piece.gap) piece (textOf Piece.before pieces rest) ∧
          SetOff [] pieces rest

instance (above : List Char) (piece : Piece) (behind : List Char) :
    Decidable (StandsAlone above piece behind) :=
  decidable_of_iff
    (endsSetOff above ∧ startsBlank piece.before = false ∧
      (trimEnd piece.before).getLast? ≠ some '\\' ∧ ¬"]:".toList <:+: piece.after ∧
        (blankTail piece.before = ['\n'] ∧ isEmptyLine behind ∨
          blankTail piece.before = [] ∧ behind = []))
    ⟨fun ⟨above, starts, noSlash, apart, behind⟩ => ⟨above, starts, noSlash, apart, behind⟩,
      fun ⟨above, starts, noSlash, apart, behind⟩ => ⟨above, starts, noSlash, apart, behind⟩⟩

def decideSetOff : (above : List Char) → (pieces : List Piece) → (rest : List Char) →
    Decidable (SetOff above pieces rest)
  | _, [], _ => isTrue trivial
  | above, piece :: pieces, rest =>
      have := decideSetOff (above ++ piece.gap ++ piece.before) pieces rest
      have := decideSetOff [] pieces rest
      inferInstanceAs (Decidable (if piece.after = piece.before then
          SetOff (above ++ piece.gap ++ piece.before) pieces rest
        else
          StandsAlone (above ++ piece.gap) piece (textOf Piece.before pieces rest) ∧
            SetOff [] pieces rest))

instance (above : List Char) (pieces : List Piece) (rest : List Char) :
    Decidable (SetOff above pieces rest) :=
  decideSetOff above pieces rest

/-! ## Seams -/

theorem closed_reverse {last : List Char} (noSlash : last.head? ≠ some '\\') :
    Closed (last.reverse ++ ['\n']) := by
  refine ⟨fun start c lines_eq => ?_, fun slash => ?_⟩
  · exact (List.singleton_inj.mp (List.append_inj' lines_eq rfl).2).symm
  · have slash : ['\\'] ++ ['\n'] <:+ last.reverse ++ ['\n'] := slash
    rw [List.suffix_append_inj_of_length_eq rfl] at slash
    rcases slash.1 with ⟨start, start_eq⟩
    apply noSlash
    rw [← List.reverse_reverse last, ← start_eq]
    simp

/-- What ends in an empty line is the end of lines, blanks and the spaces of another line. -/
theorem exists_lines_of_endsSetOff {above : List Char} (setOff : endsSetOff above) :
    ∃ lines blanks indent, Closed lines ∧ (∀ c ∈ blanks, c = ' ' ∨ c = '\t' ∨ c = '\r') ∧
      (∀ c ∈ indent, c = ' ') ∧ indent <:+ above ∧
        above <:+ lines ++ (blanks ++ '\n' :: indent) := by
  have parted := List.takeWhile_append_dropWhile (p := (· == ' ')) (l := above.reverse)
  have spaces : ∀ c ∈ (above.reverse.takeWhile (· == ' ')).reverse, c = ' ' := by
    intro c mem
    simpa using List.all_eq_true.mp List.all_takeWhile c (List.mem_reverse.mp mem)
  unfold endsSetOff at setOff
  generalize above.reverse.takeWhile (· == ' ') = front at parted spaces
  have above_eq : above = (above.reverse.dropWhile (· == ' ')).reverse ++ front.reverse := by
    rw [← List.reverse_append, parted, List.reverse_reverse]
  have suffix : front.reverse <:+ above := by
    rw [above_eq]
    exact List.suffix_append _ _
  have none : Closed [] := ⟨by simp, by simp⟩
  split at setOff
  · next ended =>
    rw [ended] at above_eq
    refine ⟨[], [], front.reverse, none, by simp, spaces, suffix, ?_⟩
    rw [above_eq]
    exact List.suffix_cons _ _
  · next before ended =>
    rw [ended] at above_eq
    have blankParted := List.takeWhile_append_dropWhile
      (p := fun c => c == ' ' || c == '\t' || c == '\r') (l := before)
    have blanks : ∀ c ∈ (before.takeWhile fun c => c == ' ' || c == '\t' || c == '\r').reverse,
        c = ' ' ∨ c = '\t' ∨ c = '\r' := by
      intro c mem
      simpa [or_assoc] using List.all_eq_true.mp List.all_takeWhile c (List.mem_reverse.mp mem)
    generalize (before.takeWhile fun c => c == ' ' || c == '\t' || c == '\r') = inner
      at blankParted blanks
    split at setOff
    · next emptied =>
      rw [emptied, List.append_nil] at blankParted
      refine ⟨[], inner.reverse, front.reverse, none, blanks, spaces, suffix, ?_⟩
      rw [above_eq, ← blankParted]
      simp
    · next last lastEq =>
      rw [lastEq] at blankParted
      have noSlash : last.head? ≠ some '\\' := by simpa using setOff
      refine ⟨last.reverse ++ ['\n'], inner.reverse, front.reverse, closed_reverse noSlash, blanks,
        spaces, suffix, ?_⟩
      rw [above_eq, ← blankParted]
      simp
    · cases setOff
  · cases setOff

/-- Two texts that begin with the same character behind an empty line make a seam. -/
theorem exists_seam {above old new : List Char} (setOff : endsSetOff above)
    (starts : ∃ c back behind, old = c :: back ∧ new = c :: behind ∧ isWhite c = false ∧ c ≠ '>') :
    ∃ seam : Markdown.Seam, seam.old = old ∧ seam.new = new ∧ seam.Ahead (above ++ seam.old) := by
  rcases exists_lines_of_endsSetOff setOff with
    ⟨lines, blanks, indent, closed, blank, spaces, indent_suffix, suffix⟩
  refine ⟨⟨lines, blanks, indent, old, new, closed, blank, spaces, starts⟩, rfl, rfl, ?_, ?_⟩
  · rcases suffix with ⟨front, lines_eq⟩
    refine ⟨front, ?_⟩
    rw [← List.append_assoc, lines_eq]
    simp [Seam.source]
  · rw [Seam.edge, List.length_append]
    exact Nat.add_le_add_right indent_suffix.length_le _

/-! ## Pieces that turn into paragraphs -/

/-- The piece turns into a sole paragraph that shows the same, with the same blanks behind it. -/
structure Turns (piece : Piece) : Prop where
  after_eq : piece.after = trimEnd piece.after ++ blankTail piece.before
  tight : Tight (trimEnd piece.after)
  sole : isSoleParagraph (trimEnd piece.after)
  shown : piece.after.filter isVisible = piece.before.filter isVisible

section Turns

variable {piece : Piece} {above behind back newBack : List Char}

theorem Turns.shown_trimEnd (turns : Turns piece) :
    (trimEnd piece.before).filter isVisible = (trimEnd piece.after).filter isVisible := by
  rw [filter_trimEnd, filter_trimEnd, turns.shown]

theorem Turns.tight_before (turns : Turns piece) (starts : startsBlank piece.before = false) :
    Tight (trimEnd piece.before) := by
  have nonempty : trimEnd piece.before ≠ [] := by
    intro empty
    have shown := turns.shown_trimEnd
    have first := head?_filter_visible turns.tight.starts
    rw [empty] at shown
    rw [← shown, List.filter_nil, List.head?_nil, eq_comm, List.head?_eq_none_iff] at first
    exact turns.tight.nonempty first
  refine ⟨nonempty, ?_, endsBlank_trimEnd piece.before⟩
  rwa [← trimEnd_append_blankTail piece.before, startsBlank_append nonempty] at starts

theorem Turns.alone (turns : Turns piece) (stands : StandsAlone above piece behind) :
    Alone (trimEnd piece.after) := by
  refine alone_of_sole turns.tight turns.sole ?_ fun colon => ?_
  · rw [← getLast?_filter_visible (endsBlank_trimEnd piece.after), ← turns.shown_trimEnd,
      getLast?_filter_visible (endsBlank_trimEnd piece.before)]
    exact stands.noSlash
  · apply stands.apart
    rw [turns.after_eq]
    exact colon.trans (List.prefix_append _ _).isInfix

/-- A paragraph of one character does not change. -/
theorem Turns.two_le (turns : Turns piece) (starts : startsBlank piece.before = false)
    (changed : piece.after ≠ piece.before) :
    2 ≤ (trimEnd piece.before).length ∧ 2 ≤ (trimEnd piece.after).length := by
  have differ : trimEnd piece.before ≠ trimEnd piece.after := by
    intro same
    apply changed
    rw [turns.after_eq, ← same, trimEnd_append_blankTail]
  have tight := turns.tight_before starts
  constructor
  · by_contra short
    exact differ (eq_of_filter_visible tight turns.tight turns.shown_trimEnd (by omega))
  · by_contra short
    exact differ (eq_of_filter_visible turns.tight tight turns.shown_trimEnd.symm (by omega)).symm

/-- A piece that changes begins as before. -/
theorem Turns.exists_head (turns : Turns piece) (stands : StandsAlone above piece behind)
    (back newBack : List Char) :
    ∃ c rest newRest, piece.before ++ back = c :: rest ∧ piece.after ++ newBack = c :: newRest ∧
      isWhite c = false ∧ c ≠ '>' := by
  have tight := turns.tight_before stands.starts
  have alone := turns.alone stands
  have before_eq := trimEnd_append_blankTail piece.before
  have after_eq := turns.after_eq
  have heads : (trimEnd piece.before).head? = (trimEnd piece.after).head? := by
    rw [← head?_filter_visible tight.starts, turns.shown_trimEnd,
      head?_filter_visible turns.tight.starts]
  rcases List.exists_cons_of_ne_nil tight.nonempty with ⟨c, rest, old_eq⟩
  rcases List.exists_cons_of_ne_nil turns.tight.nonempty with ⟨d, newRest, new_eq⟩
  have visible : isBlank c = false := by simpa [startsBlank, old_eq] using tight.starts
  have noQuote := alone.noQuote
  rw [old_eq] at before_eq heads
  rw [new_eq] at after_eq heads noQuote
  obtain rfl : c = d := by simpa using heads
  refine ⟨c, rest ++ (blankTail piece.before ++ back), newRest ++ (blankTail piece.before ++ newBack),
    ?_, ?_, isWhite_of_visible visible, by simpa using noQuote⟩
  · conv_lhs => rw [← before_eq]
    simp
  · rw [after_eq]
    simp

end Turns

/-! ## What stands behind -/

theorem isEmptyLine_append_of_imp {front back other : List Char}
    (empties : isEmptyLine back → isEmptyLine other) (empty : isEmptyLine (front ++ back)) :
    isEmptyLine (front ++ other) := by
  induction front with
  | nil => exact empties empty
  | cons c front ih =>
    rw [List.cons_append] at empty ⊢
    by_cases blank : c = ' ' ∨ c = '\t'
    · rw [isEmptyLine_cons blank] at empty ⊢
      exact ih empty
    · rw [not_or] at blank
      rw [isEmptyLine_of_other blank.1 blank.2] at empty ⊢
      exact empty

section Behind

variable {above rest : List Char} {pieces : List Piece}

/-- A line that is empty stays so. -/
theorem isEmptyLine_textOf (setOff : SetOff above pieces rest)
    (turns : ∀ piece ∈ pieces, piece.after ≠ piece.before → Turns piece)
    (empty : isEmptyLine (textOf Piece.before pieces rest)) :
    isEmptyLine (textOf Piece.after pieces rest) := by
  induction pieces generalizing above with
  | nil => exact empty
  | cons piece pieces ih =>
    rw [List.forall_mem_cons] at turns
    rw [textOf_cons] at empty ⊢
    refine isEmptyLine_append_of_imp (fun empty => ?_) empty
    by_cases same : piece.after = piece.before
    · rw [SetOff, if_pos same] at setOff
      rw [same]
      exact isEmptyLine_append_of_imp (ih setOff turns.2) empty
    · rw [SetOff, if_neg same] at setOff
      rcases (turns.1 same).exists_head setOff.1 (textOf Piece.before pieces rest) [] with
        ⟨c, behind, _, begins, _, solid, _⟩
      rw [begins] at empty
      have blank := isBlankLine_of_isEmptyLine empty
      rw [isBlankLine_of_head rfl solid] at blank
      cases blank

/-- Where nothing is left of the document, nothing is left of the new one. -/
theorem textOf_eq_nil (turns : ∀ piece ∈ pieces, piece.after ≠ piece.before → Turns piece)
    (ended : textOf Piece.before pieces rest = []) : textOf Piece.after pieces rest = [] := by
  induction pieces with
  | nil => exact ended
  | cons piece pieces ih =>
    rw [List.forall_mem_cons] at turns
    rw [textOf_cons, List.append_eq_nil_iff, List.append_eq_nil_iff] at ended ⊢
    rcases ended with ⟨noGap, noText, ended⟩
    refine ⟨noGap, ?_, ih turns.2 ended⟩
    by_contra filled
    have changed : piece.after ≠ piece.before := fun same => filled (same.trans noText)
    have tight := (turns.1 changed).tight_before (by rw [noText]; rfl)
    rw [noText] at tight
    exact tight.nonempty rfl

end Behind

end Refill.Document
