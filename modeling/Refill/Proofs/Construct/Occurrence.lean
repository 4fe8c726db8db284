import Refill.Proofs.Tiling.Cut

/-!
# Constructs at their places

A place in a text is told by the number of characters before it. An occurrence is a construct
between two places, and the tokens of a text follow from the occurrences in it alone: its
constructs give their own tokens, and what stands between two of them gives one token if
anything is left of it after trimming (`tokensAround`). The tokens of a cut are those around
the occurrences of its constructs (`tokensAround_occurrences`), so what a scanner yields can
be told by where it finds its constructs.
-/

namespace Refill

open Text

/-- The characters of the text from one place to another. -/
def Text.stretch (text : List Char) (first last : Nat) : List Char :=
  (text.take last).drop first

/-- Whether a blank stands right before the place. -/
def Text.blankBefore (text : List Char) (place : Nat) : Bool :=
  endsBlank (text.take place)

/-- The token of what stands between two places, without the blanks at its ends; none if that is
nothing. -/
def plainBetween (text : List Char) (first last : Nat) : List Token :=
  let inside := stretch text first last
  if trim inside = [] then []
  else [⟨.plain, trim inside, blankBefore text (first + (leading inside).length)⟩]

/-- A construct in a text: the places where it begins and ends, and its tokens. -/
structure Occurrence where
  start : Nat
  stop : Nat
  tokens : List Token

/-- The tokens of the text from a place on, with the given occurrences behind it. -/
def tokensAround (text : List Char) (place : Nat) : List Occurrence → List Token
  | [] => plainBetween text place text.length
  | next :: later =>
      plainBetween text place next.start ++ next.tokens ++ tokensAround text next.stop later

/-- The occurrences of the constructs in a cut that begins at the place. -/
def Cut.occurrences (place : Nat) : Cut → List Occurrence
  | last _ => []
  | before text construct later =>
      let start := place + text.length
      let stop := start + construct.source.length
      ⟨start, stop, construct.tokens (endsBlank text)⟩ :: later.occurrences stop

/-! ## Stretches -/

section Stretch

variable {front inside : List Char}

theorem stretch_append {text behind : List Char} {first last : Nat}
    (text_eq : text = front ++ inside ++ behind) (first_eq : first = front.length)
    (last_eq : last = first + inside.length) : stretch text first last = inside := by
  subst text_eq last_eq first_eq
  rw [stretch, ← List.length_append, List.take_left, List.drop_left]

theorem blankBefore_append {text behind : List Char} {place : Nat} (text_eq : text = front ++ behind)
    (place_eq : place = front.length) : blankBefore text place = endsBlank front := by
  subst text_eq place_eq
  rw [blankBefore, List.take_left]

theorem getElem?_behind {text behind : List Char} {place : Nat} (text_eq : text = front ++ behind)
    (place_eq : place = front.length) : text[place]? = behind.head? := by
  subst text_eq place_eq
  rw [List.getElem?_append_right (Nat.le_refl _), Nat.sub_self, List.head?_eq_getElem?]

theorem getElem?_inside {text behind : List Char} {place : Nat}
    (text_eq : text = front ++ (inside ++ behind)) (le : front.length ≤ place)
    (lt : place < front.length + inside.length) : ∃ c ∈ inside, text[place]? = some c := by
  have index_lt : place - front.length < inside.length := by omega
  refine ⟨inside[place - front.length], List.getElem_mem index_lt, ?_⟩
  rw [text_eq, List.getElem?_append_right le, List.getElem?_append_left index_lt,
    List.getElem?_eq_getElem index_lt]

/-- Behind a visible character, what comes next tells whether a text ends with a blank. -/
theorem endsBlank_behind (ends : endsBlank front = false) (inside : List Char) :
    endsBlank (front ++ inside) = endsBlank inside := by
  by_cases empty : inside = []
  · subst empty
    rw [List.append_nil, ends]
    rfl
  · exact endsBlank_append empty front

/-- What stands between two places behind a visible character gives the token it gives alone. -/
theorem plainBetween_eq {text behind : List Char} {first last : Nat}
    (ends : endsBlank front = false) (text_eq : text = front ++ inside ++ behind)
    (first_eq : first = front.length) (last_eq : last = first + inside.length) :
    plainBetween text first last = Cut.plainToken inside := by
  have stretch_eq := stretch_append text_eq first_eq last_eq
  have blank_eq : blankBefore text (first + (leading inside).length) = startsBlank inside := by
    have split : inside = leading inside ++ inside.dropWhile isBlank :=
      List.takeWhile_append_dropWhile.symm
    have text_split : text = (front ++ leading inside) ++ (inside.dropWhile isBlank ++ behind) := by
      rw [text_eq, List.append_assoc, List.append_assoc, ← List.append_assoc (leading inside),
        ← split]
    have place_eq : first + (leading inside).length = (front ++ leading inside).length := by
      rw [List.length_append, first_eq]
    rw [blankBefore_append text_split place_eq, endsBlank_behind ends, startsBlank_eq, endsBlank_eq,
      blankTail_of_blank (blank_leading inside)]
  simp only [plainBetween, Cut.plainToken, stretch_eq, blank_eq, List.isEmpty_iff]

end Stretch

/-! ## The tokens of a cut -/

/-- A construct of such a grammar has no blank at its ends. -/
theorem Grammar.Tileable.tight {grammar : Grammar} (tileable : grammar.Tileable)
    {construct : Construct} {later : List Char} (stands : grammar.Stands construct later) :
    Tight construct.source := by
  have sound := tileable stands Blank.nil
  have weave_eq := construct.weave_tiles []
  cases tiles_eq : construct.tiles [] with
  | nil => cases construct <;> cases tiles_eq
  | cons tile tiles =>
    have gap_eq : tile.gap = [] := by cases construct <;> cases tiles_eq <;> rfl
    rw [tiles_eq] at sound weave_eq
    have tight := Tile.tight_weave sound
    rw [Tile.weave_cons, gap_eq, List.nil_append, List.nil_append] at weave_eq
    rwa [weave_eq] at tight

/-- The tokens of a cut are those around the occurrences of its constructs. -/
theorem Cut.tokensAround_occurrences {grammar : Grammar} (tileable : grammar.Tileable) {cut : Cut}
    (fits : cut.Fits grammar) {text front : List Char} (ends : endsBlank front = false)
    (text_eq : text = front ++ cut.source) :
    tokensAround text front.length (cut.occurrences front.length) = cut.tokens := by
  induction cut generalizing front with
  | last inside =>
    have whole : text = front ++ inside ++ [] := by simpa [source] using text_eq
    apply plainBetween_eq ends whole rfl
    rw [text_eq, List.length_append]
    rfl
  | before inside construct later ih =>
    have tight := tileable.tight fits.2.1
    have split : text = front ++ inside ++ (construct.source ++ later.source) := by
      simp [text_eq, source]
    have passed : text = (front ++ inside ++ construct.source) ++ later.source := by
      simp [split]
    have rest := ih fits.2.2 (tight.endsBlank_append_left _) passed
    have first := plainBetween_eq ends split rfl rfl
    rw [List.length_append, List.length_append] at rest
    simp only [occurrences, tokensAround, tokens, first, rest]

end Refill
