import Refill.Construct
import Refill.Proofs.Cursor.Passage
import Refill.Proofs.Text.Trim

/-!
# Grammars of constructs

What a scanner looks for can be said without the scanner. A `Grammar` tells which
constructs stand before which text, and in which texts none begins; a cut fits the
grammar if it has a construct wherever one stands and none anywhere else (`Cut.Fits`).

A scanner reads a grammar if every look agrees with it (`Scanner.Reads`). Then the cut
of a text fits the grammar and holds the whole text (`Reads.fits_cut`, `Reads.source_cut`),
and it is the only cut that does (`Reads.cut_source`): to find the cut of a text it is
enough to know one that fits.
-/

namespace Refill

open Text

/-- The constructs of one kind. -/
structure Grammar where
  /-- The construct is what a text begins with that goes on with the given characters. -/
  Stands : Construct → List Char → Prop
  /-- No construct begins in the text, when the given characters come behind it. -/
  Idle : List Char → List Char → Prop
  idle_nil : ∀ later, Idle [] later
  source_ne_nil : ∀ {construct later}, Stands construct later → construct.source ≠ []

/-! ## Text in which nothing begins -/

/-- At no place of the text does something begin, when the given characters come behind it. -/
def Nowhere (Begins : List Char → Prop) : List Char → List Char → Prop
  | [], _ => True
  | c :: rest, later => ¬Begins (c :: (rest ++ later)) ∧ Nowhere Begins rest later

theorem nowhere_append {Begins : List Char → Prop} {front back later : List Char} :
    Nowhere Begins (front ++ back) later ↔
      Nowhere Begins front (back ++ later) ∧ Nowhere Begins back later := by
  induction front with
  | nil => simp [Nowhere]
  | cons c rest ih => simp [Nowhere, ih, and_assoc]

/-- What begins with a visible character begins nowhere among blanks. -/
theorem nowhere_of_blank {Begins : List Char → Prop} {blanks later : List Char}
    (starts : ∀ {text}, Begins text → startsBlank text = false) (blank : Blank blanks) :
    Nowhere Begins blanks later := by
  induction blanks with
  | nil => trivial
  | cons c rest ih =>
    refine ⟨?_, ih blank.tail⟩
    intro begins
    have visible := starts begins
    simp [startsBlank, blank.head] at visible

theorem Nowhere.concat {Begins : List Char → Prop} {front later : List Char} {c : Char}
    (nowhere : Nowhere Begins front (c :: later)) (none : ¬Begins (c :: later)) :
    Nowhere Begins (front ++ [c]) later :=
  nowhere_append.mpr ⟨nowhere, none, trivial⟩

/-! ## Cuts that fit -/

namespace Cut

variable {grammar : Grammar}

/-- The constructs of the cut stand where it has them, and no others begin between them. -/
def Fits (grammar : Grammar) : Cut → Prop
  | last text => grammar.Idle text []
  | before text construct later =>
      grammar.Idle text (construct.source ++ later.source) ∧
        grammar.Stands construct later.source ∧ later.Fits grammar

def prepend (front : List Char) : Cut → Cut
  | last text => last (front ++ text)
  | before text construct later => before (front ++ text) construct later

@[simp]
theorem prepend_nil (cut : Cut) : cut.prepend [] = cut := by
  cases cut <;> rfl

theorem prepend_prepend (front back : List Char) (cut : Cut) :
    (cut.prepend back).prepend front = cut.prepend (front ++ back) := by
  cases cut <;> simp [prepend]

def head : Cut → List Char
  | last text => text
  | before text _ _ => text

def behind : Cut → List Char
  | last _ => []
  | before _ construct later => construct.source ++ later.source

theorem source_eq (cut : Cut) : cut.source = cut.head ++ cut.behind := by
  cases cut <;> simp [source, head, behind]

theorem Fits.idle_head {cut : Cut} (fits : cut.Fits grammar) :
    grammar.Idle cut.head cut.behind := by
  cases cut with
  | last text => exact fits
  | before text construct later => exact fits.1

/-- A front of the text before the first construct can be taken away. -/
theorem Fits.exists_prepend {cut : Cut} {front back : List Char} (fits : cut.Fits grammar)
    (head_eq : cut.head = front ++ back) (idle : grammar.Idle back cut.behind) :
    ∃ shorter : Cut, cut = shorter.prepend front ∧ shorter.Fits grammar ∧
      shorter.source = back ++ cut.behind := by
  cases cut with
  | last text =>
    simp only [head] at head_eq
    exact ⟨last back, by simp [prepend, head_eq], idle, by simp [source, behind]⟩
  | before text construct later =>
    simp only [head] at head_eq
    exact ⟨before back construct later, by simp [prepend, head_eq], ⟨idle, fits.2⟩,
      by simp [source, behind]⟩

end Cut

/-! ## Scanners that read a grammar -/

namespace Scanner

variable {scanner : Scanner} {text : List Char}

/-- Every look at a boundary agrees with the grammar, as long as what is remembered is sound. -/
structure Reads (scanner : Scanner) (grammar : Grammar)
    (Sound : ∀ text, scanner.Memo text → Prop) : Prop where
  sound_initial : ∀ text, Sound text (scanner.initial text)
  /-- What is found stands there. -/
  construct : ∀ {text} {memo later : scanner.Memo text} {cursor next : Cursor text} {construct},
    Sound text memo → cursor.IsBoundary →
      scanner.look memo cursor = .construct construct next later →
        Sound text later ∧ cursor.Passes construct.source next ∧
          grammar.Stands construct next.rest
  /-- Nothing begins in what is passed over. -/
  nothing : ∀ {text} {memo later : scanner.Memo text} {cursor next : Cursor text},
    Sound text memo → cursor.IsBoundary → cursor.rest ≠ [] →
      scanner.look memo cursor = .nothing next later →
        Sound text later ∧ ∃ front, cursor.Passes front next ∧
          ∀ before, grammar.Idle before cursor.rest → grammar.Idle (before ++ front) next.rest
  /-- What stands there is found. -/
  stands : ∀ {text} {memo : scanner.Memo text} {cursor : Cursor text} {construct behind},
    Sound text memo → cursor.IsBoundary → cursor.rest = construct.source ++ behind →
      grammar.Stands construct behind →
        ∃ next later, scanner.look memo cursor = .construct construct next later ∧
          next.rest = behind
  /-- Nothing is found in an idle text, and what is passed over does not reach beyond it. -/
  idle : ∀ {text} {memo : scanner.Memo text} {cursor : Cursor text} {idle behind},
    Sound text memo → cursor.IsBoundary → cursor.rest = idle ++ behind → idle ≠ [] →
      grammar.Idle idle behind →
        ∃ next later front back, scanner.look memo cursor = .nothing next later ∧
          idle = front ++ back ∧ next.rest = back ++ behind ∧ grammar.Idle back behind

namespace Reads

variable {grammar : Grammar} {Sound : ∀ text, scanner.Memo text → Prop}

/-- From any place on, the cut fits if no construct began before the place. -/
theorem cutFrom_fits (reads : scanner.Reads grammar Sound) {memo : scanner.Memo text}
    {first cursor : Cursor text} {before : List Char} (sound : Sound text memo)
    (boundary : cursor.IsBoundary) (passes : first.Passes before cursor)
    (idle : grammar.Idle before cursor.rest) :
    (scanner.cutFrom memo first cursor).Fits grammar ∧
      (scanner.cutFrom memo first cursor).source = first.rest := by
  fun_induction Scanner.cutFrom scanner memo first cursor generalizing before with
  | case1 memo first cursor left =>
    rw [passes.textTo_eq]
    rw [left] at idle
    exact ⟨idle, by simp [Cut.source, passes.rest_eq, left]⟩
  | case2 memo first cursor left shorter construct next later look_eq ih =>
    rcases reads.construct sound boundary look_eq with ⟨soundLater, toNext, stands⟩
    rcases ih soundLater (toNext.isBoundary boundary) (.refl next) (grammar.idle_nil _) with
      ⟨fits, source_eq⟩
    rw [passes.textTo_eq]
    simp only [Cut.Fits, Cut.source, source_eq]
    refine ⟨⟨?_, stands, fits⟩, ?_⟩
    · rw [← toNext.rest_eq]
      exact idle
    · rw [passes.rest_eq, toNext.rest_eq, List.append_assoc]
  | case3 memo first cursor left shorter next later look_eq ih =>
    rcases reads.nothing sound boundary left look_eq with ⟨soundLater, front, toNext, passed⟩
    exact ih soundLater (toNext.isBoundary boundary) (passes.trans toNext) (passed before idle)

theorem fits_cut (reads : scanner.Reads grammar Sound) (text : List Char) :
    (scanner.cut text).Fits grammar :=
  (reads.cutFrom_fits (reads.sound_initial text) Cursor.isBoundary_start (.refl _)
    (grammar.idle_nil _)).1

theorem source_cut (reads : scanner.Reads grammar Sound) (text : List Char) :
    (scanner.cut text).source = text :=
  (reads.cutFrom_fits (reads.sound_initial text) Cursor.isBoundary_start (.refl _)
    (grammar.idle_nil _)).2

/-- Where a cut that fits begins with a construct, that is found. -/
theorem exists_construct (reads : scanner.Reads grammar Sound) {memo : scanner.Memo text}
    {cursor : Cursor text} {cut : Cut} (sound : Sound text memo) (boundary : cursor.IsBoundary)
    (left : cursor.rest ≠ []) (fits : cut.Fits grammar) (source_eq : cursor.rest = cut.source)
    (empty : cut.head = []) :
    ∃ construct behind next later, cut = .before [] construct behind ∧
      scanner.look memo cursor = .construct construct next later ∧ next.rest = behind.source := by
  cases cut with
  | last text =>
    have text_eq : text = [] := empty
    exact absurd (by simpa [Cut.source, text_eq] using source_eq) left
  | before text construct behind =>
    have text_eq : text = [] := empty
    subst text_eq
    rcases reads.stands sound boundary source_eq fits.2.1 with ⟨next, later, look_eq, rest_eq⟩
    exact ⟨construct, behind, next, later, rfl, look_eq, rest_eq⟩

/-- Where a cut that fits begins with text, no construct is found, and what is passed over belongs
to that text. -/
theorem exists_nothing (reads : scanner.Reads grammar Sound) {memo : scanner.Memo text}
    {cursor : Cursor text} {cut : Cut} (sound : Sound text memo) (boundary : cursor.IsBoundary)
    (fits : cut.Fits grammar) (source_eq : cursor.rest = cut.source) (nonempty : cut.head ≠ []) :
    ∃ front, ∃ rest : Cut, ∃ next later, cut = rest.prepend front ∧ rest.Fits grammar ∧
      scanner.look memo cursor = .nothing next later ∧ next.rest = rest.source ∧
      cursor.rest = front ++ next.rest := by
  rcases reads.idle sound boundary (source_eq.trans cut.source_eq) nonempty fits.idle_head with
    ⟨next, later, front, back, look_eq, head_eq, rest_eq, idle⟩
  have passed : cursor.rest = front ++ next.rest := by
    rw [source_eq, cut.source_eq, head_eq, rest_eq, List.append_assoc]
  rcases fits.exists_prepend head_eq idle with ⟨rest, rfl, restFits, rest_source⟩
  exact ⟨front, rest, next, later, rfl, restFits, look_eq, rest_eq.trans rest_source.symm, passed⟩

/-- From any place on, the scan yields every cut that fits what is left there. -/
theorem cutFrom_eq (reads : scanner.Reads grammar Sound) {memo : scanner.Memo text}
    {first cursor : Cursor text} {before : List Char} {cut : Cut} (sound : Sound text memo)
    (boundary : cursor.IsBoundary) (passes : first.Passes before cursor)
    (fits : cut.Fits grammar) (source_eq : cursor.rest = cut.source) :
    scanner.cutFrom memo first cursor = cut.prepend before := by
  fun_induction Scanner.cutFrom scanner memo first cursor generalizing before cut with
  | case1 memo first cursor left =>
    rw [passes.textTo_eq]
    rw [left] at source_eq
    cases cut with
    | last text =>
      have empty : text = [] := source_eq.symm
      simp [Cut.prepend, empty]
    | before text construct later =>
      have nonempty := grammar.source_ne_nil fits.2.1
      simp [Cut.source, nonempty] at source_eq
  | case2 memo first cursor left shorter construct next later look_eq ih =>
    by_cases empty : cut.head = []
    · rcases reads.exists_construct sound boundary left fits source_eq empty with
        ⟨other, behind, _, _, rfl, other_eq, rest_eq⟩
      rw [look_eq] at other_eq
      cases other_eq
      rcases reads.construct sound boundary look_eq with ⟨soundLater, toNext, _⟩
      rw [ih soundLater (toNext.isBoundary boundary) (.refl next) fits.2.2 rest_eq,
        Cut.prepend_nil, passes.textTo_eq]
      simp [Cut.prepend]
    · rcases reads.exists_nothing sound boundary fits source_eq empty with
        ⟨_, _, _, _, _, _, other_eq, _⟩
      rw [look_eq] at other_eq
      cases other_eq
  | case3 memo first cursor left shorter next later look_eq ih =>
    by_cases empty : cut.head = []
    · rcases reads.exists_construct sound boundary left fits source_eq empty with
        ⟨_, _, _, _, _, other_eq, _⟩
      rw [look_eq] at other_eq
      cases other_eq
    · rcases reads.exists_nothing sound boundary fits source_eq empty with
        ⟨front, rest, _, _, rfl, restFits, other_eq, rest_eq, passed⟩
      rw [look_eq] at other_eq
      cases other_eq
      rcases reads.nothing sound boundary left look_eq with ⟨soundLater, skipped, toNext, _⟩
      -- The scanner and the cut tell in their own ways what was passed over.
      rw [toNext.rest_eq, List.append_cancel_right_eq] at passed
      subst passed
      rw [Cut.prepend_prepend]
      exact ih soundLater (toNext.isBoundary boundary) (passes.trans toNext) restFits rest_eq

/-- A cut that fits the grammar is the cut of the text it holds. -/
theorem cut_source (reads : scanner.Reads grammar Sound) {cut : Cut}
    (fits : cut.Fits grammar) : scanner.cut cut.source = cut := by
  have same := reads.cutFrom_eq (reads.sound_initial _) Cursor.isBoundary_start (.refl _) fits rfl
  rwa [Cut.prepend_nil] at same

end Reads

end Scanner

end Refill
