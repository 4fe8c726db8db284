import Mathlib.Data.List.Basic
import Refill.Construct.BreakTag
import Refill.Proofs.Construct.Grammar

/-!
# The grammar of break tags

A break tag is `<br`, in upper or lower case, then nothing, a slash, or a space and a
slash, then `>`. Wherever it stands it is a tag, whatever comes before or behind it, so
text is idle if no tag begins in it. The scanner reads this grammar (`reads_scanner`).
-/

namespace Refill

open Text

namespace BreakTag

variable {text : List Char}

/-! ## Tags -/

/-- What may stand between the name of a tag and its end. -/
def slashes : List (List Char) :=
  [[], ['/'], [' ', '/']]

/-- The text is `<br`, upper and lower case being alike. -/
def IsName (name : List Char) : Prop :=
  name.map Char.toLower = ['<', 'b', 'r']

/-- The text is a break tag. -/
def IsTag (tag : List Char) : Prop :=
  ∃ name slash, IsName name ∧ slash ∈ slashes ∧ tag = name ++ (slash ++ ['>'])

/-- A break tag stands at the front of the text. -/
def Begins (text : List Char) : Prop :=
  ∃ tag later, IsTag tag ∧ text = tag ++ later

def grammar : Grammar where
  Stands construct _ := ∃ tag, construct = .breakTag tag ∧ IsTag tag
  Idle := Nowhere Begins
  idle_nil _ := trivial
  source_ne_nil := by
    rintro _ _ ⟨_, rfl, name, slash, _, _, rfl⟩
    simp [Construct.source]

theorem utf8Size_of_toLower {c : Char} (single : c.toLower.utf8Size = 1) : c.utf8Size = 1 := by
  unfold Char.toLower at single
  split at single
  next upper =>
    rw [Char.utf8Size_eq_one_iff]
    exact UInt32.le_trans upper.2 (by decide)
  · exact single

theorem eq_or_upper_of_toLower {c d : Char} (lower : c.toLower = d) :
    c = d ∨ 65 ≤ c.toNat ∧ c.toNat + 32 = d.toNat := by
  unfold Char.toLower at lower
  split at lower
  next upper =>
    right
    have sum := congrArg (fun e : Char => e.val.toNat) lower
    have below := UInt32.le_iff_toNat_le.mp upper.1
    have above := UInt32.le_iff_toNat_le.mp upper.2
    simp only [UInt32.toNat_add, UInt32.toNat_sub] at sum
    simp at sum below above
    omega
  · exact Or.inl lower

/-- The bracket is neither an upper nor a lower case letter. -/
theorem eq_of_toLower {c : Char} (lower : c.toLower = '<') : c = '<' := by
  rcases eq_or_upper_of_toLower lower with same | ⟨below, sum⟩
  · exact same
  · simp at sum
    omega

theorem IsName.length_eq {name : List Char} (isName : IsName name) : name.length = 3 := by
  simpa using congrArg List.length isName

theorem IsName.exists_chars {name : List Char} (isName : IsName name) :
    ∃ second third, name = ['<', second, third] ∧ second.toLower = 'b' ∧
      third.toLower = 'r' := by
  rcases List.length_eq_three.mp isName.length_eq with ⟨first, second, third, rfl⟩
  simp only [IsName, List.map_cons, List.map_nil, List.cons.injEq, and_true] at isName
  rcases isName with ⟨first_eq, second_eq, third_eq⟩
  rw [eq_of_toLower first_eq]
  exact ⟨second, third, rfl, second_eq, third_eq⟩

theorem IsName.byteLength_eq {name : List Char} (isName : IsName name) : byteLength name = 3 := by
  rcases isName.exists_chars with ⟨second, third, rfl, second_eq, third_eq⟩
  have firstSize : '<'.utf8Size = 1 := by decide
  have secondSize : second.utf8Size = 1 := utf8Size_of_toLower (by rw [second_eq]; decide)
  have thirdSize : third.utf8Size = 1 := utf8Size_of_toLower (by rw [third_eq]; decide)
  simp [firstSize, secondSize, thirdSize]

/-! ## The scanner -/

section Scanner

variable {cursor : Cursor text} {name slash later : List Char}

theorem startsWithIgnoringCase_iff :
    cursor.startsWithIgnoringCase ['<', 'b', 'r'] ↔
      ∃ name later, IsName name ∧ cursor.rest = name ++ later := by
  have lower : ['<', 'b', 'r'].map Char.toLower = ['<', 'b', 'r'] := by decide
  simp only [Cursor.startsWithIgnoringCase, lower, beq_iff_eq]
  constructor
  · intro name_eq
    exact ⟨_, _, name_eq, (List.take_append_drop 3 cursor.rest).symm⟩
  · rintro ⟨name, later, isName, rest_eq⟩
    rw [rest_eq, show ['<', 'b', 'r'].length = name.length from isName.length_eq.symm,
      List.take_left']
    · exact isName
    · rfl

/-- A slash before the end of a tag is passed over, and nothing else. -/
theorem exists_slash (cursor : Cursor text) :
    ∃ slash ∈ slashes, cursor.Passes slash (skipSlash cursor) := by
  unfold skipSlash
  split
  next starts =>
    rcases List.isPrefixOf_iff_prefix.mp starts with ⟨rest, rest_eq⟩
    refine ⟨[' ', '/'], by simp [slashes], ?_⟩
    exact Cursor.passes_advance (by simp [← rest_eq]) rest_eq.symm
  · split
    next starts =>
      rcases List.isPrefixOf_iff_prefix.mp starts with ⟨rest, rest_eq⟩
      refine ⟨['/'], by simp [slashes], ?_⟩
      exact Cursor.passes_advance (by simp [← rest_eq]) rest_eq.symm
    · exact ⟨[], by simp [slashes], .refl cursor⟩

theorem rest_skipSlash (mem : slash ∈ slashes) (rest_eq : cursor.rest = slash ++ '>' :: later) :
    (skipSlash cursor).rest = '>' :: later := by
  simp only [slashes, List.mem_cons, List.not_mem_nil, or_false] at mem
  have left : cursor.rest ≠ [] := by simp [rest_eq]
  have passes := Cursor.passes_advance left rest_eq
  have behind := passes.rest_eq
  rw [rest_eq] at behind
  rcases mem with rfl | rfl | rfl
  · simp [skipSlash, Cursor.startsWith, rest_eq]
  · have size : byteLength ['/'] = 1 := by decide
    rw [size] at behind
    simpa [skipSlash, Cursor.startsWith, rest_eq] using (List.append_cancel_left behind).symm
  · have size : byteLength [' ', '/'] = 2 := by decide
    rw [size] at behind
    simpa [skipSlash, Cursor.startsWith, rest_eq] using (List.append_cancel_left behind).symm

theorem isTag_of_look {construct : Construct} {next : Cursor text} {memo : Unit}
    (look_eq : look () cursor = .construct construct next memo) :
    ∃ tag, construct = .breakTag tag ∧ cursor.Passes tag next ∧ IsTag tag := by
  unfold look at look_eq
  split at look_eq
  next starts =>
    rcases startsWithIgnoringCase_iff.mp starts with ⟨name, later, isName, rest_eq⟩
    have left : cursor.rest ≠ [] := by
      intro empty
      have length_eq := isName.length_eq
      simp [(List.append_eq_nil_iff.mp (rest_eq.symm.trans empty)).1] at length_eq
    have toNamed := Cursor.passes_advance left rest_eq
    rw [isName.byteLength_eq] at toNamed
    rcases exists_slash (cursor.advance 3) with ⟨slash, mem, toClosing⟩
    dsimp only at look_eq
    split at look_eq
    next close =>
      rcases List.head?_eq_some_iff.mp close with ⟨behind, closing_eq⟩
      have passes := toNamed.trans (toClosing.trans (Cursor.passes_next closing_eq))
      cases look_eq
      refine ⟨_, rfl, ?_, name, slash, isName, mem, passes.textTo_eq⟩
      rw [passes.textTo_eq]
      exact passes
    · cases look_eq
  · cases look_eq

theorem look_of_isTag {tag : List Char} (isTag : IsTag tag) (rest_eq : cursor.rest = tag ++ later) :
    ∃ next, look () cursor = .construct (.breakTag tag) next () ∧ next.rest = later := by
  rcases isTag with ⟨name, slash, isName, mem, rfl⟩
  have rest_eq' : cursor.rest = name ++ (slash ++ '>' :: later) := by simp [rest_eq]
  have left : cursor.rest ≠ [] := by simp [rest_eq]
  have toNamed := Cursor.passes_advance left rest_eq'
  rw [isName.byteLength_eq] at toNamed
  have named_rest : (cursor.advance 3).rest = slash ++ '>' :: later := by
    have both := toNamed.rest_eq
    rw [rest_eq'] at both
    exact (List.append_cancel_left both).symm
  have closing_rest := rest_skipSlash mem named_rest
  have close : (skipSlash (cursor.advance 3)).peek = some '>' := by
    rw [Cursor.peek, closing_rest]
    rfl
  have starts := startsWithIgnoringCase_iff.mpr ⟨name, _, isName, rest_eq'⟩
  have found : look () cursor =
      .construct (.breakTag (cursor.textTo (skipSlash (cursor.advance 3)).next))
        (skipSlash (cursor.advance 3)).next () := by
    rw [look, if_pos starts]
    exact if_pos close
  have behind := Cursor.rest_next closing_rest
  rcases isTag_of_look found with ⟨again, again_eq, passes, _⟩
  have both := passes.rest_eq
  rw [behind, rest_eq] at both
  rw [List.append_cancel_right both]
  exact ⟨_, found.trans (by rw [again_eq]), behind⟩

theorem next_of_look {next : Cursor text} {memo : Unit}
    (look_eq : look () cursor = .nothing next memo) : next = cursor.next := by
  unfold look at look_eq
  split at look_eq
  · dsimp only at look_eq
    split at look_eq
    · cases look_eq
    · cases look_eq
      rfl
  · cases look_eq
    rfl

theorem look_eq_nothing_iff :
    look () cursor = .nothing cursor.next () ↔ ¬Begins cursor.rest := by
  constructor
  · rintro look_eq ⟨tag, later, isTag, rest_eq⟩
    rcases look_of_isTag isTag rest_eq with ⟨next, found, _⟩
    rw [look_eq] at found
    cases found
  · intro none
    cases look_eq : look () cursor with
    | construct construct next memo =>
      rcases isTag_of_look look_eq with ⟨tag, _, passes, isTag⟩
      exact absurd ⟨tag, _, isTag, passes.rest_eq⟩ none
    | nothing next memo => rw [next_of_look look_eq]

end Scanner

theorem reads_scanner : scanner.Reads grammar (fun _ _ => True) where
  sound_initial _ := trivial
  construct := by
    intro text _ _ cursor next construct _ _ look_eq
    rcases isTag_of_look look_eq with ⟨tag, rfl, passes, isTag⟩
    exact ⟨trivial, passes, tag, rfl, isTag⟩
  nothing := by
    intro text _ _ cursor next _ _ left look_eq
    rcases List.exists_cons_of_ne_nil left with ⟨c, rest, rest_eq⟩
    have next_eq := next_of_look look_eq
    subst next_eq
    have none := look_eq_nothing_iff.mp look_eq
    refine ⟨trivial, [c], Cursor.passes_next rest_eq, ?_⟩
    intro before nowhere
    rw [Cursor.rest_next rest_eq]
    rw [rest_eq] at nowhere none
    exact Nowhere.concat nowhere none
  stands := by
    rintro text _ cursor _ behind _ _ rest_eq ⟨tag, rfl, isTag⟩
    rcases look_of_isTag isTag rest_eq with ⟨next, look_eq, next_rest⟩
    exact ⟨next, (), look_eq, next_rest⟩
  idle := by
    intro text _ cursor idle behind _ _ rest_eq nonempty nowhere
    cases idle with
    | nil => exact absurd rfl nonempty
    | cons c rest =>
      have none : ¬Begins cursor.rest := by
        rw [rest_eq]
        exact nowhere.1
      exact ⟨_, (), [c], rest, look_eq_nothing_iff.mpr none, rfl, Cursor.rest_next rest_eq,
        nowhere.2⟩

end BreakTag

end Refill
