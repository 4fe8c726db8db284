import Refill.Proofs.Text.Front
import Refill.Toml.Literal

/-!
# Integers are read back

The decimal digits of a number are read as the number (`read_toDigits`): they begin with no sign, no
mark for a base and, apart from zero itself, no zero.
-/

namespace Refill.Toml

theorem ne_of_holds {holds : Char → Bool} {c other : Char} (here : holds c)
    (fails : holds other = false) : c ≠ other := by
  rintro rfl
  simp [here] at fails

theorem not_mem_of_holds {holds : Char → Bool} {c : Char} {others : List Char} (here : holds c)
    (fails : others.any holds = false) : c ∉ others := by
  intro member
  have absent := List.any_eq_false.mp fails c member
  exact absent here

namespace Literal

variable {text rest : List Char}

theorem isEnd_eq_false_of_isDigit {c : Char} (digit : c.isDigit) : isEnd c = false := by
  simp only [isEnd, List.contains_eq_mem, decide_eq_false_iff_not]
  exact not_mem_of_holds digit rfl

theorem digits_eq_self (filled : text ≠ []) (digital : ∀ c ∈ text, c.isDigit) :
    digits? Char.isDigit text = some text := by
  induction text with
  | nil => exact absurd rfl filled
  | cons c rest ih =>
    rcases List.forall_mem_cons.mp digital with ⟨digit, others⟩
    cases rest with
    | nil => simp [digits?, digit]
    | cons next rest =>
      have separate : next ≠ '_' := ne_of_holds (others next (by simp)) (by decide)
      rw [digits?]
      · simp [digit, ih (by simp) others]
      · simp
      · simp [separate]

/-! ## Decimal digits -/

theorem digital_toDigits (number : Nat) : ∀ c ∈ Nat.toDigits 10 number, c.isDigit :=
  fun _ member => Nat.isDigit_of_mem_toDigits (by decide) (by decide) member

theorem head_toDigits_ne_zero {number : Nat} (positive : 0 < number) :
    (Nat.toDigits 10 number).head? ≠ some '0' := by
  induction number using Nat.strongRecOn with
  | ind number ih =>
    by_cases small : number < 10
    · have nonzero : ∀ digit < 10, 0 < digit → digit.digitChar ≠ '0' := by decide
      simpa [Nat.toDigits_of_lt_base small] using nonzero number small positive
    · have front := ih (number / 10) (by omega) (by omega)
      rw [Nat.toDigits_of_base_le (by decide) (by omega), List.head?_append]
      rcases List.exists_cons_of_ne_nil (Nat.toDigits_ne_nil (n := number / 10) (b := 10)) with
        ⟨first, later, digits_eq⟩
      simpa [digits_eq] using front

theorem wholeDigits_toDigits (number : Nat) :
    wholeDigits? (Nat.toDigits 10 number) = some (Nat.toDigits 10 number) := by
  rw [wholeDigits?, digits_eq_self Nat.toDigits_ne_nil (digital_toDigits number)]
  split
  · next second later digits_eq =>
    rcases Nat.eq_zero_or_pos number with rfl | positive
    · cases digits_eq
    · exact absurd (by simp [Option.some.inj digits_eq]) (head_toDigits_ne_zero positive)
  · rfl

theorem basedInteger_eq_none (digital : ∀ c ∈ text, c.isDigit) : basedInteger? text = none := by
  unfold basedInteger?
  split
  case h_4 => rfl
  all_goals
    have marked := List.forall_mem_cons.mp (List.forall_mem_cons.mp digital).2
    exact absurd marked.1 (by decide)

theorem splitSign_eq_none (digital : ∀ c ∈ text, c.isDigit) : splitSign text = (none, text) := by
  unfold splitSign
  split
  case h_3 => rfl
  all_goals exact absurd (List.forall_mem_cons.mp digital).1 (by decide)

theorem integer_toDigits (number : Nat) : integer? (Nat.toDigits 10 number) = some number := by
  have digital := digital_toDigits number
  rw [integer?, basedInteger_eq_none digital, splitSign_eq_none digital]
  simp [wholeDigits_toDigits, Nat.ofDigitChars_ten_toDigits]

/-! ## Literals -/

theorem value_toDigits {number : Nat} (held : number < Nat.pow 2 128) :
    value? (Nat.toDigits 10 number) = some (.integer number) := by
  have undigital {word : List Char} (letter : ∃ c ∈ word, c.isDigit = false) :
      Nat.toDigits 10 number ≠ word := by
    rintro rfl
    rcases letter with ⟨c, member, letter⟩
    simp [digital_toDigits number c member] at letter
  have fits : isHeld number := by
    have least : -Int.pow 2 127 ≤ 0 := by decide
    have bound : Int.pow 2 128 = (Nat.pow 2 128 : Nat) := by decide
    simp only [isHeld, bound, Bool.and_eq_true, decide_eq_true_eq]
    omega
  rw [value?, if_neg (undigital ⟨'t', by decide⟩), if_neg (undigital ⟨'f', by decide⟩),
    integer_toDigits]
  simp [fits]

/-- A literal of digits reaches up to what ends it; a blank may only go on behind a date. -/
theorem front_digits (digital : ∀ c ∈ text, c.isDigit) {stop : Char} (ends : isEnd stop)
    (unblank : stop ≠ ' ') : front (text ++ stop :: rest) = text := by
  have taken : (text ++ stop :: rest).takeWhile (!isEnd ·) = text := by
    apply Text.takeWhile_front
    · intro c member
      simp [isEnd_eq_false_of_isDigit (digital c member)]
    · exact Text.stopsAt_cons (by simp [ends])
  rw [front, taken, List.drop_left]
  split
  · next later same => exact absurd (List.cons.inj same).1 unblank
  · rfl

theorem read_toDigits {number : Nat} (held : number < Nat.pow 2 128) {stop : Char}
    (ends : isEnd stop) (unblank : stop ≠ ' ') (rest : List Char) :
    read (Nat.toDigits 10 number ++ stop :: rest) = some (.integer number, stop :: rest) := by
  rw [read, front_digits (digital_toDigits number) ends unblank, value_toDigits held,
    List.drop_left]
  rfl

end Literal

end Refill.Toml
