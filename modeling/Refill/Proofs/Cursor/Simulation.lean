import Refill.Proofs.Cursor.Passage
import Refill.Proofs.Text.Encoding

/-!
# Cursors on bytes and on characters

A cursor counts in bytes, and some of what it does is a comparison of bytes. It can be told in two
other ways: on bytes alone (`onBytes`), and on characters alone, by a text that is parted at the
place (`Does`). Bytes and cursor agree at every offset (`onBytes_perform`), and at a boundary
both do what is done on characters, through any sequence of operations
(`performAll_simulates`).
-/

namespace Refill.Cursor

open Text

/-- What a cursor can be asked for, and how it can be moved. -/
inductive Operation where
  | peek
  | next
  | startsWith (pattern : List Char)
  | startsWithIgnoringCase (pattern : List Char)
  | skipRun (c : Char)
  | skipWhile (holds : Char → Bool)
  /-- To the next occurrence, or to the end if there is none. -/
  | skipTo (c : Char)

inductive Answer where
  | character (found : Option Char)
  | truth (holds : Bool)
  | count (length : Nat)
  | nothing

variable {text : List Char}

/-- The answer, and where the cursor stands then. -/
def perform (cursor : Cursor text) : Operation → Answer × Cursor text
  | .peek => (.character cursor.peek, cursor)
  | .next => (.character cursor.peek, cursor.next)
  | .startsWith pattern => (.truth (cursor.startsWith pattern), cursor)
  | .startsWithIgnoringCase pattern => (.truth (cursor.startsWithIgnoringCase pattern), cursor)
  | .skipRun c => (.count (cursor.runLength c), cursor.skipRun c)
  | .skipWhile holds => (.nothing, cursor.skipWhile holds)
  | .skipTo c =>
      match cursor.find c with
      | some found => (.truth true, found)
      | none => (.truth false, finish text)

def performAll (cursor : Cursor text) : List Operation → List Answer × Cursor text
  | [] => ([], cursor)
  | operation :: operations =>
      let done := cursor.perform operation
      let later := done.2.performAll operations
      (done.1 :: later.1, later.2)

/-! ## On bytes -/

theorem length_drop_lt_of_firstChar {bytes : List UInt8} {offset : Nat} {c : Char}
    (found : firstChar? (bytesFrom bytes offset) = some c) :
    bytes.length - (offset + c.utf8Size) < bytes.length - offset := by
  have size_le := ByteArray.le_size_of_utf8DecodeChar?_eq_some found
  have positive := c.utf8Size_pos
  have left : (bytesFrom bytes offset).length ≤ bytes.length - offset := by
    unfold bytesFrom
    split <;> simp
  rw [List.size_toByteArray] at size_le
  omega

/-- The run of characters from the offset on that satisfy the predicate: their number, and the offset
behind them. -/
def runOnBytes (holds : Char → Bool) (bytes : List UInt8) (offset : Nat) : Nat × Nat :=
  match found : firstChar? (bytesFrom bytes offset) with
  | none => (0, offset)
  | some c =>
      if holds c then
        let later := runOnBytes holds bytes (offset + c.utf8Size)
        (later.1 + 1, later.2)
      else (0, offset)
termination_by bytes.length - offset
decreasing_by exact length_drop_lt_of_firstChar found

/-- The answer, and the offset after the operation. -/
def onBytes (bytes : List UInt8) (offset : Nat) : Operation → Answer × Nat
  | .peek => (.character (firstChar? (bytesFrom bytes offset)), offset)
  | .next =>
      let found := firstChar? (bytesFrom bytes offset)
      (.character found, offset + found.elim 0 Char.utf8Size)
  | .startsWith pattern => (.truth ((encode pattern).isPrefixOf (bytesFrom bytes offset)), offset)
  | .startsWithIgnoringCase pattern =>
      (.truth (startsIgnoringCase (encode pattern) (bytesFrom bytes offset)), offset)
  | .skipRun c =>
      let run := runOnBytes (· == c) bytes offset
      (.count run.1, run.2)
  | .skipWhile holds => (.nothing, (runOnBytes holds bytes offset).2)
  | .skipTo c =>
      match offsetOf? (encode [c]) (bytesFrom bytes offset) with
      | some count => (.truth true, offset + count)
      | none => (.truth false, bytes.length)

def allOnBytes (bytes : List UInt8) (offset : Nat) : List Operation → List Answer × Nat
  | [] => ([], offset)
  | operation :: operations =>
      let done := onBytes bytes offset operation
      let later := allOnBytes bytes done.2 operations
      (done.1 :: later.1, later.2)

theorem bytesFrom_offset (cursor : Cursor text) :
    bytesFrom (encode text) cursor.offset = encode cursor.rest := by
  rw [bytesFrom_encode, cursor.rest_eq]

theorem runOnBytes_eq (cursor : Cursor text) (holds : Char → Bool) :
    runOnBytes holds (encode text) cursor.offset =
      ((cursor.rest.takeWhile holds).length, (cursor.skipWhile holds).offset) := by
  induction rest_eq : cursor.rest generalizing cursor with
  | nil =>
    unfold runOnBytes
    split
    · simp [skipWhile, pass, rest_eq]
    next d found =>
      rw [bytesFrom_offset, firstChar_encode, rest_eq] at found
      cases found
  | cons c rest ih =>
    have later := ih (cursor.pass [c] rest rest_eq) rfl
    unfold runOnBytes
    split
    next none_eq =>
      rw [bytesFrom_offset, firstChar_encode, rest_eq] at none_eq
      cases none_eq
    next d found =>
      rw [bytesFrom_offset, firstChar_encode, rest_eq] at found
      cases found
      simp only [pass, byteLength_cons, byteLength_nil, Nat.add_zero] at later
      cases satisfied : holds c with
      | true => simp [later, skipWhile, pass, rest_eq, satisfied, Nat.add_assoc]
      | false => simp [skipWhile, pass, rest_eq, satisfied]

theorem next_of_rest_eq_nil {cursor : Cursor text} (empty : cursor.rest = []) :
    cursor.next = cursor := by
  unfold next
  split
  · rfl
  next c rest rest_eq =>
    rw [empty] at rest_eq
    cases rest_eq

theorem startsWithIgnoringCase_iff_starts {cursor : Cursor text} {pattern : List Char} :
    cursor.startsWithIgnoringCase pattern ↔
      pattern.map Char.toLower <+: cursor.rest.map Char.toLower := by
  rw [startsWithIgnoringCase, beq_iff_eq, List.prefix_iff_eq_take, List.length_map, ← List.map_take,
    eq_comm]

theorem onBytes_perform (cursor : Cursor text) (operation : Operation) :
    onBytes (encode text) cursor.offset operation =
      ((cursor.perform operation).1, (cursor.perform operation).2.offset) := by
  have left := cursor.bytesFrom_offset
  cases operation with
  | peek => simp only [onBytes, perform, left, firstChar_encode, peek]
  | next =>
    have offset_eq : cursor.offset + cursor.rest.head?.elim 0 Char.utf8Size = cursor.next.offset := by
      cases rest_eq : cursor.rest with
      | nil => rw [next_of_rest_eq_nil rest_eq]; rfl
      | cons c rest => simp [(passes_next rest_eq).offset_eq]
    simp only [onBytes, perform, left, firstChar_encode, peek, offset_eq]
  | startsWith pattern =>
    have same : (encode pattern).isPrefixOf (encode cursor.rest) = cursor.startsWith pattern := by
      rw [Bool.eq_iff_iff, List.isPrefixOf_iff_prefix, encode_prefix_iff, startsWith,
        List.isPrefixOf_iff_prefix]
    simp only [onBytes, perform, left, same]
  | startsWithIgnoringCase pattern =>
    have same : startsIgnoringCase (encode pattern) (encode cursor.rest) =
        cursor.startsWithIgnoringCase pattern := by
      rw [Bool.eq_iff_iff, startsIgnoringCase_encode, startsWithIgnoringCase_iff_starts]
    simp only [onBytes, perform, left, same]
  | skipRun c =>
    simp only [onBytes, perform, runOnBytes_eq]
    rfl
  | skipWhile holds => simp only [onBytes, perform, runOnBytes_eq]
  | skipTo c =>
    simp only [onBytes, perform, left, offsetOf_encode]
    cases find_eq : cursor.find c with
    | none =>
      rw [if_neg (find_eq_none_iff.mp find_eq)]
      simp [finish, seek]
    | some found =>
      have mem : c ∈ cursor.rest := by
        by_contra missing
        rw [find_eq_none_iff.mpr missing] at find_eq
        cases find_eq
      rw [if_pos mem, (passes_find find_eq).offset_eq]

theorem allOnBytes_performAll (cursor : Cursor text) (operations : List Operation) :
    allOnBytes (encode text) cursor.offset operations =
      ((cursor.performAll operations).1, (cursor.performAll operations).2.offset) := by
  induction operations generalizing cursor with
  | nil => rfl
  | cons operation operations ih => simp only [allOnBytes, performAll, onBytes_perform, ih]

/-! ## On characters -/

/-- A text parted at a place. -/
structure Parting where
  before : List Char
  behind : List Char

/-- What an operation does on characters. -/
inductive Does : Operation → Parting → Answer → Parting → Prop
  | peek (before behind : List Char) :
      Does .peek ⟨before, behind⟩ (.character behind.head?) ⟨before, behind⟩
  | next (before : List Char) (c : Char) (rest : List Char) :
      Does .next ⟨before, c :: rest⟩ (.character (some c)) ⟨before ++ [c], rest⟩
  | nextAtEnd (before : List Char) : Does .next ⟨before, []⟩ (.character none) ⟨before, []⟩
  | startsWith {before behind pattern : List Char} {holds : Bool}
      (holds_iff : holds ↔ pattern <+: behind) :
      Does (.startsWith pattern) ⟨before, behind⟩ (.truth holds) ⟨before, behind⟩
  | startsWithIgnoringCase {before behind pattern : List Char} {holds : Bool}
      (holds_iff : holds ↔ pattern.map Char.toLower <+: behind.map Char.toLower) :
      Does (.startsWithIgnoringCase pattern) ⟨before, behind⟩ (.truth holds) ⟨before, behind⟩
  | skipRun {before rest : List Char} {c : Char} {count : Nat} (stops : rest.head? ≠ some c) :
      Does (.skipRun c) ⟨before, List.replicate count c ++ rest⟩ (.count count)
        ⟨before ++ List.replicate count c, rest⟩
  | skipWhile {before front rest : List Char} {holds : Char → Bool} (all : ∀ c ∈ front, holds c)
      (stops : StopsAt holds rest) :
      Does (.skipWhile holds) ⟨before, front ++ rest⟩ .nothing ⟨before ++ front, rest⟩
  | skipTo {before front rest : List Char} {c : Char} (first : c ∉ front) :
      Does (.skipTo c) ⟨before, front ++ c :: rest⟩ (.truth true) ⟨before ++ front, c :: rest⟩
  | skipToEnd {before behind : List Char} {c : Char} (missing : c ∉ behind) :
      Does (.skipTo c) ⟨before, behind⟩ (.truth false) ⟨before ++ behind, []⟩

/-- What operations do one after the other. -/
inductive DoesAll : List Operation → Parting → List Answer → Parting → Prop
  | nil (parting : Parting) : DoesAll [] parting [] parting
  | cons {operation : Operation} {operations : List Operation} {first second last : Parting}
      {answer : Answer} {answers : List Answer} (does : Does operation first answer second)
      (later : DoesAll operations second answers last) :
      DoesAll (operation :: operations) first (answer :: answers) last

/-- The cursor stands where the text is parted. -/
structure Marks (parting : Parting) (cursor : Cursor text) : Prop where
  text_eq : text = parting.before ++ parting.behind
  offset_eq : cursor.offset = byteLength parting.before

namespace Marks

variable {parting : Parting} {cursor next : Cursor text}

theorem rest_eq (marks : Marks parting cursor) : cursor.rest = parting.behind := by
  rw [cursor.rest_eq, marks.offset_eq, marks.text_eq, dropBytes_append]

/-- A passage moves the place over the characters between. -/
theorem passes (marks : Marks parting cursor) {front : List Char}
    (passes : cursor.Passes front next) : Marks ⟨parting.before ++ front, next.rest⟩ next where
  text_eq := by
    rw [List.append_assoc, ← passes.rest_eq, marks.rest_eq]
    exact marks.text_eq
  offset_eq := by rw [passes.offset_eq, marks.offset_eq, byteLength_append]

end Marks

/-- At a boundary one operation does what it does on characters. -/
theorem perform_does {parting : Parting} {cursor : Cursor text} (marks : Marks parting cursor)
    (operation : Operation) :
    ∃ later, Does operation parting (cursor.perform operation).1 later ∧
      Marks later (cursor.perform operation).2 := by
  have rest_eq := marks.rest_eq
  rcases parting with ⟨before, behind⟩
  cases operation with
  | peek =>
    refine ⟨_, ?_, marks⟩
    simp only [perform, peek, rest_eq]
    exact .peek before behind
  | next =>
    cases behind with
    | nil =>
      have peek_eq : cursor.peek = none := by rw [Cursor.peek, rest_eq]; rfl
      simp only [perform, peek_eq, next_of_rest_eq_nil rest_eq]
      exact ⟨_, .nextAtEnd before, marks⟩
    | cons c rest =>
      have peek_eq : cursor.peek = some c := by rw [Cursor.peek, rest_eq]; rfl
      have moved := marks.passes (passes_next rest_eq)
      rw [rest_next rest_eq] at moved
      simp only [perform, peek_eq]
      exact ⟨_, .next before c rest, moved⟩
  | startsWith pattern =>
    refine ⟨_, .startsWith ?_, marks⟩
    rw [startsWith, List.isPrefixOf_iff_prefix, rest_eq]
  | startsWithIgnoringCase pattern =>
    refine ⟨_, .startsWithIgnoringCase ?_, marks⟩
    rw [startsWithIgnoringCase_iff_starts, rest_eq]
  | skipRun c =>
    have front_eq : behind.takeWhile (· == c) = List.replicate (cursor.runLength c) c := by
      rw [runLength, rest_eq]
      exact List.eq_replicate_of_mem fun d mem => by simpa using holds_of_mem_takeWhile mem
    have stops : (behind.dropWhile (· == c)).head? ≠ some c := by
      intro head_eq
      simpa using stopsAt_dropWhile (· == c) behind c head_eq
    have moved := marks.passes (cursor.passes_skipWhile (· == c))
    have does : Does (.skipRun c)
        ⟨before, List.replicate (cursor.runLength c) c ++ behind.dropWhile (· == c)⟩
        (.count (cursor.runLength c)) _ := .skipRun stops
    rw [← front_eq, List.takeWhile_append_dropWhile] at does
    rw [rest_skipWhile, rest_eq] at moved
    exact ⟨_, does, moved⟩
  | skipWhile holds =>
    have does : Does (.skipWhile holds) ⟨before, behind.takeWhile holds ++ behind.dropWhile holds⟩
        .nothing _ := .skipWhile (fun c => holds_of_mem_takeWhile) (stopsAt_dropWhile holds behind)
    have moved := marks.passes (cursor.passes_skipWhile holds)
    rw [List.takeWhile_append_dropWhile] at does
    rw [rest_skipWhile, rest_eq] at moved
    exact ⟨_, does, moved⟩
  | skipTo c =>
    simp only [perform]
    cases find_eq : cursor.find c with
    | none =>
      have missing := find_eq_none_iff.mp find_eq
      rw [rest_eq] at missing
      refine ⟨_, .skipToEnd missing, ?_, ?_⟩
      · rw [List.append_nil]
        exact marks.text_eq
      · rw [finish, seek, marks.text_eq]
    | some found =>
      have passes := passes_find find_eq
      rcases List.head?_eq_some_iff.mp (peek_of_find find_eq) with ⟨later, found_rest⟩
      have first : c ∉ cursor.rest.takeWhile (· != c) := by
        intro mem
        simpa using holds_of_mem_takeWhile mem
      have moved := marks.passes passes
      have does : Does (.skipTo c) ⟨before, cursor.rest.takeWhile (· != c) ++ c :: later⟩
          (.truth true) _ := .skipTo first
      rw [← found_rest, ← passes.rest_eq, rest_eq] at does
      rw [rest_eq] at moved
      exact ⟨_, does, moved⟩

/-- At a boundary all operations do what they do on characters, and the cursor stands at a boundary
after each of them. -/
theorem performAll_does {parting : Parting} {cursor : Cursor text} (marks : Marks parting cursor)
    (operations : List Operation) :
    ∃ last, DoesAll operations parting (cursor.performAll operations).1 last ∧
      Marks last (cursor.performAll operations).2 := by
  induction operations generalizing parting cursor with
  | nil => exact ⟨parting, .nil parting, marks⟩
  | cons operation operations ih =>
    rcases perform_does marks operation with ⟨second, does, moved⟩
    rcases ih moved with ⟨last, later, reached⟩
    exact ⟨last, .cons does later, reached⟩

/-- From any boundary, through any sequence of operations, the cursor answers and moves as it would
on a list of characters, and as it would on the bytes of the text. It then stands at a boundary
again, whose offset is the length in bytes of what lies before it. -/
theorem performAll_simulates (before behind : List Char) (operations : List Operation) :
    let done := (seek (before ++ behind) (byteLength before)).performAll operations
    ∃ last : Parting,
      DoesAll operations ⟨before, behind⟩ done.1 last ∧
        before ++ behind = last.before ++ last.behind ∧
        done.2.offset = byteLength last.before ∧ done.2.rest = last.behind ∧
        allOnBytes (encode (before ++ behind)) (byteLength before) operations =
          (done.1, byteLength last.before) := by
  intro done
  have marks : Marks ⟨before, behind⟩ (seek (before ++ behind) (byteLength before)) := ⟨rfl, rfl⟩
  rcases performAll_does marks operations with ⟨last, does, reached⟩
  refine ⟨last, does, reached.text_eq, reached.offset_eq, reached.rest_eq, ?_⟩
  rw [← reached.offset_eq]
  exact allOnBytes_performAll (seek (before ++ behind) (byteLength before)) operations

end Refill.Cursor
