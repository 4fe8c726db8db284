import Mathlib.Data.List.Infix
import Mathlib.Tactic.SplitIfs
import Refill.Text.Bytes

/-!
# Texts in UTF-8

The bytes of a text, and what can be seen of the text in them. A character begins with a byte that
does not continue another one, so a place inside a character can be told from a boundary
(`bytesFrom_encode`), and a character is found in the bytes just where it stands in the text
(`offsetOf_encode`). The bytes of one text begin with those of another just if the texts do
(`encode_prefix_iff`), also when the case of ASCII letters does not count
(`startsIgnoringCase_encode`). Bytes are in the order of the characters (`codes_lt_codes`).
-/

namespace Refill.Text

/-- The bytes of the text in UTF-8. -/
def encode (text : List Char) : List UInt8 :=
  text.flatMap String.utf8EncodeChar

/-- Whether the byte belongs to a character that began before it. -/
def isContinuation (byte : UInt8) : Bool :=
  128 ≤ byte.toNat && byte.toNat < 192

/-- The bytes from the offset on; none if it lies inside a character or beyond the end. -/
def bytesFrom (bytes : List UInt8) (offset : Nat) : List UInt8 :=
  if bytes[offset]?.any isContinuation then [] else bytes.drop offset

/-- The character that the bytes begin with. -/
def firstChar? (bytes : List UInt8) : Option Char :=
  bytes.toByteArray.utf8DecodeChar? 0

/-- The lower case of a byte that is an ASCII letter; any other byte as it is. -/
def lowerByte (byte : UInt8) : UInt8 :=
  if 65 ≤ byte.toNat ∧ byte.toNat ≤ 90 then byte + 32 else byte

/-- Whether the bytes begin with the pattern, upper and lower case ASCII letters being alike. -/
def startsIgnoringCase (pattern bytes : List UInt8) : Bool :=
  pattern.length ≤ bytes.length &&
    (bytes.take pattern.length).map lowerByte == pattern.map lowerByte

/-- The first offset at which the pattern stands. -/
def offsetOf? (pattern : List UInt8) : List UInt8 → Option Nat
  | [] => none
  | byte :: rest =>
      if pattern.isPrefixOf (byte :: rest) then some 0 else (offsetOf? pattern rest).map (· + 1)

@[simp]
theorem encode_nil : encode [] = [] := rfl

theorem encode_cons (c : Char) (rest : List Char) :
    encode (c :: rest) = String.utf8EncodeChar c ++ encode rest := rfl

theorem encode_append (front back : List Char) :
    encode (front ++ back) = encode front ++ encode back :=
  List.flatMap_append

@[simp]
theorem length_encode (text : List Char) : (encode text).length = byteLength text := by
  induction text with
  | nil => rfl
  | cons c rest ih => simp [encode_cons, ih]

theorem firstChar_encode_cons (c : Char) (rest : List Char) :
    firstChar? (encode (c :: rest)) = some c :=
  List.utf8DecodeChar?_utf8Encode_cons

theorem firstChar_encode (text : List Char) : firstChar? (encode text) = text.head? := by
  cases text with
  | nil => rfl
  | cons c rest => exact firstChar_encode_cons c rest

theorem encode_prefix_iff {pattern text : List Char} :
    encode pattern <+: encode text ↔ pattern <+: text := by
  constructor
  · rintro ⟨behind, text_eq⟩
    apply List.isPrefix_of_utf8Encode_append_eq_utf8Encode behind.toByteArray
    simp only [List.utf8Encode, ← List.toByteArray_append]
    exact congrArg List.toByteArray text_eq
  · rintro ⟨behind, rfl⟩
    rw [encode_append]
    exact List.prefix_append _ _

/-! ## Bytes of one character -/

theorem toNat_ofNat {count : Nat} (lt : count < 256) : (UInt8.ofNat count).toNat = count := by
  rw [UInt8.toNat_ofNat', Nat.mod_eq_of_lt lt]

theorem isContinuation_iff {byte : UInt8} :
    isContinuation byte ↔ 128 ≤ byte.toNat ∧ byte.toNat < 192 := by
  simp [isContinuation]

/-- A character is one byte if it is in ASCII; otherwise its first byte is large, and the others
continue it. -/
theorem encodeChar_cases (c : Char) :
    (c.toNat ≤ 127 ∧ String.utf8EncodeChar c = [UInt8.ofNat c.toNat]) ∨
      127 < c.toNat ∧ ∃ lead tail, String.utf8EncodeChar c = lead :: tail ∧ 192 ≤ lead.toNat ∧
        ∀ byte ∈ tail, isContinuation byte := by
  have continues (count : Nat) : isContinuation (UInt8.ofNat (count % 64 + 128)) := by
    rw [isContinuation_iff, toNat_ofNat (by omega)]
    omega
  have leads {count : Nat} (lt : count < 256) (le : 192 ≤ count) :
      192 ≤ (UInt8.ofNat count).toNat := by
    rwa [toNat_ofNat lt]
  unfold String.utf8EncodeChar Char.toNat
  generalize c.val.toNat = value
  simp only
  split
  next small => exact Or.inl ⟨small, rfl⟩
  next large =>
    refine Or.inr ⟨by omega, ?_⟩
    split
    · refine ⟨_, _, rfl, leads (by omega) (by omega), ?_⟩
      simp only [List.forall_mem_cons, continues, List.not_mem_nil, false_implies, implies_true,
        and_self]
    split
    · refine ⟨_, _, rfl, leads (by omega) (by omega), ?_⟩
      simp only [List.forall_mem_cons, continues, List.not_mem_nil, false_implies, implies_true,
        and_self]
    · refine ⟨_, _, rfl, leads (by omega) (by omega), ?_⟩
      simp only [List.forall_mem_cons, continues, List.not_mem_nil, false_implies, implies_true,
        and_self]

/-- Only the first byte of a character does not continue one. -/
theorem exists_encodeChar (c : Char) :
    ∃ lead tail, String.utf8EncodeChar c = lead :: tail ∧ isContinuation lead = false ∧
      ∀ byte ∈ tail, isContinuation byte := by
  rcases encodeChar_cases c with ⟨small, bytes_eq⟩ | ⟨_, lead, tail, bytes_eq, leads, continues⟩
  · refine ⟨_, [], bytes_eq, ?_, by simp⟩
    rw [← Bool.not_eq_true, isContinuation_iff, toNat_ofNat (by omega)]
    omega
  · refine ⟨lead, tail, bytes_eq, ?_, continues⟩
    rw [← Bool.not_eq_true, isContinuation_iff]
    omega

theorem encodeChar_toLower (c : Char) :
    String.utf8EncodeChar c.toLower = (String.utf8EncodeChar c).map lowerByte := by
  have kept {byte : UInt8} (large : 128 ≤ byte.toNat) : lowerByte byte = byte := by
    rw [lowerByte, if_neg (by omega)]
  rcases encodeChar_cases c with ⟨small, bytes_eq⟩ | ⟨large, lead, tail, bytes_eq, leads, continues⟩
  · rw [bytes_eq, List.map_singleton, lowerByte, toNat_ofNat (by omega)]
    by_cases upper : 'A'.val ≤ c.val ∧ c.val ≤ 'Z'.val
    · have lower_eq : c.toLower = ⟨c.val + ('a'.val - 'A'.val), _⟩ := dif_pos upper
      have below : 65 ≤ c.toNat := UInt32.le_iff_toNat_le.mp upper.1
      have above : c.toNat ≤ 90 := UInt32.le_iff_toNat_le.mp upper.2
      have sum : (c.val + ('a'.val - 'A'.val)).toNat = c.toNat + 32 := by
        rw [UInt32.toNat_add]
        exact Nat.mod_eq_of_lt (show c.toNat + 32 < 2 ^ 32 by omega)
      rw [if_pos ⟨below, above⟩, lower_eq]
      simp only [String.utf8EncodeChar, sum]
      rw [if_pos (by omega), UInt8.ofNat_add]
      rfl
    · have lower_eq : c.toLower = c := dif_neg upper
      rw [if_neg fun inside => upper ⟨UInt32.le_iff_toNat_le.mpr inside.1,
        UInt32.le_iff_toNat_le.mpr inside.2⟩, lower_eq, bytes_eq]
  · have same : c.toLower = c := by
      apply dif_neg
      intro upper
      have above : c.toNat ≤ 90 := UInt32.le_iff_toNat_le.mp upper.2
      omega
    have tail_eq : tail.map lowerByte = tail.map id :=
      List.map_congr_left fun byte mem => kept (isContinuation_iff.mp (continues byte mem)).1
    rw [same, bytes_eq, List.map_cons, kept (by omega), tail_eq, List.map_id]

/-! ## Whole texts -/

theorem encode_map_toLower (text : List Char) :
    encode (text.map Char.toLower) = (encode text).map lowerByte := by
  induction text with
  | nil => rfl
  | cons c rest ih => rw [List.map_cons, encode_cons, encode_cons, List.map_append, ih, encodeChar_toLower]

/-- Bytes that are alike up to case are those of texts that are alike up to case. -/
theorem startsIgnoringCase_encode {pattern text : List Char} :
    startsIgnoringCase (encode pattern) (encode text) ↔
      pattern.map Char.toLower <+: text.map Char.toLower := by
  rw [← encode_prefix_iff, encode_map_toLower, encode_map_toLower, List.prefix_iff_eq_take,
    List.length_map, ← List.map_take, startsIgnoringCase, Bool.and_eq_true, decide_eq_true_iff,
    beq_iff_eq]
  constructor
  · rintro ⟨_, same⟩
    exact same.symm
  · intro same
    have lengths := congrArg List.length same
    rw [List.length_map, List.length_map, List.length_take] at lengths
    exact ⟨by omega, same.symm⟩

/-- In the bytes of a character, what continues it is passed over by a search. -/
theorem offsetOf_append {pattern continued : List UInt8} {lead : UInt8} {later : List UInt8}
    (pattern_eq : pattern = lead :: later) (leads : isContinuation lead = false)
    (continues : ∀ byte ∈ continued, isContinuation byte) (bytes : List UInt8) :
    offsetOf? pattern (continued ++ bytes) = (offsetOf? pattern bytes).map (continued.length + ·) := by
  induction continued with
  | nil => simp
  | cons byte continued ih =>
    have differs : pattern.isPrefixOf (byte :: (continued ++ bytes)) = false := by
      subst pattern_eq
      have other : lead ≠ byte := by
        rintro rfl
        simp [leads] at continues
      simp [List.isPrefixOf, other]
    rw [List.cons_append, offsetOf?, differs, ih fun other mem => continues other (by simp [mem])]
    simp only [Bool.false_eq_true, if_false, Option.map_map, List.length_cons]
    congr 1
    funext count
    simp only [Function.comp_apply]
    omega

/-- A character is found in the bytes where it first stands in the text. -/
theorem offsetOf_encode (c : Char) (text : List Char) :
    offsetOf? (encode [c]) (encode text) =
      if c ∈ text then some (byteLength (text.takeWhile (· != c))) else none := by
  induction text with
  | nil => rfl
  | cons d rest ih =>
    rcases exists_encodeChar c with ⟨lead, later, pattern_eq, leads, _⟩
    rcases exists_encodeChar d with ⟨first, continued, bytes_eq, _, continues⟩
    have head : (encode [c]).isPrefixOf (encode (d :: rest)) = decide (c = d) := by
      rw [Bool.eq_iff_iff, List.isPrefixOf_iff_prefix, encode_prefix_iff, decide_eq_true_iff]
      simp
    have whole : encode (d :: rest) = first :: (continued ++ encode rest) := by
      rw [encode_cons, bytes_eq, List.cons_append]
    have size_eq : d.utf8Size = continued.length + 1 := by
      rw [← String.length_utf8EncodeChar, bytes_eq, List.length_cons]
    have lead_eq : encode [c] = lead :: later := by
      rw [encode_cons, pattern_eq, encode_nil, List.append_nil]
    rw [whole] at head ⊢
    rw [offsetOf?, head, offsetOf_append lead_eq leads continues, ih]
    by_cases same : c = d
    · simp [same]
    · by_cases mem : c ∈ rest
      · have differs : (d != c) = true := bne_iff_ne.mpr (Ne.symm same)
        rw [decide_eq_false same, if_pos mem, if_pos (List.mem_cons_of_mem d mem),
          List.takeWhile_cons, if_pos differs, byteLength_cons, size_eq]
        simp only [Bool.false_eq_true, if_false, Option.map_some, Option.some.injEq]
        omega
      · simp [same, mem]

theorem bytesFrom_append (front bytes : List UInt8) (count : Nat) :
    bytesFrom (front ++ bytes) (front.length + count) = bytesFrom bytes count := by
  rw [bytesFrom, List.getElem?_append_right (Nat.le_add_right _ _), Nat.add_sub_cancel_left,
    List.drop_append, List.drop_eq_nil_of_le (Nat.le_add_right _ _), Nat.add_sub_cancel_left]
  rfl

/-- What the bytes leave from an offset on are the bytes of what the text leaves there. -/
theorem bytesFrom_encode (text : List Char) (offset : Nat) :
    bytesFrom (encode text) offset = encode (dropBytes offset text) := by
  induction text generalizing offset with
  | nil => simp [bytesFrom]
  | cons c rest ih =>
    rcases exists_encodeChar c with ⟨lead, tail, bytes_eq, leads, continues⟩
    have size_eq : (String.utf8EncodeChar c).length = c.utf8Size := String.length_utf8EncodeChar c
    by_cases inside : offset < c.utf8Size
    · -- within the character only its first byte is a boundary
      rw [encode_cons, bytes_eq]
      rw [bytes_eq, List.length_cons] at size_eq
      cases offset with
      | zero => simp [bytesFrom, leads, encode_cons, bytes_eq]
      | succ count =>
        have byte_eq : (tail ++ encode rest)[count]? = some tail[count] := by
          rw [List.getElem?_append_left (by omega), List.getElem?_eq_getElem]
        have continued := continues tail[count] (List.getElem_mem (by omega))
        rw [dropBytes, if_neg (by omega), bytesFrom, List.cons_append, List.getElem?_cons_succ,
          byte_eq, Option.any_some, if_pos continued, encode_nil]
    · rcases Nat.exists_eq_add_of_le (Nat.le_of_not_lt inside) with ⟨count, rfl⟩
      rw [encode_cons, dropBytes_cons, ← ih, ← size_eq, bytesFrom_append]

/-! ## Order -/

/-- The bytes of the text as numbers. -/
def codes (text : List Char) : List Nat :=
  (encode text).map UInt8.toNat

theorem codes_cons (c : Char) (rest : List Char) : codes (c :: rest) = codes [c] ++ codes rest := by
  simp [codes, encode_cons]

theorem codes_singleton (c : Char) :
    codes [c] =
      let value := c.toNat
      if value ≤ 127 then [value]
      else if value ≤ 2047 then [value / 64 + 192, value % 64 + 128]
      else if value ≤ 65535 then [value / 4096 + 224, value / 64 % 64 + 128, value % 64 + 128]
      else
        [value / 262144 + 240, value / 4096 % 64 + 128, value / 64 % 64 + 128,
          value % 64 + 128] := by
  have bound : c.toNat < 1114112 := by
    rcases c.valid with below | ⟨_, below⟩
    · exact Nat.lt_trans below (by decide)
    · exact below
  rw [codes, encode_cons, encode_nil, List.append_nil, String.utf8EncodeChar]
  unfold Char.toNat at *
  generalize c.val.toNat = value at *
  simp only
  split
  · rw [List.map_singleton, toNat_ofNat (by omega)]
  split
  · simp only [List.map_cons, List.map_nil]
    rw [toNat_ofNat (by omega), toNat_ofNat (by omega), Nat.mod_eq_of_lt (by omega)]
  split
  · simp only [List.map_cons, List.map_nil]
    rw [toNat_ofNat (by omega), toNat_ofNat (by omega), toNat_ofNat (by omega),
      Nat.mod_eq_of_lt (by omega)]
  · simp only [List.map_cons, List.map_nil]
    rw [toNat_ofNat (by omega), toNat_ofNat (by omega), toNat_ofNat (by omega),
      toNat_ofNat (by omega), Nat.mod_eq_of_lt (by omega)]

theorem codes_singleton_lt {c d : Char} (lt : c < d) : codes [c] < codes [d] := by
  have value_lt : c.toNat < d.toNat := lt
  rw [codes_singleton, codes_singleton]
  simp only
  split_ifs <;> simp only [List.cons_lt_cons_iff, List.not_lt_nil, List.nil_lt_cons] <;> omega

/-- No character's bytes go on with those of another. -/
theorem codes_singleton_apart {c d : Char} (lt : c < d) : ¬codes [c] <+: codes [d] := by
  intro front
  have bytes : encode [c] <+: encode [d] :=
    (List.prefix_map_iff_of_injective fun _ _ => UInt8.toNat_inj.mp).mp front
  have same : c = d := by simpa using encode_prefix_iff.mp bytes
  exact absurd lt (same ▸ Char.lt_irrefl d)

theorem append_lt_append {front other : List Nat} (lt : front < other)
    (apart : ¬front <+: other) (back later : List Nat) : front ++ back < other ++ later := by
  induction front generalizing other with
  | nil => exact absurd List.nil_prefix apart
  | cons code front ih =>
    cases other with
    | nil => cases lt
    | cons first other =>
      rw [List.cons_append, List.cons_append, List.cons_lt_cons_iff]
      rcases List.cons_lt_cons_iff.mp lt with below | ⟨rfl, rest_lt⟩
      · exact Or.inl below
      · refine Or.inr ⟨rfl, ih rest_lt fun shorter => apart ?_⟩
        exact List.cons_prefix_cons.mpr ⟨rfl, shorter⟩

/-- Texts are in the same order as their bytes. -/
theorem codes_lt_codes {text other : List Char} (lt : text < other) : codes text < codes other := by
  induction lt with
  | @nil c rest =>
    rcases exists_encodeChar c with ⟨lead, tail, bytes_eq, _⟩
    simp [codes, encode_cons, bytes_eq]
  | @cons c rest other _ ih =>
    rw [codes_cons c rest, codes_cons c other]
    exact List.append_left_lt ih
  | @rel c rest d other below =>
    rw [codes_cons c rest, codes_cons d other]
    exact append_lt_append (codes_singleton_lt below) (codes_singleton_apart below) _ _

end Refill.Text
