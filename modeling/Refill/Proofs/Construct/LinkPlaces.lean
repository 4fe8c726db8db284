import Refill.Proofs.Construct.Occurrence

/-!
# Where the links are

The links of a text can be told by plain searches from one place to the next, without anything
that is remembered of earlier ones. An opening bracket opens a link if the first closing
bracket behind it is followed by a bracket that opens a destination, and that is closed behind
the blanks that come next (`linkAt`). From left to right, each link that does not begin inside
an earlier one counts (`mem_linksFrom_iff`), and these are the links the scanner finds
(`tokens_around_links`).
-/

namespace Refill.Link

open Text

/-- The first place from `start` on whose character satisfies the condition. -/
def firstFrom (holds : Char → Bool) (text : List Char) (start : Nat) : Option Nat :=
  ((text.drop start).findIdx? holds).map (start + ·)

/-- The places of a link: of its opening bracket, of the bracket that ends its label, of the first
character of its destination, and behind its last one. -/
structure Bounds where
  start : Nat
  labelEnd : Nat
  destination : Nat
  stop : Nat

/-- The link that is opened at the place. Its label ends with the first closing bracket, its
destination begins behind the blanks and ends with the first bracket that closes it, and the
punctuation behind that belongs to it. -/
def linkAt (text : List Char) (start : Nat) : Option Bounds :=
  if text[start]? = some '[' then do
    let labelEnd ← firstFrom (· == ']') text (start + 1)
    let close ← text[labelEnd + 1]?.bind destinationClose
    let destination ← firstFrom (!isBlank ·) text (labelEnd + 2)
    let destinationEnd ← firstFrom (· == close) text destination
    let stop := (firstFrom (!isTrailing ·) text (destinationEnd + 1)).getD text.length
    return { start, labelEnd, destination, stop }
  else none

def Bounds.occurrence (text : List Char) (link : Bounds) : Occurrence where
  start := link.start
  stop := link.stop
  tokens := [⟨.plain, stretch text link.start (link.labelEnd + 2), blankBefore text link.start⟩,
    ⟨.atomic, stretch text link.destination link.stop, false⟩]

variable {text : List Char}

/-! ## Searches -/

section Search

variable {holds : Char → Bool} {before rest : List Char} {start place : Nat}

theorem le_of_firstFrom (found : firstFrom holds text start = some place) :
    start ≤ place ∧ place < text.length := by
  rcases Option.map_eq_some_iff.mp found with ⟨count, count_eq, rfl⟩
  rcases List.findIdx?_eq_some_iff_getElem.mp count_eq with ⟨inside, _⟩
  rw [List.length_drop] at inside
  omega

theorem firstFrom_append (text_eq : text = before ++ rest) (start_eq : start = before.length) :
    firstFrom holds text start = (rest.findIdx? holds).map (start + ·) := by
  subst text_eq start_eq
  rw [firstFrom, List.drop_left]

theorem firstFrom_front {front back : List Char} {c : Char}
    (text_eq : text = before ++ (front ++ c :: back)) (start_eq : start = before.length)
    (others : ∀ d ∈ front, holds d = false) (stops : holds c) :
    firstFrom holds text start = some (start + front.length) := by
  have none : front.findIdx? holds = none := List.findIdx?_eq_none_iff.mpr others
  rw [firstFrom_append text_eq start_eq, List.findIdx?_append, none, List.findIdx?_cons, if_pos stops]
  simp

theorem firstFrom_of_notMem {front back : List Char} {c : Char}
    (text_eq : text = before ++ (front ++ c :: back)) (start_eq : start = before.length)
    (notMem : c ∉ front) : firstFrom (· == c) text start = some (start + front.length) := by
  apply firstFrom_front text_eq start_eq _ (by simp)
  intro d mem
  rw [beq_eq_false_iff_ne]
  rintro rfl
  exact notMem mem

theorem firstFrom_eq_none (text_eq : text = before ++ rest) (start_eq : start = before.length)
    (others : ∀ d ∈ rest, holds d = false) : firstFrom holds text start = none := by
  rw [firstFrom_append text_eq start_eq, List.findIdx?_eq_none_iff.mpr others, Option.map_none]

/-- A search that may end with the text stops behind the characters it passes over. -/
theorem firstFrom_getD {front back : List Char} (text_eq : text = before ++ (front ++ back))
    (start_eq : start = before.length) (others : ∀ d ∈ front, holds d = false)
    (stops : ∀ c, back.head? = some c → holds c) :
    (firstFrom holds text start).getD text.length = start + front.length := by
  cases back with
  | nil =>
    rw [List.append_nil] at text_eq
    rw [firstFrom_eq_none text_eq start_eq others, Option.getD_none, text_eq, List.length_append,
      start_eq]
  | cons c back => rw [firstFrom_front text_eq start_eq others (stops c rfl), Option.getD_some]

/-- What is found is the first of its kind. -/
theorem exists_of_firstFrom (text_eq : text = before ++ rest) (start_eq : start = before.length)
    (found : firstFrom holds text start = some place) :
    ∃ front c back, rest = front ++ c :: back ∧ place = start + front.length ∧
      (∀ d ∈ front, holds d = false) ∧ holds c := by
  rw [firstFrom_append text_eq start_eq] at found
  rcases Option.map_eq_some_iff.mp found with ⟨count, count_eq, place_eq⟩
  rcases List.findIdx?_eq_some_iff_getElem.mp count_eq with ⟨inside, stops, others⟩
  refine ⟨rest.take count, rest[count], rest.drop (count + 1), ?_, ?_, ?_, stops⟩
  · rw [List.getElem_cons_drop, List.take_append_drop]
  · rw [List.length_take, Nat.min_eq_left (Nat.le_of_lt inside)]
    exact place_eq.symm
  · intro d mem
    rcases List.mem_take_iff_getElem.mp mem with ⟨index, bound, rfl⟩
    simpa using others index (by omega)

end Search

/-! ## Links at a place -/

section At

variable {start : Nat} {link : Bounds}

theorem start_of_linkAt (found : linkAt text start = some link) : link.start = start := by
  unfold linkAt at found
  split at found
  · simp only [Option.bind_eq_bind, Option.bind_eq_some_iff] at found
    rcases found with ⟨_, _, _, _, _, _, _, _, link_eq⟩
    cases link_eq
    rfl
  · cases found

theorem lt_length_of_linkAt (found : linkAt text start = some link) : start < text.length := by
  unfold linkAt at found
  split at found
  next bracket => exact (List.getElem?_eq_some_iff.mp bracket).1
  · cases found

/-- A link ends behind its beginning. -/
theorem lt_stop_of_linkAt (found : linkAt text start = some link) : start < link.stop := by
  unfold linkAt at found
  split at found
  · simp only [Option.bind_eq_bind, Option.bind_eq_some_iff] at found
    rcases found with ⟨labelEnd, label_eq, close, _, destination, gap_eq, destinationEnd, end_eq,
      link_eq⟩
    cases link_eq
    have label_le := le_of_firstFrom label_eq
    have gap_le := le_of_firstFrom gap_eq
    have end_le := le_of_firstFrom end_eq
    cases stop_eq : firstFrom (!isTrailing ·) text (destinationEnd + 1) with
    | none =>
      simp only [Option.getD_none]
      omega
    | some stop =>
      have stop_le := le_of_firstFrom stop_eq
      simp only [Option.getD_some]
      omega
  · cases found

end At

/-- The links from a place on. -/
def linksFrom (text : List Char) (place : Nat) : List Bounds :=
  if _inside : place < text.length then
    match found : linkAt text place with
    | some link => link :: linksFrom text link.stop
    | none => linksFrom text (place + 1)
  else []
termination_by text.length - place
decreasing_by
  · have := lt_stop_of_linkAt found
    omega
  · omega

/-- The links of a text. -/
def links (text : List Char) : List Bounds :=
  linksFrom text 0

section LinksFrom

variable {place : Nat} {link : Bounds}

theorem linksFrom_of_le (outside : text.length ≤ place) : linksFrom text place = [] := by
  rw [linksFrom, dif_neg (Nat.not_lt.mpr outside)]

theorem linksFrom_of_some (found : linkAt text place = some link) :
    linksFrom text place = link :: linksFrom text link.stop := by
  rw [linksFrom, dif_pos (lt_length_of_linkAt found)]
  split
  next other other_eq =>
    rw [found] at other_eq
    cases other_eq
    rfl
  next none_eq =>
    rw [found] at none_eq
    cases none_eq

theorem linksFrom_of_none (inside : place < text.length) (nothing : linkAt text place = none) :
    linksFrom text place = linksFrom text (place + 1) := by
  rw [linksFrom, dif_pos inside]
  split
  next other other_eq =>
    rw [nothing] at other_eq
    cases other_eq
  · rfl

theorem le_start_of_mem (mem : link ∈ linksFrom text place) : place ≤ link.start := by
  fun_induction linksFrom text place with
  | case1 place inside found found_eq ih =>
    have start_eq := start_of_linkAt found_eq
    have lt_stop := lt_stop_of_linkAt found_eq
    rcases List.mem_cons.mp mem with rfl | mem
    · omega
    · have behind := ih mem
      omega
  | case2 place inside nothing ih =>
    have behind := ih mem
    omega
  | case3 => cases mem

/-- From a place on, the links are those that do not begin inside an earlier one. -/
theorem mem_linksFrom_iff : link ∈ linksFrom text place ↔
    place ≤ link.start ∧ linkAt text link.start = some link ∧
      ∀ earlier ∈ linksFrom text place, earlier.start < link.start →
        earlier.stop ≤ link.start := by
  fun_induction linksFrom text place with
  | case1 place inside found found_eq ih =>
    have start_eq := start_of_linkAt found_eq
    have lt_stop := lt_stop_of_linkAt found_eq
    constructor
    · intro mem
      rcases List.mem_cons.mp mem with rfl | mem
      · refine ⟨Nat.le_of_eq start_eq.symm, by rwa [start_eq], ?_⟩
        intro earlier earlier_mem before
        rcases List.mem_cons.mp earlier_mem with rfl | earlier_mem
        · omega
        · have behind := le_start_of_mem earlier_mem
          omega
      · rcases ih.mp mem with ⟨behind, at_start, apart⟩
        refine ⟨by omega, at_start, ?_⟩
        intro earlier earlier_mem before
        rcases List.mem_cons.mp earlier_mem with rfl | earlier_mem
        · exact behind
        · exact apart earlier earlier_mem before
    · rintro ⟨le, at_start, apart⟩
      by_cases same : link.start = place
      · rw [same, found_eq] at at_start
        cases at_start
        exact List.mem_cons_self
      · have behind := apart found List.mem_cons_self (by omega)
        apply List.mem_cons_of_mem
        apply ih.mpr
        refine ⟨behind, at_start, ?_⟩
        intro earlier mem
        exact apart earlier (List.mem_cons_of_mem found mem)
  | case2 place inside nothing ih =>
    rw [ih]
    constructor
    · rintro ⟨le, at_start, apart⟩
      exact ⟨by omega, at_start, apart⟩
    · rintro ⟨le, at_start, apart⟩
      have other : link.start ≠ place := by
        rintro rfl
        rw [nothing] at at_start
        cases at_start
      exact ⟨by omega, at_start, apart⟩
  | case3 place outside =>
    constructor
    · intro mem
      cases mem
    · rintro ⟨le, at_start, _⟩
      have inside := lt_length_of_linkAt at_start
      omega

end LinksFrom

/-! ## Links of the grammar -/

section Grammar

variable {before rest label gap destination later : List Char} {opening close : Char}
  {start : Nat}

/-- Where a link is found, one begins. -/
theorem begins_of_linkAt {link : Bounds} (text_eq : text = before ++ rest)
    (start_eq : start = before.length) (found : linkAt text start = some link) : Begins rest := by
  unfold linkAt at found
  split at found
  next bracket =>
    simp only [Option.bind_eq_bind, Option.bind_eq_some_iff] at found
    rcases found with ⟨labelEnd, label_eq, close, ⟨opening, opening_eq, close_eq⟩, place, gap_eq,
      destinationEnd, end_eq, _⟩
    rw [getElem?_behind text_eq start_eq] at bracket
    rcases List.head?_eq_some_iff.mp bracket with ⟨inside, rfl⟩
    have inside_eq : text = (before ++ ['[']) ++ inside := by simp [text_eq]
    rcases exists_of_firstFrom inside_eq (by simp [start_eq]) label_eq with
      ⟨label, bracket', behind, rfl, rfl, others, stops⟩
    have bracket_eq : bracket' = ']' := by simpa using stops
    subst bracket_eq
    have behind_eq : text = (before ++ '[' :: (label ++ [']'])) ++ behind := by
      simp [text_eq]
    rw [getElem?_behind behind_eq (by simp [start_eq]; omega)] at opening_eq
    rcases List.head?_eq_some_iff.mp opening_eq with ⟨later, rfl⟩
    have later_eq : text = (before ++ '[' :: (label ++ [']', opening])) ++ later := by
      simp [text_eq]
    rcases exists_of_firstFrom later_eq (by simp [start_eq]; omega) gap_eq with
      ⟨gap, first, rest, rfl, rfl, _, _⟩
    have rest_eq : text = (before ++ '[' :: (label ++ [']', opening]) ++ gap) ++ first :: rest := by
      simp [text_eq]
    rcases exists_of_firstFrom rest_eq (by simp [start_eq]; omega) end_eq with
      ⟨body, last, behind, body_eq, _, _, closes⟩
    have last_eq : last = close := by simpa using closes
    refine ⟨_, rfl, label, opening, close, gap ++ first :: rest, rfl, ?_, close_eq, ?_⟩
    · intro mem
      simpa using others ']' mem
    · apply List.mem_append_right
      rw [body_eq, last_eq]
      simp
  · cases found

/-- The searches from the end of an opener on find its destination. -/
theorem exists_destinationEnd (blank : Blank gap) (isDestination : IsDestination close destination later)
    (text_eq : text = before ++ (gap ++ (destination ++ later))) (start_eq : start = before.length) :
    ∃ last, firstFrom (!isBlank ·) text start = some (start + gap.length) ∧
      firstFrom (· == close) text (start + gap.length) = some last ∧
      (firstFrom (!isTrailing ·) text (last + 1)).getD text.length =
        start + gap.length + destination.length := by
  rcases isDestination with ⟨body, punctuation, rfl, first, starts, trailing, stops⟩
  have at_body : text = (before ++ gap) ++ (body ++ close :: (punctuation ++ later)) := by
    simp [text_eq]
  have at_punctuation : text = (before ++ gap ++ body ++ [close]) ++ (punctuation ++ later) := by
    simp [text_eq]
  refine ⟨start + gap.length + body.length, ?_, ?_, ?_⟩
  · cases destination_eq : body ++ close :: punctuation with
    | nil => simp at destination_eq
    | cons c more =>
      rw [destination_eq] at text_eq starts
      apply firstFrom_front text_eq start_eq
      · intro d mem
        simpa using blank d mem
      · simpa [startsBlank] using starts
  · exact firstFrom_of_notMem at_body (by simp [start_eq]) first
  · rw [firstFrom_getD at_punctuation]
    · simp only [List.length_append, List.length_cons]
      omega
    · simp [start_eq]
      omega
    · intro c mem
      simpa using trailing c mem
    · intro c head_eq
      simpa using stops c head_eq

/-- Where a link stands, it is found. -/
theorem linkAt_of_parts (notMem : ']' ∉ label) (close_eq : destinationClose opening = some close)
    (blank : Blank gap) (isDestination : IsDestination close destination later)
    (text_eq : text = before ++
      ('[' :: (label ++ [']', opening]) ++ gap ++ destination) ++ later)
    (start_eq : start = before.length) :
    linkAt text start = some
      { start
        labelEnd := start + 1 + label.length
        destination := start + 1 + label.length + 2 + gap.length
        stop := start + 1 + label.length + 2 + gap.length + destination.length } := by
  have at_bracket : text = before ++ '[' :: (label ++ ']' :: opening ::
      (gap ++ (destination ++ later))) := by simp [text_eq]
  have at_label : text = (before ++ ['[']) ++ (label ++ ']' :: opening ::
      (gap ++ (destination ++ later))) := by simp [text_eq]
  have at_opening : text = (before ++ '[' :: (label ++ [']'])) ++ (opening ::
      (gap ++ (destination ++ later))) := by simp [text_eq]
  have at_gap : text = (before ++ '[' :: (label ++ [']', opening])) ++
      (gap ++ (destination ++ later)) := by simp [text_eq]
  have bracket : text[start]? = some '[' := by
    rw [getElem?_behind at_bracket start_eq]
    rfl
  have label_eq : firstFrom (· == ']') text (start + 1) = some (start + 1 + label.length) :=
    firstFrom_of_notMem at_label (by simp [start_eq]) notMem
  have opening_eq : text[start + 1 + label.length + 1]? = some opening := by
    rw [getElem?_behind at_opening (by simp [start_eq]; omega)]
    rfl
  have gap_start : start + 1 + label.length + 2 =
      (before ++ '[' :: (label ++ [']', opening])).length := by
    simp [start_eq]
    omega
  rcases exists_destinationEnd blank isDestination at_gap gap_start with
    ⟨last, gap_eq, last_eq, stop_eq⟩
  rw [linkAt, if_pos bracket]
  simp only [label_eq, opening_eq, close_eq, gap_eq, last_eq, stop_eq, Option.bind_eq_bind,
    Option.bind_some, Option.pure_def]

/-- Where a construct of the grammar stands, it is found with its tokens. -/
theorem exists_linkAt {construct : Construct} (stands : grammar.Stands construct later)
    (text_eq : text = before ++ construct.source ++ later) :
    ∃ link, linkAt text before.length = some link ∧ link.occurrence text =
      ⟨before.length, before.length + construct.source.length,
        construct.tokens (endsBlank before)⟩ := by
  rcases stands with ⟨_, gap, destination, close, rfl, ⟨label, opening, rfl, notMem, close_eq⟩,
    blank, isDestination⟩
  have found := linkAt_of_parts notMem close_eq blank isDestination text_eq rfl
  refine ⟨_, found, ?_⟩
  have opener_eq : stretch text before.length (before.length + 1 + label.length + 2) =
      '[' :: (label ++ [']', opening]) := by
    have split : text = before ++ '[' :: (label ++ [']', opening]) ++
        (gap ++ destination ++ later) := by simp [text_eq, Construct.source]
    apply stretch_append split rfl
    simp
    omega
  have destination_eq : stretch text (before.length + 1 + label.length + 2 + gap.length)
      (before.length + 1 + label.length + 2 + gap.length + destination.length) = destination := by
    have split : text = (before ++ '[' :: (label ++ [']', opening]) ++ gap) ++ destination ++
        later := by simp [text_eq, Construct.source]
    apply stretch_append split _ rfl
    simp
    omega
  have blank_eq : blankBefore text before.length = endsBlank before :=
    blankBefore_append (text_eq.trans (List.append_assoc _ _ _)) rfl
  have length_eq : (Construct.link ('[' :: (label ++ [']', opening])) gap destination).source.length =
      1 + label.length + 2 + gap.length + destination.length := by
    simp [Construct.source]
    omega
  simp only [Bounds.occurrence, opener_eq, destination_eq, blank_eq, Construct.tokens]
  rw [length_eq, ← Nat.add_assoc, ← Nat.add_assoc, ← Nat.add_assoc, ← Nat.add_assoc]

/-- Text in which no link begins is passed over. -/
theorem linksFrom_idle {idle behind : List Char} (nowhere : Nowhere Begins idle behind)
    (text_eq : text = before ++ (idle ++ behind)) :
    linksFrom text before.length = linksFrom text (before.length + idle.length) := by
  induction idle generalizing before with
  | nil => rfl
  | cons c idle ih =>
    have inside : before.length < text.length := by simp [text_eq]
    have nothing : linkAt text before.length = none := by
      rw [Option.eq_none_iff_forall_ne_some]
      intro link found
      exact nowhere.1 (begins_of_linkAt text_eq rfl found)
    have passed : text = (before ++ [c]) ++ (idle ++ behind) := by simp [text_eq]
    have rest := ih nowhere.2 passed
    rw [List.length_append, List.length_singleton] at rest
    rw [linksFrom_of_none inside nothing, rest, List.length_cons]
    congr 1
    omega

/-- The links of a text are the constructs of a cut that fits the grammar. -/
theorem occurrences_linksFrom {cut : Cut} (fits : cut.Fits grammar) {front : List Char}
    (ends : endsBlank front = false) (text_eq : text = front ++ cut.source) :
    (linksFrom text front.length).map (Bounds.occurrence text) =
      cut.occurrences front.length := by
  induction cut generalizing front with
  | last idle =>
    have whole : text = front ++ (idle ++ []) := by simpa [Cut.source] using text_eq
    have outside : text.length ≤ front.length + idle.length := by simp [whole]
    rw [linksFrom_idle fits whole, linksFrom_of_le outside]
    rfl
  | before idle construct later ih =>
    have tight := tileable_grammar.tight fits.2.1
    have split : text = front ++ (idle ++ (construct.source ++ later.source)) := by
      simpa [Cut.source] using text_eq
    have passed : text = (front ++ idle ++ construct.source) ++ later.source := by simp [split]
    have rest := ih fits.2.2 (tight.endsBlank_append_left _) passed
    rcases exists_linkAt fits.2.1 passed with ⟨link, found, occurrence_eq⟩
    rw [endsBlank_behind ends, List.length_append] at occurrence_eq
    rw [List.length_append] at found
    have stop_eq : link.stop = front.length + idle.length + construct.source.length :=
      congrArg Occurrence.stop occurrence_eq
    rw [List.length_append, List.length_append, ← stop_eq] at rest
    rw [linksFrom_idle fits.1 split, linksFrom_of_some found, List.map_cons, rest, occurrence_eq,
      stop_eq]
    rfl

end Grammar

/-- The scanner yields the tokens around the links of a text, and those are all that do not begin
inside an earlier one. -/
theorem tokens_around_links (text : List Char) :
    scanner.tokens text =
        tokensAround text 0 ((links text).map (Bounds.occurrence text)) ∧
      ∀ link, link ∈ links text ↔ linkAt text link.start = some link ∧
        ∀ earlier ∈ links text, earlier.start < link.start → earlier.stop ≤ link.start := by
  have fits := reads_scanner.fits_cut text
  have source_eq := reads_scanner.source_cut text
  constructor
  · have whole : text = [] ++ (scanner.cut text).source := source_eq.symm
    have tokens_eq := Cut.tokensAround_occurrences tileable_grammar fits rfl whole
    rw [← occurrences_linksFrom fits rfl whole] at tokens_eq
    exact tokens_eq.symm
  · intro link
    rw [links, mem_linksFrom_iff]
    exact and_iff_right (Nat.zero_le _)

end Refill.Link
