import Refill.Markdown.Line

/-!
# HTML

Tags, comments and the other forms of HTML, as they open a block or stand within a
line, and the addresses that stand in angle brackets as a tag does.
-/

namespace Refill.Markdown

/-- The elements whose tags open a block of their own, up to a blank line. -/
def blockElements : List String := [
  "address", "article", "aside", "base", "basefont", "blockquote", "body", "caption", "center",
  "col", "colgroup", "dd", "details", "dialog", "dir", "div", "dl", "dt", "fieldset", "figcaption",
  "figure", "footer", "form", "frame", "frameset", "h1", "h2", "h3", "h4", "h5", "h6", "head",
  "header", "hr", "html", "iframe", "legend", "li", "link", "main", "menu", "menuitem", "nav",
  "noframes", "ol", "optgroup", "option", "p", "param", "search", "section", "summary", "table",
  "tbody", "td", "tfoot", "th", "thead", "title", "tr", "track", "ul"]

/-- The elements whose content is raw, with the text that ends a block of it. -/
def rawElements : List (String × String) := [
  ("pre", "</pre>"), ("style", "</style>"), ("script", "</script>"), ("textarea", "</textarea>")]

/-- The text that ends a block of raw content, a comment, an instruction or a declaration, if what
follows an opening angle bracket opens one. -/
def blockTerminator? (rest : List Char) : Option (List Char) :=
  let raw := rawElements.find? fun (name, _) =>
    startsWithName name.toList rest &&
      (rest.drop name.length).head?.all fun c => isWhite c || c == '>'
  match raw with
  | some (_, terminator) => some terminator.toList
  | none =>
      if "!--".toList.isPrefixOf rest then some "-->".toList
      else if "?".toList.isPrefixOf rest then some "?>".toList
      else if "![CDATA[".toList.isPrefixOf rest then some "]]>".toList
      else if rest.head? == some '!' && (rest.drop 1).head?.any Char.isAlpha then some ">".toList
      else none

def opensBlockElement (rest : List Char) : Bool :=
  let tag := if rest.head? == some '/' then rest.drop 1 else rest
  let name := (tag.takeWhile Char.isAlphanum).map Char.toLower
  let after := tag.drop name.length
  blockElements.any (·.toList == name) &&
    (after.head?.all (fun c => isWhite c && c != '\x0b' && c != '\x0c' || c == '>') ||
      "/>".toList.isPrefixOf after)

/-- The length of a run of blanks; none if a line ends in it and `multiline` does not allow that. -/
def tagBlanks? (multiline : Bool) (rest : List Char) : Option Nat :=
  let length := lengthWhile (if multiline then isWhite else isGap) rest
  if !multiline && (rest.drop length).head?.all isLineEnd then none
  else if (rest.drop length).isEmpty then none
  else some length

def isAttributeName (c : Char) : Bool :=
  c.isAlphanum || c == '_' || c == ':' || c == '.' || c == '-'

def isBareValue (c : Char) : Bool :=
  !(c == '\'' || c == '"' || c == ' ' || c == '=' || c == '>' || c == '<' || c == '\x60' ||
    isLineEnd c)

def attributeValue? (multiline : Bool) (rest : List Char) : Option Nat :=
  match rest with
  | [] => none
  | c :: inner =>
      if c == '"' || c == '\'' then
        let value := inner.takeWhile (· != c)
        if (inner.drop value.length).isEmpty || (!multiline && value.any isLineEnd) then none
        else some (value.length + 2)
      else
        let length := lengthWhile isBareValue rest
        if length = 0 then none else some length

/-- The length of an attribute: a name, and a value behind an equals sign if there is one. -/
def attribute? (multiline : Bool) (rest : List Char) : Option Nat :=
  if rest.head?.any (fun c => c.isAlpha || c == '_' || c == ':') then
    let name := lengthWhile isAttributeName rest
    let behind := rest.drop name
    match tagBlanks? multiline behind with
    | none => none
    | some gap =>
        if (behind.drop gap).head? == some '=' then
          let equals := name + gap + 1
          match tagBlanks? multiline (rest.drop equals) with
          | none => none
          | some gap =>
              (attributeValue? multiline (rest.drop (equals + gap))).map (equals + gap + ·)
        else some name
  else none

/-- The length of the attributes of a tag with the blanks around them. Each attribute follows a
blank; `fuel` bounds their number. -/
def attributes? (multiline : Bool) : (fuel : Nat) → List Char → Option Nat
  | 0, _ => none
  | fuel + 1, rest =>
      match tagBlanks? multiline rest with
      | none => none
      | some gap =>
          let behind := rest.drop gap
          if behind.head? == some '/' || behind.head? == some '>' then some gap
          else if gap = 0 then none
          else
            match attribute? multiline behind with
            | none => none
            | some length =>
                (attributes? multiline fuel (behind.drop length)).map (gap + length + ·)

/-- The length of an opening or closing tag, with its angle brackets, of which the first one has
been read. -/
def tag? (multiline : Bool) (rest : List Char) : Option Nat :=
  let closing := rest.head? == some '/'
  let slash := if closing then 1 else 0
  let named := rest.drop slash
  let name := lengthWhile (fun c => c.isAlphanum || c == '-') named
  if named.head?.any Char.isAlpha then
    let attributes :=
      if closing then some 0 else attributes? multiline (named.length + 1) (named.drop name)
    match attributes with
    | none => none
    | some attributes =>
        let inner := slash + name + attributes
        let inner := inner + lengthWhile isGap (rest.drop inner)
        let selfClosing := !closing && (rest.drop inner).head? == some '/'
        let inner := if selfClosing then inner + 1 else inner
        if (rest.drop inner).head? == some '>' then some (inner + 2) else none
  else none

/-- Whether the line, from its opening angle bracket on, is a whole tag with only blanks behind. -/
def isLoneTag (rest : List Char) : Bool :=
  match tag? false (rest.drop 1) with
  | none => false
  | some length => isBlankLine (rest.drop length)

/-- The length up to the end of the next occurrence of the pattern. -/
def lengthThrough? (pattern : List Char) (rest : List Char) : Option Nat :=
  go 0 rest
where
  go (length : Nat) : List Char → Option Nat
    | [] => none
    | c :: rest =>
        if pattern.isPrefixOf (c :: rest) then some (length + pattern.length)
        else go (length + 1) rest

/-- The length of a comment, a section of character data or a declaration, from its exclamation mark
on. The dashes of `<!-->` both open and close it. -/
def declaration? (rest : List Char) : Option Nat :=
  if "!--".toList.isPrefixOf rest then
    (lengthThrough? "-->".toList (rest.drop 1)).map (1 + ·)
  else if "![CDATA[".toList.isPrefixOf rest then
    let length := 8 + lengthWhile (· != ']') (rest.drop 8)
    let closing := runLength ']' (rest.drop length)
    if 0 < closing && (rest.drop (length + closing)).head? == some '>' then
      some (length + closing + 1)
    else none
  else if (rest.drop 1).head?.any Char.isAlpha then lengthThrough? ['>'] rest
  else none

/-- The length of HTML within a line or over several, with its angle brackets, of which the first one
has been read. -/
def inlineHtml? (rest : List Char) : Option Nat :=
  match rest with
  | '!' :: _ => (declaration? rest).map (1 + ·)
  | '?' :: rest => (lengthThrough? "?>".toList rest).map (2 + ·)
  | rest => tag? true rest

/-- The length of a web address, with the angle brackets, of which the first one has been read. -/
def webAddress? (rest : List Char) : Option Nat :=
  let scheme :=
    lengthWhile (fun c => c.isAlphanum || c == '.' || c == '-' || c == '+') rest
  let path := rest.drop (scheme + 1)
  let length := lengthWhile (fun c => ' ' < c && c != '<' && c != '>') path
  if rest.head?.any Char.isAlpha && 2 ≤ scheme && scheme ≤ 32 &&
      (rest.drop scheme).head? == some ':' && (path.drop length).head? == some '>' then
    some (1 + scheme + 1 + length + 1)
  else none

def isMailName (c : Char) : Bool :=
  c.isAlphanum || ".!#$%&'*+/=?^_\x60{|}~-".toList.contains c

/-- The length of the labels of a host name, which points divide; `fuel` bounds their number. -/
def hostLength? : (fuel : Nat) → List Char → Option Nat
  | 0, _ => none
  | fuel + 1, rest =>
      let label := rest.takeWhile fun c => c.isAlphanum || c == '-'
      if label.isEmpty || 63 < label.length || label.head? == some '-' ||
          label.getLast? == some '-' then none
      else
        let behind := rest.drop label.length
        if behind.head? == some '.' then
          (hostLength? fuel (behind.drop 1)).map (label.length + 1 + ·)
        else some label.length

/-- The length of a mail address, with the angle brackets, of which the first one has been read. -/
def mailAddress? (rest : List Char) : Option Nat :=
  let name := lengthWhile isMailName rest
  let host := rest.drop (name + 1)
  if 1 ≤ name && (rest.drop name).head? == some '@' then
    match hostLength? (host.length + 1) host with
    | none => none
    | some length =>
        if (host.drop length).head? == some '>' then some (1 + name + 1 + length + 1) else none
  else none

/-- The length of an address in angle brackets, of which the first one has been read. -/
def address? (rest : List Char) : Option Nat :=
  (webAddress? rest).or (mailAddress? rest)

end Refill.Markdown
