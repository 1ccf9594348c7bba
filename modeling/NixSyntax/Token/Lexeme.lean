import NixSyntax.Decimal.Binary64
import NixSyntax.Text.Character
import NixSyntax.Token.Basic

/-!
# Lexemes

How each token that holds no other tokens is read off the front of a text. Everything here works
on characters alone and knows nothing of positions: a `Lexeme` says which characters it covers,
and the reader of whole texts counts them.

## The covering contract

Every scanner of this module splits its text in two, `text ++ rest`, and leaves nothing out; the
lemmas `append_blanks`, `append_plainToken` and so on state it. Together with the rule that a
position moves by exactly the covered characters, it is why no part of a source can go missing
between two tokens.

## Main definitions

* `Lexeme`: what was read, the characters it covers, and the characters behind it
* `LexCause`: why no token could be read
* `blanks`: the blanks in front of the next token
* `word`, `path`, `number`, `operator`, `lineComment`, `blockComment`: the forms of tokens
* `plainToken`: a token that is neither a string nor an interpolation
* `stringText`: the text of a string up to its end or its next interpolation

## Implementation notes

Each form is read as far as it goes. For an operator this is done one character at a time, as
long as some entry of the table `Symbol.operators` begins with what was read, and only the result
is looked up. The table has entries of which no shorter one exists, such as `||`, so the lookup
can fail.
-/

namespace NixSyntax

/-- What was read from the front of a text. -/
structure Lexeme (α : Type) where
  /-- What the characters spell. -/
  value : α
  /-- The characters that were read. -/
  text : List Char
  /-- The characters behind them. -/
  rest : List Char

namespace Lexeme

/-- A lexeme with other characters read in front of it. -/
def before {α : Type} (value : List α) (text : List Char) (l : Lexeme (List α)) :
    Lexeme (List α) :=
  ⟨value ++ l.value, text ++ l.text, l.rest⟩

/-- The longest stretch of characters of one class. -/
def run (p : Char → Bool) (cs : List Char) : Lexeme (List Char) :=
  ⟨cs.takeWhile p, cs.takeWhile p, cs.dropWhile p⟩

/-- What is put in front of a lexeme is covered with it. -/
theorem append_before {α : Type} (value : List α) (text : List Char) (l : Lexeme (List α)) :
    (l.before value text).text ++ (l.before value text).rest = text ++ (l.text ++ l.rest) := by
  simp [before]

@[simp] theorem append_run (p : Char → Bool) (cs : List Char) :
    (run p cs).text ++ (run p cs).rest = cs :=
  List.takeWhile_append_dropWhile

end Lexeme

/-- Why no token could be read. -/
inductive LexCause where
  /-- An operator was begun that is not in the table. -/
  | unknownOperator (text : String)
  /-- No token begins with this character. -/
  | unexpectedCharacter (c : Char)
  /-- A string does not end. -/
  | unterminatedString
  /-- An interpolation does not end. -/
  | unterminatedInterpolation
  /-- A block comment does not end. -/
  | unterminatedComment
  /-- A whole number is too large. -/
  | invalidNumber (text : String)
deriving Repr, DecidableEq

namespace Lexical

/-! ### Blanks -/

/-- The blanks at the front of a text, up to a line break. -/
def blanks : List Char → Lexeme Unit
  | [] => ⟨(), [], []⟩
  | c :: cs =>
    if isBlank c && !startsLineBreak (c :: cs) then
      let l := blanks cs
      ⟨(), c :: l.text, l.rest⟩
    else ⟨(), [], c :: cs⟩

/-! ### The forms of tokens -/

/-- The token that a word is: one of the named values, a keyword, or a name. -/
def wordKind (w : String) : TokenKind :=
  if w = "null" then .null
  else if w = "true" then .bool true
  else if w = "false" then .bool false
  else match Keyword.ofWord? w with
    | some k => .keyword k
    | none => .identifier w

/-- A word: a name, a keyword, or a named value. -/
def word (cs : List Char) : Lexeme TokenKind :=
  let l := Lexeme.run isNameChar cs
  ⟨wordKind (String.ofList l.text), l.text, l.rest⟩

/-- A path behind its first character. A backslash takes the next character, or the line break of
two characters, as it is; behind the last backslash of a text there is nothing to take. -/
def pathTail : List Char → Lexeme (List Char)
  | '\\' :: '\r' :: '\n' :: cs => (pathTail cs).before ['\r', '\n'] ['\\', '\r', '\n']
  | '\\' :: c :: cs => (pathTail cs).before [c] ['\\', c]
  | ['\\'] => ⟨[], ['\\'], []⟩
  | c :: cs => if isPathChar c then (pathTail cs).before [c] [c] else ⟨[], [], c :: cs⟩
  | [] => ⟨[], [], []⟩

/-- A path that begins with `c`. -/
def path (c : Char) (cs : List Char) : Lexeme TokenKind :=
  let l := (pathTail cs).before [c] [c]
  ⟨.path (String.ofList l.value), l.text, l.rest⟩

/-- The largest whole number a literal can write. -/
def maxInt : Nat := Nat.pow 2 63 - 1

/-- The value of a literal without a fraction. -/
def intKind (digits : List Char) : Except LexCause TokenKind :=
  if decimalValue digits ≤ maxInt then .ok (.int (Int64.ofNat (decimalValue digits)))
  else .error (.invalidNumber (String.ofList digits))

/-- A numeric literal. A point belongs to it only in front of a digit, and only once. -/
def number (cs : List Char) : Lexeme (Except LexCause TokenKind) :=
  let whole := Lexeme.run Char.isDigit cs
  match whole.rest with
  | '.' :: d :: rest =>
    if d.isDigit then
      let fraction := Lexeme.run Char.isDigit (d :: rest)
      ⟨.ok (.float (floatOfDigits whole.text fraction.text)),
        whole.text ++ '.' :: fraction.text, fraction.rest⟩
    else ⟨intKind whole.text, whole.text, whole.rest⟩
  | _ => ⟨intKind whole.text, whole.text, whole.rest⟩

/-- Whether some operator begins with the given characters. -/
def beginsOperator (cs : List Char) : Bool :=
  Symbol.operators.any fun s => cs.isPrefixOf s.spelling

/-- The characters that go on with an operator of which `taken` was read: as many as some operator
begins with. -/
def growOperator (taken : List Char) : List Char → Lexeme (List Char)
  | [] => ⟨[], [], []⟩
  | c :: cs =>
    if beginsOperator (taken ++ [c]) then (growOperator (taken ++ [c]) cs).before [c] [c]
    else ⟨[], [], c :: cs⟩

/-- An operator that begins with `c`. -/
def operator (c : Char) (cs : List Char) : Lexeme (Except LexCause TokenKind) :=
  let l := (growOperator [c] cs).before [c] [c]
  match Symbol.ofSpelling? l.value with
  | some s => ⟨.ok (.symbol s), l.text, l.rest⟩
  | none => ⟨.error (.unknownOperator (String.ofList l.value)), l.text, l.rest⟩

/-- What is left of a line, up to its line break. -/
def lineTail : List Char → Lexeme (List Char)
  | [] => ⟨[], [], []⟩
  | c :: cs =>
    if startsLineBreak (c :: cs) then ⟨[], [], c :: cs⟩ else (lineTail cs).before [c] [c]

/-- A comment to the end of the line, behind its `#`. -/
def lineComment (cs : List Char) : Lexeme TokenKind :=
  let l := lineTail cs
  ⟨.comment (String.ofList l.value) false, '#' :: l.text, l.rest⟩

/-- The text up to the first `*/`, and what stands behind it. -/
def blockTail : List Char → Option (List Char × List Char)
  | '*' :: '/' :: cs => some ([], cs)
  | c :: cs => (blockTail cs).map fun (text, rest) => (c :: text, rest)
  | [] => none

/-- A block comment, behind its `/*`. -/
def blockComment (cs : List Char) : Lexeme (Except LexCause TokenKind) :=
  match blockTail cs with
  | some (text, rest) =>
    ⟨.ok (.comment (String.ofList text) true), '/' :: '*' :: (text ++ ['*', '/']), rest⟩
  | none => ⟨.error .unterminatedComment, '/' :: '*' :: cs, []⟩

/-- A line break, in either form. -/
def lineBreak : List Char → Lexeme TokenKind
  | '\r' :: '\n' :: cs => ⟨.newline, ['\r', '\n'], cs⟩
  | c :: cs => ⟨.newline, [c], cs⟩
  | [] => ⟨.newline, [], []⟩

/-- The brackets and the semicolon. -/
def bracket? : Char → Option Symbol
  | '(' => some .openParen
  | ')' => some .closeParen
  | '{' => some .openBrace
  | '}' => some .closeBrace
  | '[' => some .openBracket
  | ']' => some .closeBracket
  | ';' => some .semicolon
  | _ => none

/-- Whether a path begins with `c` when `cs` follows. Two slashes are an operator instead. -/
def startsPath (c : Char) : List Char → Bool
  | d :: _ => isPathStart c && isPathChar d && !(c == '/' && d == '/')
  | [] => false

/-- Whether a dot is a mark of its own when `cs` follows, and begins neither a path nor the three
dots of an ellipsis. -/
def isLoneDot : List Char → Bool
  | '/' :: _ => false
  | '.' :: _ => false
  | _ => true

/-- A token that is neither a string nor an interpolation and begins with `c`. -/
def plainToken (c : Char) (cs : List Char) : Lexeme (Except LexCause TokenKind) :=
  match bracket? c with
  | some s => ⟨.ok (.symbol s), [c], cs⟩
  | none =>
    if startsLineBreak (c :: cs) then
      let l := lineBreak (c :: cs)
      ⟨.ok l.value, l.text, l.rest⟩
    else if isNameStart c then
      let l := word (c :: cs)
      ⟨.ok l.value, l.text, l.rest⟩
    else if c = '.' && isLoneDot cs then ⟨.ok (.symbol .dot), [c], cs⟩
    else if c = '.' && ['.', '.'].isPrefixOf cs then operator c cs
    else if c = '/' && ['*'].isPrefixOf cs then blockComment (cs.drop 1)
    else if startsPath c cs then
      let l := path c cs
      ⟨.ok l.value, l.text, l.rest⟩
    else if c.isDigit then number (c :: cs)
    else if isOperatorStart c then operator c cs
    else if c = '#' then
      let l := lineComment cs
      ⟨.ok l.value, l.text, l.rest⟩
    else ⟨.error (.unexpectedCharacter c), [c], cs⟩

/-! ### The text of strings -/

/-- The character that a backslash in front of `c` stands for. -/
def unescape (c : Char) : Char :=
  if c = 'n' then '\n'
  else if c = 'r' then '\r'
  else if c = 't' then '\t'
  else c

/-- The delimiter of a string. -/
def delimiter (multiline : Bool) : List Char :=
  if multiline then ['\'', '\''] else ['"']

/-- The text of a string up to its delimiter, its next interpolation, or the end of the source. -/
def stringText (multiline : Bool) : List Char → Lexeme (List Char)
  | '\\' :: c :: cs => (stringText multiline cs).before [unescape c] ['\\', c]
  | ['\\'] => ⟨[], ['\\'], []⟩
  | c :: cs =>
    if (delimiter multiline).isPrefixOf (c :: cs) || ['$', '{'].isPrefixOf (c :: cs) then
      ⟨[], [], c :: cs⟩
    else (stringText multiline cs).before [c] [c]
  | [] => ⟨[], [], []⟩

/-! ### Nothing is left out

The covering contract, form by form. Each lemma goes along the recursion of its scanner. A form that
is read by another scanner needs the lemma for that one only. -/

theorem append_blanks (cs : List Char) : (blanks cs).text ++ (blanks cs).rest = cs := by
  fun_induction blanks cs with
  | case1 => rfl
  | case2 c cs _ l ih => simpa [l] using ih
  | case3 c cs _ => rfl

theorem append_word (cs : List Char) : (word cs).text ++ (word cs).rest = cs := by
  simp [word]

theorem append_pathTail (cs : List Char) : (pathTail cs).text ++ (pathTail cs).rest = cs := by
  fun_induction pathTail cs <;> simp_all [Lexeme.append_before]

/-- A path is covered with the character that it begins with. -/
theorem append_path (c : Char) (cs : List Char) :
    (path c cs).text ++ (path c cs).rest = c :: cs := by
  simp [path, Lexeme.append_before, append_pathTail]

theorem append_number (cs : List Char) : (number cs).text ++ (number cs).rest = cs := by
  unfold number
  dsimp only
  split
  · rename_i d rest hrest
    split
    · have hrun := Lexeme.append_run Char.isDigit cs
      rw [hrest] at hrun
      simpa using hrun
    · exact Lexeme.append_run Char.isDigit cs
  · exact Lexeme.append_run Char.isDigit cs

theorem append_growOperator (taken cs : List Char) :
    (growOperator taken cs).text ++ (growOperator taken cs).rest = cs := by
  fun_induction growOperator taken cs <;> simp_all [Lexeme.append_before]

theorem append_operator (c : Char) (cs : List Char) :
    (operator c cs).text ++ (operator c cs).rest = c :: cs := by
  unfold operator
  dsimp only
  split <;> simp [Lexeme.append_before, append_growOperator]

theorem append_lineTail (cs : List Char) : (lineTail cs).text ++ (lineTail cs).rest = cs := by
  fun_induction lineTail cs <;> simp_all [Lexeme.append_before]

/-- A block comment is closed by a mark, and the mark is covered with it. -/
theorem eq_append_of_blockTail {cs text rest : List Char} (h : blockTail cs = some (text, rest)) :
    cs = text ++ '*' :: '/' :: rest := by
  fun_induction blockTail cs generalizing text with
  | case1 cs => simp_all
  | case2 c cs _ ih =>
    obtain ⟨⟨text', rest'⟩, htail, heq⟩ := Option.map_eq_some_iff.1 h
    simp only [Prod.mk.injEq] at heq
    obtain ⟨rfl, rfl⟩ := heq
    simp [ih htail]
  | case3 => simp at h

theorem append_blockComment (cs : List Char) :
    (blockComment cs).text ++ (blockComment cs).rest = '/' :: '*' :: cs := by
  unfold blockComment
  split
  · rename_i text rest h
    simp [eq_append_of_blockTail h]
  · simp

theorem append_lineBreak (cs : List Char) : (lineBreak cs).text ++ (lineBreak cs).rest = cs := by
  unfold lineBreak
  split <;> rfl

/-- A plain token and what stands behind it make up the whole text. -/
theorem append_plainToken (c : Char) (cs : List Char) :
    (plainToken c cs).text ++ (plainToken c cs).rest = c :: cs := by
  unfold plainToken
  split
  · rfl
  · split
    · exact append_lineBreak _
    split
    · exact append_word _
    split
    · rfl
    split
    · exact append_operator _ _
    split
    · rename_i h
      cases cs with
      | nil => simp at h
      | cons d cs =>
        obtain ⟨rfl, rfl⟩ : c = '/' ∧ '*' = d := by simpa using h
        exact append_blockComment cs
    split
    · exact append_path _ _
    split
    · exact append_number _
    split
    · exact append_operator _ _
    split
    · rename_i h
      subst h
      simp [lineComment, append_lineTail]
    · rfl

/-- In the text of a string escapes are resolved, and all the characters that they are written with
are covered. -/
theorem append_stringText (multiline : Bool) (cs : List Char) :
    (stringText multiline cs).text ++ (stringText multiline cs).rest = cs := by
  fun_induction stringText multiline cs <;> simp_all [Lexeme.append_before]

end Lexical

end NixSyntax
