import NixSyntax.Token.Lexeme

/-!
# From text to tokens

A source text becomes a list of tokens that ends with the end of input, or a `LexFault` that says
what is wrong and where. The flat tokens are those of `plainToken`; this module adds strings and
interpolations, which hold tokens in turn, and counts positions along.

## How the nesting is bounded

The text inside an interpolation is shorter than the text it stands in, since `${` is in front of
it. So `token n` reads one token of a text of at most `n` characters, and what it does with
interpolations it leaves to `token (n - 1)`. Only that one definition refers to itself. All
others take the reader of inner tokens as a parameter, and a fact about it carries over to them
one by one.

The same bound limits each loop, since every round takes at least one character. A bound that is
used up means that no character is left, and then every loop stops in the way it stops at the end
of a text. Hence a larger bound never changes an answer.

## Main definitions

* `Cursor`: the characters still to be read, and the position of the first of them
* `LexFault`: what is wrong with a text, and where
* `Lexical.interpolation`, `Lexical.stringToken`: the tokens that hold tokens
* `Lexical.token`: one token at any depth of nesting
* `tokenize`: all tokens of a source text
-/

namespace NixSyntax

/-- Why and where no token could be read. -/
structure LexFault where
  /-- What is wrong. -/
  cause : LexCause
  /-- Where it is wrong. -/
  span : Span
deriving Repr, DecidableEq

/-- A place in a text that is being read. -/
structure Cursor where
  /-- The characters from here on. -/
  rest : List Char
  /-- Where the first of them stands. -/
  pos : Position

namespace Cursor

/-- The byte order mark, which may stand in front of a text and belongs to no line of it. -/
def byteOrderMark : Char := '\uFEFF'

/-- The front of a text. A byte order mark counts into the offset and into no column. -/
def ofText : List Char → Cursor
  | c :: cs =>
    if c = byteOrderMark then ⟨cs, { Position.start with offset := c.utf8Size }⟩
    else ⟨c :: cs, Position.start⟩
  | [] => ⟨[], Position.start⟩

/-- The place behind what `l` covers. -/
def past {α : Type} (c : Cursor) (l : Lexeme α) : Cursor :=
  ⟨l.rest, c.pos.advance l.text⟩

/-- The place behind the next `n` characters. -/
def skip (n : Nat) (c : Cursor) : Cursor :=
  ⟨c.rest.drop n, c.pos.advance (c.rest.take n)⟩

/-- The place of the next token. -/
def skipBlanks (c : Cursor) : Cursor :=
  c.past (Lexical.blanks c.rest)

/-- The stretch from `start` up to here. -/
def spanFrom (c : Cursor) (start : Position) : Span :=
  ⟨start, c.pos⟩

end Cursor

namespace Lexical

/-- A reader of one token: the token and the place behind it. -/
abbrev TokenReader := Cursor → Except LexFault (Token × Cursor)

/-- The tokens of an interpolation that began at `start`, up to the brace that closes it. `depth`
of the braces inside are still open, and at most `n` characters are left. -/
def untilBrace (inner : TokenReader) (start : Position) :
    Nat → Nat → Cursor → Except LexFault (List Token × Cursor)
  | 0, _, c => .error ⟨.unterminatedInterpolation, c.spanFrom start⟩
  | n + 1, depth, c => do
    let (t, c) ← inner c
    match t.kind, depth with
    | .endOfInput, _ => .error ⟨.unterminatedInterpolation, c.spanFrom start⟩
    | .symbol .openBrace, _ =>
      let (ts, c) ← untilBrace inner start n (depth + 1) c
      return (t :: ts, c)
    | .symbol .closeBrace, 0 => return ([], c)
    | .symbol .closeBrace, depth + 1 =>
      let (ts, c) ← untilBrace inner start n depth c
      return (t :: ts, c)
    | _, _ =>
      let (ts, c) ← untilBrace inner start n depth c
      return (t :: ts, c)

/-- An interpolation, in front of its `${`: the tokens inside, the stretch of the whole, and the
place behind it. -/
def interpolation (n : Nat) (inner : TokenReader) (c : Cursor) :
    Except LexFault (List Token × Span × Cursor) := do
  let (ts, stop) ← untilBrace inner c.pos n 0 (c.skip 2)
  return (ts, stop.spanFrom c.pos, stop)

/-- The parts of a string that began at `start`, and the place behind its closing delimiter. Text
and interpolations take turns, beginning and ending with text. At most `n` characters are left. -/
def stringFragments (bound : Nat) (inner : TokenReader) (multiline : Bool) (start : Position) :
    Nat → Cursor → Except LexFault (List StringFragment × Cursor)
  | 0, c => .error ⟨.unterminatedString, c.spanFrom start⟩
  | n + 1, c =>
    let l := stringText multiline c.rest
    let c := c.past l
    if ['$', '{'].isPrefixOf c.rest then do
      let (ts, span, c) ← interpolation bound inner c
      let (parts, c) ← stringFragments bound inner multiline start n c
      return (.text (String.ofList l.value) :: .interpolation ts span :: parts, c)
    else if (delimiter multiline).isPrefixOf c.rest then
      return ([.text (String.ofList l.value)], c.skip (delimiter multiline).length)
    else .error ⟨.unterminatedString, c.spanFrom start⟩

/-- A string, in front of its opening delimiter. -/
def stringToken (n : Nat) (inner : TokenReader) (multiline : Bool) : TokenReader := fun c => do
  let (parts, stop) ←
    stringFragments n inner multiline c.pos n (c.skip (delimiter multiline).length)
  return (⟨.string parts multiline, stop.spanFrom c.pos⟩, stop)

/-- A token that holds no tokens and begins with the character `ch`, in front of `cs`. -/
def plainTokenAt (ch : Char) (cs : List Char) : TokenReader := fun c =>
  let l := plainToken ch cs
  let stop := c.past l
  match l.value with
  | .ok kind => .ok (⟨kind, stop.spanFrom c.pos⟩, stop)
  | .error cause => .error ⟨cause, stop.spanFrom c.pos⟩

/-- The token at a place with no blanks in front of it. -/
def tokenAt (n : Nat) (inner : TokenReader) : TokenReader := fun c =>
  match c.rest with
  | [] => .ok (⟨.endOfInput, .point c.pos⟩, c)
  | ch :: cs =>
    if ['$', '{'].isPrefixOf (ch :: cs) then do
      let (ts, span, stop) ← interpolation n inner c
      return (⟨.interpolation ts, span⟩, stop)
    else if (delimiter false).isPrefixOf (ch :: cs) then stringToken n inner false c
    else if (delimiter true).isPrefixOf (ch :: cs) then stringToken n inner true c
    else plainTokenAt ch cs c

/-- The next token of a text of which at most `n` characters are left. -/
def token : Nat → TokenReader
  | 0, c => .ok (⟨.endOfInput, .point c.pos⟩, c)
  | n + 1, c => tokenAt n (token n) c.skipBlanks

/-- All tokens from a place on, where at most `n` characters are left. -/
def tokensFrom (reader : TokenReader) : Nat → Cursor → Except LexFault (List Token)
  | 0, c => .ok [⟨.endOfInput, .point c.pos⟩]
  | n + 1, c => do
    let (t, c) ← reader c
    if t.isEnd then return [t]
    else
      let ts ← tokensFrom reader n c
      return t :: ts

end Lexical

/-- The tokens of a source text. The last of them, and no other, is the end of input. -/
def tokenize (source : String) : Except LexFault (List Token) :=
  let c := Cursor.ofText source.toList
  Lexical.tokensFrom (Lexical.token c.rest.length) c.rest.length c

/-- The text of a lexical fault without its place. -/
def LexCause.message : LexCause → String
  | unknownOperator text => "unknown operator: " ++ text
  | unexpectedCharacter c => "unexpected character: " ++ String.singleton c
  | unterminatedString => "unterminated string"
  | unterminatedInterpolation => "unterminated interpolation, expected '\x7d'"
  | unterminatedComment => "unterminated block comment, expected '*/'"
  | invalidNumber text => "invalid number: " ++ text

/-- The place of a fault in words. -/
def Position.inWords (p : Position) : String :=
  "at line " ++ toString p.line ++ ", column " ++ toString p.column

/-- The text of a lexical fault. -/
def LexFault.message (f : LexFault) : String :=
  f.cause.message ++ " " ++ f.span.start.inWords

end NixSyntax
