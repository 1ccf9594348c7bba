import NixSyntax.Position
import NixSyntax.Token.Keyword
import NixSyntax.Token.Symbol

/-!
# Tokens

The words of the language with their places. Line breaks and comments are tokens too: the tree
keeps the comments, and a few constructs care whether two tokens touch.

## Nesting

An interpolation `${ … }` is one token, and the tokens inside it are kept with it as a list of
their own, without the closing brace. It stands alone or as a part of a string. So tokens nest,
and `countTokens` counts through the nesting; it is what bounds the depth of anything that walks
into interpolations.

## Main definitions

* `TokenKind`, `StringFragment`, `Token`: the three types that nest in one another
* `Comment`: a comment with its place
* `Token.isTrivia`: line breaks and comments
* `Token.comment?`: the comment a token is
* `countTokens`: the number of tokens of a list, those inside interpolations included

## Implementation notes

Nothing here says that a list of tokens could have been read from a text. A string's fragments
need not alternate, and the end of input may stand anywhere.
-/

namespace NixSyntax

mutual

/-- What a token is. -/
inductive TokenKind where
  /-- The end of the text. -/
  | endOfInput
  /-- A line break. -/
  | newline
  /-- A comment, without its delimiters. `block` tells the two forms apart. -/
  | comment (text : String) (block : Bool)
  /-- The word `null`. -/
  | null
  /-- One of the words `true` and `false`. -/
  | bool (value : Bool)
  /-- A string. `multiline` tells the form in two single quotes from the one in double quotes. -/
  | string (parts : List StringFragment) (multiline : Bool)
  /-- A whole number. -/
  | int (value : Int64)
  /-- A number with a fraction. -/
  | float (value : Float)
  /-- A path, with its backslashes resolved. -/
  | path (value : String)
  /-- A reserved word. -/
  | keyword (word : Keyword)
  /-- A name. -/
  | identifier (name : String)
  /-- A mark. -/
  | symbol (mark : Symbol)
  /-- An interpolation outside of strings, with the tokens between its braces. -/
  | interpolation (tokens : List Token)

/-- A part of a string. -/
inductive StringFragment where
  /-- Text, with its backslashes resolved. -/
  | text (content : String)
  /-- An interpolation, with the tokens between its braces. -/
  | interpolation (tokens : List Token) (span : Span)

/-- A token with its place. -/
structure Token where
  /-- What the token is. -/
  kind : TokenKind
  /-- Where the token stands. -/
  span : Span

end

/-- A comment with its place. The text stands without the delimiters. -/
structure Comment where
  /-- What stands between the delimiters. -/
  text : String
  /-- Whether the comment is in the block form. -/
  block : Bool
  /-- Where the comment stands, delimiters included. -/
  span : Span
deriving Repr, DecidableEq

namespace Token

/-- Line breaks. -/
def isNewline : Token → Bool
  | ⟨.newline, _⟩ => true
  | _ => false

/-- Line breaks and comments. -/
def isTrivia : Token → Bool
  | ⟨.newline, _⟩ => true
  | ⟨.comment _ _, _⟩ => true
  | _ => false

/-- Whether a token ends the input. -/
def isEnd : Token → Bool
  | ⟨.endOfInput, _⟩ => true
  | _ => false

/-- The comment that a token is. -/
def comment? : Token → Option Comment
  | ⟨.comment text block, span⟩ => some ⟨text, block, span⟩
  | _ => none

/-- The keyword that a token is. -/
def keyword? : Token → Option Keyword
  | ⟨.keyword word, _⟩ => some word
  | _ => none

/-- Line breaks are trivia. -/
theorem isTrivia_of_isNewline {t : Token} (h : t.isNewline = true) : t.isTrivia = true := by
  unfold isNewline at h
  split at h <;> simp_all [isTrivia]

end Token

mutual

/-- The number of tokens of a list, those inside interpolations included. -/
def countTokens : List Token → Nat
  | [] => 0
  | t :: ts => t.count + countTokens ts

/-- The number of tokens that a token brings: itself and those inside its interpolations. -/
def Token.count : Token → Nat
  | ⟨kind, _⟩ => kind.innerCount + 1

/-- The number of tokens inside the interpolations of a token. -/
def TokenKind.innerCount : TokenKind → Nat
  | .string parts _ => countFragments parts
  | .interpolation tokens => countTokens tokens
  | _ => 0

/-- The number of tokens inside the interpolations of a list of string parts. -/
def countFragments : List StringFragment → Nat
  | [] => 0
  | part :: parts => part.count + countFragments parts

/-- The number of tokens inside a string part. -/
def StringFragment.count : StringFragment → Nat
  | .text _ => 0
  | .interpolation tokens _ => countTokens tokens

end

/-- A token counts for itself, besides the tokens inside it. -/
theorem Token.count_pos (t : Token) : 0 < t.count := by
  cases t
  simp [Token.count]

@[simp] theorem countTokens_nil : countTokens [] = 0 := by
  simp [countTokens]

@[simp] theorem countTokens_cons (t : Token) (ts : List Token) :
    countTokens (t :: ts) = t.count + countTokens ts := by
  simp [countTokens]

theorem countTokens_append (ts us : List Token) :
    countTokens (ts ++ us) = countTokens ts + countTokens us := by
  induction ts with
  | nil => simp
  | cons t ts ih => simp [ih, Nat.add_assoc]

/-- A list has at least as many tokens as members. -/
theorem length_le_countTokens (ts : List Token) : ts.length ≤ countTokens ts := by
  induction ts with
  | nil => simp
  | cons t ts ih =>
    have := t.count_pos
    simp
    omega

end NixSyntax
