import NixSyntax.Tree.Basic

/-!
# Rules of the grammar

A `Rule` reads a piece of tree from the front of a list of tokens and leaves the tokens behind it.
This module has the rules' common ground: what a rule that fails says, how a rule looks past line
breaks and comments, and how a rule is repeated.

## Where a fault is found

A rule that fails names the token it stood at. It cannot name one when no token is left, and it
does not know where its tokens end: those of an interpolation end at the interpolation's closing
brace, those of a source at its end. So `Stuck` leaves the token open, and whoever knows the end
fills it in with `Stuck.settle`.

## Trivia

Line breaks and comments may stand between most tokens. `commentsAhead` and `skipTrivia` belong
together: the first says which comments the second passes over, so a rule that uses both loses
none. `skipNewlines` passes over line breaks only.

## Main definitions

* `ParseCause`, `ParseFault`: why and at which token a list of tokens is no program
* `Stuck`, `Rule`: a fault whose token may be open, and rules
* `skipNewlines`, `skipTrivia`, `commentsAhead`: looking past line breaks and comments
* `expectSymbol`, `expectKeyword`: the rules for one given token
* `repeated`: the repetition of a rule

## Implementation notes

A repetition is bounded by the number of tokens that are left, since every round takes at least
one. All rounds that are repeated here end the repetition when no token is left, so the bound is
never the reason why one ends early.
-/

namespace NixSyntax

/-- Why a list of tokens is no program. -/
inductive ParseCause where
  /-- Another token is required here. -/
  | expected (wanted : TokenKind)
  /-- No expression begins with this token, or none goes on with it. -/
  | unexpectedToken
  /-- No expression begins with this keyword. -/
  | unexpectedKeyword (word : Keyword)
  /-- A name is required here. -/
  | expectedName
  /-- Behind an attribute of a pattern, a comma or the closing brace is required. -/
  | expectedSeparator

/-- Why, and at which token, a list of tokens is no program. -/
structure ParseFault where
  /-- What is wrong. -/
  cause : ParseCause
  /-- The token at which it is wrong. -/
  token : Token

namespace Grammar

/-- A fault at a token, or at the end of the tokens. -/
structure Stuck where
  /-- What is wrong. -/
  cause : ParseCause
  /-- The token at which it is wrong, unless no token is left. -/
  token : Option Token

/-- The fault, when the tokens end at `stop`. -/
def Stuck.settle (stop : Position) (s : Stuck) : ParseFault :=
  ⟨s.cause, s.token.getD ⟨.endOfInput, .point stop⟩⟩

/-- A rule of the grammar: what it reads from the front of the tokens, and the tokens behind. -/
abbrev Rule (α : Type) := List Token → Except Stuck (α × List Token)

/-- The failure at the first of the given tokens. -/
def refuse {α : Type} (cause : ParseCause) (ts : List Token) : Except Stuck α :=
  .error ⟨cause, ts.head?⟩

/-! ### Looking past trivia -/

/-- The tokens behind the line breaks at the front. -/
def skipNewlines (ts : List Token) : List Token :=
  ts.dropWhile Token.isNewline

/-- The tokens behind the line breaks and comments at the front. -/
def skipTrivia (ts : List Token) : List Token :=
  ts.dropWhile Token.isTrivia

/-- The comments among the line breaks and comments at the front. -/
def commentsAhead (ts : List Token) : List Comment :=
  (ts.takeWhile Token.isTrivia).filterMap Token.comment?

/-- Whether the input has ended. -/
def atEnd : List Token → Bool
  | [] => true
  | t :: _ => t.isEnd

/-- Whether the next token behind line breaks and comments is the given mark. -/
def nextIsSymbol (s : Symbol) (ts : List Token) : Bool :=
  match skipTrivia ts with
  | ⟨.symbol s', _⟩ :: _ => s' = s
  | _ => false

/-- Whether the next token behind line breaks and comments is the given keyword. -/
def nextIsKeyword (k : Keyword) (ts : List Token) : Bool :=
  match skipTrivia ts with
  | ⟨.keyword k', _⟩ :: _ => k' = k
  | _ => false

/-! ### Single tokens -/

/-- The given mark, behind any line breaks; its place is read. -/
def expectSymbol (s : Symbol) : Rule Span := fun ts =>
  match skipNewlines ts with
  | ⟨.symbol s', span⟩ :: rest =>
    if s' = s then .ok (span, rest) else refuse (.expected (.symbol s)) (skipNewlines ts)
  | _ => refuse (.expected (.symbol s)) (skipNewlines ts)

/-- The given keyword, behind any line breaks; its place is read. -/
def expectKeyword (k : Keyword) : Rule Span := fun ts =>
  match skipNewlines ts with
  | ⟨.keyword k', span⟩ :: rest =>
    if k' = k then .ok (span, rest) else refuse (.expected (.keyword k)) (skipNewlines ts)
  | _ => refuse (.expected (.keyword k)) (skipNewlines ts)

/-! ### Repetition -/

/-- At most `n` rounds of a rule, up to the first that reads nothing. -/
def rounds {α : Type} (round : Rule (Option α)) : Nat → Rule (List α)
  | 0, ts => .ok ([], ts)
  | n + 1, ts => do
    match ← round ts with
    | (none, ts) => return ([], ts)
    | (some a, ts) =>
      let (as, ts) ← rounds round n ts
      return (a :: as, ts)

/-- The rounds of a rule, up to the first that reads nothing. -/
def repeated {α : Type} (round : Rule (Option α)) : Rule (List α) := fun ts =>
  rounds round ts.length ts

/-! ### Lemmas

What is passed over depends on the token in front: if it is trivia, it is passed, and otherwise
nothing is. -/

@[simp] theorem skipTrivia_nil : skipTrivia [] = [] := rfl

@[simp] theorem commentsAhead_nil : commentsAhead [] = [] := rfl

theorem skipTrivia_cons_of_isTrivia {t : Token} (ts : List Token) (h : t.isTrivia = true) :
    skipTrivia (t :: ts) = skipTrivia ts := by
  simp [skipTrivia, h]

theorem skipTrivia_cons_of_not_isTrivia {t : Token} (ts : List Token) (h : t.isTrivia = false) :
    skipTrivia (t :: ts) = t :: ts := by
  simp [skipTrivia, h]

/-- The token that is found is no trivia. -/
theorem not_isTrivia_of_skipTrivia {t : Token} {ts rest : List Token}
    (h : skipTrivia ts = t :: rest) : t.isTrivia = false := by
  have := List.head?_dropWhile_not Token.isTrivia ts
  rw [show ts.dropWhile Token.isTrivia = t :: rest from h] at this
  simpa using this

/-- Behind all trivia there is none. -/
@[simp] theorem skipTrivia_skipTrivia (ts : List Token) :
    skipTrivia (skipTrivia ts) = skipTrivia ts := by
  cases h : skipTrivia ts with
  | nil => rfl
  | cons t rest => exact skipTrivia_cons_of_not_isTrivia rest (not_isTrivia_of_skipTrivia h)

/-- Behind the trivia no comment is left to pass over. -/
@[simp] theorem commentsAhead_skipTrivia (ts : List Token) :
    commentsAhead (skipTrivia ts) = [] := by
  cases h : skipTrivia ts with
  | nil => rfl
  | cons t rest => simp [commentsAhead, not_isTrivia_of_skipTrivia h]

end Grammar

end NixSyntax
