import NixSyntax.Grammar.Reading
import NixSyntax.Token.Description
import NixSyntax.Token.Stream

/-!
# Reading a source, and what can be wrong with it

A source text is first cut into tokens and then read as a program. The first fault that is met in
either step is the answer, so a text with a lexical fault is never read as a program.

## Main definitions

* `ParseCause.message`, `ParseFault.message`: what is wrong with a list of tokens, in words
* `Fault`: a fault of either step, with its place and its message
* `Program.ofText`: the program that a source text is

## Main statements

* `Program.ofText_eq_ok_iff`: a program is read in the two steps and in no other way
-/

namespace NixSyntax

/-- The text of a fault of the grammar without its place. -/
def ParseCause.message : ParseCause → String
  | expected wanted => "expected " ++ wanted.describe
  | unexpectedToken => "unexpected token"
  | unexpectedKeyword _ => "unexpected keyword"
  | expectedName => "expected identifier"
  | expectedSeparator => "expected ',' or '\x7d' after parameter"

/-- The text of a fault of the grammar. -/
def ParseFault.message (f : ParseFault) : String :=
  f.cause.message ++ ", found " ++ f.token.kind.describe ++ " " ++ f.token.span.start.inWords

/-- What is wrong with a source text. -/
inductive Fault where
  /-- It cannot be cut into tokens. -/
  | lexical (fault : LexFault)
  /-- Its tokens are no program. -/
  | grammatical (fault : ParseFault)

namespace Fault

/-- Where the fault is. -/
def span : Fault → Span
  | lexical f => f.span
  | grammatical f => f.token.span

/-- The text of the fault. -/
def message : Fault → String
  | lexical f => f.message
  | grammatical f => f.message

end Fault

/-- The program that a source text is. -/
def Program.ofText (source : String) : Except Fault Program := do
  let ts ← (tokenize source).mapError .lexical
  (Program.ofTokens ts).mapError .grammatical

/-- Naming the faults of another kind takes no answer away and adds none. -/
theorem mapError_eq_ok_iff {α ε ε' : Type} {x : Except ε α} {f : ε → ε'} {a : α} :
    x.mapError f = .ok a ↔ x = .ok a := by
  cases x with
  | error e => exact iff_of_false nofun nofun
  | ok b =>
    constructor
    all_goals
      intro h
      cases h
      rfl

/-- A source is a program exactly when it can be cut into tokens and the tokens are one. -/
theorem Program.ofText_eq_ok_iff {source : String} {p : Program} :
    ofText source = .ok p ↔ ∃ ts, tokenize source = .ok ts ∧ ofTokens ts = .ok p := by
  constructor
  · intro h
    cases ht : tokenize source with
    | error f =>
      rw [ofText, ht] at h
      cases h
    | ok ts =>
      rw [ofText, ht] at h
      exact ⟨ts, rfl, mapError_eq_ok_iff.mp h⟩
  · rintro ⟨ts, ht, hp⟩
    rw [ofText, ht]
    exact mapError_eq_ok_iff.mpr hp

end NixSyntax
