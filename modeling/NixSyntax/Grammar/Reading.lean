import NixSyntax.Grammar.Operand

/-!
# From tokens to a tree

The forms of the language refer to one another only through the rule for operands. Here that rule
is made from them, and with it a whole list of tokens becomes a `Program`.

## How the nesting is bounded

A form takes at least one token before it asks for an operand, and the tokens of an interpolation
are fewer than those of a list that holds it. So `operandUpTo n` reads an operand of at most `n`
tokens, counted at every depth, and leaves the operands inside it to `operandUpTo (n - 1)`. With
no tokens there is no operand, which is what the rule says when its bound is used up.

## Main definitions

* `Grammar.operandUpTo`: an operand of a bounded number of tokens
* `Program.ofTokens`: the program that a list of tokens is
-/

namespace NixSyntax

namespace Grammar

/-- An operand of at most `n` tokens, those inside interpolations included. -/
def operandUpTo : Nat → Context → Rule Operand
  | 0, _, ts => refuse .unexpectedToken ts
  | n + 1, ctx, ts => operandWith (operandUpTo n) ctx ts

/-- Where a list of tokens ends. -/
def endOf (ts : List Token) : Position :=
  match ts.getLast? with
  | some t => t.span.stop
  | none => Position.start

end Grammar

/-- The program that a list of tokens is. The tokens need not have been read from a text. -/
def Program.ofTokens (ts : List Token) : Except ParseFault Program :=
  match Grammar.complete (Grammar.operandUpTo (countTokens ts)) ts with
  | .ok body => .ok ⟨body, body.span⟩
  | .error s => .error (s.settle (Grammar.endOf ts))

end NixSyntax
