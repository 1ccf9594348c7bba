import NixSyntax.Token.Basic

/-!
# Operators

The operators between two operands, with the tiers in which they bind, and the two operators in
front of one.

## Main definitions

* `BinaryOp`, `BinaryOp.tier`, `BinaryOp.text`: the operators, how tightly they bind, and their
  spelling
* `Symbol.binaryOp?`, `Token.binaryOp?`: the operator that a mark or a token is
* `Operator`: an operator with its place
* `UnaryOp`: the operators in front of an operand

## Implementation notes

The word `or` is an operator although it is a keyword, so it has no `Symbol`. It shares the tier
of the selecting dot.
-/

namespace NixSyntax

/-- The operators between two operands. -/
inductive BinaryOp where
  /-- The dot. -/
  | select
  /-- The question mark. -/
  | has
  | concat
  | mul
  | div
  | add
  | sub
  /-- Two slashes. -/
  | update
  | less
  | lessEqual
  | greater
  | greaterEqual
  | equal
  | notEqual
  | and
  | or
  /-- The arrow. -/
  | implies
  /-- The word `or`. -/
  | fallback
deriving Repr, DecidableEq

namespace BinaryOp

/-- How tightly an operator binds. A smaller tier binds tighter. -/
def tier : BinaryOp → Nat
  | select => 1
  | fallback => 1
  | has => 4
  | concat => 5
  | mul => 6
  | div => 6
  | add => 7
  | sub => 7
  | update => 9
  | less => 10
  | lessEqual => 10
  | greater => 10
  | greaterEqual => 10
  | equal => 11
  | notEqual => 11
  | and => 12
  | or => 13
  | implies => 13

/-- The spelling of an operator. -/
def text : BinaryOp → String
  | select => "."
  | has => "?"
  | concat => "++"
  | mul => "*"
  | div => "/"
  | add => "+"
  | sub => "-"
  | update => "//"
  | less => "<"
  | lessEqual => "<="
  | greater => ">"
  | greaterEqual => ">="
  | equal => "=="
  | notEqual => "!="
  | and => "&&"
  | or => "||"
  | implies => "->"
  | fallback => "or"

/-- Tiers begin with `1`, and the tier `0` is left for where there is no operator yet. -/
theorem tier_pos (op : BinaryOp) : 0 < op.tier := by
  cases op <;> decide

end BinaryOp

/-- The operator that a mark is between two operands. -/
def Symbol.binaryOp? : Symbol → Option BinaryOp
  | .dot => some .select
  | .question => some .has
  | .concat => some .concat
  | .star => some .mul
  | .slash => some .div
  | .plus => some .add
  | .minus => some .sub
  | .update => some .update
  | .less => some .less
  | .lessEqual => some .lessEqual
  | .greater => some .greater
  | .greaterEqual => some .greaterEqual
  | .equal => some .equal
  | .notEqual => some .notEqual
  | .and => some .and
  | .or => some .or
  | .arrow => some .implies
  | _ => none

/-- The operator that a token is between two operands. -/
def Token.binaryOp? : Token → Option BinaryOp
  | ⟨.symbol s, _⟩ => s.binaryOp?
  | ⟨.keyword .or, _⟩ => some .fallback
  | _ => none

/-- An operator with its place. -/
structure Operator where
  /-- The operator. -/
  op : BinaryOp
  /-- Where it stands. -/
  span : Span
deriving Repr, DecidableEq

/-- The operators in front of an operand. -/
inductive UnaryOp where
  /-- The exclamation mark. -/
  | not
  /-- The minus sign. In front of a numeric literal it is a part of the literal instead. -/
  | negate
deriving Repr, DecidableEq

end NixSyntax
