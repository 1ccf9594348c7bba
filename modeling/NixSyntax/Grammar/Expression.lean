import NixSyntax.Grammar.Chain
import NixSyntax.Grammar.Rule

/-!
# Expressions

An expression is a chain of operands with operators between them. What an operand is, the other
modules of the grammar say, and they need expressions for it. So the rule for operands is a
parameter here and in all of them, `operand`, and none of their rules refers to itself; the module
`Grammar.Reading` ties the knot.

## Who takes the comments

An operand takes all comments in front of its term and all comments behind it, so where an
expression has ended no comment and no line break is left. A form looks for comments itself only
where no operand is next to them: around names, in front of a closing bracket that follows a
separator or nothing, and around the parts of a pattern.

## Main definitions

* `Context`: whether an operand may be followed by arguments
* `expression`: a chain of operands
* `complete`: an expression that is all there is
* `interpolationOf`: the expression of an interpolation
-/

namespace NixSyntax

namespace Grammar

/-- Where an operand stands. -/
inductive Context where
  /-- In a chain. It takes what stands behind it as its arguments. -/
  | chain
  /-- In a list, among arguments, or behind `import`. It takes no arguments. -/
  | single
deriving Repr, DecidableEq

variable (operand : Context → Rule Operand)

/-- An operator with the operand behind it. -/
def link : Rule (Option (Operator × Operand))
  | [] => .ok (none, [])
  | t :: rest =>
    match t.binaryOp? with
    | some op => do
      let (o, ts) ← operand .chain rest
      return (some (⟨op, t.span⟩, o), ts)
    | none => .ok (none, t :: rest)

/-- An expression: a chain of operands. -/
def expression : Rule Expr := fun ts => do
  let (first, ts) ← operand .chain ts
  let (links, ts) ← repeated (link operand) ts
  return (assemble first links, ts)

/-- An expression behind which the input ends. -/
def complete (ts : List Token) : Except Stuck Expr := do
  let (body, ts) ← expression operand ts
  if atEnd ts then return body else refuse .unexpectedToken ts

/-- The interpolation with the given tokens. They are a program of their own, which ends where the
interpolation does. -/
def interpolationOf (tokens : List Token) (span : Span) : Except Stuck Interpolation :=
  match complete operand tokens with
  | .ok body => .ok ⟨body, span⟩
  | .error s => .error ⟨s.cause, some (s.settle span.stop).token⟩

end Grammar

end NixSyntax
