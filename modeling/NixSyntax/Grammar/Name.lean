import NixSyntax.Grammar.Expression

/-!
# Strings and names

Strings with their interpolations, and names. An attribute is named by a plain name, a string or
an interpolation, or by several of these with dots between them. Nothing else may stand between a
name and a dot: behind a line break or a comment, a dot is an operator.

## Main definitions

* `stringOf`: a string
* `segment`, `attrPath`: one name, and names joined by dots
-/

namespace NixSyntax

namespace Grammar

variable (operand : Context → Rule Operand)

/-- The parts of a string. -/
def partsOf : List StringFragment → Except Stuck (List StringPart)
  | [] => .ok []
  | .text content :: rest => do
    let parts ← partsOf rest
    return .text content :: parts
  | .interpolation tokens span :: rest => do
    let content ← interpolationOf operand tokens span
    let parts ← partsOf rest
    return .interpolation content :: parts

/-- The string with the given parts. -/
def stringOf (fragments : List StringFragment) (multiline : Bool) (span : Span) :
    Except Stuck StringLiteral := do
  let parts ← partsOf operand fragments
  return ⟨parts, multiline, span⟩

/-- One name of a path of names, with its place. -/
def segment : Rule (Segment × Span)
  | ⟨.identifier name, span⟩ :: ts => .ok ((.name name, span), ts)
  | ⟨.string fragments multiline, span⟩ :: ts => do
    let literal ← stringOf operand fragments multiline span
    return ((.string literal, span), ts)
  | ⟨.interpolation tokens, span⟩ :: ts => do
    let content ← interpolationOf operand tokens span
    return ((.interpolation content, span), ts)
  | ts => refuse .expectedName ts

/-- A dot and the name behind it. -/
def dottedSegment : Rule (Option (Segment × Span))
  | ⟨.symbol .dot, _⟩ :: ts => do
    let (s, ts) ← segment operand ts
    return (some s, ts)
  | ts => .ok (none, ts)

/-- A name, or several joined by dots. -/
def attrPath : Rule AttrPath := fun ts => do
  let ((first, start), ts) ← segment operand ts
  let (more, ts) ← repeated (dottedSegment operand) ts
  return (⟨first :: more.map (·.1), [], more.foldl (fun s m => s.join m.2) start⟩, ts)

end Grammar

end NixSyntax
