import NixSyntax.Grammar.Name

/-!
# Bindings

The entries of attribute sets and `let` blocks, and the two forms that hold them.

## Comments

A binding has the comments in front of it and those around its name. Comments behind the last
binding are given to that binding too, and are the form's own only when it has no binding.

## Main definitions

* `binding`: a name with its value, or an `inherit`
* `attachToLast`: comments behind the last binding
* `attrSet`, `letIn`: the forms
-/

namespace NixSyntax

namespace Grammar

/-- Gives comments to the last of some bindings. Without bindings they are left over. -/
def attachToLast (more : List Comment) : List Binding → List Binding × List Comment
  | [] => ([], more)
  | [b] => ([b.addComments more], [])
  | b :: c :: bs =>
    let (bs, left) := attachToLast more (c :: bs)
    (b :: bs, left)

variable (operand : Context → Rule Operand)

/-- What an `inherit` takes its names from, if that is said, and the comments in front of it. -/
def inheritSource : Rule (Option Expr × List Comment) := fun ts =>
  match skipTrivia ts with
  | ⟨.symbol .openParen, _⟩ :: rest => do
    let (source, rest) ← expression operand rest
    let (_, rest) ← expectSymbol .closeParen rest
    return ((some source, commentsAhead ts), rest)
  | _ => .ok ((none, []), ts)

/-- A name that is inherited, with the comments in front of it. -/
def inheritedName : Rule (Option AttrPath) := fun ts =>
  if atEnd (skipTrivia ts) || nextIsSymbol .semicolon ts then .ok (none, ts)
  else do
    let (name, rest) ← attrPath operand (skipTrivia ts)
    return (some { name with comments := commentsAhead ts }, rest)

/-- An `inherit`, behind its keyword. -/
def inheritance (comments : List Comment) (start : Span) : Rule Binding := fun ts => do
  let ((source, more), ts) ← inheritSource operand ts
  let (names, ts) ← repeated (inheritedName operand) ts
  let comments := comments ++ more ++ commentsAhead ts
  let (stop, ts) ← expectSymbol .semicolon (skipTrivia ts)
  return (.inherit source names comments (start.join stop), ts)

/-- A name with its value. -/
def assignment (comments : List Comment) : Rule Binding := fun ts => do
  let (name, ts) ← attrPath operand ts
  let comments := comments ++ commentsAhead ts
  let (_, ts) ← expectSymbol .assign (skipTrivia ts)
  let (value, ts) ← expression operand ts
  let (stop, ts) ← expectSymbol .semicolon ts
  return (.assign name value comments (name.span.join stop), ts)

/-- An entry of an attribute set or a `let` block. -/
def binding : Rule Binding := fun ts =>
  match skipTrivia ts with
  | ⟨.keyword .inherit, start⟩ :: rest => inheritance operand (commentsAhead ts) start rest
  | rest => assignment operand (commentsAhead ts) rest

/-- A binding, unless `closed` says that the bindings have ended. -/
def bindingUnless (closed : List Token → Bool) : Rule (Option Binding) := fun ts =>
  if atEnd (skipTrivia ts) || closed ts then .ok (none, ts)
  else do
    let (b, ts) ← binding operand ts
    return (some b, ts)

/-- An attribute set, behind the opening brace. -/
def attrSet (recursive : Bool) (start : Span) : Rule Term := fun ts => do
  let (bindings, ts) ← repeated (bindingUnless operand (nextIsSymbol .closeBrace)) ts
  let (bindings, comments) := attachToLast (commentsAhead ts) bindings
  let (stop, ts) ← expectSymbol .closeBrace (skipTrivia ts)
  return (.attrSet recursive bindings comments (start.join stop), ts)

/-- A `let` block, behind its keyword. -/
def letIn (start : Span) : Rule Term := fun ts => do
  let (bindings, ts) ← repeated (bindingUnless operand (nextIsKeyword .in_)) ts
  let (bindings, comments) := attachToLast (commentsAhead ts) bindings
  let (_, ts) ← expectKeyword .in_ (skipTrivia ts)
  let (body, ts) ← expression operand ts
  return (.letIn bindings comments body (start.join body.span), ts)

end Grammar

end NixSyntax
