import NixSyntax.Proofs.Spelling.Bare
import NixSyntax.Proofs.Chain.Frames
import Mathlib.Computability.Language

/-!
# What a tree spells

A tree does not say quite how it was written, so it spells a language and not one list of tokens.
`Expr.yield` puts back, in the order of the grammar, every keyword, bracket, operator and separator
of every node, and the names and literals themselves. The tokens are bare: places, line breaks and
comments are no part of a spelling.

The tree leaves three things open, and no others:

* the name of a pattern's whole argument stands in front of the pattern or behind it;
* a comma may stand in front of the closing brace, if the pattern has attributes and no `...`;
* a number is one token, or a minus sign and the token of the negated number.

An operator tree spells its left side, its operator and its right side. So it spells its chain,
however the chain was nested (`Expr.yield_eq_chain`).

## Why a language

The choices of a tree are independent of each other, so its spellings are too many to be listed, and
picking one of them would lose what was really written. As a language, a choice is a sum, one part
behind the other is a product, and a missing part is `1`. The laws of languages then do what lemmas
on lists of lists would have to do.

The functions follow the tree, one for each type and one for each list of nodes. Where the grammar
has a token that the tree does not, it is put in here: the sign and the semicolon of a binding, the
brackets of a list, the words of a conditional.

## Main definitions

* `Expr.yield`, `Term.yield`, …: the spellings of a node
-/

namespace NixSyntax

/-- The word of one token. -/
def lit (kind : TokenKind) : Language Token := {[⟨kind, default⟩]}

/-- The word of one mark. -/
def mark (s : Symbol) : Language Token := lit (.symbol s)

/-- The word of one keyword. -/
def keyword (k : Keyword) : Language Token := lit (.keyword k)

/-- The words of one number whose negation is given. -/
def negatedFloat (value : Float) : Language Token :=
  {w | ∃ x, -x = value ∧ w = [⟨.float x, default⟩]}

/-- The words of one interpolation around the given words. -/
def interpolated (inner : Language Token) : Language Token :=
  {w | ∃ tokens ∈ inner, w = [⟨.interpolation tokens, default⟩]}

mutual

/-- The spellings of an expression. -/
def Expr.yield : Expr → Language Token
  | .binary operator left right _ => left.yield * (lit operator.op.kind * right.yield)
  | .operand o => o.yield

/-- The spellings of an operand. -/
def Operand.yield : Operand → Language Token
  | ⟨modifiers, _, _, term, _⟩ => modifiersYield modifiers * term.yield

/-- The spellings of some clauses. -/
def modifiersYield : List Modifier → Language Token
  | [] => 1
  | m :: ms => m.yield * modifiersYield ms

/-- The spellings of a clause. -/
def Modifier.yield : Modifier → Language Token
  | ⟨kind, subject, _⟩ => keyword kind.word * (subject.yield * mark .semicolon)

/-- The spellings of a term. A number may have its sign in front of it. -/
def Term.yield : Term → Language Token
  | .null _ => lit .null
  | .bool value _ => lit (.bool value)
  | .int value _ => lit (.int value) + mark .minus * lit (.int (-value))
  | .float value _ => lit (.float value) + mark .minus * negatedFloat value
  | .string literal => literal.yield
  | .path value _ => lit (.path value)
  | .interpolation content => interpolated content.yield
  | .name p => p.yield
  | .list items _ _ => mark .openBracket * (exprsYield items * mark .closeBracket)
  | .attrSet recursive bindings _ _ =>
    (if recursive then keyword .rec_ else 1) *
      (mark .openBrace * (bindingsYield bindings * mark .closeBrace))
  | .lambda parameter body _ => parameter.yield * (mark .colon * body.yield)
  | .call callee arguments _ => callee.yield * exprsYield arguments
  | .letIn bindings _ body _ =>
    keyword .let_ * (bindingsYield bindings * (keyword .in_ * body.yield))
  | .import_ source _ => keyword .import_ * source.yield
  | .conditional condition consequence alternative _ =>
    keyword .if_ * (condition.yield * (keyword .then_ * (consequence.yield *
      (keyword .else_ * alternative.yield))))
  | .unary op argument _ => mark op.mark * argument.yield
  | .paren body _ => mark .openParen * (body.yield * mark .closeParen)

/-- The spellings of some expressions in a row. -/
def exprsYield : List Expr → Language Token
  | [] => 1
  | e :: es => e.yield * exprsYield es

/-- The spellings of a string. They are one token each. -/
def StringLiteral.yield : StringLiteral → Language Token
  | ⟨parts, multiline, _⟩ =>
    {w | ∃ fragments ∈ partsYield parts, w = [⟨.string fragments multiline, default⟩]}

/-- The spellings of the parts of a string. -/
def partsYield : List StringPart → Language StringFragment
  | [] => 1
  | part :: parts => part.yield * partsYield parts

/-- The spellings of a part of a string. -/
def StringPart.yield : StringPart → Language StringFragment
  | .text content => {[.text content]}
  | .interpolation content => {w | ∃ tokens ∈ content.yield, w = [.interpolation tokens default]}

/-- The spellings of what stands between the braces of an interpolation. -/
def Interpolation.yield : Interpolation → Language Token
  | ⟨body, _⟩ => body.yield

/-- The spellings of a path of names. -/
def AttrPath.yield : AttrPath → Language Token
  | ⟨[], _, _⟩ => 1
  | ⟨s :: ss, _, _⟩ => s.yield * dottedYield ss

/-- The spellings of some names with a dot in front of each. -/
def dottedYield : List Segment → Language Token
  | [] => 1
  | s :: ss => mark .dot * s.yield * dottedYield ss

/-- The spellings of a name of a path. -/
def Segment.yield : Segment → Language Token
  | .name name => lit (.identifier name)
  | .string literal => literal.yield
  | .interpolation content => interpolated content.yield

/-- The spellings of some paths of names in a row. -/
def pathsYield : List AttrPath → Language Token
  | [] => 1
  | p :: ps => p.yield * pathsYield ps

/-- The spellings of some bindings. -/
def bindingsYield : List Binding → Language Token
  | [] => 1
  | b :: bs => b.yield * bindingsYield bs

/-- The spellings of a binding. -/
def Binding.yield : Binding → Language Token
  | .assign name value _ _ =>
    name.yield * (mark .assign * (value.yield * mark .semicolon))
  | .inherit source names _ _ =>
    keyword .inherit * (sourceYield source * (pathsYield names * mark .semicolon))

/-- The spellings of what names are taken from. -/
def sourceYield : Option Expr → Language Token
  | none => 1
  | some e => mark .openParen * (e.yield * mark .closeParen)

/-- The spellings of a parameter. The name of a pattern stands on either side of it. -/
def Parameter.yield : Parameter → Language Token
  | .named name => name.yield
  | .pattern formals variadic none _ _ =>
    mark .openBrace * (formalsYield variadic formals * mark .closeBrace)
  | .pattern formals variadic (some name) _ _ =>
    name.yield * (mark .atSign *
        (mark .openBrace * (formalsYield variadic formals * mark .closeBrace))) +
      mark .openBrace * (formalsYield variadic formals * mark .closeBrace) *
        (mark .atSign * name.yield)

/-- The spellings of what stands between the braces of a pattern. Behind the last attribute there
may be a comma, and there must be one in front of `...`. -/
def formalsYield (variadic : Bool) : List Formal → Language Token
  | [] => if variadic then mark .ellipsis else 1
  | f :: fs =>
    f.yield * (mark .comma * formalsYield variadic fs + if fs.isEmpty && !variadic then 1 else 0)

/-- The spellings of an attribute of a pattern. -/
def Formal.yield : Formal → Language Token
  | ⟨name, fallback, _, _⟩ => name.yield * fallbackYield fallback

/-- The spellings of a fallback. -/
def fallbackYield : Option Expr → Language Token
  | none => 1
  | some e => mark .question * e.yield

end

/-! ### The spellings of several

What stands in a row is spelled one behind the other. -/

section

attribute [local simp] Expr.yield Operand.yield modifiersYield Modifier.yield Term.yield
  exprsYield StringLiteral.yield partsYield StringPart.yield Interpolation.yield AttrPath.yield
  dottedYield Segment.yield pathsYield bindingsYield Binding.yield sourceYield Parameter.yield
  formalsYield Formal.yield fallbackYield

theorem modifiersYield_eq (ms : List Modifier) :
    modifiersYield ms = (ms.map Modifier.yield).prod := by
  induction ms with
  | nil => simp
  | cons m ms ih => simp [ih]

theorem exprsYield_eq (es : List Expr) : exprsYield es = (es.map Expr.yield).prod := by
  induction es with
  | nil => simp
  | cons e es ih => simp [ih]

theorem dottedYield_eq (ss : List Segment) :
    dottedYield ss = (ss.map fun s => mark .dot * s.yield).prod := by
  induction ss with
  | nil => simp
  | cons s ss ih => simp [ih]

theorem pathsYield_eq (ps : List AttrPath) : pathsYield ps = (ps.map AttrPath.yield).prod := by
  induction ps with
  | nil => simp
  | cons p ps ih => simp [ih]

theorem bindingsYield_eq (bs : List Binding) :
    bindingsYield bs = (bs.map Binding.yield).prod := by
  induction bs with
  | nil => simp
  | cons b bs ih => simp [ih]

end

/-! ### Chains

The spelling of an operator tree does not tell how it was nested. -/

/-- The spellings of an operator with the operand behind it. -/
def linkYield (l : Operator × Operand) : Language Token := lit l.1.op.kind * l.2.yield

/-- An operator tree spells the chain it was made from. -/
theorem Expr.yield_eq_chain : (e : Expr) →
    e.yield = e.first.yield * (e.links.map linkYield).prod
  | .operand o => by simp [Expr.yield]
  | .binary operator left right span => by
    calc (Expr.binary operator left right span).yield
        = left.yield * (lit operator.op.kind * right.yield) := by rw [Expr.yield]
      _ = left.first.yield * (left.links.map linkYield).prod *
            (lit operator.op.kind * (right.first.yield * (right.links.map linkYield).prod)) := by
          rw [left.yield_eq_chain, right.yield_eq_chain]
      _ = left.first.yield * ((left.links ++ (operator, right.first) :: right.links).map
            linkYield).prod := by
          simp [linkYield, mul_assoc]

end NixSyntax
