import NixSyntax.Decimal.Layout
import NixSyntax.Text.Outline
import NixSyntax.Text.Quoted
import NixSyntax.Tree.Basic

/-!
# Showing a tree

The outline of a syntax tree, with every node, every comment and every place in it. The names in
an outline belong to the format and not to the types: a reader of an outline expects them as they
are here.

## Main definitions

* `Program.outline`: the outline of a program
* `Program.dump`: its text

## Implementation notes

A node without a choice of forms is shown as a record. A node that is one of several forms is
shown as the name of the form with that record inside, so most terms show two layers.
-/

namespace NixSyntax

/-- Numbers in an outline have an exponent when they are very large or very small, and a whole
number keeps a fraction of zero. -/
def outlineNumbers : NumberLayout := ⟨".0", fun power => power < -4 || 16 ≤ power⟩

/-- The outline of a truth value. -/
def boolOutline (b : Bool) : Outline := .word (if b then "true" else "false")

/-- The outline of a text. -/
def textOutline (s : String) : Outline := .word (quoted s)

/-- The outline of a value that may be missing. -/
def optionOutline (o : Option Outline) : Outline :=
  match o with
  | some o => .tuple "Some" [o]
  | none => .word "None"

/-- The outline of a place. -/
def Position.outline (p : Position) : Outline :=
  .record "Position" [("line", .word (toString p.line)), ("column", .word (toString p.column)),
    ("offset", .word (toString p.offset))]

/-- The outline of a stretch of text. -/
def Span.outline (s : Span) : Outline :=
  .record "Span" [("start", s.start.outline), ("end", s.stop.outline)]

/-- The outline of a comment. -/
def Comment.outline (c : Comment) : Outline :=
  .record "Comment" [("text", textOutline c.text), ("multiline", boolOutline c.block),
    ("span", c.span.outline)]

/-- The outline of some comments. -/
def commentsOutline (cs : List Comment) : Outline := .list (cs.map Comment.outline)

/-- The name of an operator in an outline. -/
def BinaryOp.outlineName : BinaryOp → String
  | select => "Select"
  | has => "Has"
  | concat => "Concat"
  | mul => "Mul"
  | div => "Div"
  | add => "Add"
  | sub => "Sub"
  | update => "Update"
  | less => "Lt"
  | lessEqual => "Lte"
  | greater => "Gt"
  | greaterEqual => "Gte"
  | equal => "Eq"
  | notEqual => "NotEq"
  | and => "And"
  | or => "Or"
  | implies => "Imp"
  | fallback => "Fallback"

/-- The name of an operator in front of an operand, in an outline. -/
def UnaryOp.outlineName : UnaryOp → String
  | not => "Not"
  | negate => "Negate"

/-- The name of a clause in an outline. -/
def ModifierKind.outlineName : ModifierKind → String
  | with_ => "With"
  | assert => "Assert"

/-- The outline of an operator. -/
def Operator.outline (o : Operator) : Outline :=
  .record "Operator" [("op", .word o.op.outlineName), ("span", o.span.outline)]

mutual

/-- The outline of an expression. -/
def Expr.outline : Expr → Outline
  | .binary operator left right span =>
    .tuple "Binary" [.record "BinaryExpr" [("op", operator.outline), ("left", left.outline),
      ("right", right.outline), ("span", span.outline)]]
  | .operand o => .tuple "Sub" [o.outline]

/-- The outline of an operand. -/
def Operand.outline : Operand → Outline
  | ⟨modifiers, before, after, term, span⟩ =>
    .record "SubExpr" [("modifiers", .list (modifiersOutline modifiers)),
      ("comments", .record "Comments" [("before", commentsOutline before),
        ("after", commentsOutline after)]),
      ("value", term.outline), ("span", span.outline)]

/-- The outlines of some clauses. -/
def modifiersOutline : List Modifier → List Outline
  | [] => []
  | m :: ms => m.outline :: modifiersOutline ms

/-- The outline of a clause. -/
def Modifier.outline : Modifier → Outline
  | ⟨kind, subject, span⟩ =>
    .record "Modifier" [("kind", .word kind.outlineName), ("expr", subject.outline),
      ("span", span.outline)]

/-- The outline of a term. -/
def Term.outline : Term → Outline
  | .null span => .tuple "Null" [span.outline]
  | .bool value span =>
    .tuple "Bool" [.record "Bool" [("value", boolOutline value), ("span", span.outline)]]
  | .int value span =>
    .tuple "Int" [.record "Int" [("value", .word (toString value.toInt)), ("span", span.outline)]]
  | .float value span =>
    .tuple "Float" [.record "Float" [("value", .word (outlineNumbers.write value)),
      ("span", span.outline)]]
  | .string literal => .tuple "String" [literal.outline]
  | .path value span =>
    .tuple "Path" [.record "PathLit" [("value", textOutline value), ("span", span.outline)]]
  | .interpolation content => .tuple "Interp" [content.outline]
  | .name p => .tuple "Identifier" [p.outline]
  | .list items comments span =>
    .tuple "List" [.record "List" [("items", .list (exprsOutline items)),
      ("comments", commentsOutline comments), ("span", span.outline)]]
  | .attrSet recursive bindings comments span =>
    .tuple "Attrs" [.record "Attrs" [("recursive", boolOutline recursive),
      ("attrs", .list (bindingsOutline bindings)), ("comments", commentsOutline comments),
      ("span", span.outline)]]
  | .lambda parameter body span =>
    .tuple "Function" [.record "Function" [("params", parameter.outline), ("body", body.outline),
      ("span", span.outline)]]
  | .call callee arguments span =>
    .tuple "FnCall" [.record "FnCall" [("callee", callee.outline),
      ("args", .list (exprsOutline arguments)), ("span", span.outline)]]
  | .letIn bindings comments body span =>
    .tuple "LetIn" [.record "LetIn" [("bindings", .list (bindingsOutline bindings)),
      ("comments", commentsOutline comments), ("body", body.outline), ("span", span.outline)]]
  | .import_ source span =>
    .tuple "Import" [.record "Import" [("expr", source.outline), ("span", span.outline)]]
  | .conditional condition consequence alternative span =>
    .tuple "Conditional" [.record "Conditional" [("condition", condition.outline),
      ("then_branch", consequence.outline), ("else_branch", alternative.outline),
      ("span", span.outline)]]
  | .unary op argument span =>
    .tuple "Unary" [.record "UnaryExpr" [("op", .word op.outlineName),
      ("operand", argument.outline), ("span", span.outline)]]
  | .paren body span =>
    .tuple "Paren" [.record "Paren" [("expr", body.outline), ("span", span.outline)]]

/-- The outlines of some expressions. -/
def exprsOutline : List Expr → List Outline
  | [] => []
  | e :: es => e.outline :: exprsOutline es

/-- The outline of an expression that may be missing. -/
def exprOutline? : Option Expr → Outline
  | some e => optionOutline (some e.outline)
  | none => optionOutline none

/-- The outline of a string. -/
def StringLiteral.outline : StringLiteral → Outline
  | ⟨parts, multiline, span⟩ =>
    .record "StringLit" [("parts", .list (partsOutline parts)),
      ("multiline", boolOutline multiline), ("span", span.outline)]

/-- The outlines of the parts of a string. -/
def partsOutline : List StringPart → List Outline
  | [] => []
  | part :: parts => part.outline :: partsOutline parts

/-- The outline of a part of a string. -/
def StringPart.outline : StringPart → Outline
  | .text content => .tuple "Text" [textOutline content]
  | .interpolation content => .tuple "Interp" [content.outline]

/-- The outline of an interpolation. -/
def Interpolation.outline : Interpolation → Outline
  | ⟨body, span⟩ => .record "Interp" [("expr", body.outline), ("span", span.outline)]

/-- The outline of a path of names. -/
def AttrPath.outline : AttrPath → Outline
  | ⟨segments, comments, span⟩ =>
    .record "Identifier" [("segments", .list (segmentsOutline segments)),
      ("comments", commentsOutline comments), ("span", span.outline)]

/-- The outlines of some paths of names. -/
def pathsOutline : List AttrPath → List Outline
  | [] => []
  | p :: ps => p.outline :: pathsOutline ps

/-- The outline of a path of names that may be missing. -/
def pathOutline? : Option AttrPath → Outline
  | some p => optionOutline (some p.outline)
  | none => optionOutline none

/-- The outlines of the names of a path. -/
def segmentsOutline : List Segment → List Outline
  | [] => []
  | s :: ss => s.outline :: segmentsOutline ss

/-- The outline of a name of a path. -/
def Segment.outline : Segment → Outline
  | .name name => .tuple "Name" [textOutline name]
  | .string literal => .tuple "String" [literal.outline]
  | .interpolation content => .tuple "Interp" [content.outline]

/-- The outlines of some bindings. -/
def bindingsOutline : List Binding → List Outline
  | [] => []
  | b :: bs => b.outline :: bindingsOutline bs

/-- The outline of a binding. -/
def Binding.outline : Binding → Outline
  | .assign name value comments span =>
    .tuple "Binding" [.record "Binding" [("name", name.outline), ("value", value.outline),
      ("comments", commentsOutline comments), ("span", span.outline)]]
  | .inherit source names comments span =>
    .tuple "Inherit" [.record "Inherit" [("from", exprOutline? source),
      ("names", .list (pathsOutline names)), ("comments", commentsOutline comments),
      ("span", span.outline)]]

/-- The outline of a parameter. -/
def Parameter.outline : Parameter → Outline
  | .named name => .tuple "Named" [name.outline]
  | .pattern formals variadic whole comments span =>
    .tuple "Destructured" [.record "Destructured" [("params", .list (formalsOutline formals)),
      ("extra", boolOutline variadic), ("alias", pathOutline? whole),
      ("comments", commentsOutline comments), ("span", span.outline)]]

/-- The outlines of the attributes of a pattern. -/
def formalsOutline : List Formal → List Outline
  | [] => []
  | f :: fs => f.outline :: formalsOutline fs

/-- The outline of an attribute of a pattern. -/
def Formal.outline : Formal → Outline
  | ⟨name, fallback, comments, span⟩ =>
    .record "FnParam" [("name", name.outline), ("default", exprOutline? fallback),
      ("comments", commentsOutline comments), ("span", span.outline)]

end

/-- The outline of a program. -/
def Program.outline (p : Program) : Outline :=
  .record "Root" [("expr", p.body.outline), ("span", p.span.outline)]

/-- A program with every node, every comment and every place, over many lines. -/
def Program.dump (p : Program) : String := p.outline.render

end NixSyntax
