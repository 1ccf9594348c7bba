import NixSyntax.Proofs.Chain.Frames
import NixSyntax.Proofs.Spelling.Bare

/-!
# Printing a tree

`Expr.print` writes a tree as one list of tokens. Of the things that a tree leaves open it always
chooses the same: the name of a pattern stands behind the pattern, no comma stands in front of a
pattern's closing brace, and a number is one token, even a negative one. There are no comments.

Two line breaks are needed. A dot that selects stands directly behind no name, where it would be
read as part of the name, so every operator has a line break in front of it. And a minus sign
stands directly in front of no number, so every operator in front of an operand has a line break
behind it.

## What is not printed

Comments are left out, and places are not known in print. Everything else of a tree is there, which
is shown by reading it again. The printer works on trees of any shape. For trees that no rule makes
it may print something that is read otherwise: an operator tree that is nested against the tiers is
printed without parentheses, as the chain of its operands.

All functions are structural. Those for lists have a name of their own for that reason, and are
`List.flatMap` of those for elements.

## Main definitions

* `Expr.print`, `Term.print`, …: the tokens of a node

## Main results

* `Expr.print_eq_chain`: an operator tree is printed as the chain it was made from
-/

namespace NixSyntax

/-- A token at no place in particular. -/
def TokenKind.token (kind : TokenKind) : Token := ⟨kind, default⟩

/-- The token of a mark. -/
abbrev Symbol.token (s : Symbol) : Token := (TokenKind.symbol s).token

/-- The token of a keyword. -/
abbrev Keyword.token (k : Keyword) : Token := (TokenKind.keyword k).token

/-- The token of a line break. -/
abbrev lineBreak : Token := TokenKind.newline.token

mutual

/-- The tokens of an expression. -/
def Expr.print : Expr → List Token
  | .binary operator left right _ =>
    left.print ++ lineBreak :: operator.op.kind.token :: right.print
  | .operand o => o.print

/-- The tokens of an operand. -/
def Operand.print : Operand → List Token
  | ⟨modifiers, _, _, term, _⟩ => printModifiers modifiers ++ term.print

/-- The tokens of some clauses. -/
def printModifiers : List Modifier → List Token
  | [] => []
  | m :: ms => m.print ++ printModifiers ms

/-- The tokens of a clause. -/
def Modifier.print : Modifier → List Token
  | ⟨kind, subject, _⟩ => kind.word.token :: (subject.print ++ [Symbol.semicolon.token])

/-- The tokens of a term. -/
def Term.print : Term → List Token
  | .null _ => [TokenKind.null.token]
  | .bool value _ => [(TokenKind.bool value).token]
  | .int value _ => [(TokenKind.int value).token]
  | .float value _ => [(TokenKind.float value).token]
  | .string literal => [literal.print]
  | .path value _ => [(TokenKind.path value).token]
  | .interpolation content => [(TokenKind.interpolation content.print).token]
  | .name p => p.print
  | .list items _ _ =>
    Symbol.openBracket.token :: (printExprs items ++ [Symbol.closeBracket.token])
  | .attrSet recursive bindings _ _ =>
    (if recursive then [Keyword.rec_.token] else []) ++
      Symbol.openBrace.token :: (printBindings bindings ++ [Symbol.closeBrace.token])
  | .lambda parameter body _ => parameter.print ++ Symbol.colon.token :: body.print
  | .call callee arguments _ => callee.print ++ printExprs arguments
  | .letIn bindings _ body _ =>
    Keyword.let_.token :: (printBindings bindings ++ Keyword.in_.token :: body.print)
  | .import_ source _ => Keyword.import_.token :: source.print
  | .conditional condition consequence alternative _ =>
    Keyword.if_.token :: (condition.print ++ Keyword.then_.token ::
      (consequence.print ++ Keyword.else_.token :: alternative.print))
  | .unary op argument _ => op.mark.token :: lineBreak :: argument.print
  | .paren body _ => Symbol.openParen.token :: (body.print ++ [Symbol.closeParen.token])

/-- The tokens of some expressions in a row. -/
def printExprs : List Expr → List Token
  | [] => []
  | e :: es => e.print ++ printExprs es

/-- The token of a string. -/
def StringLiteral.print : StringLiteral → Token
  | ⟨parts, multiline, _⟩ => (TokenKind.string (printParts parts) multiline).token

/-- The parts of a string, with printed interpolations. -/
def printParts : List StringPart → List StringFragment
  | [] => []
  | part :: parts => part.print :: printParts parts

/-- A part of a string, with a printed interpolation. -/
def StringPart.print : StringPart → StringFragment
  | .text content => .text content
  | .interpolation content => .interpolation content.print default

/-- The tokens between the braces of an interpolation. -/
def Interpolation.print : Interpolation → List Token
  | ⟨body, _⟩ => body.print

/-- The tokens of a path of names. -/
def AttrPath.print : AttrPath → List Token
  | ⟨[], _, _⟩ => []
  | ⟨s :: ss, _, _⟩ => s.print :: printDotted ss

/-- The tokens of some names with a dot in front of each. -/
def printDotted : List Segment → List Token
  | [] => []
  | s :: ss => Symbol.dot.token :: s.print :: printDotted ss

/-- The token of a name of a path. -/
def Segment.print : Segment → Token
  | .name name => (TokenKind.identifier name).token
  | .string literal => literal.print
  | .interpolation content => (TokenKind.interpolation content.print).token

/-- The tokens of some paths of names in a row. -/
def printPaths : List AttrPath → List Token
  | [] => []
  | p :: ps => p.print ++ printPaths ps

/-- The tokens of some bindings. -/
def printBindings : List Binding → List Token
  | [] => []
  | b :: bs => b.print ++ printBindings bs

/-- The tokens of a binding. -/
def Binding.print : Binding → List Token
  | .assign name value _ _ =>
    name.print ++ Symbol.assign.token :: (value.print ++ [Symbol.semicolon.token])
  | .inherit source names _ _ =>
    Keyword.inherit.token :: (printSource source ++ (printPaths names ++ [Symbol.semicolon.token]))

/-- The tokens of what names are taken from. -/
def printSource : Option Expr → List Token
  | none => []
  | some e => Symbol.openParen.token :: (e.print ++ [Symbol.closeParen.token])

/-- The tokens of a parameter. The name of a pattern stands behind it. -/
def Parameter.print : Parameter → List Token
  | .named name => name.print
  | .pattern formals variadic whole _ _ =>
    Symbol.openBrace.token :: (printFormals variadic formals ++
      Symbol.closeBrace.token :: printWhole whole)

/-- The tokens of the name behind a pattern. -/
def printWhole : Option AttrPath → List Token
  | none => []
  | some p => Symbol.atSign.token :: p.print

/-- The tokens between the braces of a pattern. -/
def printFormals (variadic : Bool) : List Formal → List Token
  | [] => if variadic then [Symbol.ellipsis.token] else []
  | a :: as =>
    a.print ++
      if as.isEmpty && !variadic then [] else Symbol.comma.token :: printFormals variadic as

/-- The tokens of an attribute of a pattern. -/
def Formal.print : Formal → List Token
  | ⟨name, fallback, _, _⟩ => name.print ++ printFallback fallback

/-- The tokens of a fallback. -/
def printFallback : Option Expr → List Token
  | none => []
  | some e => Symbol.question.token :: e.print

end

/-! ### Several nodes

For proofs by repetition, what is printed of several nodes is put together from what is printed of
each. -/

section

attribute [local simp] Expr.print Operand.print printModifiers Modifier.print Term.print
  printExprs StringLiteral.print printParts StringPart.print Interpolation.print AttrPath.print
  printDotted Segment.print printPaths printBindings Binding.print printSource Parameter.print
  printWhole printFormals Formal.print printFallback

/-- Clauses stand one behind the other. -/
theorem printModifiers_eq (ms : List Modifier) : printModifiers ms = ms.flatMap Modifier.print := by
  induction ms with
  | nil => simp
  | cons m ms ih => simp [ih]

/-- So do the items of a list and the arguments of a call. -/
theorem printExprs_eq (es : List Expr) : printExprs es = es.flatMap Expr.print := by
  induction es with
  | nil => simp
  | cons e es ih => simp [ih]

theorem printDotted_eq (ss : List Segment) :
    printDotted ss = ss.flatMap fun s => [Symbol.dot.token, s.print] := by
  induction ss with
  | nil => simp
  | cons s ss ih => simp [ih]

theorem printPaths_eq (ps : List AttrPath) : printPaths ps = ps.flatMap AttrPath.print := by
  induction ps with
  | nil => simp
  | cons p ps ih => simp [ih]

theorem printBindings_eq (bs : List Binding) : printBindings bs = bs.flatMap Binding.print := by
  induction bs with
  | nil => simp
  | cons b bs ih => simp [ih]

end

/-- Comments are not printed. -/
@[simp] theorem AttrPath.print_comments (p : AttrPath) (comments : List Comment) :
    { p with comments }.print = p.print := by
  obtain ⟨_ | ⟨s, ss⟩, cs, span⟩ := p <;> simp [AttrPath.print]

/-- What was said about an operand is not printed. -/
@[simp] theorem Operand.print_comments (o : Operand) (before after : List Comment) :
    { o with before, after }.print = o.print := by
  cases o
  simp [Operand.print]

@[simp] theorem Binding.print_addComments (b : Binding) (more : List Comment) :
    (b.addComments more).print = b.print := by
  cases b <;> simp [addComments, Binding.print]

/-! ### Chains

A tree of operators has lost the order in which it was read, and its print has regained it. -/

/-- The tokens of an operator and of the operand behind it. -/
def printLink (l : Operator × Operand) : List Token :=
  lineBreak :: l.1.op.kind.token :: l.2.print

/-- An operator tree is printed as the chain it was made from. -/
theorem Expr.print_eq_chain : (e : Expr) → e.print = e.first.print ++ e.links.flatMap printLink
  | .operand o => by simp [Expr.print]
  | .binary operator left right span => by
    simp [Expr.print, Expr.first, Expr.links, printLink, left.print_eq_chain, right.print_eq_chain]

end NixSyntax
