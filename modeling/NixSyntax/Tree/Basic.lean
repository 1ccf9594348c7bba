import NixSyntax.Operator

/-!
# Syntax trees

The tree of a program. Every node carries the stretch of source it was read from, and comments are
kept with the nodes they stand at.

## Expressions and operands

An `Expr` is an operand or two expressions joined by an operator. All that belongs to one operand
is collected in an `Operand`: the `with` and `assert` clauses in front of it, the comments before
and after it, and the `Term` itself. Precedence is not marked in the tree, it is the shape of the
tree; parentheses are terms of their own.

Where the grammar asks for one operand, as in a list or behind a unary operator, the tree still
has an `Expr`, so that every place that holds a piece of program holds it in the same type.

## Main definitions

* `Expr`, `Operand`, `Term` and the types that nest in them
* `Program`: a whole source
* `Expr.span`, `Term.span`, `Binding.span`, `Parameter.span`: where a node stands
* `Expr.joined`: two expressions joined by an operator
* `Expr.asOperand?`, `Expr.asBinary?`, `Expr.term?`: which of its two forms an expression has
* `Term.isCallable`: the terms that take arguments
* `StringLiteral.plain?`, `AttrPath.plain?`: strings and names without interpolations
-/

namespace NixSyntax

/-- What a clause in front of an operand does with its expression. -/
inductive ModifierKind where
  | with_
  | assert
deriving Repr, DecidableEq

mutual

/-- A piece of program. -/
inductive Expr where
  /-- Two expressions joined by an operator. -/
  | binary (operator : Operator) (left right : Expr) (span : Span)
  /-- One operand. -/
  | operand (operand : Operand)

/-- One operand, with all that belongs to it. -/
structure Operand where
  /-- The `with` and `assert` clauses in front of it, in their order. -/
  modifiers : List Modifier
  /-- The comments in front of the term. -/
  before : List Comment
  /-- The comments behind the term. -/
  after : List Comment
  /-- The operand itself. -/
  term : Term
  /-- From the first clause, or else from the term, to the end of the term. -/
  span : Span

/-- A clause `with e;` or `assert e;` in front of an operand. -/
structure Modifier where
  /-- Which clause it is. -/
  kind : ModifierKind
  /-- The expression of the clause. -/
  subject : Expr
  /-- From the keyword to the semicolon. -/
  span : Span

/-- What an operand is. -/
inductive Term where
  /-- The value `null`. -/
  | null (span : Span)
  /-- A truth value. -/
  | bool (value : Bool) (span : Span)
  /-- A whole number. -/
  | int (value : Int64) (span : Span)
  /-- A number with a fraction. -/
  | float (value : Float) (span : Span)
  /-- A string. -/
  | string (literal : StringLiteral)
  /-- A path in the file system. -/
  | path (value : String) (span : Span)
  /-- An interpolation that stands for itself. -/
  | interpolation (content : Interpolation)
  /-- A name, or a path of names. -/
  | name (path : AttrPath)
  /-- A list. It has comments of its own only when it has no items. -/
  | list (items : List Expr) (comments : List Comment) (span : Span)
  /-- An attribute set. It has comments of its own only when it has no bindings. -/
  | attrSet (recursive : Bool) (bindings : List Binding) (comments : List Comment) (span : Span)
  /-- A function. -/
  | lambda (parameter : Parameter) (body : Expr) (span : Span)
  /-- A function with its arguments. -/
  | call (callee : Term) (arguments : List Expr) (span : Span)
  /-- A `let` block. It has comments of its own only when it has no bindings. -/
  | letIn (bindings : List Binding) (comments : List Comment) (body : Expr) (span : Span)
  /-- An import. -/
  | import_ (source : Expr) (span : Span)
  /-- A choice between two branches. -/
  | conditional (condition consequence alternative : Expr) (span : Span)
  /-- An operator in front of an operand. -/
  | unary (op : UnaryOp) (argument : Expr) (span : Span)
  /-- An expression in parentheses. -/
  | paren (body : Expr) (span : Span)

/-- A string. -/
structure StringLiteral where
  /-- Text and interpolations, in their order. -/
  parts : List StringPart
  /-- Whether the string is delimited by two single quotes. -/
  multiline : Bool
  /-- Where the string stands, delimiters included. -/
  span : Span

/-- A part of a string. -/
inductive StringPart where
  /-- Text, with its backslashes resolved. -/
  | text (content : String)
  /-- An interpolation. -/
  | interpolation (content : Interpolation)

/-- An interpolation. -/
structure Interpolation where
  /-- The expression between the braces. -/
  body : Expr
  /-- From the dollar sign to the closing brace. -/
  span : Span

/-- A name, or several joined by dots. -/
structure AttrPath where
  /-- The names. -/
  segments : List Segment
  /-- The comments in front, for a name in an `inherit`. -/
  comments : List Comment
  /-- From the first name to the last. -/
  span : Span

/-- One name of a path of names. -/
inductive Segment where
  /-- A plain name. -/
  | name (name : String)
  /-- A name written as a string. -/
  | string (literal : StringLiteral)
  /-- A name that is computed. -/
  | interpolation (content : Interpolation)

/-- An entry of an attribute set or a `let` block. -/
inductive Binding where
  /-- A name with its value. -/
  | assign (name : AttrPath) (value : Expr) (comments : List Comment) (span : Span)
  /-- Names taken over from around, or from the attribute set `source`. -/
  | inherit (source : Option Expr) (names : List AttrPath) (comments : List Comment) (span : Span)

/-- What stands in front of the colon of a function. -/
inductive Parameter where
  /-- A name for the argument. -/
  | named (name : AttrPath)
  /-- A pattern that takes an attribute set apart. With `variadic`, other attributes may be there;
  `whole` is a name for the set itself, written on either side of the pattern. -/
  | pattern (formals : List Formal) (variadic : Bool) (whole : Option AttrPath)
      (comments : List Comment) (span : Span)

/-- One attribute that a pattern asks for. -/
structure Formal where
  /-- The name. -/
  name : AttrPath
  /-- The value it has when the attribute is missing. -/
  fallback : Option Expr
  /-- The comments at the name, in front of it and behind it. -/
  comments : List Comment
  /-- From the name to the end of the fallback. -/
  span : Span

end

/-- A whole source: one expression. -/
structure Program where
  /-- The expression. -/
  body : Expr
  /-- Where it stands. -/
  span : Span

namespace Expr

/-- Where an expression stands. -/
def span : Expr → Span
  | binary _ _ _ span => span
  | operand o => o.span

/-- Two expressions joined by an operator, from the beginning of the first to the end of the
second. -/
def joined (operator : Operator) (left right : Expr) : Expr :=
  binary operator left right (left.span.join right.span)

/-- The operand that an expression is. -/
def asOperand? : Expr → Option Operand
  | binary .. => none
  | operand o => some o

/-- The operator that joins the two sides of an expression, and the two sides. -/
def asBinary? : Expr → Option (Operator × Expr × Expr)
  | binary operator left right _ => some (operator, left, right)
  | operand _ => none

/-- The term of an expression that is one operand. -/
def term? (e : Expr) : Option Term :=
  e.asOperand?.map Operand.term

@[simp] theorem span_operand (o : Operand) : (operand o).span = o.span := rfl

@[simp] theorem span_binary (operator : Operator) (left right : Expr) (s : Span) :
    (binary operator left right s).span = s := rfl

/-- Two expressions joined reach from where the left one begins to where the right one ends. -/
@[simp] theorem span_joined (operator : Operator) (left right : Expr) :
    (joined operator left right).span = left.span.join right.span := rfl

end Expr

/-- Whether an operand has comments. -/
def Operand.hasComments (o : Operand) : Bool :=
  !(o.before.isEmpty && o.after.isEmpty)

/-- Where a term stands. -/
def Term.span : Term → Span
  | null s => s
  | bool _ s => s
  | int _ s => s
  | float _ s => s
  | string literal => literal.span
  | path _ s => s
  | interpolation content => content.span
  | name p => p.span
  | list _ _ s => s
  | attrSet _ _ _ s => s
  | lambda _ _ s => s
  | call _ _ s => s
  | letIn _ _ _ s => s
  | import_ _ s => s
  | conditional _ _ _ s => s
  | unary _ _ s => s
  | paren _ s => s

/-- The terms that take arguments. -/
def Term.isCallable : Term → Bool
  | paren _ _ => true
  | name _ => true
  | import_ _ _ => true
  | _ => false

/-- The text of a string that consists of text alone. -/
def StringLiteral.plain? (s : StringLiteral) : Option String :=
  match s.parts with
  | [.text content] => some content
  | _ => none

/-- The name, when a path of names is a single plain one. -/
def AttrPath.plain? (p : AttrPath) : Option String :=
  match p.segments with
  | [.name name] => some name
  | _ => none

namespace Binding

/-- Where a binding stands. -/
def span : Binding → Span
  | assign _ _ _ s => s
  | inherit _ _ _ s => s

/-- The comments of a binding. -/
def comments : Binding → List Comment
  | assign _ _ cs _ => cs
  | inherit _ _ cs _ => cs

/-- The binding with more comments behind its own. -/
def addComments (more : List Comment) : Binding → Binding
  | assign name value cs s => assign name value (cs ++ more) s
  | inherit source names cs s => inherit source names (cs ++ more) s

end Binding

/-- Where a parameter stands. -/
def Parameter.span : Parameter → Span
  | named name => name.span
  | pattern _ _ _ _ s => s

end NixSyntax
