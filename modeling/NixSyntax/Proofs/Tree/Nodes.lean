import NixSyntax.Tree.Basic

/-!
# The nodes of a tree

A tree is made of ten types that nest in one another, and many of its properties are promised for
every node at every depth. `Node` is a node of any of these types, and `Expr.nodes` lists all the
nodes of a tree, so such a property is a statement about the members of one list.

## Operator expressions

Two expressions that an operator joins are parts of one larger operator expression. An expression
that stands anywhere else is as large as it can be: the whole program, the content of a
parenthesis, the value of a binding, and so on. `Node.expressions` are those that a node holds,
and `Expr.chains` are all of them in a tree.

## Lists and options

The recursion goes through lists of nodes and nodes that may be missing, and each of these has a
function of its own, since the recursion is structural. The lemmas below say that a function on a
list is the one on its elements, one after the other.

## Main definitions

* `Node`: a node of a tree, of whichever type
* `Expr.nodes`, `Operand.nodes`, `Term.nodes`, …: a node and all the nodes in it
* `Node.expressions`: the expressions that a node holds other than as a side of an operator
* `Expr.chains`: the maximal operator expressions of a tree
-/

namespace NixSyntax

/-- A node of a tree. -/
inductive Node where
  | expr (e : Expr)
  | operand (o : Operand)
  | modifier (m : Modifier)
  | term (t : Term)
  | string (s : StringLiteral)
  | interpolation (c : Interpolation)
  | path (p : AttrPath)
  | binding (b : Binding)
  | parameter (p : Parameter)
  | formal (f : Formal)

mutual

/-- An expression and all the nodes in it. -/
def Expr.nodes : Expr → List Node
  | e@(.binary _ left right _) => .expr e :: (left.nodes ++ right.nodes)
  | e@(.operand o) => .expr e :: o.nodes

/-- An operand and all the nodes in it. -/
def Operand.nodes : Operand → List Node
  | o@⟨modifiers, _, _, term, _⟩ => .operand o :: (modifiersNodes modifiers ++ term.nodes)

/-- Some clauses and all the nodes in them. -/
def modifiersNodes : List Modifier → List Node
  | [] => []
  | m :: ms => m.nodes ++ modifiersNodes ms

/-- A clause and all the nodes in it. -/
def Modifier.nodes : Modifier → List Node
  | m@⟨_, subject, _⟩ => .modifier m :: subject.nodes

/-- A term and all the nodes in it. -/
def Term.nodes : Term → List Node
  | t@(.null _) => [.term t]
  | t@(.bool _ _) => [.term t]
  | t@(.int _ _) => [.term t]
  | t@(.float _ _) => [.term t]
  | t@(.string literal) => .term t :: literal.nodes
  | t@(.path _ _) => [.term t]
  | t@(.interpolation content) => .term t :: content.nodes
  | t@(.name p) => .term t :: p.nodes
  | t@(.list items _ _) => .term t :: exprsNodes items
  | t@(.attrSet _ bindings _ _) => .term t :: bindingsNodes bindings
  | t@(.lambda parameter body _) => .term t :: (parameter.nodes ++ body.nodes)
  | t@(.call callee arguments _) => .term t :: (callee.nodes ++ exprsNodes arguments)
  | t@(.letIn bindings _ body _) => .term t :: (bindingsNodes bindings ++ body.nodes)
  | t@(.import_ source _) => .term t :: source.nodes
  | t@(.conditional condition consequence alternative _) =>
    .term t :: (condition.nodes ++ (consequence.nodes ++ alternative.nodes))
  | t@(.unary _ argument _) => .term t :: argument.nodes
  | t@(.paren body _) => .term t :: body.nodes

/-- Some expressions and all the nodes in them. -/
def exprsNodes : List Expr → List Node
  | [] => []
  | e :: es => e.nodes ++ exprsNodes es

/-- An expression that may be missing, and all the nodes in it. -/
def exprNodes? : Option Expr → List Node
  | none => []
  | some e => e.nodes

/-- A string and all the nodes in it. -/
def StringLiteral.nodes : StringLiteral → List Node
  | s@⟨parts, _, _⟩ => .string s :: partsNodes parts

/-- The nodes in some parts of a string. -/
def partsNodes : List StringPart → List Node
  | [] => []
  | part :: parts => part.nodes ++ partsNodes parts

/-- The nodes in a part of a string. -/
def StringPart.nodes : StringPart → List Node
  | .text _ => []
  | .interpolation content => content.nodes

/-- An interpolation and all the nodes in it. -/
def Interpolation.nodes : Interpolation → List Node
  | c@⟨body, _⟩ => .interpolation c :: body.nodes

/-- A path of names and all the nodes in it. -/
def AttrPath.nodes : AttrPath → List Node
  | p@⟨segments, _, _⟩ => .path p :: segmentsNodes segments

/-- Some paths of names and all the nodes in them. -/
def pathsNodes : List AttrPath → List Node
  | [] => []
  | p :: ps => p.nodes ++ pathsNodes ps

/-- A path of names that may be missing, and all the nodes in it. -/
def pathNodes? : Option AttrPath → List Node
  | none => []
  | some p => p.nodes

/-- The nodes in the names of a path. -/
def segmentsNodes : List Segment → List Node
  | [] => []
  | s :: ss => s.nodes ++ segmentsNodes ss

/-- The nodes in a name of a path. -/
def Segment.nodes : Segment → List Node
  | .name _ => []
  | .string literal => literal.nodes
  | .interpolation content => content.nodes

/-- Some bindings and all the nodes in them. -/
def bindingsNodes : List Binding → List Node
  | [] => []
  | b :: bs => b.nodes ++ bindingsNodes bs

/-- A binding and all the nodes in it. -/
def Binding.nodes : Binding → List Node
  | b@(.assign name value _ _) => .binding b :: (name.nodes ++ value.nodes)
  | b@(.inherit source names _ _) => .binding b :: (exprNodes? source ++ pathsNodes names)

/-- A parameter and all the nodes in it. -/
def Parameter.nodes : Parameter → List Node
  | p@(.named name) => .parameter p :: name.nodes
  | p@(.pattern formals _ whole _ _) => .parameter p :: (formalsNodes formals ++ pathNodes? whole)

/-- Some attributes of a pattern and all the nodes in them. -/
def formalsNodes : List Formal → List Node
  | [] => []
  | f :: fs => f.nodes ++ formalsNodes fs

/-- An attribute of a pattern and all the nodes in it. -/
def Formal.nodes : Formal → List Node
  | f@⟨name, fallback, _, _⟩ => .formal f :: (name.nodes ++ exprNodes? fallback)

end

/-! ### The nodes of several

Those of the first, then those of the next, and so on. -/

section

attribute [local simp] Expr.nodes Operand.nodes modifiersNodes Modifier.nodes Term.nodes
  exprsNodes exprNodes? StringLiteral.nodes partsNodes StringPart.nodes Interpolation.nodes
  AttrPath.nodes pathsNodes pathNodes? segmentsNodes Segment.nodes bindingsNodes Binding.nodes
  Parameter.nodes formalsNodes Formal.nodes

/-- The nodes in some clauses. -/
theorem modifiersNodes_eq (ms : List Modifier) : modifiersNodes ms = ms.flatMap Modifier.nodes := by
  induction ms with
  | nil => simp
  | cons m ms ih => simp [ih]

theorem exprsNodes_eq (es : List Expr) : exprsNodes es = es.flatMap Expr.nodes := by
  induction es with
  | nil => simp
  | cons e es ih => simp [ih]

/-- The nodes in an expression, if there is one. -/
theorem exprNodes?_eq (e : Option Expr) : exprNodes? e = e.toList.flatMap Expr.nodes := by
  cases e <;> simp

theorem partsNodes_eq (ps : List StringPart) : partsNodes ps = ps.flatMap StringPart.nodes := by
  induction ps with
  | nil => simp
  | cons p ps ih => simp [ih]

theorem pathsNodes_eq (ps : List AttrPath) : pathsNodes ps = ps.flatMap AttrPath.nodes := by
  induction ps with
  | nil => simp
  | cons p ps ih => simp [ih]

theorem pathNodes?_eq (p : Option AttrPath) : pathNodes? p = p.toList.flatMap AttrPath.nodes := by
  cases p <;> simp

theorem segmentsNodes_eq (ss : List Segment) : segmentsNodes ss = ss.flatMap Segment.nodes := by
  induction ss with
  | nil => simp
  | cons s ss ih => simp [ih]

/-- The nodes in some bindings. -/
theorem bindingsNodes_eq (bs : List Binding) : bindingsNodes bs = bs.flatMap Binding.nodes := by
  induction bs with
  | nil => simp
  | cons b bs ih => simp [ih]

theorem formalsNodes_eq (fs : List Formal) : formalsNodes fs = fs.flatMap Formal.nodes := by
  induction fs with
  | nil => simp
  | cons f fs ih => simp [ih]

end

/-! ### Operator expressions

A side of an operator is an expression that is held by an expression. What any other node holds is
not a side. -/

/-- The expressions that a term holds. -/
def Term.expressions : Term → List Expr
  | .list items _ _ => items
  | .lambda _ body _ => [body]
  | .call _ arguments _ => arguments
  | .letIn _ _ body _ => [body]
  | .import_ source _ => [source]
  | .conditional condition consequence alternative _ => [condition, consequence, alternative]
  | .unary _ argument _ => [argument]
  | .paren body _ => [body]
  | _ => []

/-- The expressions that a node holds other than as a side of an operator. -/
def Node.expressions : Node → List Expr
  | .modifier m => [m.subject]
  | .term t => t.expressions
  | .interpolation c => [c.body]
  | .binding (.assign _ value _ _) => [value]
  | .binding (.inherit source _ _ _) => source.toList
  | .formal f => f.fallback.toList
  | _ => []

/-- The maximal operator expressions of a tree: itself, and every expression in it that is not a
side of an operator. -/
def Expr.chains (e : Expr) : List Expr := e :: e.nodes.flatMap Node.expressions

end NixSyntax
