import NixSyntax.Proofs.Cutting.Relabel

/-!
# Changing texts

Tokens and trees hold texts as the source has them: those of comments, of strings and of paths.
`Token.reword` and `Expr.reword` change each of them by one function and leave all else alone, names
and numbers too. They do for texts what `Token.relabel` and `Expr.relabel` do for positions, and no
shape depends on a text either.

## Which texts

A text is what a source has between some delimiters: a comment, the parts of a string, a path.
Nothing is looked up by it, and no rule compares one with another. A name is not a text in this
sense, for its characters tell it from the keywords.

So nothing that the rules look at depends on a text, and each of these things has a lemma. Most of
them are simp lemmas, and with them a rule sees the same tokens as before.

## Main definitions

* `rewordTokens`, `Token.reword`: tokens with other texts, at every depth
* `Expr.reword`, `Term.reword`, …: a node with other texts

## Main results

* `rewordTokens_id`, `Expr.reword_id`: the same texts leave all as it is
* `reword_assemble`: a chain is put into the same tree, whatever its texts are
-/

namespace NixSyntax

section

variable (g : String → String)

/-- A comment with another text. -/
def Comment.reword (c : Comment) : Comment := { c with text := g c.text }

/-! ### Tokens -/

mutual

/-- Some tokens with other texts. -/
def rewordTokens : List Token → List Token
  | [] => []
  | t :: ts => t.reword :: rewordTokens ts

/-- A token with other texts. -/
def Token.reword : Token → Token
  | ⟨kind, span⟩ => ⟨kind.reword, span⟩

/-- What a token is, with other texts. -/
def TokenKind.reword : TokenKind → TokenKind
  | .comment text block => .comment (g text) block
  | .string parts multiline => .string (rewordFragments parts) multiline
  | .path value => .path (g value)
  | .interpolation tokens => .interpolation (rewordTokens tokens)
  | kind => kind

/-- Some parts of a string with other texts. -/
def rewordFragments : List StringFragment → List StringFragment
  | [] => []
  | part :: parts => part.reword :: rewordFragments parts

/-- A part of a string with other texts. -/
def StringFragment.reword : StringFragment → StringFragment
  | .text content => .text (g content)
  | .interpolation tokens span => .interpolation (rewordTokens tokens) span

end

/-! ### Trees

The comments of a node are changed with it. -/

mutual

/-- An expression with other texts. -/
def Expr.reword : Expr → Expr
  | .binary operator left right span => .binary operator left.reword right.reword span
  | .operand o => .operand o.reword

/-- An operand with other texts. -/
def Operand.reword : Operand → Operand
  | ⟨modifiers, before, after, term, span⟩ =>
    ⟨rewordModifiers modifiers, before.map (Comment.reword g), after.map (Comment.reword g),
      term.reword, span⟩

/-- Some clauses with other texts. -/
def rewordModifiers : List Modifier → List Modifier
  | [] => []
  | m :: ms => m.reword :: rewordModifiers ms

/-- A clause with other texts. -/
def Modifier.reword : Modifier → Modifier
  | ⟨kind, subject, span⟩ => ⟨kind, subject.reword, span⟩

/-- A term with other texts. -/
def Term.reword : Term → Term
  | .null span => .null span
  | .bool value span => .bool value span
  | .int value span => .int value span
  | .float value span => .float value span
  | .string literal => .string literal.reword
  | .path value span => .path (g value) span
  | .interpolation content => .interpolation content.reword
  | .name p => .name p.reword
  | .list items comments span =>
    .list (rewordExprs items) (comments.map (Comment.reword g)) span
  | .attrSet recursive bindings comments span =>
    .attrSet recursive (rewordBindings bindings) (comments.map (Comment.reword g)) span
  | .lambda parameter body span => .lambda parameter.reword body.reword span
  | .call callee arguments span => .call callee.reword (rewordExprs arguments) span
  | .letIn bindings comments body span =>
    .letIn (rewordBindings bindings) (comments.map (Comment.reword g)) body.reword span
  | .import_ source span => .import_ source.reword span
  | .conditional condition consequence alternative span =>
    .conditional condition.reword consequence.reword alternative.reword span
  | .unary op argument span => .unary op argument.reword span
  | .paren body span => .paren body.reword span

/-- Some expressions with other texts. -/
def rewordExprs : List Expr → List Expr
  | [] => []
  | e :: es => e.reword :: rewordExprs es

/-- An expression that may be missing, with other texts. -/
def rewordExpr? : Option Expr → Option Expr
  | none => none
  | some e => some e.reword

/-- A string with other texts. -/
def StringLiteral.reword : StringLiteral → StringLiteral
  | ⟨parts, multiline, span⟩ => ⟨rewordParts parts, multiline, span⟩

/-- Some parts of a string with other texts. -/
def rewordParts : List StringPart → List StringPart
  | [] => []
  | part :: parts => part.reword :: rewordParts parts

/-- A part of a string with other texts. -/
def StringPart.reword : StringPart → StringPart
  | .text content => .text (g content)
  | .interpolation content => .interpolation content.reword

/-- An interpolation with other texts. -/
def Interpolation.reword : Interpolation → Interpolation
  | ⟨body, span⟩ => ⟨body.reword, span⟩

/-- A path of names with other texts. -/
def AttrPath.reword : AttrPath → AttrPath
  | ⟨segments, comments, span⟩ =>
    ⟨rewordSegments segments, comments.map (Comment.reword g), span⟩

/-- Some paths of names with other texts. -/
def rewordPaths : List AttrPath → List AttrPath
  | [] => []
  | p :: ps => p.reword :: rewordPaths ps

/-- A path of names that may be missing, with other texts. -/
def rewordPath? : Option AttrPath → Option AttrPath
  | none => none
  | some p => some p.reword

/-- Some names of a path with other texts. -/
def rewordSegments : List Segment → List Segment
  | [] => []
  | s :: ss => s.reword :: rewordSegments ss

/-- A name of a path with other texts. -/
def Segment.reword : Segment → Segment
  | .name name => .name name
  | .string literal => .string literal.reword
  | .interpolation content => .interpolation content.reword

/-- Some bindings with other texts. -/
def rewordBindings : List Binding → List Binding
  | [] => []
  | b :: bs => b.reword :: rewordBindings bs

/-- A binding with other texts. -/
def Binding.reword : Binding → Binding
  | .assign name value comments span =>
    .assign name.reword value.reword (comments.map (Comment.reword g)) span
  | .inherit source names comments span =>
    .inherit (rewordExpr? source) (rewordPaths names) (comments.map (Comment.reword g)) span

/-- A parameter with other texts. -/
def Parameter.reword : Parameter → Parameter
  | .named name => .named name.reword
  | .pattern formals variadic whole comments span =>
    .pattern (rewordFormals formals) variadic (rewordPath? whole)
      (comments.map (Comment.reword g)) span

/-- Some attributes of a pattern with other texts. -/
def rewordFormals : List Formal → List Formal
  | [] => []
  | a :: as => a.reword :: rewordFormals as

/-- An attribute of a pattern with other texts. -/
def Formal.reword : Formal → Formal
  | ⟨name, fallback, comments, span⟩ =>
    ⟨name.reword, rewordExpr? fallback, comments.map (Comment.reword g), span⟩

end

/-! ### What tokens keep

What the rules look at: the place of a token, whether it is trivia, a line break or the end of
input, its operator, and how it counts for braces. -/

section

attribute [local simp] Token.reword TokenKind.reword

@[simp] theorem rewordTokens_nil : rewordTokens g [] = [] := by
  rw [rewordTokens]

@[simp] theorem rewordTokens_cons (t : Token) (ts : List Token) :
    rewordTokens g (t :: ts) = t.reword g :: rewordTokens g ts := by
  rw [rewordTokens]

@[simp] theorem Token.span_reword (t : Token) : (t.reword g).span = t.span := by
  obtain ⟨kind, span⟩ := t
  rw [Token.reword]

/-- A token is changed in its kind only. -/
@[simp] theorem Token.kind_reword (t : Token) : (t.reword g).kind = t.kind.reword g := by
  obtain ⟨kind, span⟩ := t
  rw [Token.reword]

@[simp] theorem Token.isTrivia_reword (t : Token) : (t.reword g).isTrivia = t.isTrivia := by
  obtain ⟨kind, span⟩ := t
  cases kind <;> simp [Token.isTrivia]

@[simp] theorem Token.isNewline_reword (t : Token) : (t.reword g).isNewline = t.isNewline := by
  obtain ⟨kind, span⟩ := t
  cases kind <;> simp [Token.isNewline]

@[simp] theorem Token.isEnd_reword (t : Token) : (t.reword g).isEnd = t.isEnd := by
  obtain ⟨kind, span⟩ := t
  cases kind <;> simp [Token.isEnd]

@[simp] theorem TokenKind.braceDepth_reword (depth : Nat) (kind : TokenKind) :
    (kind.reword g).braceDepth depth = kind.braceDepth depth := by
  cases kind with
  | comment | string | path | interpolation => rw [reword, braceDepth, braceDepth] <;> simp
  | _ => rw [reword]; all_goals simp

/-- A comment stays a comment. -/
@[simp] theorem Token.comment?_reword (t : Token) :
    (t.reword g).comment? = t.comment?.map (Comment.reword g) := by
  obtain ⟨kind, span⟩ := t
  cases kind <;> simp [Token.comment?, Comment.reword]

@[simp] theorem Token.binaryOp?_reword (t : Token) : (t.reword g).binaryOp? = t.binaryOp? := by
  obtain ⟨kind, span⟩ := t
  cases kind with
  | keyword word => cases word <;> simp [Token.binaryOp?]
  | _ => simp [Token.binaryOp?]

end

end

/-! ### The same texts

Along the types, first of tokens and then of trees. -/

@[simp] theorem Comment.reword_id (c : Comment) : c.reword id = c := rfl

@[simp] theorem map_reword_id (cs : List Comment) : cs.map (Comment.reword id) = cs :=
  List.map_id'' Comment.reword_id cs

mutual

/-- The same texts leave all tokens as they are. -/
theorem rewordTokens_id : ∀ ts, rewordTokens id ts = ts
  | [] => rewordTokens_nil id
  | t :: ts => by rw [rewordTokens_cons, t.reword_id, rewordTokens_id ts]

theorem Token.reword_id : ∀ t : Token, t.reword id = t
  | ⟨kind, span⟩ => by rw [Token.reword, kind.reword_id]

theorem TokenKind.reword_id : ∀ kind : TokenKind, kind.reword id = kind
  | .string parts multiline => by rw [TokenKind.reword, rewordFragments_id parts]
  | .interpolation tokens => by rw [TokenKind.reword, rewordTokens_id tokens]
  | .endOfInput | .newline | .comment _ _ | .null | .bool _ | .int _ | .float _ | .path _
  | .keyword _ | .identifier _ | .symbol _ => by simp [TokenKind.reword]

theorem rewordFragments_id : ∀ parts, rewordFragments id parts = parts
  | [] => by rw [rewordFragments]
  | part :: parts => by rw [rewordFragments, part.reword_id, rewordFragments_id parts]

theorem StringFragment.reword_id : ∀ part : StringFragment, part.reword id = part
  | .text content => by simp [StringFragment.reword]
  | .interpolation tokens span => by rw [StringFragment.reword, rewordTokens_id tokens]

end

mutual

/-- The same texts leave a tree as it is. -/
theorem Expr.reword_id : ∀ e : Expr, e.reword id = e
  | .binary operator left right span => by rw [Expr.reword, left.reword_id, right.reword_id]
  | .operand o => by rw [Expr.reword, o.reword_id]

theorem Operand.reword_id : ∀ o : Operand, o.reword id = o
  | ⟨modifiers, before, after, term, span⟩ => by
    rw [Operand.reword, rewordModifiers_id modifiers, term.reword_id, map_reword_id, map_reword_id]

theorem rewordModifiers_id : ∀ ms, rewordModifiers id ms = ms
  | [] => by rw [rewordModifiers]
  | m :: ms => by rw [rewordModifiers, m.reword_id, rewordModifiers_id ms]

theorem Modifier.reword_id : ∀ m : Modifier, m.reword id = m
  | ⟨kind, subject, span⟩ => by rw [Modifier.reword, subject.reword_id]

theorem Term.reword_id : ∀ t : Term, t.reword id = t
  | .null _ | .bool _ _ | .int _ _ | .float _ _ | .path _ _ => by simp [Term.reword]
  | .string literal => by rw [Term.reword, literal.reword_id]
  | .interpolation content => by rw [Term.reword, content.reword_id]
  | .name p => by rw [Term.reword, p.reword_id]
  | .list items comments span => by rw [Term.reword, rewordExprs_id items, map_reword_id]
  | .attrSet recursive bindings comments span => by
    rw [Term.reword, rewordBindings_id bindings, map_reword_id]
  | .lambda parameter body span => by rw [Term.reword, parameter.reword_id, body.reword_id]
  | .call callee arguments span => by rw [Term.reword, callee.reword_id, rewordExprs_id arguments]
  | .letIn bindings comments body span => by
    rw [Term.reword, rewordBindings_id bindings, map_reword_id, body.reword_id]
  | .import_ source span => by rw [Term.reword, source.reword_id]
  | .conditional condition consequence alternative span => by
    rw [Term.reword, condition.reword_id, consequence.reword_id, alternative.reword_id]
  | .unary op argument span => by rw [Term.reword, argument.reword_id]
  | .paren body span => by rw [Term.reword, body.reword_id]

theorem rewordExprs_id : ∀ es, rewordExprs id es = es
  | [] => by rw [rewordExprs]
  | e :: es => by rw [rewordExprs, e.reword_id, rewordExprs_id es]

theorem rewordExpr?_id : ∀ e, rewordExpr? id e = e
  | none => by rw [rewordExpr?]
  | some e => by rw [rewordExpr?, e.reword_id]

theorem StringLiteral.reword_id : ∀ s : StringLiteral, s.reword id = s
  | ⟨parts, multiline, span⟩ => by rw [StringLiteral.reword, rewordParts_id parts]

theorem rewordParts_id : ∀ parts, rewordParts id parts = parts
  | [] => by rw [rewordParts]
  | part :: parts => by rw [rewordParts, part.reword_id, rewordParts_id parts]

theorem StringPart.reword_id : ∀ part : StringPart, part.reword id = part
  | .text content => by rw [StringPart.reword, id]
  | .interpolation content => by rw [StringPart.reword, content.reword_id]

theorem Interpolation.reword_id : ∀ c : Interpolation, c.reword id = c
  | ⟨body, span⟩ => by rw [Interpolation.reword, body.reword_id]

theorem AttrPath.reword_id : ∀ p : AttrPath, p.reword id = p
  | ⟨segments, comments, span⟩ => by
    rw [AttrPath.reword, rewordSegments_id segments, map_reword_id]

theorem rewordPaths_id : ∀ ps, rewordPaths id ps = ps
  | [] => by rw [rewordPaths]
  | p :: ps => by rw [rewordPaths, p.reword_id, rewordPaths_id ps]

theorem rewordPath?_id : ∀ p, rewordPath? id p = p
  | none => by rw [rewordPath?]
  | some p => by rw [rewordPath?, p.reword_id]

theorem rewordSegments_id : ∀ ss, rewordSegments id ss = ss
  | [] => by rw [rewordSegments]
  | s :: ss => by rw [rewordSegments, s.reword_id, rewordSegments_id ss]

theorem Segment.reword_id : ∀ s : Segment, s.reword id = s
  | .name name => by rw [Segment.reword]
  | .string literal => by rw [Segment.reword, literal.reword_id]
  | .interpolation content => by rw [Segment.reword, content.reword_id]

theorem rewordBindings_id : ∀ bs, rewordBindings id bs = bs
  | [] => by rw [rewordBindings]
  | b :: bs => by rw [rewordBindings, b.reword_id, rewordBindings_id bs]

theorem Binding.reword_id : ∀ b : Binding, b.reword id = b
  | .assign name value comments span => by
    rw [Binding.reword, name.reword_id, value.reword_id, map_reword_id]
  | .inherit source names comments span => by
    rw [Binding.reword, rewordExpr?_id source, rewordPaths_id names, map_reword_id]

theorem Parameter.reword_id : ∀ p : Parameter, p.reword id = p
  | .named name => by rw [Parameter.reword, name.reword_id]
  | .pattern formals variadic whole comments span => by
    rw [Parameter.reword, rewordFormals_id formals, rewordPath?_id whole, map_reword_id]

theorem rewordFormals_id : ∀ as, rewordFormals id as = as
  | [] => by rw [rewordFormals]
  | a :: as => by rw [rewordFormals, a.reword_id, rewordFormals_id as]

theorem Formal.reword_id : ∀ a : Formal, a.reword id = a
  | ⟨name, fallback, comments, span⟩ => by
    rw [Formal.reword, name.reword_id, rewordExpr?_id fallback, map_reword_id]

end

/-! ### Several nodes

Each of some nodes is changed like a node alone. -/

section

variable (g : String → String)

section

attribute [local simp] rewordModifiers rewordExprs rewordExpr? rewordPaths rewordPath?
  rewordSegments rewordBindings rewordFormals

theorem rewordModifiers_eq (ms : List Modifier) :
    rewordModifiers g ms = ms.map (Modifier.reword g) := by
  induction ms with
  | nil => simp
  | cons m ms ih => simp [ih]

theorem rewordExprs_eq (es : List Expr) : rewordExprs g es = es.map (Expr.reword g) := by
  induction es with
  | nil => simp
  | cons e es ih => simp [ih]

theorem rewordExpr?_eq (e : Option Expr) : rewordExpr? g e = e.map (Expr.reword g) := by
  cases e <;> simp

theorem rewordPaths_eq (ps : List AttrPath) : rewordPaths g ps = ps.map (AttrPath.reword g) := by
  induction ps with
  | nil => simp
  | cons p ps ih => simp [ih]

theorem rewordPath?_eq (p : Option AttrPath) : rewordPath? g p = p.map (AttrPath.reword g) := by
  cases p <;> simp

theorem rewordSegments_eq (ss : List Segment) :
    rewordSegments g ss = ss.map (Segment.reword g) := by
  induction ss with
  | nil => simp
  | cons s ss ih => simp [ih]

theorem rewordBindings_eq (bs : List Binding) :
    rewordBindings g bs = bs.map (Binding.reword g) := by
  induction bs with
  | nil => simp
  | cons b bs ih => simp [ih]

theorem rewordFormals_eq (as : List Formal) : rewordFormals g as = as.map (Formal.reword g) := by
  induction as with
  | nil => simp
  | cons a as ih => simp [ih]

end

/-! ### What trees keep

Places and operators are no texts, and whether a term can be called depends on its form. -/

@[simp] theorem AttrPath.span_reword (p : AttrPath) : (p.reword g).span = p.span := by
  obtain ⟨segments, comments, span⟩ := p
  rw [AttrPath.reword]

@[simp] theorem Operand.span_reword (o : Operand) : (o.reword g).span = o.span := by
  obtain ⟨modifiers, before, after, term, span⟩ := o
  rw [Operand.reword]

@[simp] theorem Modifier.span_reword (m : Modifier) : (m.reword g).span = m.span := by
  obtain ⟨kind, subject, span⟩ := m
  rw [Modifier.reword]

@[simp] theorem Expr.span_reword (e : Expr) : (e.reword g).span = e.span := by
  cases e with
  | binary => rw [Expr.reword]; rfl
  | operand o =>
    rw [Expr.reword]
    exact o.span_reword g

@[simp] theorem Term.span_reword (t : Term) : (t.reword g).span = t.span := by
  cases t with
  | string literal =>
    obtain ⟨parts, multiline, span⟩ := literal
    rw [Term.reword, StringLiteral.reword]
    rfl
  | interpolation content =>
    obtain ⟨body, span⟩ := content
    rw [Term.reword, Interpolation.reword]
    rfl
  | name p =>
    rw [Term.reword]
    exact p.span_reword g
  | _ => simp [Term.reword, Term.span]

@[simp] theorem Term.isCallable_reword (t : Term) : (t.reword g).isCallable = t.isCallable := by
  cases t <;> simp [Term.reword, Term.isCallable]

@[simp] theorem Expr.reword_operand (o : Operand) :
    (Expr.operand o).reword g = .operand (o.reword g) := by
  simp [Expr.reword]

theorem Expr.reword_joined (operator : Operator) (left right : Expr) :
    (Expr.joined operator left right).reword g =
      .joined operator (left.reword g) (right.reword g) := by
  simp [Expr.joined, Expr.reword]

/-- A chain is put into the same tree, whatever its texts are. -/
theorem Grammar.reword_assemble (first : Operand) (links : List (Operator × Operand)) :
    (assemble first links).reword g =
      assemble (first.reword g) (links.map fun l => (l.1, l.2.reword g)) :=
  map_assemble (fun _ => rfl) (Expr.reword_operand g)
    (fun _ _ _ _ => ⟨_, by rw [Expr.reword]⟩) (Expr.reword_joined g) first links

end

end NixSyntax
