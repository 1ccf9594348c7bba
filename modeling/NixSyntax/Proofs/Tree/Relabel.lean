import NixSyntax.Grammar.Chain

/-!
# Changing places and comments

Two trees may differ in nothing but where their nodes stand and which comments they hold.
`Expr.relabel` changes the two at every node, with one function for positions and one for lists of
comments, and leaves everything else alone. `Expr.erase` forgets both.

A span that joins two others begins where the first begins and ends where the second ends, so
changing positions commutes with joining (`Span.map_join`), and then also with putting operators
into a tree (`relabel_assemble`).

## What a rule does not see

No rule decides anything by a place or by a comment. That is shown elsewhere, rule by rule, by
reading two lists of tokens side by side, and what is compared are two trees relabeled: the
positions to a common one, the comments to those that are to be kept. So what is needed of the
functions here is that they commute with everything that rules do to trees. Rules join spans, and
put operands and operators into a tree.

The second is a statement about every function that changes a tree node by node (`map_assemble`).
Its hypotheses are that operators stay the same operators, and that joined expressions are changed
to joined ones. The texts in a tree are changed by such a function, too.

## Main definitions

* `Expr.relabel`, `Term.relabel`, …: a node with other positions and comments
* `Expr.erase`, `Term.erase`, …: a node without positions and comments

## Main results

* `relabel_assemble`: a chain is put into the same tree, whatever its positions and comments are
-/

namespace NixSyntax

/-- The stretch between other positions. -/
def Span.map (f : Position → Position) (s : Span) : Span := ⟨f s.start, f s.stop⟩

@[simp] theorem Span.map_join (f : Position → Position) (a b : Span) :
    (a.join b).map f = (a.map f).join (b.map f) := rfl

/-- The same operator at other positions. -/
def Operator.relabel (f : Position → Position) (o : Operator) : Operator := ⟨o.op, o.span.map f⟩

@[simp] theorem Operator.op_relabel (f : Position → Position) (o : Operator) :
    (o.relabel f).op = o.op := rfl

variable (f : Position → Position) (c : List Comment → List Comment)

mutual

/-- An expression with other positions and comments. -/
def Expr.relabel : Expr → Expr
  | .binary operator left right span =>
    .binary (operator.relabel f) left.relabel right.relabel (span.map f)
  | .operand o => .operand o.relabel

/-- An operand with other positions and comments. -/
def Operand.relabel : Operand → Operand
  | ⟨modifiers, before, after, term, span⟩ =>
    ⟨relabelModifiers modifiers, c before, c after, term.relabel, span.map f⟩

/-- Some clauses with other positions and comments. -/
def relabelModifiers : List Modifier → List Modifier
  | [] => []
  | m :: ms => m.relabel :: relabelModifiers ms

/-- A clause with other positions and comments. -/
def Modifier.relabel : Modifier → Modifier
  | ⟨kind, subject, span⟩ => ⟨kind, subject.relabel, span.map f⟩

/-- A term with other positions and comments. -/
def Term.relabel : Term → Term
  | .null span => .null (span.map f)
  | .bool value span => .bool value (span.map f)
  | .int value span => .int value (span.map f)
  | .float value span => .float value (span.map f)
  | .string literal => .string literal.relabel
  | .path value span => .path value (span.map f)
  | .interpolation content => .interpolation content.relabel
  | .name p => .name p.relabel
  | .list items comments span => .list (relabelExprs items) (c comments) (span.map f)
  | .attrSet recursive bindings comments span =>
    .attrSet recursive (relabelBindings bindings) (c comments) (span.map f)
  | .lambda parameter body span => .lambda parameter.relabel body.relabel (span.map f)
  | .call callee arguments span => .call callee.relabel (relabelExprs arguments) (span.map f)
  | .letIn bindings comments body span =>
    .letIn (relabelBindings bindings) (c comments) body.relabel (span.map f)
  | .import_ source span => .import_ source.relabel (span.map f)
  | .conditional condition consequence alternative span =>
    .conditional condition.relabel consequence.relabel alternative.relabel (span.map f)
  | .unary op argument span => .unary op argument.relabel (span.map f)
  | .paren body span => .paren body.relabel (span.map f)

/-- Some expressions with other positions and comments. -/
def relabelExprs : List Expr → List Expr
  | [] => []
  | e :: es => e.relabel :: relabelExprs es

/-- An expression that may be missing, with other positions and comments. -/
def relabelExpr? : Option Expr → Option Expr
  | none => none
  | some e => some e.relabel

/-- A string with other positions and comments. -/
def StringLiteral.relabel : StringLiteral → StringLiteral
  | ⟨parts, multiline, span⟩ => ⟨relabelParts parts, multiline, span.map f⟩

/-- Some parts of a string with other positions and comments. -/
def relabelParts : List StringPart → List StringPart
  | [] => []
  | part :: parts => part.relabel :: relabelParts parts

/-- A part of a string with other positions and comments. -/
def StringPart.relabel : StringPart → StringPart
  | .text content => .text content
  | .interpolation content => .interpolation content.relabel

/-- An interpolation with other positions and comments. -/
def Interpolation.relabel : Interpolation → Interpolation
  | ⟨body, span⟩ => ⟨body.relabel, span.map f⟩

/-- A path of names with other positions and comments. -/
def AttrPath.relabel : AttrPath → AttrPath
  | ⟨segments, comments, span⟩ => ⟨relabelSegments segments, c comments, span.map f⟩

/-- Some paths of names with other positions and comments. -/
def relabelPaths : List AttrPath → List AttrPath
  | [] => []
  | p :: ps => p.relabel :: relabelPaths ps

/-- A path of names that may be missing, with other positions and comments. -/
def relabelPath? : Option AttrPath → Option AttrPath
  | none => none
  | some p => some p.relabel

/-- Some names of a path with other positions and comments. -/
def relabelSegments : List Segment → List Segment
  | [] => []
  | s :: ss => s.relabel :: relabelSegments ss

/-- A name of a path with other positions and comments. -/
def Segment.relabel : Segment → Segment
  | .name name => .name name
  | .string literal => .string literal.relabel
  | .interpolation content => .interpolation content.relabel

/-- Some bindings with other positions and comments. -/
def relabelBindings : List Binding → List Binding
  | [] => []
  | b :: bs => b.relabel :: relabelBindings bs

/-- A binding with other positions and comments. -/
def Binding.relabel : Binding → Binding
  | .assign name value comments span =>
    .assign name.relabel value.relabel (c comments) (span.map f)
  | .inherit source names comments span =>
    .inherit (relabelExpr? source) (relabelPaths names) (c comments) (span.map f)

/-- A parameter with other positions and comments. -/
def Parameter.relabel : Parameter → Parameter
  | .named name => .named name.relabel
  | .pattern formals variadic whole comments span =>
    .pattern (relabelFormals formals) variadic (relabelPath? whole) (c comments) (span.map f)

/-- Some attributes of a pattern with other positions and comments. -/
def relabelFormals : List Formal → List Formal
  | [] => []
  | a :: as => a.relabel :: relabelFormals as

/-- An attribute of a pattern with other positions and comments. -/
def Formal.relabel : Formal → Formal
  | ⟨name, fallback, comments, span⟩ =>
    ⟨name.relabel, relabelExpr? fallback, c comments, span.map f⟩

end

/-! ### Several nodes

Each of some nodes is changed like a node alone. -/

section

attribute [local simp] Expr.relabel Operand.relabel relabelModifiers Modifier.relabel Term.relabel
  relabelExprs relabelExpr? StringLiteral.relabel relabelParts StringPart.relabel
  Interpolation.relabel AttrPath.relabel relabelPaths relabelPath? relabelSegments Segment.relabel
  relabelBindings Binding.relabel Parameter.relabel relabelFormals Formal.relabel

theorem relabelModifiers_eq (ms : List Modifier) :
    relabelModifiers f c ms = ms.map (Modifier.relabel f c) := by
  induction ms with
  | nil => simp
  | cons m ms ih => simp [ih]

theorem relabelExprs_eq (es : List Expr) : relabelExprs f c es = es.map (Expr.relabel f c) := by
  induction es with
  | nil => simp
  | cons e es ih => simp [ih]

/-- An expression, if there is one. -/
theorem relabelExpr?_eq (e : Option Expr) : relabelExpr? f c e = e.map (Expr.relabel f c) := by
  cases e <;> simp

theorem relabelParts_eq (ps : List StringPart) :
    relabelParts f c ps = ps.map (StringPart.relabel f c) := by
  induction ps with
  | nil => simp
  | cons p ps ih => simp [ih]

theorem relabelPaths_eq (ps : List AttrPath) :
    relabelPaths f c ps = ps.map (AttrPath.relabel f c) := by
  induction ps with
  | nil => simp
  | cons p ps ih => simp [ih]

theorem relabelPath?_eq (p : Option AttrPath) :
    relabelPath? f c p = p.map (AttrPath.relabel f c) := by
  cases p <;> simp

theorem relabelSegments_eq (ss : List Segment) :
    relabelSegments f c ss = ss.map (Segment.relabel f c) := by
  induction ss with
  | nil => simp
  | cons s ss ih => simp [ih]

theorem relabelBindings_eq (bs : List Binding) :
    relabelBindings f c bs = bs.map (Binding.relabel f c) := by
  induction bs with
  | nil => simp
  | cons b bs ih => simp [ih]

theorem relabelFormals_eq (as : List Formal) :
    relabelFormals f c as = as.map (Formal.relabel f c) := by
  induction as with
  | nil => simp
  | cons a as ih => simp [ih]

end

/-! ### Places

A node's place is changed like all positions in it. -/

@[simp] theorem AttrPath.span_relabel (p : AttrPath) : (p.relabel f c).span = p.span.map f := by
  obtain ⟨segments, comments, span⟩ := p
  rw [AttrPath.relabel]

@[simp] theorem Operand.span_relabel (o : Operand) : (o.relabel f c).span = o.span.map f := by
  obtain ⟨modifiers, before, after, term, span⟩ := o
  rw [Operand.relabel]

@[simp] theorem Modifier.span_relabel (m : Modifier) : (m.relabel f c).span = m.span.map f := by
  obtain ⟨kind, subject, span⟩ := m
  rw [Modifier.relabel]

@[simp] theorem Term.span_relabel (t : Term) : (t.relabel f c).span = t.span.map f := by
  -- three forms have their place from what they consist of
  cases t with
  | string literal =>
    obtain ⟨parts, multiline, span⟩ := literal
    rw [Term.relabel, StringLiteral.relabel]
    rfl
  | interpolation content =>
    obtain ⟨body, span⟩ := content
    rw [Term.relabel, Interpolation.relabel]
    rfl
  | name p =>
    rw [Term.relabel]
    exact p.span_relabel f c
  | _ =>
    rw [Term.relabel]
    rfl

@[simp] theorem Expr.span_relabel (e : Expr) : (e.relabel f c).span = e.span.map f := by
  cases e with
  | binary => simp [Expr.relabel]
  | operand o => simp [Expr.relabel]

/-! ### Operator trees

An expression is one operand, or two expressions joined. -/

@[simp] theorem Expr.relabel_operand (o : Operand) :
    (Expr.operand o).relabel f c = .operand (o.relabel f c) := by
  simp [Expr.relabel]

/-- Items and arguments are operands, kept as expressions. -/
theorem relabelExprs_map_operand (os : List Operand) :
    relabelExprs f c (os.map .operand) = (os.map (Operand.relabel f c)).map .operand := by
  simp [relabelExprs_eq, Function.comp_def]

/-- Joining commutes with relabeling, since spans are joined end to end. -/
theorem Expr.relabel_joined (operator : Operator) (left right : Expr) :
    (Expr.joined operator left right).relabel f c =
      .joined (operator.relabel f) (left.relabel f c) (right.relabel f c) := by
  simp [Expr.joined, Expr.relabel]

/-- Whether a term can be called depends on its form. -/
@[simp] theorem Term.isCallable_relabel (t : Term) :
    (t.relabel f c).isCallable = t.isCallable := by
  cases t <;> simp [Term.relabel, Term.isCallable]

/-! ### Nodes that look alike

Two nodes are compared through two functions each, and what is equal then is equal of all that is
made from them. -/

section

variable {f f' : Position → Position} {c c' : List Comment → List Comment}

/-- Nodes that look alike stand at places that look alike. -/
theorem Expr.map_span_eq {e e' : Expr} (h : e.relabel f c = e'.relabel f' c') :
    e.span.map f = e'.span.map f' := by
  simpa using congrArg Expr.span h

/-- The same for operands. -/
theorem Operand.map_span_eq {o o' : Operand} (h : o.relabel f c = o'.relabel f' c') :
    o.span.map f = o'.span.map f' := by
  simpa using congrArg Operand.span h

theorem Term.map_span_eq {t t' : Term} (h : t.relabel f c = t'.relabel f' c') :
    t.span.map f = t'.span.map f' := by
  simpa using congrArg Term.span h

theorem AttrPath.map_span_eq {p p' : AttrPath} (h : p.relabel f c = p'.relabel f' c') :
    p.span.map f = p'.span.map f' := by
  simpa using congrArg AttrPath.span h

/-- Of two terms that look alike both can be called, or neither can. -/
theorem Term.isCallable_eq {t t' : Term} (h : t.relabel f c = t'.relabel f' c') :
    t.isCallable = t'.isCallable := by
  simpa using congrArg Term.isCallable h

end

namespace Grammar

/-! ### Putting operators into a tree

The tree is changed by `m`, its operands by `mo` and its operators by `mr`. -/

/-- The tree of a part of a chain, with another tree in its place. -/
def Spine.map (m : Expr → Expr) (s : Spine) : Spine := ⟨m s.root, s.tier, s.depth⟩

section

variable {m : Expr → Expr} {mo : Operand → Operand} {mr : Operator → Operator}
  (hop : ∀ operator, (mr operator).op = operator.op)
  (hoperand : ∀ o, m (.operand o) = .operand (mo o))
  (hbinary : ∀ operator left right span, ∃ span',
    m (.binary operator left right span) = .binary (mr operator) (m left) (m right) span')
  (hjoined : ∀ operator left right,
    m (.joined operator left right) = .joined (mr operator) (m left) (m right))

include hoperand hbinary hjoined in
/-- An operator that is put in at some depth, by the recursion that puts it there. -/
theorem map_graft (operator : Operator) (right : Expr) (depth : Nat) (e : Expr) :
    m (graft operator right depth e) = graft (mr operator) (m right) depth (m e) := by
  fun_induction graft operator right depth e with
  | case1 => rw [hjoined, hoperand, graft]
  | case2 op l r span =>
    obtain ⟨span', hspan⟩ := hbinary op l r span
    rw [hjoined, hjoined, hspan, graft]
  | case3 depth op l r span ih =>
    obtain ⟨span', hspan⟩ := hbinary op l r span
    rw [hjoined, ih, hspan, graft]

include hop hoperand hbinary hjoined

/-- One operator and one operand more. Where they go depends on the operator, which stays the
same. -/
theorem Spine.map_push (s : Spine) (operator : Operator) (o : Operand) :
    (s.push operator o).map m = (s.map m).push (mr operator) (mo o) := by
  by_cases htier : s.tier < operator.op.tier
  · simp [push, map, htier, hop, hjoined, hoperand]
  · simp [push, map, htier, hop, map_graft hoperand hbinary hjoined, hoperand]

/-- What changes the nodes of a tree one by one changes the operands of a chain in this way. -/
theorem map_assemble (first : Operand) (links : List (Operator × Operand)) :
    m (assemble first links) = assemble (mo first) (links.map fun l => (mr l.1, mo l.2)) := by
  -- from any part of the chain on, by induction on the links that are left
  suffices ∀ s : Spine, (links.foldl (fun s l => s.push l.1 l.2) s).map m =
      (links.map fun l => (mr l.1, mo l.2)).foldl (fun s l => s.push l.1 l.2) (s.map m) by
    have hroot := congrArg Spine.root (this (.single first))
    simpa [assemble, Spine.map, Spine.single, hoperand] using hroot
  induction links with
  | nil => simp
  | cons l links ih =>
    intro s
    rw [List.foldl_cons, ih, s.map_push hop hoperand hbinary hjoined, List.map_cons,
      List.foldl_cons]

end

/-- A chain is put into the same tree, whatever its positions and comments are. -/
theorem relabel_assemble (first : Operand) (links : List (Operator × Operand)) :
    (assemble first links).relabel f c =
      assemble (first.relabel f c)
        (links.map fun l => (l.1.relabel f, l.2.relabel f c)) :=
  map_assemble (Operator.op_relabel f) (Expr.relabel_operand f c)
    (fun _ _ _ _ => ⟨_, by rw [Expr.relabel]⟩) (Expr.relabel_joined f c) first links

end Grammar

/-! ### Forgetting

All positions become one, and all lists of comments become empty. -/

/-- Forgets a position. -/
def erasePosition (_ : Position) : Position := default

/-- Forgets some comments. -/
def eraseComments (_ : List Comment) : List Comment := []

@[simp] theorem Span.map_erasePosition (s : Span) : s.map erasePosition = default := rfl

@[simp] theorem eraseComments_apply (cs : List Comment) : eraseComments cs = [] := rfl

/-- An operator without its position. -/
abbrev Operator.erase : Operator → Operator := Operator.relabel erasePosition

/-- An expression without positions and comments. -/
abbrev Expr.erase : Expr → Expr := Expr.relabel erasePosition eraseComments

/-- An operand without positions and comments. -/
abbrev Operand.erase : Operand → Operand := Operand.relabel erasePosition eraseComments

/-- A clause without positions and comments. -/
abbrev Modifier.erase : Modifier → Modifier := Modifier.relabel erasePosition eraseComments

/-- A term without positions and comments. -/
abbrev Term.erase : Term → Term := Term.relabel erasePosition eraseComments

/-- A string without positions and comments. -/
abbrev StringLiteral.erase : StringLiteral → StringLiteral :=
  StringLiteral.relabel erasePosition eraseComments

/-- A part of a string without positions and comments. -/
abbrev StringPart.erase : StringPart → StringPart :=
  StringPart.relabel erasePosition eraseComments

/-- An interpolation without positions and comments. -/
abbrev Interpolation.erase : Interpolation → Interpolation :=
  Interpolation.relabel erasePosition eraseComments

/-- A path of names without positions and comments. -/
abbrev AttrPath.erase : AttrPath → AttrPath := AttrPath.relabel erasePosition eraseComments

/-- A name of a path without positions and comments. -/
abbrev Segment.erase : Segment → Segment := Segment.relabel erasePosition eraseComments

/-- A binding without positions and comments. -/
abbrev Binding.erase : Binding → Binding := Binding.relabel erasePosition eraseComments

/-- An attribute of a pattern without positions and comments. -/
abbrev Formal.erase : Formal → Formal := Formal.relabel erasePosition eraseComments

@[simp] theorem AttrPath.erase_comments (p : AttrPath) (comments : List Comment) :
    { p with comments }.erase = p.erase := by
  cases p
  simp [AttrPath.erase, AttrPath.relabel]

/-- Which comments an operand has makes no difference without them. -/
@[simp] theorem Operand.erase_comments (o : Operand) (before after : List Comment) :
    { o with before, after }.erase = o.erase := by
  cases o
  simp [Operand.erase, Operand.relabel]

/-- Nor do comments that a binding is given. -/
@[simp] theorem Binding.erase_addComments (b : Binding) (more : List Comment) :
    (b.addComments more).erase = b.erase := by
  cases b <;> simp [Binding.erase, Binding.relabel, addComments]

/-- A program without positions and comments. -/
def Program.erase (p : Program) : Program := ⟨p.body.erase, p.span.map erasePosition⟩

end NixSyntax
