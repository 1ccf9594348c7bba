import NixSyntax.Proofs.Lexing.Nested
import NixSyntax.Proofs.Tree.Relabel

/-!
# Tokens at other places

A piece of source is read on its own like a program. Its tokens are those that it has in the
source, at other places, at every depth. `Token.relabel` changes the places of a token and of all
the tokens in it, as `Expr.relabel` does it for the nodes of a tree.

Two readings are compared by what `viewComments` leaves of their comments, with or without places:
a piece that is cut out between comments loses those at its ends, so comments are compared only
where nothing is cut off.

## Positions that are no positions

A change of positions is any function, and need not keep their order. Three of them occur: a
translation by the place where a piece begins, the identity, and the collapse of all positions into
one, which leaves what tokens and trees are apart from where they stand. Two readings are compared
after a change on either side. So a statement of the form `x.relabel f = y.relabel g` says that `x`
and `y` look alike if places are seen through `f` and `g`.

## What a change of positions keeps

All questions that a rule of the grammar asks of a token are answered by its kind down to the tokens
inside of it, which no rule looks at without reading them. Hence the lemmas on `isTrivia`, `isEnd`,
`braceDepth` and the like, which are tagged for `simp`. A kind that holds no tokens is not changed
at all (`TokenKind.isFlat`).

## Main definitions

* `relabelTokens`, `Token.relabel`: tokens with other positions, at every depth
* `viewComments`: the comments that are compared

## Main results

* `relabelTokens_id`, `Expr.relabel_id`: the same positions and comments leave all as it is
-/

namespace NixSyntax

/-! ### Tokens

The definitions go through the mutual types in one block. Those on lists are `List.map` of those on
elements, and have their own names because the recursion is structural. -/

section

variable (f : Position → Position)

mutual

/-- Some tokens with other positions. -/
def relabelTokens : List Token → List Token
  | [] => []
  | t :: ts => t.relabel :: relabelTokens ts

/-- A token with other positions. -/
def Token.relabel : Token → Token
  | ⟨kind, span⟩ => ⟨kind.relabel, span.map f⟩

/-- What a token is, with other positions inside. -/
def TokenKind.relabel : TokenKind → TokenKind
  | .string parts multiline => .string (relabelFragments parts) multiline
  | .interpolation tokens => .interpolation (relabelTokens tokens)
  | kind => kind

/-- Some parts of a string with other positions. -/
def relabelFragments : List StringFragment → List StringFragment
  | [] => []
  | part :: parts => part.relabel :: relabelFragments parts

/-- A part of a string with other positions. -/
def StringFragment.relabel : StringFragment → StringFragment
  | .text content => .text content
  | .interpolation tokens span => .interpolation (relabelTokens tokens) (span.map f)

end

attribute [local simp] Token.relabel TokenKind.relabel relabelFragments StringFragment.relabel

@[simp] theorem relabelTokens_nil : relabelTokens f [] = [] := by
  rw [relabelTokens]

@[simp] theorem relabelTokens_cons (t : Token) (ts : List Token) :
    relabelTokens f (t :: ts) = t.relabel f :: relabelTokens f ts := by
  rw [relabelTokens]

/-- The tokens are changed one by one. -/
theorem relabelTokens_eq_map (ts : List Token) :
    relabelTokens f ts = ts.map (Token.relabel f) := by
  induction ts with
  | nil => simp
  | cons t ts ih => simp [ih]

@[simp] theorem Token.span_relabel (t : Token) : (t.relabel f).span = t.span.map f := by
  obtain ⟨kind, span⟩ := t
  rw [Token.relabel]

@[simp] theorem Token.kind_relabel (t : Token) : (t.relabel f).kind = t.kind.relabel f := by
  obtain ⟨kind, span⟩ := t
  rw [Token.relabel]

/-- Without tokens inside there are no places to change. -/
theorem TokenKind.relabel_of_isFlat {kind : TokenKind} (h : kind.isFlat = true) :
    kind.relabel f = kind := by
  cases kind <;> simp_all [TokenKind.isFlat]

@[simp] theorem TokenKind.isFlat_relabel (kind : TokenKind) :
    (kind.relabel f).isFlat = kind.isFlat := by
  cases kind <;> simp [TokenKind.isFlat]

/-- Braces are counted by kinds. -/
@[simp] theorem TokenKind.braceDepth_relabel (depth : Nat) (kind : TokenKind) :
    (kind.relabel f).braceDepth depth = kind.braceDepth depth := by
  cases kind with
  | string => rw [relabel, braceDepth, braceDepth] <;> simp
  | interpolation => rw [relabel, braceDepth, braceDepth] <;> simp
  | _ => rw [relabel]; all_goals simp

/-- A kind without tokens inside is told from the places. -/
theorem TokenKind.eq_of_relabel_eq {f g : Position → Position} {kind kind' : TokenKind}
    (h : kind.relabel f = kind'.relabel g) (hflat : kind.isFlat = true) : kind' = kind := by
  have hflat' : kind'.isFlat = true := by rw [← kind'.isFlat_relabel g, ← h, isFlat_relabel, hflat]
  rw [relabel_of_isFlat f hflat, relabel_of_isFlat g hflat'] at h
  exact h.symm

/-- Parts of strings that look alike are of the same sort. -/
theorem exists_of_relabelFragments_text {f g : Position → Position} {content : String}
    {fragments fragments' : List StringFragment}
    (h : relabelFragments f (.text content :: fragments) = relabelFragments g fragments') :
    ∃ more, fragments' = .text content :: more ∧
      relabelFragments f fragments = relabelFragments g more := by
  cases fragments' with
  | nil => simp at h
  | cons fragment more => cases fragment <;> simp_all

/-- An interpolation looks like no text, and its tokens and place look alike. -/
theorem exists_of_relabelFragments_interpolation {f g : Position → Position}
    {tokens : List Token} {span : Span} {fragments fragments' : List StringFragment}
    (h : relabelFragments f (.interpolation tokens span :: fragments) =
      relabelFragments g fragments') :
    ∃ tokens' span' more, fragments' = .interpolation tokens' span' :: more ∧
      relabelTokens f tokens = relabelTokens g tokens' ∧ span.map f = span'.map g ∧
      relabelFragments f fragments = relabelFragments g more := by
  cases fragments' with
  | nil => simp at h
  | cons fragment more => cases fragment <;> simp_all

/-- The end of input stands at a point, and goes on to do so. -/
@[simp] theorem Token.relabel_endOfInput (p : Position) :
    (⟨.endOfInput, .point p⟩ : Token).relabel f = ⟨.endOfInput, .point (f p)⟩ := by
  simp [Span.point, Span.map]

@[simp] theorem Token.isTrivia_relabel (t : Token) : (t.relabel f).isTrivia = t.isTrivia := by
  obtain ⟨kind, span⟩ := t
  cases kind <;> simp [Token.isTrivia]

@[simp] theorem Token.isNewline_relabel (t : Token) : (t.relabel f).isNewline = t.isNewline := by
  obtain ⟨kind, span⟩ := t
  cases kind <;> simp [Token.isNewline]

@[simp] theorem Token.isEnd_relabel (t : Token) : (t.relabel f).isEnd = t.isEnd := by
  obtain ⟨kind, span⟩ := t
  cases kind <;> simp [Token.isEnd]

theorem forall_isEnd_relabelTokens {ts : List Token} :
    (∀ t ∈ relabelTokens f ts, t.isEnd = false) ↔ ∀ t ∈ ts, t.isEnd = false := by
  simp [relabelTokens_eq_map]

@[simp] theorem Token.binaryOp?_relabel (t : Token) :
    (t.relabel f).binaryOp? = t.binaryOp? := by
  obtain ⟨kind, span⟩ := t
  cases kind with
  | keyword word => cases word <;> simp [Token.binaryOp?]
  | _ => simp [Token.binaryOp?]

end

/-! ### Positions that are changed twice

One after the other they are changed as by the composition. This is needed where a piece is cut out
of a piece. -/

section

variable (f g : Position → Position)

mutual

theorem relabelTokens_comp : ∀ ts, relabelTokens g (relabelTokens f ts) = relabelTokens (g ∘ f) ts
  | [] => by simp
  | t :: ts => by
    rw [relabelTokens_cons, relabelTokens_cons, relabelTokens_cons, t.relabel_comp,
      relabelTokens_comp ts]

theorem Token.relabel_comp : ∀ t : Token, (t.relabel f).relabel g = t.relabel (g ∘ f)
  | ⟨kind, span⟩ => by
    rw [Token.relabel, Token.relabel, Token.relabel, kind.relabel_comp]
    rfl

theorem TokenKind.relabel_comp :
    ∀ kind : TokenKind, (kind.relabel f).relabel g = kind.relabel (g ∘ f)
  | .string parts multiline => by simp [TokenKind.relabel, relabelFragments_comp parts]
  | .interpolation tokens => by simp [TokenKind.relabel, relabelTokens_comp tokens]
  | .endOfInput | .newline | .comment _ _ | .null | .bool _ | .int _ | .float _ | .path _
  | .keyword _ | .identifier _ | .symbol _ => by simp [TokenKind.relabel]

theorem relabelFragments_comp :
    ∀ parts, relabelFragments g (relabelFragments f parts) = relabelFragments (g ∘ f) parts
  | [] => by simp [relabelFragments]
  | part :: parts => by simp [relabelFragments, part.relabel_comp, relabelFragments_comp parts]

theorem StringFragment.relabel_comp :
    ∀ part : StringFragment, (part.relabel f).relabel g = part.relabel (g ∘ f)
  | .text content => by simp [StringFragment.relabel]
  | .interpolation tokens span => by
    simp only [StringFragment.relabel, relabelTokens_comp tokens]
    rfl

end

end

/-! ### The same positions

With the identity for places, and for comments, nothing is changed. There is one statement for each
type of the two mutual blocks, tokens first and then trees, and each is proved by the cases of its
type. -/

/-- A span whose ends stay is the same span. -/
@[simp] theorem Span.map_id (s : Span) : s.map id = s := rfl

mutual

theorem relabelTokens_id : ∀ ts, relabelTokens id ts = ts
  | [] => relabelTokens_nil id
  | t :: ts => by rw [relabelTokens_cons, t.relabel_id, relabelTokens_id ts]

theorem Token.relabel_id : ∀ t : Token, t.relabel id = t
  | ⟨kind, span⟩ => by rw [Token.relabel, kind.relabel_id, Span.map_id]

theorem TokenKind.relabel_id : ∀ kind : TokenKind, kind.relabel id = kind
  | .string parts multiline => by rw [TokenKind.relabel, relabelFragments_id parts]
  | .interpolation tokens => by rw [TokenKind.relabel, relabelTokens_id tokens]
  | .endOfInput | .newline | .comment _ _ | .null | .bool _ | .int _ | .float _ | .path _
  | .keyword _ | .identifier _ | .symbol _ => by simp [TokenKind.relabel]

theorem relabelFragments_id : ∀ parts, relabelFragments id parts = parts
  | [] => by rw [relabelFragments]
  | part :: parts => by rw [relabelFragments, part.relabel_id, relabelFragments_id parts]

theorem StringFragment.relabel_id : ∀ part : StringFragment, part.relabel id = part
  | .text content => by rw [StringFragment.relabel]
  | .interpolation tokens span => by
    rw [StringFragment.relabel, relabelTokens_id tokens, Span.map_id]

end

mutual

theorem Expr.relabel_id : ∀ e : Expr, e.relabel id id = e
  | .binary operator left right span => by
    rw [Expr.relabel, left.relabel_id, right.relabel_id]
    rfl
  | .operand o => by rw [Expr.relabel, o.relabel_id]

theorem Operand.relabel_id : ∀ o : Operand, o.relabel id id = o
  | ⟨modifiers, before, after, term, span⟩ => by
    rw [Operand.relabel, relabelModifiers_id modifiers, term.relabel_id]
    rfl

theorem relabelModifiers_id : ∀ ms, relabelModifiers id id ms = ms
  | [] => by rw [relabelModifiers]
  | m :: ms => by rw [relabelModifiers, m.relabel_id, relabelModifiers_id ms]

theorem Modifier.relabel_id : ∀ m : Modifier, m.relabel id id = m
  | ⟨kind, subject, span⟩ => by rw [Modifier.relabel, subject.relabel_id, Span.map_id]

theorem Term.relabel_id : ∀ t : Term, t.relabel id id = t
  | .null _ | .bool _ _ | .int _ _ | .float _ _ | .path _ _ => by simp [Term.relabel]
  | .string literal => by rw [Term.relabel, literal.relabel_id]
  | .interpolation content => by rw [Term.relabel, content.relabel_id]
  | .name p => by rw [Term.relabel, p.relabel_id]
  | .list items comments span => by
    rw [Term.relabel, relabelExprs_id items]
    rfl
  | .attrSet recursive bindings comments span => by
    rw [Term.relabel, relabelBindings_id bindings]
    rfl
  | .lambda parameter body span => by
    rw [Term.relabel, parameter.relabel_id, body.relabel_id, Span.map_id]
  | .call callee arguments span => by
    rw [Term.relabel, callee.relabel_id, relabelExprs_id arguments, Span.map_id]
  | .letIn bindings comments body span => by
    rw [Term.relabel, relabelBindings_id bindings, body.relabel_id]
    rfl
  | .import_ source span => by rw [Term.relabel, source.relabel_id, Span.map_id]
  | .conditional condition consequence alternative span => by
    rw [Term.relabel, condition.relabel_id, consequence.relabel_id, alternative.relabel_id,
      Span.map_id]
  | .unary op argument span => by rw [Term.relabel, argument.relabel_id, Span.map_id]
  | .paren body span => by rw [Term.relabel, body.relabel_id, Span.map_id]

theorem relabelExprs_id : ∀ es, relabelExprs id id es = es
  | [] => by rw [relabelExprs]
  | e :: es => by rw [relabelExprs, e.relabel_id, relabelExprs_id es]

theorem relabelExpr?_id : ∀ e, relabelExpr? id id e = e
  | none => by rw [relabelExpr?]
  | some e => by rw [relabelExpr?, e.relabel_id]

theorem StringLiteral.relabel_id : ∀ s : StringLiteral, s.relabel id id = s
  | ⟨parts, multiline, span⟩ => by
    rw [StringLiteral.relabel, relabelParts_id parts, Span.map_id]

theorem relabelParts_id : ∀ parts, relabelParts id id parts = parts
  | [] => by rw [relabelParts]
  | part :: parts => by rw [relabelParts, part.relabel_id, relabelParts_id parts]

theorem StringPart.relabel_id : ∀ part : StringPart, part.relabel id id = part
  | .text content => by rw [StringPart.relabel]
  | .interpolation content => by rw [StringPart.relabel, content.relabel_id]

theorem Interpolation.relabel_id : ∀ c : Interpolation, c.relabel id id = c
  | ⟨body, span⟩ => by rw [Interpolation.relabel, body.relabel_id, Span.map_id]

theorem AttrPath.relabel_id : ∀ p : AttrPath, p.relabel id id = p
  | ⟨segments, comments, span⟩ => by
    rw [AttrPath.relabel, relabelSegments_id segments]
    rfl

theorem relabelPaths_id : ∀ ps, relabelPaths id id ps = ps
  | [] => by rw [relabelPaths]
  | p :: ps => by rw [relabelPaths, p.relabel_id, relabelPaths_id ps]

theorem relabelPath?_id : ∀ p, relabelPath? id id p = p
  | none => by rw [relabelPath?]
  | some p => by rw [relabelPath?, p.relabel_id]

theorem relabelSegments_id : ∀ ss, relabelSegments id id ss = ss
  | [] => by rw [relabelSegments]
  | s :: ss => by rw [relabelSegments, s.relabel_id, relabelSegments_id ss]

theorem Segment.relabel_id : ∀ s : Segment, s.relabel id id = s
  | .name name => by rw [Segment.relabel]
  | .string literal => by rw [Segment.relabel, literal.relabel_id]
  | .interpolation content => by rw [Segment.relabel, content.relabel_id]

theorem relabelBindings_id : ∀ bs, relabelBindings id id bs = bs
  | [] => by rw [relabelBindings]
  | b :: bs => by rw [relabelBindings, b.relabel_id, relabelBindings_id bs]

theorem Binding.relabel_id : ∀ b : Binding, b.relabel id id = b
  | .assign name value comments span => by
    rw [Binding.relabel, name.relabel_id, value.relabel_id]
    rfl
  | .inherit source names comments span => by
    rw [Binding.relabel, relabelExpr?_id source, relabelPaths_id names]
    rfl

theorem Parameter.relabel_id : ∀ p : Parameter, p.relabel id id = p
  | .named name => by rw [Parameter.relabel, name.relabel_id]
  | .pattern formals variadic whole comments span => by
    rw [Parameter.relabel, relabelFormals_id formals, relabelPath?_id whole]
    rfl

theorem relabelFormals_id : ∀ as, relabelFormals id id as = as
  | [] => by rw [relabelFormals]
  | a :: as => by rw [relabelFormals, a.relabel_id, relabelFormals_id as]

theorem Formal.relabel_id : ∀ a : Formal, a.relabel id id = a
  | ⟨name, fallback, comments, span⟩ => by
    rw [Formal.relabel, name.relabel_id, relabelExpr?_id fallback]
    rfl

end

/-! ### Comments

A comment is changed in its place and not in its text. To compare the comments of two readings, or
to set them aside, is one parameter, so that both uses of a seam have the same proofs. -/

/-- A comment at another place. -/
def Comment.relabel (f : Position → Position) (c : Comment) : Comment :=
  { c with span := c.span.map f }

@[simp] theorem Comment.relabel_id (c : Comment) : c.relabel id = c := rfl

/-- A token that is a comment remains one, at the changed place. -/
@[simp] theorem Token.comment?_relabel (f : Position → Position) (t : Token) :
    (t.relabel f).comment? = t.comment?.map (Comment.relabel f) := by
  obtain ⟨kind, span⟩ := t
  cases kind <;> simp [Token.relabel, TokenKind.relabel, Token.comment?, Comment.relabel]

/-- Some comments at other places. -/
abbrev relabelComments (f : Position → Position) : List Comment → List Comment :=
  List.map (Comment.relabel f)

/-- The comments that are compared: all, at other places, or none. -/
def viewComments (keep : Bool) (f : Position → Position) (cs : List Comment) : List Comment :=
  if keep then cs.map (Comment.relabel f) else []

section

variable (keep : Bool) (f : Position → Position)

@[simp] theorem viewComments_nil : viewComments keep f [] = [] := by
  cases keep <;> rfl

/-- Comments are compared in order. -/
@[simp] theorem viewComments_append (cs ds : List Comment) :
    viewComments keep f (cs ++ ds) = viewComments keep f cs ++ viewComments keep f ds := by
  cases keep
  · rfl
  · exact List.map_append

theorem viewComments_toList (c : Option Comment) :
    viewComments keep f c.toList = if keep then (c.map (Comment.relabel f)).toList else [] := by
  cases keep <;> cases c <;> rfl

theorem viewComments_flatMap {α : Type} (g : α → List Comment) (as : List α) :
    viewComments keep f (as.flatMap g) = as.flatMap fun a => viewComments keep f (g a) := by
  induction as with
  | nil => simp
  | cons a as ih => simp [ih]

/-- All comments at their own places are the comments themselves. -/
theorem viewComments_true_id : viewComments true id = id := by
  funext cs
  exact List.map_id'' Comment.relabel_id cs

end

end NixSyntax
