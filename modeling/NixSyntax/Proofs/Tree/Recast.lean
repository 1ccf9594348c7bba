import NixSyntax.Proofs.Tree.Reword

/-!
# Other positions and other texts

Two sources that say the same in another layout are read as tokens and trees that differ in where
things stand and in what the texts hold. `recastTokens` and `Expr.recast` change both at once: first
the positions, by one function, and then the texts, by another.

## A composition

A recast is a change of positions followed by a change of texts, and it is defined as that. So what
each of the two keeps, a recast keeps, and the lemmas here say so, one for each thing that the rules
look at: the mark, the word or the operator that a token is, whether it is trivia, and how it counts
for braces. Tokens have a function of their own for this, with lemmas for every kind. For trees the
composition is an abbreviation, so the lemmas on its two parts apply as they stand.

That the number of tokens stays the same is not for its own sake. The bound on the depth of a tree
is taken from it, and both sources have to be read with the same bound.

## Main definitions

* `recastTokens`, `Token.recast`, …: tokens with other positions and other texts, at every depth
* `Expr.recast`, `Term.recast`, …: a node with other positions and other texts, comments included

## Main results

* `countTokens_recast`: there are as many tokens as before
* `recast_assemble`: a chain is put into the same tree
* `recastTokens_text_id`, `Expr.recast_text_id`: with the same texts only the positions are others
-/

namespace NixSyntax

/-! ### Tokens

Tokens, and the lists of tokens inside of them. -/

section

variable (f : Position → Position) (g : String → String)

/-- Some tokens with other positions and other texts. -/
def recastTokens (ts : List Token) : List Token := rewordTokens g (relabelTokens f ts)

/-- A token with other positions and other texts. -/
def Token.recast (t : Token) : Token := (t.relabel f).reword g

/-- What a token is, with other positions and other texts. -/
def TokenKind.recast (kind : TokenKind) : TokenKind := (kind.relabel f).reword g

/-- Some parts of a string with other positions and other texts. -/
def recastFragments (parts : List StringFragment) : List StringFragment :=
  rewordFragments g (relabelFragments f parts)

attribute [local simp] Token.recast TokenKind.recast recastTokens recastFragments

@[simp] theorem recastTokens_nil : recastTokens f g [] = [] := by
  simp

@[simp] theorem recastTokens_cons (t : Token) (ts : List Token) :
    recastTokens f g (t :: ts) = t.recast f g :: recastTokens f g ts := by
  simp

/-- A list is recast token by token. -/
theorem recastTokens_eq_map (ts : List Token) :
    recastTokens f g ts = ts.map (Token.recast f g) := by
  induction ts with
  | nil => simp
  | cons t ts ih => rw [recastTokens_cons, ih, List.map_cons]

@[simp] theorem Token.recast_mk (kind : TokenKind) (span : Span) :
    (⟨kind, span⟩ : Token).recast f g = ⟨kind.recast f g, span.map f⟩ := by
  simp [Token.relabel, Token.reword]

@[simp] theorem Token.kind_recast (t : Token) : (t.recast f g).kind = t.kind.recast f g := by
  simp

@[simp] theorem Token.span_recast (t : Token) : (t.recast f g).span = t.span.map f := by
  simp

@[simp] theorem Token.isTrivia_recast (t : Token) : (t.recast f g).isTrivia = t.isTrivia := by
  simp

@[simp] theorem Token.isNewline_recast (t : Token) : (t.recast f g).isNewline = t.isNewline := by
  simp

@[simp] theorem Token.isEnd_recast (t : Token) : (t.recast f g).isEnd = t.isEnd := by
  simp

@[simp] theorem Token.binaryOp?_recast (t : Token) : (t.recast f g).binaryOp? = t.binaryOp? := by
  simp

@[simp] theorem TokenKind.braceDepth_recast (depth : Nat) (kind : TokenKind) :
    (kind.recast f g).braceDepth depth = kind.braceDepth depth := by
  simp

/-- In a token that holds no others there are no positions, so only its texts change. -/
theorem TokenKind.recast_of_isFlat {kind : TokenKind} (h : kind.isFlat = true) :
    kind.recast f g = kind.reword g := by
  rw [recast, relabel_of_isFlat f h]

@[simp] theorem TokenKind.recast_endOfInput : endOfInput.recast f g = endOfInput := by
  simp [relabel, reword]

@[simp] theorem TokenKind.recast_symbol (s : Symbol) : (symbol s).recast f g = symbol s := by
  simp [relabel, reword]

@[simp] theorem TokenKind.recast_keyword (k : Keyword) : (keyword k).recast f g = keyword k := by
  simp [relabel, reword]

@[simp] theorem TokenKind.recast_identifier (name : String) :
    (identifier name).recast f g = identifier name := by
  simp [relabel, reword]

@[simp] theorem TokenKind.recast_string (parts : List StringFragment) (multiline : Bool) :
    (string parts multiline).recast f g = string (recastFragments f g parts) multiline := by
  simp [relabel, reword]

@[simp] theorem TokenKind.recast_interpolation (ts : List Token) :
    (interpolation ts).recast f g = interpolation (recastTokens f g ts) := by
  simp [relabel, reword]

@[simp] theorem recastFragments_nil : recastFragments f g [] = [] := by
  simp [relabelFragments, rewordFragments]

@[simp] theorem recastFragments_text (content : String) (parts : List StringFragment) :
    recastFragments f g (.text content :: parts) =
      .text (g content) :: recastFragments f g parts := by
  simp [relabelFragments, rewordFragments, StringFragment.relabel, StringFragment.reword]

@[simp] theorem recastFragments_interpolation (ts : List Token) (span : Span)
    (parts : List StringFragment) : recastFragments f g (.interpolation ts span :: parts) =
      .interpolation (recastTokens f g ts) (span.map f) :: recastFragments f g parts := by
  simp [relabelFragments, rewordFragments, StringFragment.relabel, StringFragment.reword]

/-- A mark is a mark, and nothing else becomes one. -/
theorem TokenKind.recast_eq_symbol_iff {kind : TokenKind} {s : Symbol} :
    kind.recast f g = .symbol s ↔ kind = .symbol s := by
  cases kind <;> simp [relabel, reword]

/-- Nor does anything become a word. -/
theorem TokenKind.recast_eq_keyword_iff {kind : TokenKind} {k : Keyword} :
    kind.recast f g = .keyword k ↔ kind = .keyword k := by
  cases kind <;> simp [relabel, reword]

end

/-! ### How many tokens there are

Counted at every depth, along the four types that tokens are made of. -/

mutual

/-- There are as many tokens as before. -/
theorem countTokens_recast (f : Position → Position) (g : String → String) : ∀ ts : List Token,
    countTokens (recastTokens f g ts) = countTokens ts
  | [] => by simp
  | t :: ts => by
    rw [recastTokens_cons, countTokens_cons, countTokens_cons, t.count_recast f g,
      countTokens_recast f g ts]

theorem Token.count_recast (f : Position → Position) (g : String → String) : ∀ t : Token,
    (t.recast f g).count = t.count
  | ⟨kind, span⟩ => by rw [Token.recast_mk, Token.count, Token.count, kind.innerCount_recast f g]

/-- Inside of a token, too. -/
theorem TokenKind.innerCount_recast (f : Position → Position) (g : String → String) :
    ∀ kind : TokenKind, (kind.recast f g).innerCount = kind.innerCount
  | .string parts multiline => by
    rw [TokenKind.recast_string, TokenKind.innerCount, TokenKind.innerCount,
      countFragments_recast f g parts]
  | .interpolation tokens => by
    rw [TokenKind.recast_interpolation, TokenKind.innerCount, TokenKind.innerCount,
      countTokens_recast f g tokens]
  | .endOfInput | .newline | .comment _ _ | .null | .bool _ | .int _ | .float _ | .path _
  | .keyword _ | .identifier _ | .symbol _ => by
    simp [TokenKind.recast, TokenKind.relabel, TokenKind.reword, TokenKind.innerCount]

theorem countFragments_recast (f : Position → Position) (g : String → String) :
    ∀ parts : List StringFragment, countFragments (recastFragments f g parts) = countFragments parts
  | [] => by simp
  | .text content :: parts => by
    rw [recastFragments_text, countFragments, countFragments, countFragments_recast f g parts,
      StringFragment.count, StringFragment.count]
  | .interpolation tokens span :: parts => by
    rw [recastFragments_interpolation, countFragments, countFragments,
      countFragments_recast f g parts, StringFragment.count, StringFragment.count,
      countTokens_recast f g tokens]

end

/-- With the same texts only the positions are others. -/
theorem recastTokens_text_id (f : Position → Position) (ts : List Token) :
    recastTokens f id ts = relabelTokens f ts := rewordTokens_id _

/-! ### Trees

In a tree the comments are recast with their nodes. -/

section

variable (f : Position → Position) (g : String → String)

/-- A comment with another position and another text. -/
abbrev Comment.recast : Comment → Comment := Comment.reword g ∘ Comment.relabel f

/-- Some comments with other positions and other texts. -/
abbrev recastComments : List Comment → List Comment := List.map (Comment.recast f g)

/-- An expression with other positions and other texts. -/
abbrev Expr.recast : Expr → Expr := Expr.reword g ∘ Expr.relabel f (relabelComments f)

/-- An operand with other positions and other texts. -/
abbrev Operand.recast : Operand → Operand :=
  Operand.reword g ∘ Operand.relabel f (relabelComments f)

/-- A clause with other positions and other texts. -/
abbrev Modifier.recast : Modifier → Modifier :=
  Modifier.reword g ∘ Modifier.relabel f (relabelComments f)

/-- A term with other positions and other texts. -/
abbrev Term.recast : Term → Term := Term.reword g ∘ Term.relabel f (relabelComments f)

/-- A string with other positions and other texts. -/
abbrev StringLiteral.recast : StringLiteral → StringLiteral :=
  StringLiteral.reword g ∘ StringLiteral.relabel f (relabelComments f)

/-- Some parts of a string with other positions and other texts. -/
abbrev recastParts : List StringPart → List StringPart :=
  rewordParts g ∘ relabelParts f (relabelComments f)

/-- An interpolation with other positions and other texts. -/
abbrev Interpolation.recast : Interpolation → Interpolation :=
  Interpolation.reword g ∘ Interpolation.relabel f (relabelComments f)

/-- A path of names with other positions and other texts. -/
abbrev AttrPath.recast : AttrPath → AttrPath :=
  AttrPath.reword g ∘ AttrPath.relabel f (relabelComments f)

/-- A name of a path with other positions and other texts. -/
abbrev Segment.recast : Segment → Segment :=
  Segment.reword g ∘ Segment.relabel f (relabelComments f)

/-- A binding with other positions and other texts. -/
abbrev Binding.recast : Binding → Binding :=
  Binding.reword g ∘ Binding.relabel f (relabelComments f)

/-- An attribute of a pattern with other positions and other texts. -/
abbrev Formal.recast : Formal → Formal := Formal.reword g ∘ Formal.relabel f (relabelComments f)

/-- A program with other positions and other texts. -/
def Program.recast (p : Program) : Program := ⟨p.body.recast f g, p.span.map f⟩

/-- A fault of the grammar, with other positions and other texts in its token. -/
def ParseFault.recast (a : ParseFault) : ParseFault := ⟨a.cause, a.token.recast f g⟩

@[simp] theorem Token.comment?_recast (t : Token) :
    (t.recast f g).comment? = t.comment?.map (Comment.recast f g) := by
  simp [Token.recast, Function.comp_def]

@[simp] theorem Term.isCallable_recast (t : Term) : (t.recast f g).isCallable = t.isCallable := by
  simp

/-- A chain is put into the same tree. -/
theorem Grammar.recast_assemble (first : Operand) (links : List (Operator × Operand)) :
    (assemble first links).recast f g =
      assemble (first.recast f g) (links.map fun l => (l.1.relabel f, l.2.recast f g)) := by
  rw [Expr.recast, Function.comp_apply, relabel_assemble, reword_assemble, List.map_map]
  rfl

end

theorem Expr.recast_text_id (f : Position → Position) (e : Expr) :
    e.recast f id = e.relabel f (relabelComments f) := Expr.reword_id _

end NixSyntax
