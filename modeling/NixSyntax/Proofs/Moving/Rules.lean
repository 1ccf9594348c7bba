import NixSyntax.Proofs.Cutting.Rules
import NixSyntax.Proofs.Moving.Answers

/-!
# Rules at other places

Every rule of the grammar answers alike for tokens with other positions and other texts, one lemma
for each. The tree keeps its comments, which change with the tokens they were read from. So tokens
that differ in nothing but their places and texts are read as trees that differ in nothing else, and
if they are refused, it is for the same cause and at the same token.

A position would show if a rule compared two of them, or chose between two trees by where they
stand. None does: even the closing brace of a pattern is found by counting. A text would show if a
rule looked into it, and the rules only carry texts over.

## Following the definitions

Each lemma is proved by following the rule line by line. A rule that is called is dealt with by its
own lemma and `Moves.bind`. A branch on what is next is the same on both sides, by one of the lemmas
on looking ahead, and where a rule matches on the first token, the cases are those of
`front_recast`. In the end the two sides return trees that are equal by the equations for `recast`.
Nothing depends on what the operands inside do, but that they move, so each lemma is about any rule
for operands.

## Both together

Of two lists that are alike but for places, neither need come from the other by a change of places,
as tokens at one place in the one list may be at several in the other. But both become the same list
when all places are made one (`erasePosition`), and their trees are compared there
(`Program.ofTokens_alike`).

## Main results

* `moves_expression`, `moves_patternLambda`, …: one lemma for each rule
* `moves_operandUpTo`: operands, and so all rules, move with the tokens
* `Program.ofTokens_recast`: neither positions nor texts decide how tokens are read
* `Program.ofTokens_alike`: layout does not change the meaning
-/

namespace NixSyntax

namespace Grammar

variable {f : Position → Position} {g : String → String}

-- to read a node off both sides, the three ways to change it are opened
attribute [local simp] Comment.recast recastComments Expr.recast Operand.recast Modifier.recast
  Term.recast StringLiteral.recast recastParts Interpolation.recast AttrPath.recast Segment.recast
  Binding.recast Formal.recast TokenKind.recast
attribute [local simp] Operand.relabel Modifier.relabel Term.relabel StringLiteral.relabel
  relabelParts StringPart.relabel Interpolation.relabel AttrPath.relabel Segment.relabel
  Binding.relabel Parameter.relabel Formal.relabel TokenKind.relabel relabelModifiers_eq
  relabelExpr?_eq relabelPaths_eq relabelPath?_eq relabelSegments_eq relabelBindings_eq
  relabelFormals_eq
attribute [local simp] Operand.reword Modifier.reword Term.reword StringLiteral.reword
  rewordParts StringPart.reword Interpolation.reword AttrPath.reword Segment.reword
  Binding.reword Parameter.reword Formal.reword TokenKind.reword rewordModifiers_eq
  rewordExpr?_eq rewordPaths_eq rewordPath?_eq rewordSegments_eq rewordBindings_eq
  rewordFormals_eq

/-! ### Comments that move

Comments are given to nodes that have been read already. This is done by computing on trees, and
commutes with any change that keeps the order of comments. -/

theorem attachToLast_recast (more : List Comment) (bs : List Binding) :
    attachToLast (recastComments f g more) (bs.map (Binding.recast f g)) =
      ((attachToLast more bs).1.map (Binding.recast f g),
        recastComments f g (attachToLast more bs).2) :=
  attachToLast_map rfl (fun b more => by cases b <;> simp [Binding.addComments]) more bs

theorem passOnComments_recast (pending : List Comment) (os : List Operand) :
    passOnComments (recastComments f g pending) (os.map (Operand.recast f g)) =
      (passOnComments pending os).map (Operand.recast f g) :=
  passOnComments_map rfl (fun cs ds => by simp)
    (fun o before after => by cases o; simp)
    (fun o => by cases o; simp)
    (fun o => by cases o; simp) pending os

/-- The items of a list are operands, and their trees are changed one by one. -/
theorem recastExprs_map_operand (os : List Operand) :
    rewordExprs g (relabelExprs f (relabelComments f) (os.map .operand)) =
      (os.map (Operand.recast f g)).map .operand := by
  simp [relabelExprs_eq, rewordExprs_eq, Function.comp_def]

/-- The place of an operand is made of places in it. -/
theorem operandSpan_recast (ms : List Modifier) (t : Term) :
    (operandSpan ms t).map f = operandSpan (ms.map (Modifier.recast f g)) (t.recast f g) := by
  cases ms <;> simp [operandSpan]

/-! ### Expressions

A chain is read link by link, and assembled without a look at positions. -/

section

variable {operand : Context → Rule Operand}
  (hop : ∀ ctx, Moves f g (Operand.recast f g) (operand ctx)
    (operand ctx))
include hop

/-- A link begins with an operator, which is told by its kind. -/
theorem moves_link :
    Moves f g (Option.map fun l => (l.1.relabel f, l.2.recast f g))
      (link operand) (link operand) := by
  rintro (_ | ⟨t, ts⟩)
  · rfl
  · rw [recastTokens_cons, link, link, Token.binaryOp?_recast]
    cases t.binaryOp? with
    | none => simp
    | some op => exact (hop .chain).bind fun o rest => by simp [Operator.relabel]

theorem moves_expression :
    Moves f g (Expr.recast f g) (expression operand) (expression operand) := by
  intro ts
  refine (hop .chain).bind fun first ts => (moves_link hop).repeated.bind fun links rest => ?_
  exact congrArg (fun e => Except.ok (e, _)) (recast_assemble f g first links).symm

/-- What must be complete is so for both or for none. -/
theorem complete_recast (ts : List Token) :
    complete operand (recastTokens f g ts) = moved f g (Expr.recast f g) (complete operand ts) := by
  refine (moves_expression hop).bind fun body rest => ?_
  simp only [atEnd_recast]
  split
  · rfl
  · exact refuse_recast _ rest

/-- The tokens of an interpolation are changed with it, and are read to their end. -/
theorem interpolationOf_recast (tokens : List Token) (span : Span) :
    interpolationOf operand (recastTokens f g tokens) (span.map f) =
      moved f g (Interpolation.recast f g) (interpolationOf operand tokens span) := by
  rw [interpolationOf, interpolationOf, complete_recast hop]
  cases complete operand tokens with
  | ok body => simp
  | error s =>
    obtain ⟨cause, token⟩ := s
    cases token <;> simp [moved, Stuck.settle, Span.map, Span.point]

/-! ### Strings and names

Texts are carried over into the tree, from strings as from names. A path of names is told from an
operator by its dots, and not by what the names are. -/

/-- The parts of a string are read one by one. -/
theorem partsOf_recast (fragments : List StringFragment) :
    partsOf operand (recastFragments f g fragments) =
      moved f g (recastParts f g) (partsOf operand fragments) := by
  induction fragments with
  | nil => simp [partsOf]
  | cons fragment fragments ih =>
    cases fragment with
    | text content =>
      rw [recastFragments_text, partsOf, partsOf, ih]
      exact bind_moved fun parts => by simp
    | interpolation tokens span =>
      rw [recastFragments_interpolation, partsOf, partsOf, ih, interpolationOf_recast hop]
      exact bind_moved fun content => bind_moved fun parts => by simp

theorem stringOf_recast (fragments : List StringFragment) (multiline : Bool) (span : Span) :
    stringOf operand (recastFragments f g fragments) multiline (span.map f) =
      moved f g (StringLiteral.recast f g) (stringOf operand fragments multiline span) := by
  rw [stringOf, stringOf, partsOf_recast hop]
  exact bind_moved fun parts => by simp

/-- A name is an identifier, a string or an interpolation, and the kind of the token says which. -/
theorem moves_segment :
    Moves f g (Prod.map (Segment.recast f g) (Span.map f)) (segment operand) (segment operand) := by
  rintro (_ | ⟨⟨kind, span⟩, ts⟩)
  · exact refuse_recast _ []
  · rw [recastTokens_cons, Token.recast_mk]
    cases kind with
    | identifier name => simp [segment]
    | string fragments multiline =>
      rw [TokenKind.recast_string, segment, segment, stringOf_recast hop]
      exact bind_moved fun literal => by simp
    | interpolation tokens =>
      rw [TokenKind.recast_interpolation, segment, segment, interpolationOf_recast hop]
      exact bind_moved fun content => by simp
    | _ => simp [segment, refuse, moved]

theorem moves_dottedSegment :
    Moves f g
      (Option.map (Prod.map (Segment.recast f g) (Span.map f)))
      (dottedSegment operand) (dottedSegment operand) := by
  intro ts
  rcases front_symbol_recast f g .dot ts with
    ⟨span, rest, rfl, heq⟩ | ⟨hne, hne'⟩
  · rw [heq, dottedSegment, dottedSegment]
    exact (moves_segment hop).bind fun s rest => by simp
  · rw [dottedSegment.eq_2 operand ts hne, dottedSegment.eq_2 operand _ hne']
    simp

theorem moves_attrPath :
    Moves f g (AttrPath.recast f g) (attrPath operand) (attrPath operand) := by
  intro ts
  refine (moves_segment hop).bind fun (first, start) ts => ?_
  refine (moves_dottedSegment hop).repeated.bind fun more rest => ?_
  simp [Span.map_foldl_join, List.foldl_map, Function.comp_def]

/-! ### Bindings

The two forms of a binding are told by a keyword. What closes a set is asked for as a parameter, of
which only the answers count. -/

/-- With a parenthesis ahead, the source is read up to its end. -/
theorem moves_inheritSource :
    Moves f g (Prod.map (Option.map (Expr.recast f g)) (recastComments f g))
      (inheritSource operand) (inheritSource operand) := by
  intro ts
  rw [inheritSource, inheritSource, skipTrivia_recast, commentsAhead_recast]
  rcases front_symbol_recast f g .openParen (skipTrivia ts) with
    ⟨span, rest, heq, heq'⟩ | ⟨hne, hne'⟩
  · rw [heq', heq]
    refine (moves_expression hop).bind fun source rest => ?_
    exact (moves_expectSymbol _).bind fun stop rest => by simp
  · split
    · exact absurd ‹_› (hne' _ _)
    · rfl

theorem moves_inheritedName :
    Moves f g (Option.map (AttrPath.recast f g)) (inheritedName operand)
      (inheritedName operand) := by
  intro ts
  rw [inheritedName, inheritedName, skipTrivia_recast, commentsAhead_recast,
    nextIsSymbol_recast, atEnd_recast]
  split
  · rfl
  · refine (moves_attrPath hop).bind ?_
    rintro ⟨segments, comments, span⟩ rest
    simp

theorem moves_inheritance (comments : List Comment) (start : Span) :
    Moves f g (Binding.recast f g) (inheritance operand comments start)
      (inheritance operand (recastComments f g comments) (start.map f)) := by
  intro ts
  refine (moves_inheritSource hop).bind fun (source, more) ts => ?_
  refine (moves_inheritedName hop).repeated.bind fun names ts => ?_
  simp only [skipTrivia_recast, commentsAhead_recast]
  refine (moves_expectSymbol _).bind fun stop rest => ?_
  simp

theorem moves_assignment (comments : List Comment) :
    Moves f g (Binding.recast f g) (assignment operand comments)
      (assignment operand (recastComments f g comments)) := by
  intro ts
  refine (moves_attrPath hop).bind fun name ts => ?_
  simp only [skipTrivia_recast, commentsAhead_recast]
  refine (moves_expectSymbol _).bind fun _ ts => ?_
  refine (moves_expression hop).bind fun value ts => ?_
  refine (moves_expectSymbol _).bind fun stop rest => ?_
  simp

theorem moves_binding :
    Moves f g (Binding.recast f g) (binding operand) (binding operand) := by
  intro ts
  rw [binding, binding, skipTrivia_recast, commentsAhead_recast]
  rcases front_keyword_recast f g .inherit (skipTrivia ts) with
    ⟨start, rest, heq, heq'⟩ | ⟨hne, hne'⟩
  · rw [heq', heq]
    exact moves_inheritance hop _ _ rest
  · split
    · exact absurd ‹_› (hne' _ _)
    · exact moves_assignment hop _ _

/-- The loop ends where `closed` says so, and `closed` says the same on both sides. -/
theorem moves_bindingUnless {closed : List Token → Bool}
    (hclosed : ∀ ts, closed (recastTokens f g ts) = closed ts) :
    Moves f g (Option.map (Binding.recast f g)) (bindingUnless operand closed)
      (bindingUnless operand closed) := by
  intro ts
  rw [bindingUnless, bindingUnless, skipTrivia_recast, atEnd_recast, hclosed]
  split
  · rfl
  · exact (moves_binding hop).bind fun b rest => rfl

theorem moves_attrSet (recursive : Bool) (start : Span) :
    Moves f g (Term.recast f g) (attrSet operand recursive start)
      (attrSet operand recursive (start.map f)) := by
  intro ts
  refine (moves_bindingUnless hop (nextIsSymbol_recast _)).repeated.bind fun bindings ts => ?_
  simp only [skipTrivia_recast, commentsAhead_recast, attachToLast_recast]
  refine (moves_expectSymbol _).bind fun stop rest => ?_
  simp

theorem moves_letIn (start : Span) :
    Moves f g (Term.recast f g) (letIn operand start) (letIn operand (start.map f)) := by
  intro ts
  refine (moves_bindingUnless hop (nextIsKeyword_recast _)).repeated.bind fun bindings ts => ?_
  simp only [skipTrivia_recast, commentsAhead_recast, attachToLast_recast]
  refine (moves_expectKeyword _).bind fun _ ts => ?_
  refine (moves_expression hop).bind fun body rest => ?_
  simp

/-! ### Functions

Between the braces of a pattern the rule calls itself, with a bound on the number of attributes. It
is followed by induction on the bound. -/

theorem moves_lambda (parameter : AttrPath) :
    Moves f g (Term.recast f g) (lambda operand parameter)
      (lambda operand (parameter.recast f g)) := by
  intro ts
  refine (moves_expression hop).bind fun body rest => ?_
  simp

theorem moves_formal (comments : List Comment) :
    Moves f g (Formal.recast f g) (formal operand comments)
      (formal operand (recastComments f g comments)) := by
  intro ts
  refine (moves_attrPath hop).bind fun name ts => ?_
  simp only [skipTrivia_recast, commentsAhead_recast]
  rcases front_symbol_recast f g .question (skipTrivia ts) with
    ⟨start, rest, heq, heq'⟩ | ⟨hne, hne'⟩
  · rw [heq', heq]
    refine (moves_expression hop).bind fun fallback rest => ?_
    simp
  · split
    · exact absurd ‹_› (hne' _ _)
    · simp

/-- What stands between the braces of a pattern, with other positions and texts. -/
def PatternBody.recast (f : Position → Position) (g : String → String) (b : PatternBody) :
    PatternBody :=
  ⟨b.formals.map (Formal.recast f g), b.variadic, recastComments f g b.comments⟩

/-- What is between the braces, by the number of rounds. -/
theorem moves_patternBodyUpTo (n : Nat) :
    Moves f g (PatternBody.recast f g) (patternBodyUpTo operand n) (patternBodyUpTo operand n) := by
  induction n with
  | zero => exact fun ts => refuse_recast _ ts
  | succ n ih =>
    intro ts
    rw [patternBodyUpTo, patternBodyUpTo, skipTrivia_recast, commentsAhead_recast]
    -- either mark is in front on both sides or on none, and in the last case an attribute is read
    rcases front_symbol_recast f g .closeBrace (skipTrivia ts) with
      ⟨span, rest, heq, heq'⟩ | ⟨hclose, hclose'⟩
    · simp [heq, PatternBody.recast]
    rcases front_symbol_recast f g .ellipsis (skipTrivia ts) with
      ⟨span, rest, heq, heq'⟩ | ⟨hellipsis, hellipsis'⟩
    · rw [heq', heq]
      simp [PatternBody.recast, commentsAhead_recast, skipTrivia_recast]
    split
    · exact absurd ‹_› (hclose' _ _)
    · exact absurd ‹_› (hellipsis' _ _)
    · refine (moves_formal hop _).bind fun formal rest => ?_
      rcases front_symbol_recast f g .comma rest with
        ⟨span, rest, rfl, heq⟩ | ⟨hcomma, hcomma'⟩
      · simp only [heq]
        exact ih.bind fun body rest => rfl
      rcases front_symbol_recast f g .closeBrace rest with
        ⟨span, rest, rfl, heq⟩ | ⟨hclose, hclose'⟩
      · simp [PatternBody.recast]
      · simp only
        exact refuse_recast _ rest

theorem moves_patternBody :
    Moves f g (PatternBody.recast f g) (patternBody operand) (patternBody operand) := by
  intro ts
  rw [patternBody, length_recastTokens]
  exact moves_patternBodyUpTo hop _ ts

theorem moves_patternName :
    Moves f g (Prod.map (Option.map (AttrPath.recast f g)) (recastComments f g))
      (patternName operand) (patternName operand) := by
  intro ts
  rcases front_symbol_recast f g .atSign ts with
    ⟨span, rest, rfl, heq⟩ | ⟨hne, hne'⟩
  · rw [heq, patternName, patternName, skipTrivia_recast]
    refine (moves_attrPath hop).bind fun name rest => ?_
    simp [skipTrivia_recast, commentsAhead_recast]
  · rw [patternName.eq_2 operand ts hne, patternName.eq_2 operand _ hne']
    rfl

/-- With a name in front nothing is read, and otherwise the name behind, if there is one. -/
theorem moves_patternEnd (front : Option AttrPath) (start stop : Span) :
    Moves f g (Prod.map (Option.map (AttrPath.recast f g))
        (Prod.map (Span.map f) (recastComments f g)))
      (patternEnd operand front start stop)
      (patternEnd operand (front.map (AttrPath.recast f g)) (start.map f)
        (stop.map f)) := by
  intro ts
  cases front with
  | some name => simp [patternEnd]
  | none =>
    refine (moves_patternName hop).bind ?_
    rintro ⟨_ | name, comments⟩ rest <;> simp

theorem moves_patternLambda (front : Option AttrPath) (start : Span) :
    Moves f g (Term.recast f g) (patternLambda operand front start)
      (patternLambda operand (front.map (AttrPath.recast f g))
        (start.map f)) := by
  intro ts
  refine (moves_patternBody hop).bind fun body ts => ?_
  refine (moves_expectSymbol _).bind fun stop ts => ?_
  simp only [skipTrivia_recast, commentsAhead_recast]
  refine (moves_patternEnd hop front start stop).bind fun (name, span, more) rest => ?_
  refine (moves_expectSymbol _).bind fun _ rest => ?_
  refine (moves_expression hop).bind fun result rest => ?_
  simp [PatternBody.recast]

/-! ### Terms

The rule for a term matches on the first token. For most kinds the term is that token, and for the
others it is a rule of its own behind it. -/

theorem moves_paren (start : Span) :
    Moves f g (Term.recast f g) (paren operand start) (paren operand (start.map f)) := by
  intro ts
  refine (moves_expression hop).bind fun body ts => ?_
  refine (moves_expectSymbol _).bind fun stop rest => ?_
  simp

theorem moves_item :
    Moves f g (Option.map (Operand.recast f g)) (item operand) (item operand) := by
  intro ts
  rw [item, item, skipTrivia_recast, atEnd_recast, nextIsSymbol_recast]
  split
  · rfl
  · exact (hop .single).bind fun o rest => rfl

theorem moves_list (start : Span) :
    Moves f g (Term.recast f g) (list operand start) (list operand (start.map f)) := by
  intro ts
  refine (moves_item hop).repeated.bind fun items ts => ?_
  simp only [skipTrivia_recast, commentsAhead_recast]
  refine (moves_expectSymbol _).bind fun stop rest => ?_
  have hitems := passOnComments_recast (f := f) (g := g) [] items
  simp only [List.map_nil] at hitems
  simp [recastExprs_map_operand, hitems]

theorem moves_conditional (start : Span) :
    Moves f g (Term.recast f g) (conditional operand start)
      (conditional operand (start.map f)) := by
  intro ts
  refine (moves_expression hop).bind fun condition ts => ?_
  refine (moves_expectKeyword _).bind fun _ ts => ?_
  refine (moves_expression hop).bind fun consequence ts => ?_
  refine (moves_expectKeyword _).bind fun _ ts => ?_
  refine (moves_expression hop).bind fun alternative rest => ?_
  simp

theorem moves_importOf (start : Span) :
    Moves f g (Term.recast f g) (importOf operand start) (importOf operand (start.map f)) := by
  intro ts
  refine (hop .single).bind fun source rest => ?_
  simp

/-- The forms that begin with a keyword. -/
theorem keywordForm_recast (k : Keyword) (span : Span) (ts : List Token) :
    keywordForm operand k (span.map f) (recastTokens f g ts) =
      moved f g (Prod.map (Term.recast f g) (recastTokens f g))
        (keywordForm operand k span ts) := by
  cases k with
  | let_ => exact moves_letIn hop span ts
  | import_ => exact moves_importOf hop span ts
  | if_ => exact moves_conditional hop span ts
  | rec_ => exact (moves_expectSymbol _).bind fun _ rest => moves_attrSet hop true span rest
  | _ => simp [keywordForm, refuse, moved]

/-- A name, or a function that begins with one. What decides is in the next two tokens and in the
look ahead. -/
theorem nameForm_recast (name : String) (span : Span) (ts : List Token) :
    nameForm operand name (span.map f) (recastTokens f g ts) =
      moved f g (Prod.map (Term.recast f g) (recastTokens f g))
        (nameForm operand name span ts) := by
  have hparameter : AttrPath.recast f g ⟨[.name name], [], span⟩ =
      ⟨[.name name], [], span.map f⟩ := by simp
  -- where no function begins, the name begins a path of names
  have hpath : (do
      let r ← attrPath operand (⟨.identifier name, span.map f⟩ :: recastTokens f g ts)
      return (Term.name r.1, r.2)) =
      moved f g (Prod.map (Term.recast f g) (recastTokens f g)) (do
        let r ← attrPath operand (⟨.identifier name, span⟩ :: ts)
        return (Term.name r.1, r.2)) := by
    have hname := moves_attrPath hop (⟨.identifier name, span⟩ :: ts)
    rw [recastTokens_cons, Token.recast_mk, TokenKind.recast_identifier] at hname
    rw [hname]
    exact bind_moved fun r => by simp
  rcases front_symbol_recast f g .colon ts with
    ⟨colon, rest, rfl, heq⟩ | ⟨hcolon, hcolon'⟩
  · rw [heq, nameForm, nameForm, ← hparameter]
    exact moves_lambda hop _ rest
  rcases front_symbol_recast f g .atSign ts with
    ⟨atSign, us, rfl, heq⟩ | ⟨hat, hat'⟩
  · rcases front_symbol_recast f g .openBrace us with
      ⟨brace, rest, rfl, heq'⟩ | ⟨hbrace, hbrace'⟩
    · rw [heq, heq'] at hpath ⊢
      rw [nameForm, nameForm, opensPattern_recast]
      split
      · have hlambda := moves_patternLambda hop (some ⟨[.name name], [], span⟩) brace rest
        rwa [Option.map_some, hparameter] at hlambda
      · exact hpath
    · rw [heq] at hpath ⊢
      rw [nameForm, nameForm]
      · exact hpath
      all_goals simp [hbrace, hbrace']
  · rw [nameForm, nameForm]
    · exact hpath
    all_goals simp [hcolon, hcolon', hat, hat']

/-- A term that does not begin with a sign, by the kind of its first token. -/
theorem moves_primary :
    Moves f g (Term.recast f g) (primary operand) (primary operand) := by
  rintro (_ | ⟨⟨kind, span⟩, ts⟩)
  · exact refuse_recast _ []
  · rw [recastTokens_cons, Token.recast_mk]
    cases kind with
    | string fragments multiline =>
      rw [TokenKind.recast_string, primary, primary, stringOf_recast hop]
      exact bind_moved fun literal => by simp
    | interpolation tokens =>
      rw [TokenKind.recast_interpolation, primary, primary, interpolationOf_recast hop]
      exact bind_moved fun content => by simp
    | identifier name => exact nameForm_recast hop name span ts
    | keyword k => exact keywordForm_recast hop k span ts
    | symbol s =>
      cases s with
      | openBracket => exact moves_list hop span ts
      | openParen => exact moves_paren hop span ts
      | openBrace =>
        rw [TokenKind.recast_symbol, primary, primary, opensPattern_recast]
        · split
          · exact moves_patternLambda hop none span ts
          · exact moves_attrSet hop false span ts
      | _ => simp [primary, refuse, moved]
    | _ => simp [primary, refuse, moved]

theorem moves_unary (ctx : Context) (op : UnaryOp) (start : Span) :
    Moves f g (Term.recast f g) (unary operand ctx op start)
      (unary operand ctx op (start.map f)) := by
  intro ts
  refine (hop ctx).bind fun o rest => ?_
  simp

theorem moves_termIn (ctx : Context) :
    Moves f g (Term.recast f g) (termIn operand ctx) (termIn operand ctx) := by
  rintro (_ | ⟨⟨kind, span⟩, ts⟩)
  · exact moves_primary hop []
  · have hprimary := moves_primary hop (⟨kind, span⟩ :: ts)
    cases kind with
    | symbol s =>
      cases s with
      | bang => exact moves_unary hop ctx .not span ts
      | minus =>
        have hunary := moves_unary hop ctx .negate span ts
        rcases ts with _ | ⟨⟨kind, stop⟩, us⟩
        · exact hunary
        · cases kind with
          | int value => simp [termIn]
          | float value => simp [termIn]
          | _ => exact hunary
      | _ => exact hprimary
    | _ => exact hprimary

theorem moves_argument :
    Moves f g (Option.map (Operand.recast f g)) (argument operand) (argument operand) := by
  intro ts
  rw [argument, argument, skipTrivia_recast]
  rcases skipTrivia ts with _ | ⟨t, us⟩
  · rfl
  · have hstarts : startsArgument (t.kind.recast f g) = startsArgument t.kind := by
      cases t.kind <;> simp [startsArgument]
    simp only [recastTokens_cons, Token.kind_recast, hstarts]
    split
    · exact (hop .single).bind fun o rest => rfl
    · rfl

/-- Arguments are read as long as one can begin, and a call is formed if there is one. -/
theorem moves_applied (callee : Term) :
    Moves f g (Term.recast f g) (applied operand callee) (applied operand (callee.recast f g)) := by
  intro ts
  refine (moves_argument hop).repeated.bind fun arguments rest => ?_
  simp only [List.getLast?_map]
  cases arguments.getLast? with
  | none => rfl
  | some last => simp [recastExprs_map_operand]

theorem moves_clause :
    Moves f g (Option.map (Prod.map (recastComments f g) (Modifier.recast f g)))
      (clause operand) (clause operand) := by
  intro ts
  rw [clause, clause, skipTrivia_recast, commentsAhead_recast]
  rcases skipTrivia ts with _ | ⟨⟨kind, start⟩, us⟩
  · rfl
  · rw [recastTokens_cons, Token.recast_mk]
    cases kind with
    | keyword k =>
      rw [TokenKind.recast_keyword]
      simp only
      cases clauseKind? k with
      | none => rfl
      | some kind =>
        refine (moves_expression hop).bind fun subject rest => ?_
        refine (moves_expectSymbol _).bind fun stop rest => ?_
        simp
    | _ => simp

/-- An operand, with clauses in front and comments on both sides. -/
theorem moves_operandWith (ctx : Context) :
    Moves f g (Operand.recast f g) (operandWith operand ctx) (operandWith operand ctx) := by
  intro ts
  refine (moves_clause hop).repeated.bind fun clauses ts => ?_
  simp only [skipTrivia_recast, commentsAhead_recast]
  refine (moves_termIn hop ctx).bind fun term rest => ?_
  simp only [Term.isCallable_recast]
  split
  on_goal 1 => refine (moves_applied hop term).bind fun term rest => ?_
  all_goals
    simp [skipTrivia_recast, commentsAhead_recast, operandSpan_recast (g := g), List.flatMap_map,
      List.map_flatMap, Function.comp_def]

end

/-- The operands of tokens with other positions and texts. -/
theorem moves_operandUpTo (n : Nat) (ctx : Context) :
    Moves f g (Operand.recast f g) (operandUpTo n ctx) (operandUpTo n ctx) := by
  induction n generalizing ctx with
  | zero => exact fun ts => refuse_recast _ ts
  | succ n ih => exact moves_operandWith ih ctx

/-- A fault without a token gets one at the end of the input. -/
theorem Stuck.settle_recast (stop : Position) (s : Stuck) :
    (s.settle stop).recast f g = settle (f stop) ⟨s.cause, s.token.map (Token.recast f g)⟩ := by
  obtain ⟨cause, token⟩ := s
  cases token <;> simp [settle, ParseFault.recast, Span.map, Span.point]

/-- Where tokens with other positions end. Without tokens there is nothing to change. -/
theorem endOf_recast (g : String → String) (ts : List Token) : f (endOf ts) =
    ((recastTokens f g ts).getLast?.map fun t => t.span.stop).getD (f .start) := by
  rw [recastTokens_eq_map, List.getLast?_map, endOf]
  cases ts.getLast? with
  | none => rfl
  | some t => simp [Span.map]

end Grammar

namespace Program

/-- **Neither positions nor texts decide how tokens are read.** Two lists of tokens that differ in
nothing else are read as trees that do not either, or are refused for the same cause at the same
token. -/
theorem ofTokens_recast {ts us : List Token} (h : recastTokens f g ts = recastTokens f g us) :
    ((ofTokens ts).map (Program.recast f g)).mapError (ParseFault.recast f g) =
      ((ofTokens us).map (Program.recast f g)).mapError (ParseFault.recast f g) := by
  have hcount : countTokens ts = countTokens us := by
    rw [← countTokens_recast f g ts, h, countTokens_recast]
  have hend : f (Grammar.endOf ts) = f (Grammar.endOf us) := by
    rw [Grammar.endOf_recast (f := f) g ts, h, ← Grammar.endOf_recast]
  have hmoved (ts : List Token) :
      ((ofTokens ts).map (Program.recast f g)).mapError (ParseFault.recast f g) =
        ((Grammar.complete (Grammar.operandUpTo (countTokens ts)) (recastTokens f g ts)).map
          fun body => ⟨body, body.span⟩).mapError fun s => s.settle (f (Grammar.endOf ts)) := by
    rw [Grammar.complete_recast (Grammar.moves_operandUpTo _), ofTokens]
    cases Grammar.complete (Grammar.operandUpTo (countTokens ts)) ts with
    | ok body => simp [Except.map, Except.mapError, Program.recast]
    | error s => simp [Except.map, Except.mapError, Grammar.moved, Grammar.Stuck.settle_recast]
  rw [hmoved, hmoved, hcount, hend, h]

/-- **Layout does not change the meaning.** Two lists of tokens of the same kinds, at every depth,
are read as the same tree but for the places in it, or are refused for the same cause at tokens of
the same kind. -/
theorem ofTokens_alike {ts us : List Token}
    (h : relabelTokens erasePosition ts = relabelTokens erasePosition us) :
    (∃ p q, ofTokens ts = .ok p ∧ ofTokens us = .ok q ∧
      p.body.relabel erasePosition (relabelComments erasePosition) =
        q.body.relabel erasePosition (relabelComments erasePosition)) ∨
    ∃ a b, ofTokens ts = .error a ∧ ofTokens us = .error b ∧ a.cause = b.cause ∧
      a.token.kind.relabel erasePosition = b.token.kind.relabel erasePosition := by
  rw [← recastTokens_text_id, ← recastTokens_text_id] at h
  have hread := ofTokens_recast h
  cases hts : ofTokens ts with
  | ok p =>
    cases hus : ofTokens us with
    | ok q =>
      rw [hts, hus] at hread
      have hbody := congrArg Program.body (Except.ok.inj hread)
      refine .inl ⟨p, q, rfl, rfl, ?_⟩
      rwa [← Expr.recast_text_id, ← Expr.recast_text_id]
    | error b =>
      rw [hts, hus] at hread
      cases hread
  | error a =>
    cases hus : ofTokens us with
    | ok q =>
      rw [hts, hus] at hread
      cases hread
    | error b =>
      rw [hts, hus] at hread
      obtain ⟨hcause, htoken⟩ := ParseFault.mk.inj (Except.error.inj hread)
      refine .inr ⟨a, b, rfl, rfl, hcause, ?_⟩
      simpa [TokenKind.recast, TokenKind.reword_id] using congrArg Token.kind htoken

/-- The tokens of `f /* c */ "${x}"`, at the given places. -/
def applicationTokens (name comment inner interpolation string : Span) : List Token :=
  [⟨.identifier "f", name⟩, ⟨.comment "c" true, comment⟩,
    ⟨.string [.text "", .interpolation [⟨.identifier "x", inner⟩] interpolation, .text ""] false,
      string⟩]

/-- The places need not even be in order. With a brace too many, both lists are refused at it. -/
theorem ofTokens_alike_application :
    let ts := applicationTokens (onFirstLine 0 1) (onFirstLine 2 9) (onFirstLine 13 14)
      (onFirstLine 11 15) (onFirstLine 10 16)
    let us := applicationTokens (onFirstLine 7 5) default (onFirstLine 2 3) default
      (onFirstLine 1 1)
    relabelTokens erasePosition ts = relabelTokens erasePosition us ∧
    (∃ p q, ofTokens ts = .ok p ∧ ofTokens us = .ok q ∧
      p.body.relabel erasePosition (relabelComments erasePosition) =
        q.body.relabel erasePosition (relabelComments erasePosition)) ∧
    ∃ a b, ofTokens (ts ++ [⟨.symbol .closeBrace, onFirstLine 16 17⟩]) = .error a ∧
      ofTokens (us ++ [⟨.symbol .closeBrace, default⟩]) = .error b ∧ a.cause = b.cause ∧
      a.token.kind.relabel erasePosition = b.token.kind.relabel erasePosition := by
  intro ts us
  have hp : ofTokens ts = .ok _ := rfl
  have ha : ofTokens (ts ++ [⟨.symbol .closeBrace, onFirstLine 16 17⟩]) = .error _ := rfl
  have h : relabelTokens erasePosition ts = relabelTokens erasePosition us := rfl
  have hbrace : relabelTokens erasePosition (ts ++ [⟨.symbol .closeBrace, onFirstLine 16 17⟩]) =
    relabelTokens erasePosition (us ++ [⟨.symbol .closeBrace, default⟩]) := rfl
  refine ⟨h, (ofTokens_alike h).resolve_right ?_, (ofTokens_alike hbrace).resolve_left ?_⟩
  · rintro ⟨a, b, ha, -⟩
    cases hp.symm.trans ha
  · rintro ⟨p, q, hp, -⟩
    cases ha.symm.trans hp

end Program

end NixSyntax
