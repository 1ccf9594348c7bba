import NixSyntax.Proofs.Reading.Progress

/-!
# The bound on nesting is never felt

`operandUpTo n` reads operands that nest at most `n` deep. A list of tokens cannot nest deeper than
it has tokens, so beyond that number the bound makes no difference: what one bound reads, every
bound that is large enough for the tokens reads too.

The argument follows the grammar. Suppose that `operand'` reads whatever `operand` reads from at
most `n` tokens. Then every rule made from `operand'` reads whatever the same rule made from
`operand` reads from at most `n` tokens. An operand takes a token before it asks for the operands
inside it, so for operands the number of tokens grows to `n + 1`, and the induction goes through.

## Counting tokens

The tokens inside of strings and interpolations are counted along (`countTokens`), since what is
inside an interpolation is read by the rule for operands with its own nesting. A rule that takes a
token leaves less to what comes behind it, and a token that holds tokens counts for one more than
these. So the bound goes down by at least one wherever an operand is entered.

Two rules get by with a token more, those that read a name: the token that a name is holds all the
operands in it, so it has been taken before any of them is read. That is why `n + 1` stands in their
statements.

## Main definitions

* `Carries n r r'`: what the rule `r` reads from at most `n` tokens, `r'` reads too

## Main results

* `carries_operandUpTo`: a bound that is large enough reads what any bound reads
* `complete_operandUpTo`: the same for a whole list of tokens
-/

namespace NixSyntax

namespace Grammar

/-- What the rule `r` reads from at most `n` tokens, the rule `r'` reads too. -/
def Carries {α : Type} (n : Nat) (r r' : Rule α) : Prop :=
  ∀ ⦃ts a rest⦄, countTokens ts ≤ n → r ts = .ok (a, rest) → r' ts = .ok (a, rest)

variable {n : Nat} {ts rest : List Token}

/-- Rounds go on to be rounds, with less and less left for each of them. -/
theorem Rounds.carries {α : Type} {round round' : Rule (Option α)} {as : List α}
    (hround : Carries n round round')
    (hleaves : ∀ {ts a rest}, round ts = .ok (some a, rest) → Leaves 1 ts rest)
    (h : Rounds round ts as rest) (hn : countTokens ts ≤ n) : Rounds round' ts as rest := by
  induction h with
  | nil => exact .nil
  | cons head tail ih =>
    have := (hleaves head).countTokens_le
    exact .cons (hround hn head) (ih (by omega))

/-- The end of a repetition is the same, as the round that ends it reads nothing either way. -/
theorem Carries.repeated {α : Type} {round round' : Rule (Option α)}
    (hround : Carries n round round') (hr : Repeatable round) (hr' : Repeatable round')
    (hleaves : ∀ {ts a rest}, round ts = .ok (some a, rest) → Leaves 1 ts rest) :
    Carries n (repeated round) (repeated round') := by
  intro ts as rest hn h
  obtain ⟨hrounds, hend⟩ := (repeated_eq_ok_iff hr).mp h
  -- the round that ends the repetition has no more tokens than the first one
  have := (hrounds.leaves hleaves).countTokens_le
  exact (repeated_eq_ok_iff hr').mpr ⟨hrounds.carries hround hleaves hn, hround (by omega) hend⟩

variable {operand operand' : Context → Rule Operand} (hop : Advances operand)
  (hop' : Advances operand') (hc : ∀ ctx, Carries n (operand ctx) (operand' ctx))
include hop hop' hc

/-! ### Expressions and names

In each rule the tokens that are left after a part are counted, and the parts behind are read from
these. -/

omit hop hop' in
theorem carries_link : Carries n (link operand) (link operand') := by
  intro ts l rest hn h
  cases l with
  | none => exact link_eq_none_iff.mpr (link_eq_none_iff.mp h)
  | some l =>
    obtain ⟨t, us, op, rfl, hop, hl, ho⟩ := link_eq_some_iff.mp h
    rw [countTokens_cons] at hn
    exact link_eq_some_iff.mpr ⟨t, us, op, rfl, hop, hl, hc _ (by omega) ho⟩

/-- The links have at most as many tokens as the expression. -/
theorem carries_expression : Carries n (expression operand) (expression operand') := by
  intro ts e rest hn h
  obtain ⟨first, mid, hfirst, links, hlinks, he⟩ := expression_eq_ok_iff.mp h
  have hmid := (hop hfirst).countTokens_le
  have hrounds := (carries_link hc).repeated (repeatable_link hop) (repeatable_link hop')
    (leaves_link hop)
  exact expression_eq_ok_iff.mpr
    ⟨first, mid, hc _ hn hfirst, links, hrounds (by omega) hlinks, he⟩

theorem complete_of_carries {e : Expr} (hn : countTokens ts ≤ n)
    (h : complete operand ts = .ok e) : complete operand' ts = .ok e := by
  obtain ⟨rest, he, hend⟩ := complete_eq_ok_iff.mp h
  exact complete_eq_ok_iff.mpr ⟨rest, carries_expression hop hop' hc hn he, hend⟩

/-- The tokens of an interpolation are what is counted there. -/
theorem interpolationOf_of_carries {span : Span} {c : Interpolation} (hn : countTokens ts ≤ n)
    (h : interpolationOf operand ts span = .ok c) : interpolationOf operand' ts span = .ok c := by
  obtain ⟨body, hbody, rfl⟩ := interpolationOf_eq_ok_iff.mp h
  exact interpolationOf_eq_ok_iff.mpr ⟨body, complete_of_carries hop hop' hc hn hbody, rfl⟩

theorem ReadsParts.carries {fragments : List StringFragment} {parts : List StringPart}
    (hn : countFragments fragments ≤ n) (h : ReadsParts operand fragments parts) :
    ReadsParts operand' fragments parts := by
  induction h with
  | nil => exact .nil
  | text _ ih =>
    rw [countFragments] at hn
    exact .text (ih (by omega))
  | interpolation hcontent _ ih =>
    rw [countFragments, StringFragment.count] at hn
    exact .interpolation (interpolationOf_of_carries hop hop' hc (by omega) hcontent)
      (ih (by omega))

theorem stringOf_of_carries {fragments : List StringFragment} {multiline : Bool} {span : Span}
    {s : StringLiteral} (hn : countFragments fragments ≤ n)
    (h : stringOf operand fragments multiline span = .ok s) :
    stringOf operand' fragments multiline span = .ok s := by
  obtain ⟨parts, hparts, rfl⟩ := stringOf_eq_ok_iff.mp h
  exact stringOf_eq_ok_iff.mpr ⟨parts, hparts.carries hop hop' hc hn, rfl⟩

/-- A name is a token, and what is in it counts for one less. -/
theorem ReadsSegment.carries {s : Segment} {span : Span} (hn : countTokens ts ≤ n + 1)
    (h : ReadsSegment operand ts s span rest) : ReadsSegment operand' ts s span rest := by
  cases h with
  | name => exact .name
  | string hl =>
    rw [countTokens_cons, Token.count, TokenKind.innerCount] at hn
    exact .string (stringOf_of_carries hop hop' hc (by omega) hl)
  | interpolation hi =>
    rw [countTokens_cons, Token.count, TokenKind.innerCount] at hn
    exact .interpolation (interpolationOf_of_carries hop hop' hc (by omega) hi)

theorem carries_dottedSegment :
    Carries n (dottedSegment operand) (dottedSegment operand') := by
  intro ts s rest hn h
  cases s with
  | none => exact dottedSegment_eq_none_iff.mpr (dottedSegment_eq_none_iff.mp h)
  | some s =>
    obtain ⟨dot, us, rfl, hs⟩ := dottedSegment_eq_some_iff.mp h
    rw [countTokens_cons] at hn
    exact dottedSegment_eq_some_iff.mpr ⟨dot, us, rfl, hs.carries hop hop' hc (by omega)⟩

theorem attrPath_of_carries {p : AttrPath} (hn : countTokens ts ≤ n + 1)
    (h : attrPath operand ts = .ok (p, rest)) : attrPath operand' ts = .ok (p, rest) := by
  obtain ⟨first, start, mid, hfirst, more, hmore, hp⟩ := attrPath_eq_ok_iff.mp h
  have hmid := hfirst.leaves.countTokens_le
  have hrounds := (carries_dottedSegment hop hop' hc).repeated repeatable_dottedSegment
    repeatable_dottedSegment leaves_dottedSegment
  exact attrPath_eq_ok_iff.mpr ⟨first, start, mid, hfirst.carries hop hop' hc hn, more,
    hrounds (by omega) hmore, hp⟩

/-! ### Bindings

One part behind the other, each with fewer tokens. -/

theorem carries_inheritSource : Carries n (inheritSource operand) (inheritSource operand') := by
  intro ts source rest hn h
  have hskip : countTokens (skipTrivia ts) + 0 ≤ countTokens ts := leaves_skipTrivia.countTokens_le
  rcases inheritSource_eq_ok_iff.mp h with ⟨start, us, e, mid, stop, hts, he, hrest⟩ | h
  · rw [hts, countTokens_cons] at hskip
    exact inheritSource_eq_ok_iff.mpr (.inl ⟨start, us, e, mid, stop, hts,
      carries_expression hop hop' hc (by omega) he, hrest⟩)
  · exact inheritSource_eq_ok_iff.mpr (.inr h)

theorem carries_inheritedName : Carries n (inheritedName operand) (inheritedName operand') := by
  intro ts p rest hn h
  have hskip : countTokens (skipTrivia ts) + 0 ≤ countTokens ts := leaves_skipTrivia.countTokens_le
  cases p with
  | none => exact inheritedName_eq_none_iff.mpr (inheritedName_eq_none_iff.mp h)
  | some p =>
    obtain ⟨hend, hnext, name, hname, hp⟩ := inheritedName_eq_some_iff.mp h
    exact inheritedName_eq_some_iff.mpr
      ⟨hend, hnext, name, attrPath_of_carries hop hop' hc (by omega) hname, hp⟩

theorem carries_inheritance {comments : List Comment} {start : Span} :
    Carries n (inheritance operand comments start) (inheritance operand' comments start) := by
  intro ts b rest hn h
  obtain ⟨source, more, ts₁, hsource, names, ts₂, hnames, hrest⟩ := inheritance_eq_ok_iff.mp h
  have hts₁ := (leaves_inheritSource hop hsource).countTokens_le
  have hrounds := (carries_inheritedName hop hop' hc).repeated repeatable_inheritedName
    repeatable_inheritedName leaves_inheritedName
  exact inheritance_eq_ok_iff.mpr ⟨source, more, ts₁,
    carries_inheritSource hop hop' hc hn hsource, names, ts₂, hrounds (by omega) hnames, hrest⟩

theorem carries_assignment {comments : List Comment} :
    Carries n (assignment operand comments) (assignment operand' comments) := by
  intro ts b rest hn h
  obtain ⟨name, ts₁, hname, eq, ts₂, heq, value, ts₃, hvalue, hrest⟩ := assignment_eq_ok_iff.mp h
  have hts₂ := ((leaves_attrPath hname).trans
    (leaves_skipTrivia.trans (leaves_expectSymbol heq))).countTokens_le
  exact assignment_eq_ok_iff.mpr ⟨name, ts₁, attrPath_of_carries hop hop' hc (by omega) hname, eq,
    ts₂, heq, value, ts₃, carries_expression hop hop' hc (by omega) hvalue, hrest⟩

theorem carries_binding : Carries n (binding operand) (binding operand') := by
  intro ts b rest hn h
  have hskip : countTokens (skipTrivia ts) + 0 ≤ countTokens ts := leaves_skipTrivia.countTokens_le
  rcases binding_eq_ok_iff.mp h with ⟨start, us, hts, hb⟩ | ⟨hnext, hb⟩
  · rw [hts, countTokens_cons] at hskip
    exact binding_eq_ok_iff.mpr
      (.inl ⟨start, us, hts, carries_inheritance hop hop' hc (by omega) hb⟩)
  · exact binding_eq_ok_iff.mpr (.inr ⟨hnext, carries_assignment hop hop' hc (by omega) hb⟩)

/-- All bindings of a set. What closes the set is a look at tokens, and the same for both rules. -/
theorem carries_bindings {closed : List Token → Bool} :
    Carries n (repeated (bindingUnless operand closed))
      (repeated (bindingUnless operand' closed)) := by
  refine Carries.repeated ?_ (repeatable_bindingUnless hop) (repeatable_bindingUnless hop')
    fun h => leaves_binding hop (bindingUnless_eq_some_iff.mp h).2.2
  intro ts b rest hn h
  cases b with
  | none => exact bindingUnless_eq_none_iff.mpr (bindingUnless_eq_none_iff.mp h)
  | some b =>
    obtain ⟨hend, hclosed, hb⟩ := bindingUnless_eq_some_iff.mp h
    exact bindingUnless_eq_some_iff.mpr ⟨hend, hclosed, carries_binding hop hop' hc hn hb⟩

theorem carries_attrSet {recursive : Bool} {start : Span} :
    Carries n (attrSet operand recursive start) (attrSet operand' recursive start) := by
  intro ts t rest hn h
  obtain ⟨bs, mid, hbs, hrest⟩ := attrSet_eq_ok_iff.mp h
  exact attrSet_eq_ok_iff.mpr ⟨bs, mid, carries_bindings hop hop' hc hn hbs, hrest⟩

theorem carries_letIn {start : Span} :
    Carries n (letIn operand start) (letIn operand' start) := by
  intro ts t rest hn h
  obtain ⟨bs, ts₁, hbs, stop, ts₂, hin, body, hbody, ht⟩ := letIn_eq_ok_iff.mp h
  have hrounds := ((repeated_eq_ok_iff (repeatable_bindingUnless hop)).mp hbs).1
  have hts₂ := ((hrounds.leaves_bindings hop).trans
    (leaves_skipTrivia.trans (leaves_expectKeyword hin))).countTokens_le
  exact letIn_eq_ok_iff.mpr ⟨bs, ts₁, carries_bindings hop hop' hc hn hbs, stop, ts₂, hin, body,
    carries_expression hop hop' hc (by omega) hbody, ht⟩

/-! ### Functions

The bound on the attributes of a pattern is no bound on nesting, and has gone from the statement
already. -/

theorem carries_lambda {parameter : AttrPath} :
    Carries n (lambda operand parameter) (lambda operand' parameter) := by
  intro ts t rest hn h
  obtain ⟨body, hbody, ht⟩ := lambda_eq_ok_iff.mp h
  exact lambda_eq_ok_iff.mpr ⟨body, carries_expression hop hop' hc hn hbody, ht⟩

theorem carries_formal {comments : List Comment} :
    Carries n (formal operand comments) (formal operand' comments) := by
  intro ts f rest hn h
  obtain ⟨name, mid, hname, hrest⟩ := formal_eq_ok_iff.mp h
  refine formal_eq_ok_iff.mpr
    ⟨name, mid, attrPath_of_carries hop hop' hc (by omega) hname, ?_⟩
  rcases hrest with ⟨start, us, e, hmid, he, hf⟩ | hrest
  · have hus := ((leaves_attrPath hname).trans
      (leaves_of_skipTrivia rfl hmid (Leaves.refl us))).countTokens_le
    exact .inl ⟨start, us, e, hmid, carries_expression hop hop' hc (by omega) he, hf⟩
  · exact .inr hrest

/-- What is between the braces, along the attributes. -/
theorem ReadsPattern.carries {body : PatternBody} (hn : countTokens ts ≤ n)
    (h : ReadsPattern operand ts body rest) : ReadsPattern operand' ts body rest := by
  have hskip {ts} : countTokens (skipTrivia ts) + 0 ≤ countTokens ts :=
    leaves_skipTrivia.countTokens_le
  induction h with
  | closed next => exact .closed next
  | variadic next => exact .variadic next
  | @comma ts mid _ _ _ _ head tail ih =>
    have hmid := (leaves_skipTrivia.trans ((leaves_formal hop head).trans
      ((Leaves.refl mid).cons rfl))).countTokens_le
    exact .comma (carries_formal hop hop' hc (by have := @hskip ts; omega) head) (ih (by omega))
  | @last ts _ _ _ head =>
    exact .last (carries_formal hop hop' hc (by have := @hskip ts; omega) head)

theorem carries_patternEnd {front : Option AttrPath} {start stop : Span} :
    Carries n (patternEnd operand front start stop) (patternEnd operand' front start stop) := by
  intro ts result rest hn h
  obtain ⟨whole, span, cs⟩ := result
  cases front with
  | some name => exact h
  | none =>
    obtain ⟨h, hspan⟩ := patternEnd_none_eq_ok_iff.mp h
    refine patternEnd_none_eq_ok_iff.mpr ⟨patternName_eq_ok_iff.mpr ?_, hspan⟩
    rcases patternName_eq_ok_iff.mp h with ⟨start, us, name, mid, rfl, hname, hrest⟩ | h
    · have hskip : countTokens (skipTrivia us) + 0 ≤ countTokens us :=
        leaves_skipTrivia.countTokens_le
      rw [countTokens_cons] at hn
      exact .inl ⟨start, us, name, mid, rfl,
        attrPath_of_carries hop hop' hc (by omega) hname, hrest⟩
    · exact .inr h

theorem carries_patternLambda {front : Option AttrPath} {start : Span} :
    Carries n (patternLambda operand front start) (patternLambda operand' front start) := by
  intro ts t rest hn h
  obtain ⟨body, ts₁, hbody, stop, ts₂, hstop, whole, span, more, ts₃, hend, colon, ts₄, hcolon,
    result, hresult, ht⟩ := patternLambda_eq_ok_iff.mp h
  have hinside := (patternBody_eq_ok_iff hop).mp hbody
  have hts₂ := ((hinside.leaves hop).trans
    ((leaves_expectSymbol hstop).trans leaves_skipTrivia)).countTokens_le
  have hts₄ := ((leaves_patternEnd hend).trans (leaves_expectSymbol hcolon)).countTokens_le
  exact patternLambda_eq_ok_iff.mpr ⟨body, ts₁,
    (patternBody_eq_ok_iff hop').mpr (hinside.carries hop hop' hc hn), stop, ts₂, hstop, whole,
    span, more, ts₃, carries_patternEnd hop hop' hc (by omega) hend, colon, ts₄, hcolon, result,
    carries_expression hop hop' hc (by omega) hresult, ht⟩

/-! ### Terms

What is read behind the first token of a term has one token less. This is where the bound goes
down. -/

theorem carries_paren {start : Span} : Carries n (paren operand start) (paren operand' start) := by
  intro ts t rest hn h
  obtain ⟨body, mid, hbody, hrest⟩ := paren_eq_ok_iff.mp h
  exact paren_eq_ok_iff.mpr ⟨body, mid, carries_expression hop hop' hc hn hbody, hrest⟩

omit hop hop' in
theorem carries_item : Carries n (item operand) (item operand') := by
  intro ts o rest hn h
  cases o with
  | none => exact item_eq_none_iff.mpr (item_eq_none_iff.mp h)
  | some o =>
    obtain ⟨hend, hnext, ho⟩ := item_eq_some_iff.mp h
    exact item_eq_some_iff.mpr ⟨hend, hnext, hc _ hn ho⟩

theorem carries_list {start : Span} : Carries n (list operand start) (list operand' start) := by
  intro ts t rest hn h
  obtain ⟨items, mid, hitems, hrest⟩ := list_eq_ok_iff.mp h
  have hrounds := (carries_item hc).repeated (repeatable_item hop) (repeatable_item hop')
    (leaves_item hop)
  exact list_eq_ok_iff.mpr ⟨items, mid, hrounds hn hitems, hrest⟩

theorem carries_conditional {start : Span} :
    Carries n (conditional operand start) (conditional operand' start) := by
  intro ts t rest hn h
  obtain ⟨c, ts₁, hc₁, s₁, ts₂, hthen, a, ts₃, ha, s₂, ts₄, helse, b, hb, ht⟩ :=
    conditional_eq_ok_iff.mp h
  have hts₂ := ((leaves_expression hop hc₁).trans (leaves_expectKeyword hthen)).countTokens_le
  have hts₄ := ((leaves_expression hop ha).trans (leaves_expectKeyword helse)).countTokens_le
  exact conditional_eq_ok_iff.mpr ⟨c, ts₁, carries_expression hop hop' hc hn hc₁, s₁, ts₂, hthen, a,
    ts₃, carries_expression hop hop' hc (by omega) ha, s₂, ts₄, helse, b,
    carries_expression hop hop' hc (by omega) hb, ht⟩

omit hop hop' in
theorem carries_importOf {start : Span} :
    Carries n (importOf operand start) (importOf operand' start) := by
  intro ts t rest hn h
  obtain ⟨source, hsource, ht⟩ := importOf_eq_ok_iff.mp h
  exact importOf_eq_ok_iff.mpr ⟨source, hc _ hn hsource, ht⟩

omit hop hop' in
theorem carries_unary {ctx : Context} {op : UnaryOp} {start : Span} :
    Carries n (unary operand ctx op start) (unary operand' ctx op start) := by
  intro ts t rest hn h
  obtain ⟨o, ho, ht⟩ := unary_eq_ok_iff.mp h
  exact unary_eq_ok_iff.mpr ⟨o, hc _ hn ho, ht⟩

/-- A term reads its first token itself and leaves at most `n` to the operands in it. -/
theorem ReadsTerm.carries {ctx : Context} {t : Term} (hn : countTokens ts ≤ n + 1)
    (h : ReadsTerm operand ctx ts t rest) : ReadsTerm operand' ctx ts t rest := by
  have htail : ∀ first us, ts = first :: us → countTokens us ≤ n := by
    rintro first us rfl
    have := first.count_pos
    rw [countTokens_cons] at hn
    omega
  cases h with
  | null => exact .null
  | bool => exact .bool
  | int => exact .int
  | float => exact .float
  | negativeInt => exact .negativeInt
  | negativeFloat => exact .negativeFloat
  | path => exact .path
  | string hl =>
    -- the tokens inside of a token count as well
    rw [countTokens_cons, Token.count, TokenKind.innerCount] at hn
    exact .string (stringOf_of_carries hop hop' hc (by omega) hl)
  | interpolation hi =>
    rw [countTokens_cons, Token.count, TokenKind.innerCount] at hn
    exact .interpolation (interpolationOf_of_carries hop hop' hc (by omega) hi)
  | name no_colon no_pattern hp =>
    exact .name no_colon no_pattern (attrPath_of_carries hop hop' hc hn hp)
  | list h => exact .list (carries_list hop hop' hc (htail _ _ rfl) h)
  | attrSet no_pattern h =>
    exact .attrSet no_pattern (carries_attrSet hop hop' hc (htail _ _ rfl) h)
  | recursive hbrace h =>
    have := (leaves_expectSymbol hbrace).countTokens_le
    have := htail _ _ rfl
    exact .recursive hbrace (carries_attrSet hop hop' hc (by omega) h)
  | lambda h =>
    have := htail _ _ rfl
    rw [countTokens_cons] at this
    exact .lambda (carries_lambda hop hop' hc (by omega) h)
  | pattern opens h => exact .pattern opens (carries_patternLambda hop hop' hc (htail _ _ rfl) h)
  | namedPattern opens h =>
    have := htail _ _ rfl
    rw [countTokens_cons, countTokens_cons] at this
    exact .namedPattern opens (carries_patternLambda hop hop' hc (by omega) h)
  | letIn h => exact .letIn (carries_letIn hop hop' hc (htail _ _ rfl) h)
  | import_ h => exact .import_ (carries_importOf hc (htail _ _ rfl) h)
  | conditional h => exact .conditional (carries_conditional hop hop' hc (htail _ _ rfl) h)
  | not h => exact .not (carries_unary hc (htail _ _ rfl) h)
  | negate no_int no_float h =>
    exact .negate no_int no_float (carries_unary hc (htail _ _ rfl) h)
  | paren h => exact .paren (carries_paren hop hop' hc (htail _ _ rfl) h)

/-! ### Operands

A clause begins with a keyword and a term with a token of its own, so an operand may have one token
more than the operands inside of it. -/

omit hop hop' in
theorem carries_argument : Carries n (argument operand) (argument operand') := by
  intro ts o rest hn h
  cases o with
  | none => exact argument_eq_none_iff.mpr (argument_eq_none_iff.mp h)
  | some o =>
    obtain ⟨t, us, hskip, hstart, ho⟩ := argument_eq_some_iff.mp h
    exact argument_eq_some_iff.mpr ⟨t, us, hskip, hstart, hc _ hn ho⟩

theorem carries_withArguments {ctx : Context} {head : Term} :
    Carries n (withArguments operand ctx head) (withArguments operand' ctx head) := by
  intro ts t rest hn h
  unfold withArguments at h ⊢
  split at h
  · obtain ⟨arguments, hargs, ht⟩ := applied_eq_ok_iff.mp h
    have hrounds := (carries_argument hc).repeated (repeatable_argument hop)
      (repeatable_argument hop') (leaves_argument hop)
    rw [if_pos ‹_›]
    exact applied_eq_ok_iff.mpr ⟨arguments, hrounds hn hargs, ht⟩
  · rw [if_neg ‹_›]
    exact h

/-- The keyword is taken before the subject is read. -/
theorem carries_clause : Carries (n + 1) (clause operand) (clause operand') := by
  intro ts c rest hn h
  cases c with
  | none => exact clause_eq_none_iff.mpr (clause_eq_none_iff.mp h)
  | some c =>
    obtain ⟨k, start, us, kind, hskip, hkind, subject, mid, he, hrest⟩ := clause_eq_some_iff.mp h
    have := (leaves_of_skipTrivia rfl hskip (Leaves.refl us)).countTokens_le
    exact clause_eq_some_iff.mpr ⟨k, start, us, kind, hskip, hkind, subject, mid,
      carries_expression hop hop' hc (by omega) he, hrest⟩

/-- From the operands inside to the operand around them: the bound grows by one. -/
theorem carries_operandWith (ctx : Context) :
    Carries (n + 1) (operandWith operand ctx) (operandWith operand' ctx) := by
  intro ts o rest hn h
  obtain ⟨clauses, ts₁, hclauses, head, ts₂, hhead, t, ts₃, ht, hrest⟩ :=
    operandWith_eq_ok_iff.mp h
  have hrounds := (carries_clause hop hop' hc).repeated (repeatable_clause hop)
    (repeatable_clause hop') (leaves_clause hop)
  have hts₁ := ((((repeated_eq_ok_iff (repeatable_clause hop)).mp hclauses).1.leaves
    (leaves_clause hop)).trans leaves_skipTrivia).countTokens_le
  have hterm := termIn_eq_ok_iff.mp hhead
  have hts₂ := (hterm.leaves hop).countTokens_le
  exact operandWith_eq_ok_iff.mpr ⟨clauses, ts₁, hrounds hn hclauses, head, ts₂,
    termIn_eq_ok_iff.mpr (hterm.carries hop hop' hc (by omega)), t, ts₃,
    carries_withArguments hop hop' hc (by omega) ht, hrest⟩

omit hop hop' hc in
/-- **The bound on nesting is never felt.** A bound that is at least the number of tokens reads what
any bound reads. -/
theorem carries_operandUpTo {k m : Nat} (hm : n ≤ m) (ctx : Context) :
    Carries n (operandUpTo k ctx) (operandUpTo m ctx) := by
  induction n generalizing k m ctx with
  | zero =>
    intro ts o rest hn h
    have := (advances_operandUpTo k h).countTokens_le
    omega
  | succ n ih =>
    obtain ⟨m, rfl⟩ : ∃ j, m = j + 1 := ⟨m - 1, by omega⟩
    cases k with
    | zero =>
      intro ts o rest hn h
      simp [operandUpTo] at h
    | succ k =>
      exact carries_operandWith (advances_operandUpTo k) (advances_operandUpTo m)
        (fun ctx => ih (by omega) ctx) ctx

omit hop hop' hc in
/-- In particular the number of tokens is large enough. -/
theorem complete_operandUpTo {k m : Nat} {e : Expr} (hm : countTokens ts ≤ m)
    (h : complete (operandUpTo k) ts = .ok e) : complete (operandUpTo m) ts = .ok e :=
  complete_of_carries (advances_operandUpTo k) (advances_operandUpTo m)
    (fun ctx => carries_operandUpTo hm ctx) (Nat.le_refl _) h

end Grammar

/-- A list of tokens is a program when it is completely an expression. -/
theorem Program.ofTokens_eq_ok_iff {ts : List Token} {p : Program} :
    ofTokens ts = .ok p ↔
      ∃ e, Grammar.complete (Grammar.operandUpTo (countTokens ts)) ts = .ok e ∧
        ⟨e, e.span⟩ = p := by
  rw [ofTokens]
  split
  · next e h => simp [h]
  · next s h => simp [h]

theorem Program.complete_of_ofTokens {ts : List Token} {p : Program} (h : ofTokens ts = .ok p) :
    Grammar.complete (Grammar.operandUpTo (countTokens ts)) ts = .ok p.body := by
  obtain ⟨e, he, rfl⟩ := ofTokens_eq_ok_iff.mp h
  exact he

end NixSyntax
