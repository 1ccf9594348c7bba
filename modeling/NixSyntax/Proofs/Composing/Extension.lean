import NixSyntax.Proofs.Composing.Closing
import NixSyntax.Proofs.Reading.Making

/-!
# Rules in front of a closing token

A rule reads the same when tokens are added behind its own, if the first of them closes an
expression. One lemma for each rule; from the operands inside a rule to the rule. Rules that end
with an operand must not stop at an `@`, the others may.

## What could go wrong

A rule that looks at the end of its tokens sees nothing there, and stops. With more tokens behind,
it sees a token that closes. The two differ only for a rule that would take this token or is told
something by it. Such rules ask for operators, for arguments, for a dot, for a colon, for an `@`, or
for braces that match. A token that closes is none of the first four.

A set is not taken for a pattern, although more tokens are looked at: its braces match, so the look
ahead ends behind the closing one, and what is there was there before (`behindBraces_of_attrSet`). A
name in front of an `@` could be taken for the name of a pattern, when the brace behind the `@` did
not match before and does now. That is the reason for `NoAtSign`.

Blocks of bindings and lists end at a token that closes, or at their own. Here the bindings and
items that were read are read again, and the round that ends them has to be looked at in each case.

## Main results

* `ReadsTerm.extend`: terms, form by form
* `extends_expression`, `extends_attrSet`, …: one lemma for each rule
* `extends_operandUpTo`: operands in front of a closing token
-/

namespace NixSyntax

namespace Grammar

variable {tail ts rest : List Token} {n : Nat}

/-! ### Expressions

An operator is no token that closes, so a chain ends where it did. -/

section

variable (hc : Closing tail) (hop : ∀ ctx, Extends tail NoAtSign (operandUpTo n ctx))
include hc hop

theorem extends_link : Extends tail NoAtSign (link (operandUpTo n)) := by
  intro ts l rest h hrest
  cases l with
  | none =>
    obtain ⟨rfl, hnone⟩ := link_eq_none_iff.mp h
    refine link_eq_none_iff.mpr ⟨rfl, fun t us heq => ?_⟩
    rcases hc.append_eq_cons heq with ⟨us', rfl⟩ | ⟨-, hcloses⟩
    · exact hnone t us' rfl
    · exact (not_ahead_of_closes hcloses).2.1
  | some l =>
    obtain ⟨operator, o⟩ := l
    obtain ⟨t, us, op, rfl, hop', rfl, ho⟩ := link_eq_some_iff.mp h
    exact link_eq_some_iff.mpr ⟨t, us ++ tail, op, rfl, hop', rfl, hop .chain ho hrest⟩

omit hc hop in
/-- An operator is no `@`. -/
theorem noAtSign_of_link {l : Operator × Operand}
    (h : link (operandUpTo n) ts = .ok (some l, rest)) : NoAtSign ts := by
  obtain ⟨operator, o⟩ := l
  obtain ⟨⟨kind, span⟩, us, op, rfl, hop', -⟩ := link_eq_some_iff.mp h
  obtain rfl : kind = op.kind := Token.binaryOp?_eq_some_iff.mp hop'
  cases op <;> rfl

/-- The chain goes on from operand to operand, and its end is in front of the tail. -/
theorem extends_expression : Extends tail NoAtSign (expression (operandUpTo n)) := by
  intro ts e rest h hrest
  obtain ⟨first, mid, hfirst, links, hlinks, rfl⟩ := expression_eq_ok_iff.mp h
  have hr := repeatable_link (advances_operandUpTo n)
  have hmid := (rounds_of_repeated stop_link hlinks).start noAtSign_of_link hrest
  have hlinks' := extend_repeated hr (fun h => extends_link hc hop h) noAtSign_of_link hlinks hrest
    (extends_link hc hop (end_of_repeated hr hlinks) hrest)
  exact expression_eq_ok_iff.mpr
    ⟨first, mid ++ tail, hop .chain hfirst hmid, links, hlinks', rfl⟩

/-! ### Strings and names

A segment is one token, and what it is does not depend on those behind it. -/

omit hc hop in
theorem ReadsSegment.extend {s : Segment} {span : Span}
    (h : ReadsSegment (operandUpTo n) ts s span rest) (tail : List Token) :
    ReadsSegment (operandUpTo n) (ts ++ tail) s span (rest ++ tail) := by
  cases h with
  | name => exact .name
  | string hl => exact .string hl
  | interpolation hi => exact .interpolation hi

omit hop in
theorem extends_dottedSegment :
    Extends tail (fun _ => True) (dottedSegment (operandUpTo n)) := by
  intro ts s rest h _
  cases s with
  | none =>
    obtain ⟨rfl, hdot⟩ := dottedSegment_eq_none_iff.mp h
    exact dottedSegment_eq_none_iff.mpr ⟨rfl, hc.append_ne_cons rfl hdot⟩
  | some s =>
    obtain ⟨s, span⟩ := s
    obtain ⟨dot, us, rfl, hs⟩ := dottedSegment_eq_some_iff.mp h
    exact dottedSegment_eq_some_iff.mpr ⟨dot, us ++ tail, rfl, hs.extend tail⟩

omit hop in
/-- A closing token is no dot, so a path ends where it did. -/
theorem extends_attrPath : Extends tail (fun _ => True) (attrPath (operandUpTo n)) := by
  intro ts p rest h _
  obtain ⟨first, start, mid, hfirst, more, hmore, rfl⟩ := attrPath_eq_ok_iff.mp h
  have hmore' := extend_repeated repeatable_dottedSegment
    (fun h => extends_dottedSegment hc h) (fun _ => trivial) hmore trivial
    (extends_dottedSegment hc (end_of_repeated repeatable_dottedSegment hmore) trivial)
  exact attrPath_eq_ok_iff.mpr
    ⟨first, start, mid ++ tail, hfirst.extend tail, more, hmore', rfl⟩

/-! ### Bindings

A binding ends with its semicolon, so it does not matter what it leaves. -/

theorem extends_inheritSource :
    Extends tail (fun _ => True) (inheritSource (operandUpTo n)) := by
  intro ts r rest h _
  obtain ⟨source, cs⟩ := r
  rcases inheritSource_eq_ok_iff.mp h with
    ⟨start, us, e, mid, stop, hts, he, hstop, rfl, rfl⟩ | ⟨hnext, rfl, rfl, rfl⟩
  · exact inheritSource_eq_ok_iff.mpr (.inl ⟨start, us ++ tail, e, mid ++ tail, stop,
      hc.skipTrivia_cons hts,
      extends_expression hc hop he (noAtSign_of_expectSymbol hstop (by decide)),
      hc.extends_expectSymbol _ hstop trivial, rfl, (hc.commentsAhead_append ts).symm⟩)
  · exact inheritSource_eq_ok_iff.mpr
      (.inr ⟨(hc.nextIsSymbol_append rfl _).trans hnext, rfl, rfl, rfl⟩)

omit hop in
theorem inheritedName_append {p : AttrPath}
    (h : inheritedName (operandUpTo n) ts = .ok (some p, rest)) :
    inheritedName (operandUpTo n) (ts ++ tail) = .ok (some p, rest ++ tail) := by
  obtain ⟨hend, hnext, name, hname, rfl⟩ := inheritedName_eq_some_iff.mp h
  refine inheritedName_eq_some_iff.mpr ⟨hc.atEnd_append hend, ?_, name, ?_, ?_⟩
  · rwa [hc.nextIsSymbol_append_of_not_atEnd hend]
  · rw [hc.skipTrivia_append]
    exact extends_attrPath hc hname trivial
  · rw [hc.commentsAhead_append]

/-- The names of an `inherit` end in front of its semicolon. -/
theorem extends_inheritance (comments : List Comment) (start : Span) :
    Extends tail (fun _ => True) (inheritance (operandUpTo n) comments start) := by
  intro ts b rest h _
  obtain ⟨source, more, ts₁, hsource, names, ts₂, hnames, stop, hstop, rfl⟩ :=
    inheritance_eq_ok_iff.mp h
  have hsemicolon := hc.nextIsSymbol_of_expectSymbol hstop
  have hnames' := extend_repeated repeatable_inheritedName
    (fun h _ => inheritedName_append hc h) (fun _ => trivial) hnames trivial
    (inheritedName_eq_none_iff.mpr ⟨rfl, .inr hsemicolon⟩)
  refine inheritance_eq_ok_iff.mpr ⟨source, more, ts₁ ++ tail, extends_inheritSource hc hop hsource
    trivial, names, ts₂ ++ tail, hnames', stop, ?_, ?_⟩
  · exact hc.expectSymbol_skipTrivia hstop
  · rw [hc.commentsAhead_append]

theorem extends_assignment (comments : List Comment) :
    Extends tail (fun _ => True) (assignment (operandUpTo n) comments) := by
  intro ts b rest h _
  obtain ⟨name, ts₁, hname, eq, ts₂, heq, value, ts₃, hvalue, stop, hstop, rfl⟩ :=
    assignment_eq_ok_iff.mp h
  refine assignment_eq_ok_iff.mpr ⟨name, ts₁ ++ tail, extends_attrPath hc hname trivial, eq,
    ts₂ ++ tail, ?_, value, ts₃ ++ tail, ?_, stop, hc.extends_expectSymbol _ hstop trivial, ?_⟩
  · exact hc.expectSymbol_skipTrivia heq
  · exact extends_expression hc hop hvalue (noAtSign_of_expectSymbol hstop (by decide))
  · rw [hc.commentsAhead_append]

theorem extends_binding : Extends tail (fun _ => True) (binding (operandUpTo n)) := by
  intro ts b rest h _
  rcases binding_eq_ok_iff.mp h with ⟨start, us, hts, hb⟩ | ⟨hnext, hb⟩
  · refine binding_eq_ok_iff.mpr (.inl ⟨start, us ++ tail, ?_, ?_⟩)
    · exact hc.skipTrivia_cons hts
    · rw [hc.commentsAhead_append]
      exact extends_inheritance hc hop _ _ hb trivial
  · refine binding_eq_ok_iff.mpr (.inr ⟨(hc.nextIsKeyword_append rfl _).trans hnext, ?_⟩)
    rw [hc.skipTrivia_append, hc.commentsAhead_append]
    exact extends_assignment hc hop _ hb trivial

/-- The bindings of a block, up to tokens that end it with the tail behind them. -/
theorem extend_bindings {closed : List Token → Bool} {bs : List Binding}
    (hclosed : ∀ ts, atEnd (skipTrivia ts) = false → closed (ts ++ tail) = closed ts)
    (h : repeated (bindingUnless (operandUpTo n) closed) ts = .ok (bs, rest))
    (hrest : closed (rest ++ tail) = true) :
    repeated (bindingUnless (operandUpTo n) closed) (ts ++ tail) = .ok (bs, rest ++ tail) := by
  refine extend_repeated (P := fun _ => True) (repeatable_bindingUnless (advances_operandUpTo n))
    (fun {ts b rest} hb _ => ?_) (fun _ => trivial) h trivial
    (bindingUnless_eq_none_iff.mpr ⟨rfl, .inr hrest⟩)
  obtain ⟨hend, hopen, hb⟩ := bindingUnless_eq_some_iff.mp hb
  exact bindingUnless_eq_some_iff.mpr
    ⟨hc.atEnd_append hend, (hclosed ts hend).trans hopen, extends_binding hc hop hb trivial⟩

/-- A set ends with its closing brace, and has seen it. -/
theorem extends_attrSet (recursive : Bool) (start : Span) :
    Extends tail (fun _ => True) (attrSet (operandUpTo n) recursive start) := by
  intro ts t rest h _
  obtain ⟨bs, mid, hbs, stop, hstop, rfl⟩ := attrSet_eq_ok_iff.mp h
  have hbs' := extend_bindings hc hop (fun ts hts => hc.nextIsSymbol_append_of_not_atEnd hts _) hbs
    (hc.nextIsSymbol_of_expectSymbol hstop)
  refine attrSet_eq_ok_iff.mpr ⟨bs, mid ++ tail, hbs', stop, ?_, ?_⟩
  · exact hc.expectSymbol_skipTrivia hstop
  · rw [hc.commentsAhead_append]

theorem extends_letIn (start : Span) :
    Extends tail NoAtSign (letIn (operandUpTo n) start) := by
  intro ts t rest h hrest
  obtain ⟨bs, ts₁, hbs, stop, ts₂, hin, body, hbody, rfl⟩ := letIn_eq_ok_iff.mp h
  have hbs' := extend_bindings hc hop (fun ts hts => hc.nextIsKeyword_append_of_not_atEnd hts _) hbs
    (hc.nextIsKeyword_of_expectKeyword hin)
  refine letIn_eq_ok_iff.mpr ⟨bs, ts₁ ++ tail, hbs', stop, ts₂ ++ tail, ?_, body,
    extends_expression hc hop hbody hrest, ?_⟩
  · exact hc.expectKeyword_skipTrivia hin
  · rw [hc.commentsAhead_append]

/-! ### Functions

The body of a function is the last of its parts, so a function ends as an expression does. -/

theorem extends_lambda (parameter : AttrPath) :
    Extends tail NoAtSign (lambda (operandUpTo n) parameter) := by
  intro ts t rest h hrest
  obtain ⟨body, hbody, rfl⟩ := lambda_eq_ok_iff.mp h
  exact lambda_eq_ok_iff.mpr ⟨body, extends_expression hc hop hbody hrest, rfl⟩

/-- A name without a default ends in front of a comma or of the closing brace, and no question mark
closes. -/
theorem extends_formal (comments : List Comment) :
    Extends tail NoAtSign (formal (operandUpTo n) comments) := by
  intro ts f rest h hrest
  obtain ⟨name, mid, hname, hform⟩ := formal_eq_ok_iff.mp h
  have hname' := extends_attrPath hc hname trivial
  rcases hform with ⟨start, us, e, hstart, he, rfl⟩ | ⟨hnext, rfl, rfl⟩
  · refine formal_eq_ok_iff.mpr ⟨name, mid ++ tail, hname', .inl ⟨start, us ++ tail, e, ?_,
      extends_expression hc hop he hrest, ?_⟩⟩
    · exact hc.skipTrivia_cons hstart
    · rw [hc.commentsAhead_append]
  · refine formal_eq_ok_iff.mpr ⟨name, mid ++ tail, hname', .inr
      ⟨(hc.nextIsSymbol_append rfl _).trans hnext, (hc.skipTrivia_append mid).symm, ?_⟩⟩
    rw [hc.commentsAhead_append]

/-- A pattern is read up to the brace that closes it, which the rule behind takes. -/
theorem ReadsPattern.extend {body : PatternBody}
    (h : ReadsPattern (operandUpTo n) ts body rest) :
    ReadsPattern (operandUpTo n) (ts ++ tail) body (rest ++ tail) := by
  induction h with
  | @closed ts rest span next =>
    -- the tokens are not used up by trivia, so what is found is found again
    have next' : skipTrivia (ts ++ tail) = ⟨.symbol .closeBrace, span⟩ :: (rest ++ tail) := by
      rw [hc.skipTrivia_append, next]
      rfl
    rw [← hc.skipTrivia_append, ← hc.commentsAhead_append ts]
    exact .closed next'
  | @variadic ts rest span next =>
    have next' : skipTrivia (ts ++ tail) = ⟨.symbol .ellipsis, span⟩ :: (rest ++ tail) := by
      rw [hc.skipTrivia_append, next]
      rfl
    rw [← hc.skipTrivia_append, ← hc.commentsAhead_append ts, ← hc.commentsAhead_append rest]
    exact .variadic next'
  | @comma ts mid rest span f body head more ih =>
    have head' := extends_formal hc hop _ head rfl
    rw [← hc.skipTrivia_append, ← hc.commentsAhead_append ts] at head'
    exact .comma head' ih
  | @last ts rest span f head =>
    have head' := extends_formal hc hop _ head rfl
    rw [← hc.skipTrivia_append, ← hc.commentsAhead_append ts] at head'
    exact .last head'

omit hop in
theorem extends_patternName : Extends tail (fun _ => True) (patternName (operandUpTo n)) := by
  intro ts r rest h _
  obtain ⟨whole, cs⟩ := r
  rcases patternName_eq_ok_iff.mp h with
    ⟨start, us, name, mid, rfl, hname, rfl, rfl, rfl⟩ | ⟨hat, rfl, rfl, rfl⟩
  · refine patternName_eq_ok_iff.mpr (.inl ⟨start, us ++ tail, name, mid ++ tail, rfl, ?_, rfl, ?_,
      (hc.skipTrivia_append mid).symm⟩)
    · rw [hc.skipTrivia_append]
      exact extends_attrPath hc hname trivial
    · rw [hc.commentsAhead_append, hc.commentsAhead_append]
  · exact patternName_eq_ok_iff.mpr (.inr ⟨hc.append_ne_cons rfl hat, rfl, rfl, rfl⟩)

omit hop in
theorem extends_patternEnd (front : Option AttrPath) (start stop : Span) :
    Extends tail (fun _ => True) (patternEnd (operandUpTo n) front start stop) := by
  intro ts r rest h _
  obtain ⟨whole, span, cs⟩ := r
  cases front with
  | some name =>
    obtain ⟨⟨rfl, rfl, rfl⟩, rfl⟩ := by simpa using h
    rfl
  | none =>
    obtain ⟨hname, hspan⟩ := patternEnd_none_eq_ok_iff.mp h
    exact patternEnd_none_eq_ok_iff.mpr ⟨extends_patternName hc hname trivial, hspan⟩

/-- Behind the braces there are marks to be found, and then a body. -/
theorem extends_patternLambda (front : Option AttrPath) (start : Span) :
    Extends tail NoAtSign (patternLambda (operandUpTo n) front start) := by
  intro ts t rest h hrest
  have hadv := advances_operandUpTo n
  obtain ⟨body, ts₁, hbody, stop, ts₂, hstop, whole, span, more, ts₃, hend, colon, ts₄, hcolon,
    result, hresult, rfl⟩ := patternLambda_eq_ok_iff.mp h
  have hbody' := (patternBody_eq_ok_iff hadv).mpr
    (((patternBody_eq_ok_iff hadv).mp hbody).extend hc hop)
  refine patternLambda_eq_ok_iff.mpr ⟨body, ts₁ ++ tail, hbody', stop, ts₂ ++ tail,
    hc.extends_expectSymbol _ hstop trivial, whole, span, more, ts₃ ++ tail, ?_, colon, ts₄ ++ tail,
    hc.extends_expectSymbol _ hcolon trivial, result, extends_expression hc hop hresult hrest, ?_⟩
  · rw [hc.skipTrivia_append]
    exact extends_patternEnd hc front start stop hend trivial
  · rw [hc.commentsAhead_append]

/-! ### Terms

Brackets end with a mark. The other forms end with an operand, or with one token. -/

theorem extends_paren (start : Span) :
    Extends tail (fun _ => True) (paren (operandUpTo n) start) := by
  intro ts t rest h _
  obtain ⟨body, mid, hbody, stop, hstop, rfl⟩ := paren_eq_ok_iff.mp h
  have hbody' := extends_expression hc hop hbody (noAtSign_of_expectSymbol hstop (by decide))
  exact paren_eq_ok_iff.mpr
    ⟨body, mid ++ tail, hbody', stop, hc.extends_expectSymbol _ hstop trivial, rfl⟩

omit hc hop in
/-- No operand begins with an `@`. -/
theorem noAtSign_of_operandUpTo {ctx : Context} {o : Operand}
    (h : operandUpTo n ctx ts = .ok (o, rest)) : NoAtSign ts := by
  refine nextIsSymbol_eq_false_iff.mpr fun span us hts => ?_
  cases n with
  | zero => simp [operandUpTo] at h
  | succ n =>
    obtain ⟨clauses, ts₁, hclauses, head, ts₂, hhead, -⟩ := operandWith_eq_ok_iff.mp h
    cases rounds_of_repeated stop_clause hclauses with
    | nil =>
      have hterm := termIn_eq_ok_iff.mp hhead
      rw [hts] at hterm
      cases hterm
    | @cons _ _ _ c _ first more =>
      obtain ⟨k, start, us', kind, hstart, -⟩ := clause_eq_some_iff.mp first
      rw [hts] at hstart
      cases hstart

/-- The items of a list, up to tokens in front of which the list ends. -/
theorem extend_items {items : List Operand}
    (h : repeated (item (operandUpTo n)) ts = .ok (items, rest)) (hrest : NoAtSign rest)
    (hbracket : nextIsSymbol .closeBracket (rest ++ tail) = true) :
    repeated (item (operandUpTo n)) (ts ++ tail) = .ok (items, rest ++ tail) := by
  refine extend_repeated (P := NoAtSign) (repeatable_item (advances_operandUpTo n))
    (fun {ts o rest} ho hrest => ?_)
    (fun ho => noAtSign_of_operandUpTo (item_eq_some_iff.mp ho).2.2) h hrest
    (item_eq_none_iff.mpr ⟨rfl, .inr hbracket⟩)
  obtain ⟨hend, hopen, ho⟩ := item_eq_some_iff.mp ho
  exact item_eq_some_iff.mpr ⟨hc.atEnd_append hend,
    (hc.nextIsSymbol_append_of_not_atEnd hend _).trans hopen, hop .single ho hrest⟩

theorem extends_list (start : Span) :
    Extends tail (fun _ => True) (list (operandUpTo n) start) := by
  intro ts t rest h _
  obtain ⟨items, mid, hitems, stop, hstop, rfl⟩ := list_eq_ok_iff.mp h
  have hmid := noAtSign_of_expectSymbol hstop (by decide)
  have hitems' := extend_items hc hop hitems (by simpa [NoAtSign, nextIsSymbol] using hmid)
    (hc.nextIsSymbol_of_expectSymbol hstop)
  refine list_eq_ok_iff.mpr ⟨items, mid ++ tail, hitems', stop, ?_, ?_⟩
  · exact hc.expectSymbol_skipTrivia hstop
  · rw [hc.commentsAhead_append]

/-- Three expressions with a keyword between them. Only the last one has to mind what it leaves. -/
theorem extends_conditional (start : Span) :
    Extends tail NoAtSign (conditional (operandUpTo n) start) := by
  intro ts t rest h hrest
  obtain ⟨e, ts₁, he, s₁, ts₂, hthen, e', ts₃, he', s₂, ts₄, helse, e'', he'', rfl⟩ :=
    conditional_eq_ok_iff.mp h
  have hcondition := extends_expression hc hop he (noAtSign_of_expectKeyword hthen)
  have hconsequence := extends_expression hc hop he' (noAtSign_of_expectKeyword helse)
  exact conditional_eq_ok_iff.mpr ⟨e, ts₁ ++ tail, hcondition, s₁, ts₂ ++ tail,
    hc.extends_expectKeyword _ hthen trivial, e', ts₃ ++ tail, hconsequence, s₂, ts₄ ++ tail,
    hc.extends_expectKeyword _ helse trivial, e'', extends_expression hc hop he'' hrest, rfl⟩

omit hc in
theorem extends_importOf (start : Span) :
    Extends tail NoAtSign (importOf (operandUpTo n) start) := by
  intro ts t rest h hrest
  obtain ⟨source, hsource, rfl⟩ := importOf_eq_ok_iff.mp h
  exact importOf_eq_ok_iff.mpr ⟨source, hop .single hsource hrest, rfl⟩

omit hc in
theorem extends_unary (ctx : Context) (op : UnaryOp) (start : Span) :
    Extends tail NoAtSign (unary (operandUpTo n) ctx op start) := by
  intro ts t rest h hrest
  obtain ⟨o, ho, rfl⟩ := unary_eq_ok_iff.mp h
  exact unary_eq_ok_iff.mpr ⟨o, hop ctx ho hrest, rfl⟩

omit hc hop in
/-- The braces of a set match. -/
theorem behindBraces_of_attrSet {recursive : Bool} {start : Span} {t : Term}
    (h : attrSet (operandUpTo n) recursive start ts = .ok (t, rest)) :
    behindBraces 0 ts = some rest := by
  obtain ⟨bs, mid, hbs, stop, hstop, -⟩ := attrSet_eq_ok_iff.mp h
  have hmakes := makes_bindings (fun _ _ _ _ => makes_operandUpTo n) [] hbs
  have hlevel := hmakes.skipTrivia_right.level 0
  have hclose := skipTrivia_of_expectSymbol hstop
  rw [skipTrivia_skipTrivia] at hclose
  rwa [hclose] at hlevel

omit hc hop in
theorem behindBraces_of_opensPattern {named : Bool} (h : opensPattern named ts = true) :
    ∃ rest, behindBraces 0 ts = some rest := by
  rw [opensPattern] at h
  cases hbraces : behindBraces 0 ts with
  | none => simp [hbraces] at h
  | some rest => exact ⟨rest, rfl⟩

omit hc hop in
/-- A path of names ends in front of an `@`. -/
theorem eq_of_attrPath_atSign {name : String} {span at_ : Span} {p : AttrPath} {us : List Token}
    (h : attrPath (operandUpTo n) (⟨.identifier name, span⟩ :: ⟨.symbol .atSign, at_⟩ :: us) =
      .ok (p, rest)) : rest = ⟨.symbol .atSign, at_⟩ :: us := by
  obtain ⟨first, start, mid, hfirst, more, hmore, -⟩ := attrPath_eq_ok_iff.mp h
  cases hfirst
  cases rounds_of_repeated stop_dottedSegment hmore with
  | nil => rfl
  | @cons _ _ _ s _ head tail =>
    obtain ⟨dot, us', heq, -⟩ := dottedSegment_eq_some_iff.mp head
    cases heq

/-- **A term in front of a closing token**, form by form. A look ahead that has decided for a form
decides for it again. -/
theorem ReadsTerm.extend {ctx : Context} {t : Term}
    (h : ReadsTerm (operandUpTo n) ctx ts t rest) (hrest : NoAtSign rest) :
    ReadsTerm (operandUpTo n) ctx (ts ++ tail) t (rest ++ tail) := by
  cases h with
  | null => exact .null
  | bool => exact .bool
  | int => exact .int
  | float => exact .float
  | negativeInt => exact .negativeInt
  | negativeFloat => exact .negativeFloat
  | path => exact .path
  | string hl => exact .string hl
  | interpolation hi => exact .interpolation hi
  | @name name span ts rest p no_colon no_pattern hp =>
    refine .name (hc.append_ne_cons rfl no_colon) (fun at_ start us heq => ?_)
      (extends_attrPath hc hp trivial)
    -- the name would have ended in front of the at sign, and `rest` begins with none
    exfalso
    rcases hc.append_eq_cons heq with ⟨us', rfl⟩ | ⟨-, hcloses⟩
    · rw [eq_of_attrPath_atSign hp] at hrest
      cases hrest
    · cases hcloses
  | list h => exact .list (extends_list hc hop _ h trivial)
  | attrSet no_pattern h =>
    exact .attrSet ((hc.opensPattern_append (behindBraces_of_attrSet h)).trans no_pattern)
      (extends_attrSet hc hop _ _ h trivial)
  | recursive hbrace h =>
    exact .recursive (hc.extends_expectSymbol _ hbrace trivial)
      (extends_attrSet hc hop _ _ h trivial)
  | lambda h => exact .lambda (extends_lambda hc hop _ h hrest)
  | pattern opens h =>
    obtain ⟨us, hus⟩ := behindBraces_of_opensPattern opens
    exact .pattern ((hc.opensPattern_append hus).trans opens)
      (extends_patternLambda hc hop _ _ h hrest)
  | namedPattern opens h =>
    obtain ⟨us, hus⟩ := behindBraces_of_opensPattern opens
    exact .namedPattern ((hc.opensPattern_append hus).trans opens)
      (extends_patternLambda hc hop _ _ h hrest)
  | letIn h => exact .letIn (extends_letIn hc hop _ h hrest)
  | import_ h => exact .import_ (extends_importOf hop _ h hrest)
  | conditional h => exact .conditional (extends_conditional hc hop _ h hrest)
  | not h => exact .not (extends_unary hop _ _ _ h hrest)
  | @negate start ts rest t no_int no_float h =>
    refine .negate (fun value stop us heq => ?_) (fun value stop us heq => ?_)
      (extends_unary hop _ _ _ h hrest)
    · exact hc.append_ne_cons rfl (fun stop us => no_int value stop us) stop us heq
    · exact hc.append_ne_cons rfl (fun stop us => no_float value stop us) stop us heq
  | paren h => exact .paren (extends_paren hc hop _ h trivial)

/-! ### Operands

Arguments are as far as there are any, and a closing token begins none. -/

theorem extends_argument : Extends tail NoAtSign (argument (operandUpTo n)) := by
  intro ts o rest h hrest
  cases o with
  | none =>
    obtain ⟨rfl, hnone⟩ := argument_eq_none_iff.mp h
    refine argument_eq_none_iff.mpr ⟨rfl, fun t us hts => ?_⟩
    rw [hc.skipTrivia_append] at hts
    rcases hc.append_eq_cons hts with ⟨us', hus⟩ | ⟨-, hcloses⟩
    · exact hnone t us' hus
    · exact (not_ahead_of_closes hcloses).2.2
  | some o =>
    obtain ⟨t, us, hts, hstarts, ho⟩ := argument_eq_some_iff.mp h
    exact argument_eq_some_iff.mpr ⟨t, us ++ tail, hc.skipTrivia_cons hts, hstarts,
      hop .single ho hrest⟩

omit hc hop in
theorem noAtSign_of_argument {o : Operand} (h : argument (operandUpTo n) ts = .ok (some o, rest)) :
    NoAtSign ts := by
  obtain ⟨-, -, -, -, ho⟩ := argument_eq_some_iff.mp h
  exact noAtSign_of_operandUpTo ho

theorem extends_withArguments (ctx : Context) (t : Term) :
    Extends tail NoAtSign (withArguments (operandUpTo n) ctx t) := by
  intro ts t' rest h hrest
  rw [withArguments] at h ⊢
  split at h
  · obtain ⟨arguments, harguments, ht⟩ := applied_eq_ok_iff.mp h
    have hr := repeatable_argument (advances_operandUpTo n)
    rw [if_pos ‹_›]
    refine applied_eq_ok_iff.mpr ⟨arguments, ?_, ht⟩
    exact extend_repeated hr (fun h => extends_argument hc hop h) noAtSign_of_argument harguments
      hrest (extends_argument hc hop (end_of_repeated hr harguments) hrest)
  · obtain ⟨rfl, rfl⟩ := by simpa using h
    rw [if_neg ‹_›]

/-- A clause ends with its semicolon. -/
theorem extends_clause : Extends tail (fun _ => True) (clause (operandUpTo n)) := by
  intro ts c rest h _
  cases c with
  | none =>
    obtain ⟨rfl, hnone⟩ := clause_eq_none_iff.mp h
    refine clause_eq_none_iff.mpr ⟨rfl, fun k start us hts => ?_⟩
    rw [hc.skipTrivia_append] at hts
    rcases hc.append_eq_cons hts with ⟨us', hus⟩ | ⟨-, hcloses⟩
    · exact hnone k start us' hus
    · cases k <;> first | rfl | cases hcloses
  | some c =>
    obtain ⟨cs, m⟩ := c
    obtain ⟨k, start, us, kind, hts, hkind, subject, mid, he, stop, hstop, rfl, rfl⟩ :=
      clause_eq_some_iff.mp h
    exact clause_eq_some_iff.mpr ⟨k, start, us ++ tail, kind,
      hc.skipTrivia_cons hts, hkind, subject, mid ++ tail,
      extends_expression hc hop he (noAtSign_of_expectSymbol hstop (by decide)), stop,
      hc.extends_expectSymbol _ hstop trivial, hc.commentsAhead_append ts, rfl⟩

theorem extends_operandWith (ctx : Context) :
    Extends tail NoAtSign (operandUpTo (n + 1) ctx) := by
  intro ts o rest h hrest
  obtain ⟨clauses, ts₁, hclauses, head, ts₂, hhead, t, ts₃, ht, rfl, rfl⟩ :=
    operandWith_eq_ok_iff.mp h
  have hr := repeatable_clause (advances_operandUpTo n)
  have hclauses' := extend_repeated hr (fun h => extends_clause hc hop h) (fun _ => trivial)
    hclauses trivial (extends_clause hc hop (end_of_repeated hr hclauses) trivial)
  have hts₃ : NoAtSign ts₃ := by simpa [NoAtSign, nextIsSymbol] using hrest
  have hts₂ : NoAtSign ts₂ := by
    rcases withArguments_cases ht with ⟨-, rfl⟩ | ⟨arguments, span, hrounds, -⟩
    · exact hts₃
    · exact hrounds.start noAtSign_of_argument hts₃
  refine operandWith_eq_ok_iff.mpr ⟨clauses, ts₁ ++ tail, hclauses', head, ts₂ ++ tail, ?_, t,
    ts₃ ++ tail, extends_withArguments hc hop ctx head ht hts₃, (hc.skipTrivia_append ts₃).symm, ?_⟩
  · rw [hc.skipTrivia_append]
    exact termIn_eq_ok_iff.mpr ((termIn_eq_ok_iff.mp hhead).extend hc hop hts₂)
  · rw [hc.commentsAhead_append, hc.commentsAhead_append]

end

/-- **Operands in front of a closing token.** By induction on the bound for the depth. -/
theorem extends_operandUpTo (hc : Closing tail) (n : Nat) (ctx : Context) :
    Extends tail NoAtSign (operandUpTo n ctx) := by
  induction n generalizing ctx with
  | zero =>
    intro ts o rest h
    simp [operandUpTo] at h
  | succ n ih => exact extends_operandWith hc ih ctx

end Grammar
end NixSyntax
