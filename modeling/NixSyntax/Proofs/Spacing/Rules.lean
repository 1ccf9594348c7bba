import NixSyntax.Proofs.Cutting.Rules
import NixSyntax.Proofs.Spacing.Gaps

/-!
# Rules on tokens with other gaps

Every rule reads the same on two lists of tokens that differ in their gaps. The argument follows the
grammar: if the operands inside a rule read the same, so does the rule.

What a rule asks of the gap it begins at is said by the relation of the two lists. A form begins
behind a token, `Near`. A name begins `Touch`, and its tokens are equal on both sides, with all that
is inside them, so a name is the same and not only alike. What an operand leaves is `Same`, since it
takes the gap behind it. That is where the marks are required that close a form. At all other places
a rule takes the comments of a gap first and asks for the mark behind it. Only the brace behind `rec`
is asked for in front of the comments.

## The shape of the proofs

Each lemma is for one rule and goes along its parts. What was read from the first list is taken
apart by the equation of the rule (`list_eq_ok_iff`, `binding_eq_ok_iff`, …). Then every part is
read from the second list, in the same order, by the lemma for that part, which also says how the
two rests correspond. The same equation, now from the right to the left, puts the parts together
again. At the end the two results are compared, up to their comments if these are not compared.

Repetitions have a lemma of their own, `Alike.repeated`, so for a list, a set or a call it is enough
to look at one round. A round ends the repetition on both sides at the same place, because what it
looks at to decide this is the next token behind the gap.

## The hypothesis

`hop` says that the operands inside read the same, up to a bound on their depth. `alike_operandWith`
gets from it the same for the next bound, and so it holds for every bound by induction
(`alike_operandUpTo`).

## Main results

* `alike_operandUpTo`: every operand reads the same
* `alike_expression`, `alike_patternLambda`, …: one lemma for each rule
-/

namespace NixSyntax

namespace Grammar

namespace Spacing

variable {keep : Bool} {n : Nat} {operand : Context → Rule Operand} {ts ts' rest : List Token}

/-! ### Names

The parts of a name are read directly behind each other, with no gap between, so `Touch` goes
through from the first part to the last. Nothing that is inside a part is read here: strings and
interpolations have tokens of their own, and these are equal. -/

/-- One part of a name. -/
theorem alike_segment {s : Segment} {span : Span} (hs : Touch keep ts ts')
    (h : ReadsSegment operand ts s span rest) :
    ∃ rest', ReadsSegment operand ts' s span rest' ∧ Touch keep rest rest' := by
  cases h with
  | name =>
    obtain ⟨us', rfl, hus⟩ := (hs.same_cons rfl).takeTouch rfl
    exact ⟨us', .name, hus⟩
  | string literal_eq =>
    obtain ⟨us', rfl, hus⟩ := (hs.same_cons rfl).takeTouch rfl
    exact ⟨us', .string literal_eq, hus⟩
  | interpolation content_eq =>
    obtain ⟨us', rfl, hus⟩ := (hs.same_cons rfl).takeTouch rfl
    exact ⟨us', .interpolation content_eq, hus⟩

/-- A dot and the part behind it, or no dot on either side. -/
theorem alike_dottedSegment :
    Alike (Touch keep) (Touch keep) (dottedSegment operand) (dottedSegment operand)
      (Option.map id) := by
  intro ts ts' m rest hs h
  cases m with
  | none =>
    obtain ⟨rfl, hdot⟩ := dottedSegment_eq_none_iff.mp h
    exact ⟨none, ts', dottedSegment_eq_none_iff.mpr ⟨rfl, hs.ne_kind (fun _ => rfl) hdot⟩, hs, rfl⟩
  | some m =>
    obtain ⟨s, span⟩ := m
    obtain ⟨dot, us, rfl, hsegment⟩ := dottedSegment_eq_some_iff.mp h
    obtain ⟨us', rfl, hus⟩ := (hs.same_cons rfl).takeTouch rfl
    obtain ⟨rest', hsegment', hrest⟩ := alike_segment hus hsegment
    exact ⟨some (s, span), rest', dottedSegment_eq_some_iff.mpr ⟨dot, us', rfl, hsegment'⟩, hrest,
      rfl⟩

/-- A name is the same on both sides, at any depth. -/
theorem alike_attrPath {p : AttrPath} (hs : Touch keep ts ts')
    (h : attrPath operand ts = .ok (p, rest)) :
    ∃ rest', attrPath operand ts' = .ok (p, rest') ∧ Touch keep rest rest' := by
  obtain ⟨first, start, mid, hfirst, more, hmore, rfl⟩ := attrPath_eq_ok_iff.mp h
  obtain ⟨mid', hfirst', hmid⟩ := alike_segment hs hfirst
  obtain ⟨more', rest', hmore', hrest, hk⟩ :=
    alike_dottedSegment.repeated repeatable_dottedSegment hmid hmore
  obtain rfl : more = more' := by simpa using hk
  exact ⟨rest', attrPath_eq_ok_iff.mpr ⟨first, start, mid', hfirst', more, hmore', rfl⟩, hrest⟩

variable (hop : ∀ ctx, Alike (Near keep) (Same keep) (operandUpTo n ctx) (operandUpTo n ctx)
  (Operand.relabel id (viewComments keep id)))
include hop

/-! ### Expressions

An operand takes the gap behind it, so an operator is looked for in front of a significant token. -/

/-- An operator and the operand behind it, or no operator on either side. -/
theorem alike_link :
    Alike (Same keep) (Same keep) (link (operandUpTo n)) (link (operandUpTo n))
      (Option.map fun l => (l.1.relabel id, l.2.relabel id (viewComments keep id))) := by
  intro ts ts' l rest hs h
  cases l with
  | none =>
    obtain ⟨rfl, hnone⟩ := link_eq_none_iff.mp h
    refine ⟨none, ts', link_eq_none_iff.mpr ⟨rfl, ?_⟩, hs, rfl⟩
    rintro t us rfl
    obtain ⟨us', rfl, -⟩ := hs.symm.take
    exact hnone t us' rfl
  | some l =>
    obtain ⟨operator, o⟩ := l
    obtain ⟨t, us, op, rfl, hop', rfl, ho⟩ := link_eq_some_iff.mp h
    obtain ⟨us', rfl, hus⟩ := hs.take
    obtain ⟨o', rest', ho', hrest, hk⟩ := hop .chain hus ho
    exact ⟨some (⟨op, t.span⟩, o'), rest',
      link_eq_some_iff.mpr ⟨t, us', op, rfl, hop', rfl, ho'⟩, hrest, by simp [hk]⟩

/-- The operands and operators are read one behind the other, and the tree is made of them
afterwards. -/
theorem alike_expression :
    Alike (Near keep) (Same keep) (expression (operandUpTo n)) (expression (operandUpTo n))
      (Expr.relabel id (viewComments keep id)) := by
  intro ts ts' e rest hs h
  obtain ⟨first, mid, hfirst, links, hlinks, rfl⟩ := expression_eq_ok_iff.mp h
  obtain ⟨first', mid', hfirst', hmid, hk₁⟩ := hop .chain hs hfirst
  obtain ⟨links', rest', hlinks', hrest, hk₂⟩ :=
    (alike_link hop).repeated (repeatable_link (advances_operandUpTo n)) hmid hlinks
  refine ⟨assemble first' links', rest',
    expression_eq_ok_iff.mpr ⟨first', mid', hfirst', links', hlinks', rfl⟩, hrest, ?_⟩
  rw [relabel_assemble, relabel_assemble, hk₁, hk₂]

/-- What is complete on one side is complete on the other. -/
theorem alike_complete {e : Expr} (hs : Near keep ts ts')
    (h : complete (operandUpTo n) ts = .ok e) :
    ∃ e', complete (operandUpTo n) ts' = .ok e' ∧
      e.relabel id (viewComments keep id) = e'.relabel id (viewComments keep id) := by
  obtain ⟨rest, he, hend⟩ := complete_eq_ok_iff.mp h
  obtain ⟨e', rest', he', hrest, hk⟩ := alike_expression hop hs he
  exact ⟨e', complete_eq_ok_iff.mpr ⟨rest', he', hrest.atEnd_eq.trans hend⟩, hk⟩

/-! ### Bindings

Each binding takes the gap in front of it, and the gap in front of the closing token is left. Its
comments belong to the last binding, or to the set if there is none (`attachToLast`). -/

/-- The parenthesis behind `inherit`, or none on either side. -/
theorem alike_inheritSource :
    Alike (Near keep) (Near keep) (inheritSource (operandUpTo n)) (inheritSource (operandUpTo n))
      (fun r => (r.1.map (Expr.relabel id (viewComments keep id)), viewComments keep id r.2)) := by
  intro ts ts' r rest hs h
  obtain ⟨source, cs⟩ := r
  rcases inheritSource_eq_ok_iff.mp h with
    ⟨start, us, e, mid, stop, hts, he, hstop, rfl, rfl⟩ | ⟨hnext, rfl, rfl, rfl⟩
  · obtain ⟨us', hts', hus⟩ := hs.next hts
    obtain ⟨e', mid', he', hmid, hk⟩ := alike_expression hop hus he
    obtain ⟨rest', hstop', hrest⟩ := hmid.expectSymbol hstop
    exact ⟨_, rest', inheritSource_eq_ok_iff.mpr (.inl ⟨start, us', e', mid', stop, hts', he',
      hstop', rfl, rfl⟩), hrest, by simp [hk, hs.comments]⟩
  · exact ⟨_, ts', inheritSource_eq_ok_iff.mpr (.inr
      ⟨(hs.nextIsSymbol_eq _).trans hnext, rfl, rfl, rfl⟩), hs, rfl⟩

omit hop in
/-- A name that is inherited. Its comments are those of the gap in front of it. -/
theorem alike_inheritedName :
    Alike (Near keep) (Near keep) (inheritedName operand) (inheritedName operand)
      (Option.map (AttrPath.relabel id (viewComments keep id))) := by
  intro ts ts' p rest hs h
  cases p with
  | none =>
    obtain ⟨rfl, hend⟩ := inheritedName_eq_none_iff.mp h
    rw [← hs.behind.atEnd_eq, ← hs.nextIsSymbol_eq] at hend
    exact ⟨none, ts', inheritedName_eq_none_iff.mpr ⟨rfl, hend⟩, hs, rfl⟩
  | some p =>
    obtain ⟨hend, hnext, name, hname, rfl⟩ := inheritedName_eq_some_iff.mp h
    obtain ⟨rest', hname', hrest⟩ := alike_attrPath hs.behind.touch hname
    rw [← hs.behind.atEnd_eq] at hend
    rw [← hs.nextIsSymbol_eq] at hnext
    exact ⟨_, rest', inheritedName_eq_some_iff.mpr ⟨hend, hnext, name, hname', rfl⟩, hrest.toNear,
      by simp [AttrPath.relabel, hs.comments]⟩

theorem alike_inheritance {comments comments' : List Comment} {start : Span}
    (hcomments : viewComments keep id comments = viewComments keep id comments') :
    Alike (Near keep) (Near keep) (inheritance (operandUpTo n) comments start)
      (inheritance (operandUpTo n) comments' start)
      (Binding.relabel id (viewComments keep id)) := by
  intro ts ts' b rest hs h
  obtain ⟨source, more, ts₁, hsource, names, ts₂, hnames, stop, hstop, rfl⟩ :=
    inheritance_eq_ok_iff.mp h
  obtain ⟨⟨source', more'⟩, ts₁', hsource', hs₁, hk₁⟩ := alike_inheritSource hop hs hsource
  obtain ⟨names', ts₂', hnames', hs₂, hk₂⟩ :=
    alike_inheritedName.repeated repeatable_inheritedName hs₁ hnames
  obtain ⟨rest', hstop', hrest⟩ := hs₂.behind.expectSymbol hstop
  obtain ⟨hk₁, hmore⟩ := Prod.mk.inj hk₁
  refine ⟨_, rest', inheritance_eq_ok_iff.mpr ⟨source', more', ts₁', hsource', names', ts₂',
    hnames', stop, hstop', rfl⟩, hrest, ?_⟩
  simp only [Binding.relabel, relabelExpr?_eq, relabelPaths_eq, viewComments_append]
  rw [hk₁, hk₂, hcomments, hmore, hs₂.comments]

/-- A name, the sign behind it and its value. -/
theorem alike_assignment {comments comments' : List Comment}
    (hcomments : viewComments keep id comments = viewComments keep id comments') :
    Alike (Same keep) (Near keep) (assignment (operandUpTo n) comments)
      (assignment (operandUpTo n) comments') (Binding.relabel id (viewComments keep id)) := by
  intro ts ts' b rest hs h
  obtain ⟨name, ts₁, hname, eq, ts₂, heq, value, ts₃, hvalue, stop, hstop, rfl⟩ :=
    assignment_eq_ok_iff.mp h
  obtain ⟨ts₁', hname', hs₁⟩ := alike_attrPath hs.touch hname
  obtain ⟨ts₂', heq', hs₂⟩ := hs₁.behind.expectSymbol heq
  obtain ⟨value', ts₃', hvalue', hs₃, hk⟩ := alike_expression hop hs₂ hvalue
  obtain ⟨rest', hstop', hrest⟩ := hs₃.expectSymbol hstop
  refine ⟨_, rest', assignment_eq_ok_iff.mpr ⟨name, ts₁', hname', eq, ts₂', heq', value', ts₃',
    hvalue', stop, hstop', rfl⟩, hrest, ?_⟩
  simp only [Binding.relabel, viewComments_append]
  rw [hk, hcomments, hs₁.comments]

/-- Which of the two it is depends on the token behind the gap. -/
theorem alike_binding :
    Alike (Near keep) (Near keep) (binding (operandUpTo n)) (binding (operandUpTo n))
      (Binding.relabel id (viewComments keep id)) := by
  intro ts ts' b rest hs h
  rcases binding_eq_ok_iff.mp h with ⟨start, us, hts, hb⟩ | ⟨hnext, hb⟩
  · obtain ⟨us', hts', hus⟩ := hs.next hts
    obtain ⟨b', rest', hb', hrest, hk⟩ := alike_inheritance hop hs.comments hus hb
    exact ⟨b', rest', binding_eq_ok_iff.mpr (.inl ⟨start, us', hts', hb'⟩), hrest, hk⟩
  · obtain ⟨b', rest', hb', hrest, hk⟩ := alike_assignment hop hs.comments hs.behind hb
    exact ⟨b', rest', binding_eq_ok_iff.mpr
      (.inr ⟨(hs.nextIsKeyword_eq _).trans hnext, hb'⟩), hrest, hk⟩

theorem alike_bindingUnless {closed : List Token → Bool}
    (hclosed : ∀ {ts ts'}, Near keep ts ts' → closed ts' = closed ts) :
    Alike (Near keep) (Near keep) (bindingUnless (operandUpTo n) closed)
      (bindingUnless (operandUpTo n) closed)
      (Option.map (Binding.relabel id (viewComments keep id))) := by
  intro ts ts' b rest hs h
  cases b with
  | none =>
    obtain ⟨rfl, hend⟩ := bindingUnless_eq_none_iff.mp h
    rw [← hs.behind.atEnd_eq, ← hclosed hs] at hend
    exact ⟨none, ts', bindingUnless_eq_none_iff.mpr ⟨rfl, hend⟩, hs, rfl⟩
  | some b =>
    obtain ⟨hend, hnext, hb⟩ := bindingUnless_eq_some_iff.mp h
    obtain ⟨b', rest', hb', hrest, hk⟩ := alike_binding hop hs hb
    rw [← hs.behind.atEnd_eq] at hend
    rw [← hclosed hs] at hnext
    exact ⟨some b', rest', bindingUnless_eq_some_iff.mpr ⟨hend, hnext, hb'⟩, hrest,
      congrArg some hk⟩

/-- The bindings of a set, with the comments behind the last. -/
theorem alike_bindings {closed : List Token → Bool} {bs : List Binding}
    (hclosed : ∀ {ts ts'}, Near keep ts ts' → closed ts' = closed ts) (hs : Near keep ts ts')
    (h : repeated (bindingUnless (operandUpTo n) closed) ts = .ok (bs, rest)) :
    ∃ bs' rest', repeated (bindingUnless (operandUpTo n) closed) ts' = .ok (bs', rest') ∧
      Near keep rest rest' ∧
      relabelBindings id (viewComments keep id) (attachToLast (commentsAhead rest) bs).1 =
        relabelBindings id (viewComments keep id) (attachToLast (commentsAhead rest') bs').1 ∧
      viewComments keep id (attachToLast (commentsAhead rest) bs).2 =
        viewComments keep id (attachToLast (commentsAhead rest') bs').2 := by
  obtain ⟨bs', rest', hbs', hrest, hk⟩ := (alike_bindingUnless hop hclosed).repeated
    (repeatable_bindingUnless (advances_operandUpTo n)) hs h
  have hnil := viewComments_nil keep id
  have happend := viewComments_append keep id
  -- attaching comments commutes with leaving them out
  have hlast := attachToLast_relabel (f := id) hnil happend (commentsAhead rest) bs
  rw [hk, hrest.comments, attachToLast_relabel hnil happend] at hlast
  obtain ⟨hbindings, hcomments⟩ := Prod.mk.inj hlast
  refine ⟨bs', rest', hbs', hrest, ?_, hcomments.symm⟩
  rw [relabelBindings_eq, relabelBindings_eq, hbindings]

theorem alike_attrSet {recursive : Bool} {start : Span} :
    Alike (Near keep) (Near keep) (attrSet (operandUpTo n) recursive start)
      (attrSet (operandUpTo n) recursive start) (Term.relabel id (viewComments keep id)) := by
  intro ts ts' t rest hs h
  obtain ⟨bs, mid, hbs, stop, hstop, rfl⟩ := attrSet_eq_ok_iff.mp h
  obtain ⟨bs', mid', hbs', hmid, hk, hcomments⟩ :=
    alike_bindings hop (fun hs => hs.nextIsSymbol_eq _) hs hbs
  obtain ⟨rest', hstop', hrest⟩ := hmid.behind.expectSymbol hstop
  refine ⟨_, rest', attrSet_eq_ok_iff.mpr ⟨bs', mid', hbs', stop, hstop', rfl⟩, hrest, ?_⟩
  rw [Term.relabel, Term.relabel, hk, hcomments]

theorem alike_letIn {start : Span} :
    Alike (Near keep) (Near keep) (letIn (operandUpTo n) start) (letIn (operandUpTo n) start)
      (Term.relabel id (viewComments keep id)) := by
  intro ts ts' t rest hs h
  obtain ⟨bs, ts₁, hbs, stop, ts₂, hin, body, hbody, rfl⟩ := letIn_eq_ok_iff.mp h
  obtain ⟨bs', ts₁', hbs', hs₁, hk, hcomments⟩ :=
    alike_bindings hop (fun hs => hs.nextIsKeyword_eq _) hs hbs
  obtain ⟨ts₂', hin', hs₂⟩ := hs₁.behind.expectKeyword hin
  obtain ⟨body', rest', hbody', hrest, hkb⟩ := alike_expression hop hs₂ hbody
  refine ⟨_, rest', letIn_eq_ok_iff.mpr ⟨bs', ts₁', hbs', stop, ts₂', hin', body', hbody', rfl⟩,
    hrest.near, ?_⟩
  have hspan : body.span = body'.span := by simpa using congrArg Expr.span hkb
  rw [Term.relabel, Term.relabel, hk, hcomments, hkb, hspan]

/-! ### Functions

The inside of a pattern takes the gaps behind its commas and its formals, so what it leaves begins
with the closing brace, or with a token that is none. -/

theorem alike_lambda {parameter : AttrPath} :
    Alike (Near keep) (Near keep) (lambda (operandUpTo n) parameter)
      (lambda (operandUpTo n) parameter) (Term.relabel id (viewComments keep id)) := by
  intro ts ts' t rest hs h
  obtain ⟨body, hbody, rfl⟩ := lambda_eq_ok_iff.mp h
  obtain ⟨body', rest', hbody', hrest, hk⟩ := alike_expression hop hs hbody
  refine ⟨_, rest', lambda_eq_ok_iff.mpr ⟨body', hbody', rfl⟩, hrest.near, ?_⟩
  have hspan : body.span = body'.span := by simpa using congrArg Expr.span hk
  rw [Term.relabel, Term.relabel, hk, hspan]

/-- A formal, with the gap behind its name in front of the question mark. -/
theorem alike_formal {comments comments' : List Comment}
    (hcomments : viewComments keep id comments = viewComments keep id comments') :
    Alike (Same keep) (Same keep) (formal (operandUpTo n) comments)
      (formal (operandUpTo n) comments') (Formal.relabel id (viewComments keep id)) := by
  intro ts ts' a rest hs h
  obtain ⟨name, mid, hname, hshape⟩ := formal_eq_ok_iff.mp h
  obtain ⟨mid', hname', hmid⟩ := alike_attrPath hs.touch hname
  rcases hshape with ⟨start, us, e, hnext, he, rfl⟩ | ⟨hnext, rfl, rfl⟩
  · obtain ⟨us', hnext', hus⟩ := hmid.next hnext
    obtain ⟨e', rest', he', hrest, hk⟩ := alike_expression hop hus he
    refine ⟨_, rest', formal_eq_ok_iff.mpr
      ⟨name, mid', hname', .inl ⟨start, us', e', hnext', he', rfl⟩⟩, hrest, ?_⟩
    have hspan : e.span = e'.span := by simpa using congrArg Expr.span hk
    rw [Formal.relabel, Formal.relabel, relabelExpr?, relabelExpr?, hk, viewComments_append,
      viewComments_append, hcomments, hmid.comments, hspan]
  · refine ⟨_, _, formal_eq_ok_iff.mpr ⟨name, mid', hname', .inr
      ⟨(hmid.nextIsSymbol_eq _).trans hnext, rfl, rfl⟩⟩, hmid.behind, ?_⟩
    rw [Formal.relabel, Formal.relabel, relabelExpr?, viewComments_append, viewComments_append,
      hcomments, hmid.comments]

/-- The inside of the braces, by induction on its formals. -/
theorem alike_pattern {body : PatternBody} (hs : Near keep ts ts')
    (h : ReadsPattern (operandUpTo n) ts body rest) :
    ∃ body' rest', ReadsPattern (operandUpTo n) ts' body' rest' ∧ Same keep rest rest' ∧
      Seam.relabelBody id (viewComments keep id) body =
        Seam.relabelBody id (viewComments keep id) body' := by
  induction h generalizing ts' with
  | closed next =>
    obtain ⟨us', next', -⟩ := hs.next next
    exact ⟨_, _, .closed next', hs.behind, by simp [Seam.relabelBody, hs.comments]⟩
  | variadic next =>
    obtain ⟨us', next', hus⟩ := hs.next next
    exact ⟨_, _, .variadic next', hus.behind,
      by simp [Seam.relabelBody, hs.comments, hus.comments]⟩
  | comma head tail ih =>
    obtain ⟨a', us', head', hus, hk⟩ := alike_formal hop hs.comments hs.behind head
    obtain ⟨mid', rfl, hmid⟩ := hus.take
    obtain ⟨body', rest', tail', hrest, hks⟩ := ih hmid
    refine ⟨_, rest', .comma head' tail', hrest, ?_⟩
    simp only [Seam.relabelBody, PatternBody.mk.injEq] at hks ⊢
    simp [hk, hks]
  | last head =>
    obtain ⟨a', mid', head', hmid, hk⟩ := alike_formal hop hs.comments hs.behind head
    obtain ⟨us', rfl, -⟩ := hmid.take
    exact ⟨_, _, .last head', hmid, by simp [Seam.relabelBody, hk]⟩

omit hop in
theorem alike_patternName :
    Alike (Same keep) (Same keep) (patternName operand) (patternName operand)
      (fun r => (r.1, viewComments keep id r.2)) := by
  intro ts ts' r rest hs h
  obtain ⟨whole, cs⟩ := r
  rcases patternName_eq_ok_iff.mp h with
    ⟨at_, us, name, mid, rfl, hname, rfl, rfl, rfl⟩ | ⟨hat, rfl, rfl, rfl⟩
  · obtain ⟨us', rfl, hus⟩ := hs.take
    obtain ⟨mid', hname', hmid⟩ := alike_attrPath hus.behind.touch hname
    exact ⟨_, _, patternName_eq_ok_iff.mpr
      (.inl ⟨at_, us', name, mid', rfl, hname', rfl, rfl, rfl⟩), hmid.behind,
      by simp [hus.comments, hmid.comments]⟩
  · exact ⟨_, ts', patternName_eq_ok_iff.mpr (.inr ⟨hs.ne_kind hat, rfl, rfl, rfl⟩), hs, rfl⟩

omit hop in
theorem alike_patternEnd {front : Option AttrPath} {start stop : Span} :
    Alike (Same keep) (Same keep) (patternEnd operand front start stop)
      (patternEnd operand front start stop)
      (fun r => (r.1, r.2.1, viewComments keep id r.2.2)) := by
  intro ts ts' r rest hs h
  obtain ⟨whole, span, cs⟩ := r
  cases front with
  | some name =>
    obtain ⟨⟨rfl, rfl, rfl⟩, rfl⟩ := by simpa using h
    exact ⟨_, ts', rfl, hs, rfl⟩
  | none =>
    obtain ⟨hname, rfl⟩ := patternEnd_none_eq_ok_iff.mp h
    obtain ⟨⟨whole', cs'⟩, rest', hname', hrest, hk⟩ := alike_patternName hs hname
    obtain ⟨rfl, hcs⟩ := Prod.mk.inj hk
    exact ⟨_, rest', patternEnd_none_eq_ok_iff.mpr ⟨hname', rfl⟩, hrest, by simp [hcs]⟩

theorem alike_patternLambda {front : Option AttrPath} {start : Span} :
    Alike (Near keep) (Near keep) (patternLambda (operandUpTo n) front start)
      (patternLambda (operandUpTo n) front start) (Term.relabel id (viewComments keep id)) := by
  intro ts ts' t rest hs h
  have hadv := advances_operandUpTo n
  obtain ⟨body, ts₁, hbody, stop, ts₂, hstop, whole, span, more, ts₃, hend, colon, ts₄, hcolon,
    result, hresult, rfl⟩ := patternLambda_eq_ok_iff.mp h
  obtain ⟨body', ts₁', hbody', hs₁, hkb⟩ :=
    alike_pattern hop hs ((patternBody_eq_ok_iff hadv).mp hbody)
  obtain ⟨ts₂', hstop', hs₂⟩ := hs₁.expectSymbol hstop
  obtain ⟨⟨whole', span', more'⟩, ts₃', hend', hs₃, hke⟩ := alike_patternEnd hs₂.behind hend
  obtain ⟨ts₄', hcolon', hs₄⟩ := hs₃.expectSymbol hcolon
  obtain ⟨result', rest', hresult', hrest, hkr⟩ := alike_expression hop hs₄ hresult
  refine ⟨_, rest', patternLambda_eq_ok_iff.mpr ⟨body', ts₁',
    (patternBody_eq_ok_iff hadv).mpr hbody', stop, ts₂', hstop', whole', span', more', ts₃', hend',
    colon, ts₄', hcolon', result', hresult', rfl⟩, hrest.near, ?_⟩
  obtain ⟨hformals, hvariadic, hcomments⟩ := PatternBody.mk.inj hkb
  obtain ⟨rfl, rfl, hmore⟩ : whole = whole' ∧ span = span' ∧
      viewComments keep id more = viewComments keep id more' := by simpa using hke
  have hspan : result.span = result'.span := by simpa using congrArg Expr.span hkr
  simp only [Term.relabel, Parameter.relabel, relabelFormals_eq, viewComments_append]
  rw [hformals, hvariadic, hcomments, hmore, hs₂.comments, hkr, hspan]

/-! ### Terms

The forms, each from behind its first token, and then the choice among them. -/

theorem alike_paren {start : Span} :
    Alike (Near keep) (Near keep) (paren (operandUpTo n) start) (paren (operandUpTo n) start)
      (Term.relabel id (viewComments keep id)) := by
  intro ts ts' t rest hs h
  obtain ⟨body, mid, hbody, stop, hstop, rfl⟩ := paren_eq_ok_iff.mp h
  obtain ⟨body', mid', hbody', hmid, hk⟩ := alike_expression hop hs hbody
  obtain ⟨rest', hstop', hrest⟩ := hmid.expectSymbol hstop
  refine ⟨_, rest', paren_eq_ok_iff.mpr ⟨body', mid', hbody', stop, hstop', rfl⟩, hrest, ?_⟩
  rw [Term.relabel, Term.relabel, hk]

/-- An item of a list, or the closing bracket on both sides. -/
theorem alike_item :
    Alike (Near keep) (Near keep) (item (operandUpTo n)) (item (operandUpTo n))
      (Option.map (Operand.relabel id (viewComments keep id))) := by
  intro ts ts' o rest hs h
  cases o with
  | none =>
    obtain ⟨rfl, hend⟩ := item_eq_none_iff.mp h
    rw [← hs.behind.atEnd_eq, ← hs.nextIsSymbol_eq] at hend
    exact ⟨none, ts', item_eq_none_iff.mpr ⟨rfl, hend⟩, hs, rfl⟩
  | some o =>
    obtain ⟨hend, hnext, ho⟩ := item_eq_some_iff.mp h
    obtain ⟨o', rest', ho', hrest, hk⟩ := hop .single hs ho
    rw [← hs.behind.atEnd_eq] at hend
    rw [← hs.nextIsSymbol_eq] at hnext
    exact ⟨some o', rest', item_eq_some_iff.mpr ⟨hend, hnext, ho'⟩, hrest.near, congrArg some hk⟩

theorem alike_list {start : Span} :
    Alike (Near keep) (Near keep) (list (operandUpTo n) start) (list (operandUpTo n) start)
      (Term.relabel id (viewComments keep id)) := by
  intro ts ts' t rest hs h
  obtain ⟨items, mid, hitems, stop, hstop, rfl⟩ := list_eq_ok_iff.mp h
  obtain ⟨items', mid', hitems', hmid, hk⟩ :=
    (alike_item hop).repeated (repeatable_item (advances_operandUpTo n)) hs hitems
  obtain ⟨rest', hstop', hrest⟩ := hmid.behind.expectSymbol hstop
  refine ⟨_, rest', list_eq_ok_iff.mpr ⟨items', mid', hitems', stop, hstop', rfl⟩, hrest, ?_⟩
  have hnil := viewComments_nil keep id
  have happend := viewComments_append keep id
  -- comments are passed on between the items, here as well as there
  have hpassed := passOnComments_relabel (f := id) hnil happend [] items
  rw [hk, passOnComments_relabel hnil happend] at hpassed
  simp only [Term.relabel, relabelExprs_map_operand]
  rw [hpassed, hmid.comments]

theorem alike_conditional {start : Span} :
    Alike (Near keep) (Near keep) (conditional (operandUpTo n) start)
      (conditional (operandUpTo n) start) (Term.relabel id (viewComments keep id)) := by
  intro ts ts' t rest hs h
  obtain ⟨c, ts₁, hc, s₁, ts₂, hthen, a, ts₃, ha, s₂, ts₄, helse, b, hb, rfl⟩ :=
    conditional_eq_ok_iff.mp h
  obtain ⟨c', ts₁', hc', hs₁, hkc⟩ := alike_expression hop hs hc
  obtain ⟨ts₂', hthen', hs₂⟩ := hs₁.expectKeyword hthen
  obtain ⟨a', ts₃', ha', hs₃, hka⟩ := alike_expression hop hs₂ ha
  obtain ⟨ts₄', helse', hs₄⟩ := hs₃.expectKeyword helse
  obtain ⟨b', rest', hb', hrest, hkb⟩ := alike_expression hop hs₄ hb
  refine ⟨_, rest', conditional_eq_ok_iff.mpr ⟨c', ts₁', hc', s₁, ts₂', hthen', a', ts₃', ha', s₂,
    ts₄', helse', b', hb', rfl⟩, hrest.near, ?_⟩
  have hspan : b.span = b'.span := by simpa using congrArg Expr.span hkb
  rw [Term.relabel, Term.relabel, hkc, hka, hkb, hspan]

theorem alike_importOf {start : Span} :
    Alike (Near keep) (Near keep) (importOf (operandUpTo n) start) (importOf (operandUpTo n) start)
      (Term.relabel id (viewComments keep id)) := by
  intro ts ts' t rest hs h
  obtain ⟨source, hsource, rfl⟩ := importOf_eq_ok_iff.mp h
  obtain ⟨source', rest', hsource', hrest, hk⟩ := hop .single hs hsource
  refine ⟨_, rest', importOf_eq_ok_iff.mpr ⟨source', hsource', rfl⟩, hrest.near, ?_⟩
  have hspan : source.span = source'.span := by simpa using congrArg Operand.span hk
  rw [Term.relabel, Term.relabel, Expr.relabel_operand, Expr.relabel_operand, hk, hspan]

/-- A sign and its operand, which is read in the context of the sign. -/
theorem alike_unary {ctx : Context} {op : UnaryOp} {start : Span} :
    Alike (Near keep) (Near keep) (unary (operandUpTo n) ctx op start)
      (unary (operandUpTo n) ctx op start) (Term.relabel id (viewComments keep id)) := by
  intro ts ts' t rest hs h
  obtain ⟨o, ho, rfl⟩ := unary_eq_ok_iff.mp h
  obtain ⟨o', rest', ho', hrest, hk⟩ := hop ctx hs ho
  refine ⟨_, rest', unary_eq_ok_iff.mpr ⟨o', ho', rfl⟩, hrest.near, ?_⟩
  have hspan : o.span = o'.span := by simpa using congrArg Operand.span hk
  rw [Term.relabel, Term.relabel, Expr.relabel_operand, Expr.relabel_operand, hk, hspan]

omit hop in
/-- A form that begins with a token of its own, and is read behind it. -/
theorem Same.form {rule : Rule Term} {t : Token} {us : List Token} {a : Term}
    (hs : Same keep (t :: us) ts')
    (hrule : Alike (Near keep) (Near keep) rule rule (Term.relabel id (viewComments keep id)))
    (h : rule us = .ok (a, rest)) :
    ∃ us' a' rest', ts' = t :: us' ∧ Near keep us us' ∧ rule us' = .ok (a', rest') ∧
      Near keep rest rest' ∧
      a.relabel id (viewComments keep id) = a'.relabel id (viewComments keep id) := by
  obtain ⟨us', rfl, hus⟩ := hs.take
  obtain ⟨a', rest', h', hrest, hk⟩ := hrule hus h
  exact ⟨us', a', rest', rfl, hus, h', hrest, hk⟩

/-- Every form. Its first token is the same on both sides, and where more than the first token
decides, the tokens behind are compared as well: a number behind a minus sign, a colon or an `@`
behind a name, and the tokens behind a closing brace. -/
theorem alike_termIn (ctx : Context) :
    Alike (Same keep) (Near keep) (termIn (operandUpTo n) ctx) (termIn (operandUpTo n) ctx)
      (Term.relabel id (viewComments keep id)) := by
  intro ts ts' t rest hs h
  suffices ∃ t' rest', ReadsTerm (operandUpTo n) ctx ts' t' rest' ∧ Near keep rest rest' ∧
      t.relabel id (viewComments keep id) = t'.relabel id (viewComments keep id) by
    obtain ⟨t', rest', hread', hrest, hk⟩ := this
    exact ⟨t', rest', termIn_eq_ok_iff.mpr hread', hrest, hk⟩
  cases termIn_eq_ok_iff.mp h with
  | null =>
    obtain ⟨us', rfl, hus⟩ := hs.take
    exact ⟨_, us', .null, hus, rfl⟩
  | bool =>
    obtain ⟨us', rfl, hus⟩ := hs.take
    exact ⟨_, us', .bool, hus, rfl⟩
  | int =>
    obtain ⟨us', rfl, hus⟩ := hs.take
    exact ⟨_, us', .int, hus, rfl⟩
  | float =>
    obtain ⟨us', rfl, hus⟩ := hs.take
    exact ⟨_, us', .float, hus, rfl⟩
  | negativeInt =>
    obtain ⟨us', rfl, hus⟩ := hs.takeTouch rfl
    obtain ⟨vs', rfl, hvs⟩ := (hus.same_cons rfl).take
    exact ⟨_, vs', .negativeInt, hvs, rfl⟩
  | negativeFloat =>
    obtain ⟨us', rfl, hus⟩ := hs.takeTouch rfl
    obtain ⟨vs', rfl, hvs⟩ := (hus.same_cons rfl).take
    exact ⟨_, vs', .negativeFloat, hvs, rfl⟩
  | path =>
    obtain ⟨us', rfl, hus⟩ := hs.take
    exact ⟨_, us', .path, hus, rfl⟩
  | string literal_eq =>
    obtain ⟨us', rfl, hus⟩ := hs.take
    exact ⟨_, us', .string literal_eq, hus, rfl⟩
  | interpolation content_eq =>
    obtain ⟨us', rfl, hus⟩ := hs.take
    exact ⟨_, us', .interpolation content_eq, hus, rfl⟩
  | name no_colon no_pattern path_eq =>
    obtain ⟨rest', path_eq', hrest⟩ := alike_attrPath hs.touch path_eq
    obtain ⟨us', rfl, hus⟩ := hs.takeTouch rfl
    refine ⟨_, rest', .name (hus.ne_kind (fun _ => rfl) no_colon) ?_ path_eq', hrest.toNear, rfl⟩
    rintro at_ start us rfl
    -- the sign and the brace stand directly behind the name on both sides
    obtain ⟨vs, rfl, hvs⟩ :=
      (hus.symm.same_cons rfl).takeTouch rfl
    obtain ⟨ws, rfl, hws⟩ := (hvs.same_cons rfl).take
    exact (hws.opensPattern_eq true).symm.trans (no_pattern _ _ _ rfl)
  | list h =>
    obtain ⟨us', t', rest', rfl, -, h', hrest, hk⟩ := hs.form (alike_list hop) h
    exact ⟨t', rest', .list h', hrest, hk⟩
  | attrSet no_pattern h =>
    obtain ⟨us', t', rest', rfl, hus, h', hrest, hk⟩ := hs.form (alike_attrSet hop) h
    exact ⟨t', rest', .attrSet ((hus.opensPattern_eq _).trans no_pattern) h', hrest, hk⟩
  | recursive brace_eq h =>
    obtain ⟨us', rfl, hus, hgap⟩ := hs.takeRec
    obtain ⟨vs', brace_eq', hvs⟩ := hus.expectSymbol hgap brace_eq
    obtain ⟨t', rest', h', hrest, hk⟩ := alike_attrSet hop hvs h
    exact ⟨t', rest', .recursive brace_eq' h', hrest, hk⟩
  | lambda h =>
    obtain ⟨us', rfl, hus⟩ := hs.takeTouch rfl
    obtain ⟨vs', t', rest', rfl, -, h', hrest, hk⟩ :=
      (hus.same_cons rfl).form (alike_lambda hop) h
    exact ⟨t', rest', .lambda h', hrest, hk⟩
  | pattern opens h =>
    obtain ⟨us', t', rest', rfl, hus, h', hrest, hk⟩ := hs.form (alike_patternLambda hop) h
    exact ⟨t', rest', .pattern ((hus.opensPattern_eq _).trans opens) h', hrest, hk⟩
  | namedPattern opens h =>
    obtain ⟨us', rfl, hus⟩ := hs.takeTouch rfl
    obtain ⟨vs', rfl, hvs⟩ := (hus.same_cons rfl).takeTouch rfl
    obtain ⟨ws', t', rest', rfl, hws, h', hrest, hk⟩ :=
      (hvs.same_cons rfl).form (alike_patternLambda hop) h
    exact ⟨t', rest', .namedPattern ((hws.opensPattern_eq _).trans opens) h', hrest, hk⟩
  | letIn h =>
    obtain ⟨us', t', rest', rfl, -, h', hrest, hk⟩ := hs.form (alike_letIn hop) h
    exact ⟨t', rest', .letIn h', hrest, hk⟩
  | import_ h =>
    obtain ⟨us', t', rest', rfl, -, h', hrest, hk⟩ := hs.form (alike_importOf hop) h
    exact ⟨t', rest', .import_ h', hrest, hk⟩
  | conditional h =>
    obtain ⟨us', t', rest', rfl, -, h', hrest, hk⟩ := hs.form (alike_conditional hop) h
    exact ⟨t', rest', .conditional h', hrest, hk⟩
  | not h =>
    obtain ⟨us', t', rest', rfl, -, h', hrest, hk⟩ := hs.form (alike_unary hop) h
    exact ⟨t', rest', .not h', hrest, hk⟩
  | negate no_int no_float h =>
    obtain ⟨us', rfl, hus⟩ := hs.takeTouch rfl
    obtain ⟨t', rest', h', hrest, hk⟩ := alike_unary hop hus.toNear h
    exact ⟨t', rest', .negate (fun value => hus.ne_kind (fun _ => rfl) (no_int value))
      (fun value => hus.ne_kind (fun _ => rfl) (no_float value)) h', hrest, hk⟩
  | paren h =>
    obtain ⟨us', t', rest', rfl, -, h', hrest, hk⟩ := hs.form (alike_paren hop) h
    exact ⟨t', rest', .paren h', hrest, hk⟩

/-! ### Operands

In front of the head there are clauses, and behind it arguments, each with a gap in front. -/

/-- An argument, or a token on both sides that begins none. -/
theorem alike_argument :
    Alike (Near keep) (Near keep) (argument (operandUpTo n)) (argument (operandUpTo n))
      (Option.map (Operand.relabel id (viewComments keep id))) := by
  intro ts ts' o rest hs h
  cases o with
  | none =>
    obtain ⟨rfl, hnone⟩ := argument_eq_none_iff.mp h
    refine ⟨none, ts', argument_eq_none_iff.mpr ⟨rfl, fun t us' hskip' => ?_⟩, hs, rfl⟩
    obtain ⟨us, hskip, -⟩ := hs.symm.next hskip'
    exact hnone t us hskip
  | some o =>
    obtain ⟨t, us, hskip, hstarts, ho⟩ := argument_eq_some_iff.mp h
    obtain ⟨us', hskip', -⟩ := hs.next hskip
    obtain ⟨o', rest', ho', hrest, hk⟩ := hop .single hs ho
    exact ⟨some o', rest', argument_eq_some_iff.mpr ⟨t, us', hskip', hstarts, ho'⟩, hrest.near,
      congrArg some hk⟩

/-- A function and its arguments. The two functions need only be equal up to what is not
compared. -/
theorem alike_applied {callee callee' : Term}
    (hcallee : callee.relabel id (viewComments keep id) =
      callee'.relabel id (viewComments keep id)) :
    Alike (Near keep) (Near keep) (applied (operandUpTo n) callee)
      (applied (operandUpTo n) callee') (Term.relabel id (viewComments keep id)) := by
  intro ts ts' t rest hs h
  obtain ⟨arguments, harguments, -⟩ := applied_eq_ok_iff.mp h
  obtain ⟨arguments', rest', harguments', hrest, hk⟩ :=
    (alike_argument hop).repeated (repeatable_argument (advances_operandUpTo n)) hs harguments
  obtain ⟨t', h', ht⟩ := exists_applied_of_map_eq h harguments harguments' hcallee hk
  exact ⟨t', rest', h', hrest, ht⟩

theorem alike_withArguments {ctx : Context} {head head' : Term}
    (hhead : head.relabel id (viewComments keep id) = head'.relabel id (viewComments keep id)) :
    Alike (Near keep) (Near keep) (withArguments (operandUpTo n) ctx head)
      (withArguments (operandUpTo n) ctx head') (Term.relabel id (viewComments keep id)) := by
  intro ts ts' t rest hs h
  unfold withArguments at h ⊢
  rw [← Term.isCallable_eq hhead]
  split at h
  · rw [if_pos ‹_›]
    exact alike_applied hop hhead hs h
  · rw [if_neg ‹_›]
    obtain ⟨rfl, rfl⟩ := by simpa using h
    exact ⟨head', ts', rfl, hs, hhead⟩

theorem alike_clause :
    Alike (Near keep) (Near keep) (clause (operandUpTo n)) (clause (operandUpTo n))
      (Option.map fun d =>
        (viewComments keep id d.1, d.2.relabel id (viewComments keep id))) := by
  intro ts ts' d rest hs h
  cases d with
  | none =>
    obtain ⟨rfl, hnone⟩ := clause_eq_none_iff.mp h
    refine ⟨none, ts', clause_eq_none_iff.mpr ⟨rfl, fun k start us' hskip' => ?_⟩, hs, rfl⟩
    obtain ⟨us, hskip, -⟩ := hs.symm.next hskip'
    exact hnone k start us hskip
  | some d =>
    obtain ⟨cs, m⟩ := d
    obtain ⟨k, start, us, kind, hskip, hkind, subject, mid, he, stop, hstop, rfl, rfl⟩ :=
      clause_eq_some_iff.mp h
    obtain ⟨us', hskip', hus⟩ := hs.next hskip
    obtain ⟨subject', mid', he', hmid, hk⟩ := alike_expression hop hus he
    obtain ⟨rest', hstop', hrest⟩ := hmid.expectSymbol hstop
    refine ⟨some (commentsAhead ts', ⟨kind, subject', start.join stop⟩), rest',
      clause_eq_some_iff.mpr ⟨k, start, us', kind, hskip', hkind, subject', mid', he', stop,
        hstop', rfl, rfl⟩, hrest, ?_⟩
    simp [Modifier.relabel, hs.comments, hk]

/-- From the operands inside to the operand around them. -/
theorem alike_operandWith (ctx : Context) :
    Alike (Near keep) (Same keep) (operandWith (operandUpTo n) ctx)
      (operandWith (operandUpTo n) ctx) (Operand.relabel id (viewComments keep id)) := by
  intro ts ts' o rest hs h
  obtain ⟨clauses, ts₁, hclauses, head, ts₂, hhead, t, ts₃, ht, rfl, rfl⟩ :=
    operandWith_eq_ok_iff.mp h
  obtain ⟨clauses', ts₁', hclauses', hs₁, hk₁⟩ :=
    (alike_clause hop).repeated (repeatable_clause (advances_operandUpTo n)) hs hclauses
  obtain ⟨head', ts₂', hhead', hs₂, hk₂⟩ := alike_termIn hop ctx hs₁.behind hhead
  obtain ⟨t', ts₃', ht', hs₃, hk₃⟩ := alike_withArguments hop hk₂ hs₂ ht
  refine ⟨_, _, operandWith_eq_ok_iff.mpr ⟨clauses', ts₁', hclauses', head', ts₂', hhead', t', ts₃',
    ht', rfl, rfl⟩, hs₃.behind, ?_⟩
  have hmodifiers := congrArg (List.map Prod.snd) hk₁
  have hcomments := congrArg (List.flatMap Prod.fst) hk₁
  simp only [List.map_map, List.flatMap_map, Function.comp_def] at hmodifiers hcomments
  -- the span is that of the parts, and the parts are equal up to comments
  have hspan : operandSpan (clauses.map (·.2)) t = operandSpan (clauses'.map (·.2)) t' := by
    have hspans := congrArg₂ operandSpan hmodifiers hk₃
    simp only [← Function.comp_def (Modifier.relabel id (viewComments keep id)) Prod.snd,
      ← List.map_map] at hspans
    rwa [← operandSpan_relabel, ← operandSpan_relabel] at hspans
  simp only [Operand.relabel, relabelModifiers_eq, viewComments_append, viewComments_flatMap,
    List.map_map, Function.comp_def]
  rw [hmodifiers, hcomments, hs₁.comments, hs₃.comments, hk₃, hspan]

omit hop in
/-- **Every operand reads the same.** -/
theorem alike_operandUpTo (n : Nat) (ctx : Context) :
    Alike (Near keep) (Same keep) (operandUpTo n ctx) (operandUpTo n ctx)
      (Operand.relabel id (viewComments keep id)) := by
  induction n generalizing ctx with
  | zero =>
    intro ts ts' o rest hs h
    simp [operandUpTo] at h
  | succ n ih => exact alike_operandWith ih ctx

end Spacing

end Grammar

end NixSyntax
