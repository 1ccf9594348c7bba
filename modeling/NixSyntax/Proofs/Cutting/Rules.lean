import NixSyntax.Proofs.Cutting.Seam
import NixSyntax.Proofs.Reading.Making
import NixSyntax.Proofs.Tree.Moves

/-!
# Rules on both sides of a cut

Every rule that stays in front of a seam does on the second side what it does on the first. The
argument follows the grammar once more: if the operands inside a rule cross the seam, so does the
rule. Operands inside an interpolation are read up to its end, which is a seam of its own, so the
operands are asked to cross all seams.

## The shape of the proofs

All lemmas have one shape. A rule was applied on the first side, and the inversion lemma of the rule
says of which steps this consists. What was left behind the last step has not gone past the seam,
and since every step takes tokens from the front, neither had any step before (`Reaches.of_leaves`).
These facts are gathered first, from the last step to the first. Then the steps are followed on the
second side, from the first to the last, and the rule is put together again. What remains is an
equation between two trees, which the equations of the steps solve.

A rule that ends a repetition takes nothing, and for such a step the seam can be right ahead. There
the second side may see its end where the first sees another token. All repetitions of the grammar
stop at an end of input, or fail to find what would keep them going, so on the second side they stop
as well.

## Looking ahead

A pattern is told from an attribute set by a look at the tokens behind the closing brace, which may
be behind the seam. Where no pattern was seen on the first side, none is seen on the second. Where
one was seen, it was also read, and with it the colon behind it, so both are in front of the seam.

## Comments

Trees are compared by their places and comments. Most rules hand comments on as they are. Two put
them elsewhere, the bindings of a set (`attachToLast`) and the items of a list (`passOnComments`).
Both do the same to comments that are seen through a map, if the map respects the empty list and
appending, as that of a seam does.

## Main results

* `crosses_operandUpTo`: every operand crosses every seam
* `crosses_expression`, `crosses_patternLambda`, …: one lemma for each rule
-/

namespace NixSyntax

/-! ### Trees with other comments

What is computed from a tree, such as the span of an operand, is computed alike from the tree with
other places and comments. -/

/-- The span around many parts, moved, is the span around the parts moved. Moves need not keep the
order of places for this, since a span is joined from the start of the one and the stop of the
other. -/
theorem Span.map_foldl_join {α : Type} (f : Position → Position) (g : α → Span) (as : List α)
    (s : Span) : (as.foldl (fun s a => s.join (g a)) s).map f =
      as.foldl (fun s a => s.join ((g a).map f)) (s.map f) := by
  induction as generalizing s with
  | nil => rfl
  | cons a as ih => exact ih (s.join (g a))

/-- An operator is neither trivia nor an end. -/
theorem Token.plain_of_binaryOp? {t : Token} {op : BinaryOp} (h : t.binaryOp? = some op) :
    t.isTrivia = false ∧ t.isEnd = false := by
  obtain ⟨kind, span⟩ := t
  obtain rfl : kind = op.kind := Token.binaryOp?_eq_some_iff.mp h
  cases op <;> exact ⟨rfl, rfl⟩

namespace Grammar

/-- No argument begins at an end. -/
theorem startsArgument_of_isEnd {t : Token} (h : t.isEnd = true) :
    startsArgument t.kind = false := by
  obtain ⟨kind, span⟩ := t
  cases kind <;> first | rfl | cases h

theorem operandSpan_relabel (f : Position → Position) (c : List Comment → List Comment)
    (ms : List Modifier) (t : Term) :
    (operandSpan ms t).map f = operandSpan (ms.map (Modifier.relabel f c)) (t.relabel f c) := by
  cases ms <;> simp [operandSpan]

section

variable {f : Position → Position} {c : List Comment → List Comment} (hnil : c [] = [])
  (happend : ∀ cs ds, c (cs ++ ds) = c cs ++ c ds)
include hnil happend

/-- Comments behind the last binding become part of it, whatever comments are seen as. -/
theorem attachToLast_relabel (more : List Comment) (bs : List Binding) :
    attachToLast (c more) (bs.map (Binding.relabel f c)) =
      ((attachToLast more bs).1.map (Binding.relabel f c), c (attachToLast more bs).2) :=
  attachToLast_map hnil
    (fun b more => by cases b <;> simp [Binding.addComments, Binding.relabel, happend]) more bs

/-- Comments behind an item go on to the next one, whatever comments are seen as. -/
theorem passOnComments_relabel (pending : List Comment) (os : List Operand) :
    passOnComments (c pending) (os.map (Operand.relabel f c)) =
      (passOnComments pending os).map (Operand.relabel f c) :=
  passOnComments_map hnil happend (fun o before after => by cases o; simp [Operand.relabel])
    (fun o => by cases o; simp [Operand.relabel]) (fun o => by cases o; simp [Operand.relabel])
    pending os

end

namespace Seam

variable {M : Seam} {n : Nat} {ts ts' mid rest : List Token}
  (hop : ∀ (M : Seam) (ctx : Context), M.Crosses (operandUpTo n ctx) (operandUpTo n ctx)
    (Operand.relabel M.f M.c) (Operand.relabel M.f' M.c'))
include hop

/-! ### Expressions

An expression is a chain of operands with operators between. The tree is assembled from the chain
without a look at places, so it is enough that the chains correspond. -/

/-- A link of the chain is an operator with its operand, or the end of the chain. -/
theorem crosses_link :
    M.Crosses (link (operandUpTo n)) (link (operandUpTo n))
      (Option.map fun l => (l.1.relabel M.f, l.2.relabel M.f M.c))
      (Option.map fun l => (l.1.relabel M.f', l.2.relabel M.f' M.c')) := by
  intro ts ts' l rest hs h hrest
  cases l with
  | none =>
    obtain ⟨rfl, hnone⟩ := link_eq_none_iff.mp h
    refine ⟨none, ts', link_eq_none_iff.mpr ⟨rfl, fun t' us' hts' => ?_⟩, hs, rfl⟩
    -- at the seam the second side has ended, and an end is no operator
    rcases hs.peek with hend | ⟨t, us, t', us', rfl, rfl, alike, -⟩
    · cases hop' : t'.binaryOp? with
      | none => rfl
      | some op =>
        rw [hts', atEnd, (Token.plain_of_binaryOp? hop').2] at hend
        cases hend
    · obtain ⟨rfl, -⟩ := List.cons.inj hts'
      exact alike.binaryOp?.trans (hnone t us rfl)
  | some l =>
    obtain ⟨operator, o⟩ := l
    obtain ⟨t, us, op, rfl, hop', rfl, ho⟩ := link_eq_some_iff.mp h
    have hus := hrest.of_leaves (advances_operandUpTo n ho)
    obtain ⟨t', us', rfl, alike, behind⟩ := hs.head (Token.plain_of_binaryOp? hop').1 hus
    obtain ⟨o', rest', ho', hs', hk⟩ := hop M .chain (.before behind) ho hrest
    refine ⟨some (⟨op, t'.span⟩, o'), rest', link_eq_some_iff.mpr
      ⟨t', us', op, rfl, alike.binaryOp?.trans hop', rfl, ho'⟩, hs', ?_⟩
    simp [Operator.relabel, hk, alike.span]

/-- The first operand, and links as long as there are any. -/
theorem crosses_expression :
    M.Crosses (expression (operandUpTo n)) (expression (operandUpTo n))
      (Expr.relabel M.f M.c) (Expr.relabel M.f' M.c') := by
  intro ts ts' e rest hs h hrest
  have hadv := advances_operandUpTo n
  obtain ⟨first, mid, hfirst, links, hlinks, rfl⟩ := expression_eq_ok_iff.mp h
  have hmid := hrest.of_leaves ((rounds_of_repeated stop_link hlinks).leaves (leaves_link hadv))
  obtain ⟨first', mid', hfirst', hs₁, hk₁⟩ := hop M .chain hs hfirst hmid
  obtain ⟨links', rest', hlinks', hs₂, hk₂⟩ :=
    (crosses_link hop).repeated (repeatable_link hadv) (leaves_link hadv) hs₁ hlinks hrest
  refine ⟨assemble first' links', rest',
    expression_eq_ok_iff.mpr ⟨first', mid', hfirst', links', hlinks', rfl⟩, hs₂, ?_⟩
  rw [relabel_assemble, relabel_assemble, hk₁, hk₂]

/-- What is complete on the first side is complete on the second. -/
theorem crosses_complete {e : Expr} (hs : M.Sim ts ts') (htail : M.tail = [])
    (h : complete (operandUpTo n) ts = .ok e) :
    ∃ e', complete (operandUpTo n) ts' = .ok e' ∧ e.relabel M.f M.c = e'.relabel M.f' M.c' := by
  obtain ⟨rest, he, hend⟩ := complete_eq_ok_iff.mp h
  have hrest : M.Reaches rest := by simp [Reaches, htail]
  obtain ⟨e', rest', he', hs', hk⟩ := crosses_expression hop hs he hrest
  exact ⟨e', complete_eq_ok_iff.mpr ⟨rest', he', hs'.atEnd hend⟩, hk⟩

/-! ### Strings and names

What is inside an interpolation is read as if its tokens were all there are. So it has a seam of its
own, which has nothing behind it on either side (`Seam.closed`), and the operands inside have to
cross that one. -/

omit hop in
/-- Inside an interpolation both sides have all their tokens in front of the seam. -/
theorem closed_before (h : relabelTokens M.f ts = relabelTokens M.f' ts') :
    M.closed.Before ts ts' := by
  simpa [closed] using before_append (M := M.closed) h

/-- An interpolation is complete on the second side, at its own place. -/
theorem crosses_interpolationOf {tokens tokens' : List Token} {span span' : Span}
    {content : Interpolation} (htokens : relabelTokens M.f tokens = relabelTokens M.f' tokens')
    (hspan : span.map M.f = span'.map M.f')
    (h : interpolationOf (operandUpTo n) tokens span = .ok content) :
    ∃ content', interpolationOf (operandUpTo n) tokens' span' = .ok content' ∧
      content.relabel M.f M.c = content'.relabel M.f' M.c' := by
  obtain ⟨body, hbody, rfl⟩ := interpolationOf_eq_ok_iff.mp h
  obtain ⟨body', hbody', hk⟩ := crosses_complete hop (.before (closed_before htokens)) rfl hbody
  refine ⟨_, interpolationOf_eq_ok_iff.mpr ⟨body', hbody', rfl⟩, ?_⟩
  rw [Interpolation.relabel, Interpolation.relabel, hspan]
  exact congrArg (Interpolation.mk · _) hk

/-- The parts of a string, by induction on how they were read. -/
theorem crosses_parts {fragments fragments' : List StringFragment} {parts : List StringPart}
    (hfragments : relabelFragments M.f fragments = relabelFragments M.f' fragments')
    (h : ReadsParts (operandUpTo n) fragments parts) :
    ∃ parts', ReadsParts (operandUpTo n) fragments' parts' ∧
      relabelParts M.f M.c parts = relabelParts M.f' M.c' parts' := by
  induction h generalizing fragments' with
  | nil =>
    cases fragments' with
    | nil => exact ⟨[], .nil, by rw [relabelParts, relabelParts]⟩
    | cons fragment' fragments' => simp [relabelFragments] at hfragments
  | text _ ih =>
    obtain ⟨more, rfl, hmore⟩ := exists_of_relabelFragments_text hfragments
    obtain ⟨more', hmore', hk⟩ := ih hmore
    refine ⟨_, .text hmore', ?_⟩
    rw [relabelParts, relabelParts, hk, StringPart.relabel, StringPart.relabel]
  | interpolation hcontent _ ih =>
    obtain ⟨tokens', span', more, rfl, htokens, hspan, hmore⟩ :=
      exists_of_relabelFragments_interpolation hfragments
    obtain ⟨content', hcontent', hkc⟩ := crosses_interpolationOf hop htokens hspan hcontent
    obtain ⟨more', hmore', hk⟩ := ih hmore
    refine ⟨_, .interpolation hcontent' hmore', ?_⟩
    rw [relabelParts, relabelParts, hk, StringPart.relabel, StringPart.relabel, hkc]

theorem crosses_stringOf {fragments fragments' : List StringFragment} {multiline : Bool}
    {span span' : Span} {s : StringLiteral}
    (hfragments : relabelFragments M.f fragments = relabelFragments M.f' fragments')
    (hspan : span.map M.f = span'.map M.f')
    (h : stringOf (operandUpTo n) fragments multiline span = .ok s) :
    ∃ s', stringOf (operandUpTo n) fragments' multiline span' = .ok s' ∧
      s.relabel M.f M.c = s'.relabel M.f' M.c' := by
  obtain ⟨parts, hparts, rfl⟩ := stringOf_eq_ok_iff.mp h
  obtain ⟨parts', hparts', hk⟩ := crosses_parts hop hfragments hparts
  refine ⟨_, stringOf_eq_ok_iff.mpr ⟨parts', hparts', rfl⟩, ?_⟩
  rw [StringLiteral.relabel, StringLiteral.relabel, hk, hspan]

/-- One name of a path. It is a single token, so both sides are in front of the seam behind it. -/
theorem crosses_segment {s : Segment} {span : Span} (hs : M.Sim ts ts')
    (h : ReadsSegment (operandUpTo n) ts s span rest) (hrest : M.Reaches rest) :
    ∃ s' span' rest', ReadsSegment (operandUpTo n) ts' s' span' rest' ∧ M.Before rest rest' ∧
      s.relabel M.f M.c = s'.relabel M.f' M.c' ∧ span.map M.f = span'.map M.f' := by
  cases h with
  | @name name span ts =>
    obtain ⟨t', us', rfl, alike, behind⟩ := hs.head rfl hrest
    obtain ⟨span', rfl, hspan⟩ := alike.flat rfl
    exact ⟨_, span', us', .name, behind, by rw [Segment.relabel, Segment.relabel], hspan⟩
  | string hliteral =>
    obtain ⟨t', us', rfl, alike, behind⟩ := hs.head rfl hrest
    obtain ⟨fragments', span', rfl, hfragments, hspan⟩ := alike.string
    obtain ⟨literal', hliteral', hk⟩ := crosses_stringOf hop hfragments hspan hliteral
    exact ⟨_, span', us', .string hliteral', behind,
      by rw [Segment.relabel, Segment.relabel, hk], hspan⟩
  | interpolation hcontent =>
    obtain ⟨t', us', rfl, alike, behind⟩ := hs.head rfl hrest
    obtain ⟨tokens', span', rfl, htokens, hspan⟩ := alike.interpolation
    obtain ⟨content', hcontent', hk⟩ := crosses_interpolationOf hop htokens hspan hcontent
    exact ⟨_, span', us', .interpolation hcontent', behind,
      by rw [Segment.relabel, Segment.relabel, hk], hspan⟩

/-- A dot and a name. Without a dot the path ends. -/
theorem crosses_dottedSegment :
    M.Crosses (dottedSegment (operandUpTo n)) (dottedSegment (operandUpTo n))
      (Option.map fun m => (m.1.relabel M.f M.c, m.2.map M.f))
      (Option.map fun m => (m.1.relabel M.f' M.c', m.2.map M.f')) := by
  intro ts ts' m rest hs h hrest
  cases m with
  | none =>
    obtain ⟨rfl, hdot⟩ := dottedSegment_eq_none_iff.mp h
    exact ⟨none, ts', dottedSegment_eq_none_iff.mpr ⟨rfl, hs.ne_flat rfl hdot⟩, hs, rfl⟩
  | some m =>
    obtain ⟨s, span⟩ := m
    obtain ⟨dot, us, rfl, hsegment⟩ := dottedSegment_eq_some_iff.mp h
    obtain ⟨t', us', rfl, alike, behind⟩ := hs.head rfl (hrest.of_leaves hsegment.leaves)
    obtain ⟨dot', rfl, -⟩ := alike.symbol
    obtain ⟨s', span', rest', hsegment', behind, hk, hspan⟩ :=
      crosses_segment hop (.before behind) hsegment hrest
    exact ⟨some (s', span'), rest', dottedSegment_eq_some_iff.mpr ⟨dot', us', rfl, hsegment'⟩,
      .before behind, by simp [hk, hspan]⟩

/-- The span of a path is joined from those of its names, so the names are compared with their
spans. -/
theorem crosses_attrPath :
    M.Crosses (attrPath (operandUpTo n)) (attrPath (operandUpTo n))
      (AttrPath.relabel M.f M.c) (AttrPath.relabel M.f' M.c') := by
  intro ts ts' p rest hs h hrest
  obtain ⟨first, start, mid, hfirst, more, hmore, rfl⟩ := attrPath_eq_ok_iff.mp h
  have hmid := hrest.of_leaves
    ((rounds_of_repeated stop_dottedSegment hmore).leaves leaves_dottedSegment)
  obtain ⟨first', start', mid', hfirst', behind, hk₁, hstart⟩ :=
    crosses_segment hop hs hfirst hmid
  obtain ⟨more', rest', hmore', hs', hk₂⟩ := (crosses_dottedSegment hop).repeated
    repeatable_dottedSegment leaves_dottedSegment (.before behind) hmore hrest
  refine ⟨_, rest', attrPath_eq_ok_iff.mpr ⟨first', start', mid', hfirst', more', hmore', rfl⟩, hs',
    ?_⟩
  -- the rounds give names together with spans, and the path wants the two apart
  have hsegments := congrArg (List.map Prod.fst) hk₂
  have hspans := congrArg (List.foldl (fun s m => s.join m.2) (start.map M.f)) hk₂
  rw [List.foldl_map, List.foldl_map] at hspans
  simp only [List.map_map] at hsegments
  rw [AttrPath.relabel, AttrPath.relabel, relabelSegments_eq, relabelSegments_eq,
    Span.map_foldl_join, Span.map_foldl_join, c_nil, c'_nil, hspans, hstart]
  simp only [List.map_cons, List.map_map, hk₁]
  exact congrArg (AttrPath.mk · _ _) (congrArg _ hsegments)

/-! ### Bindings

Inheritance, assignment, and the loop over them. The two forms of a set differ in what ends them, a
brace or a keyword, which is `Watches`. -/

/-- The source of an inheritance, in parentheses. If there is none, the next mark is not an opening
parenthesis on either side. -/
theorem crosses_inheritSource :
    M.Crosses (inheritSource (operandUpTo n)) (inheritSource (operandUpTo n))
      (fun r => (r.1.map (Expr.relabel M.f M.c), M.c r.2))
      (fun r => (r.1.map (Expr.relabel M.f' M.c'), M.c' r.2)) := by
  intro ts ts' r rest hs h hrest
  obtain ⟨source, cs⟩ := r
  rcases inheritSource_eq_ok_iff.mp h with
    ⟨start, us, e, mid, stop, hts, he, hstop, rfl, rfl⟩ | ⟨hnext, rfl, rfl, rfl⟩
  · have hmid := hrest.of_leaves (leaves_expectSymbol hstop)
    have hus := hmid.of_leaves (leaves_expression (advances_operandUpTo n) he)
    obtain ⟨t', us', hts', alike, behind⟩ := hs.next hts hus
    obtain ⟨start', rfl, -⟩ := alike.symbol
    obtain ⟨e', mid', he', hs₁, hk⟩ := crosses_expression hop (.before behind) he hmid
    obtain ⟨stop', rest', hstop', behind, -⟩ := hs₁.expectSymbol hstop hrest
    exact ⟨_, rest', inheritSource_eq_ok_iff.mpr (.inl ⟨start', us', e', mid', stop', hts', he',
      hstop', rfl, rfl⟩), .before behind, by simp [hk, hs.comments]⟩
  · exact ⟨_, ts', inheritSource_eq_ok_iff.mpr (.inr ⟨hs.nextIsSymbol hnext, rfl, rfl, rfl⟩), hs,
      by simp⟩

/-- One of the names inherited, up to the semicolon or the end. -/
theorem crosses_inheritedName :
    M.Crosses (inheritedName (operandUpTo n)) (inheritedName (operandUpTo n))
      (Option.map (AttrPath.relabel M.f M.c)) (Option.map (AttrPath.relabel M.f' M.c')) := by
  intro ts ts' p rest hs h hrest
  cases p with
  | none =>
    obtain ⟨rfl, hend⟩ := inheritedName_eq_none_iff.mp h
    exact ⟨none, ts', inheritedName_eq_none_iff.mpr ⟨rfl, hend.elim (.inl ∘ hs.ended)
      hs.nextIsSymbol_or⟩, hs, rfl⟩
  | some p =>
    obtain ⟨hend, hnext, name, hname, rfl⟩ := inheritedName_eq_some_iff.mp h
    obtain ⟨name', rest', hname', hs', hk⟩ := crosses_attrPath hop hs.skip hname hrest
    refine ⟨_, rest', inheritedName_eq_some_iff.mpr
      ⟨hs.not_ended (leaves_attrPath hname) hrest hend, hs.nextIsSymbol hnext, name', hname', rfl⟩,
      hs', ?_⟩
    obtain ⟨segments, comments, span⟩ := name
    obtain ⟨segments', comments', span'⟩ := name'
    simp only [AttrPath.relabel, AttrPath.mk.injEq] at hk
    simp [AttrPath.relabel, hk, hs.comments]

theorem crosses_inheritance {comments comments' : List Comment} {start start' : Span}
    (hcomments : M.c comments = M.c' comments') (hstart : start.map M.f = start'.map M.f') :
    M.Crosses (inheritance (operandUpTo n) comments start)
      (inheritance (operandUpTo n) comments' start')
      (Binding.relabel M.f M.c) (Binding.relabel M.f' M.c') := by
  intro ts ts' b rest hs h hrest
  obtain ⟨source, more, ts₁, hsource, names, ts₂, hnames, stop, hstop, rfl⟩ :=
    inheritance_eq_ok_iff.mp h
  -- no step has gone past the seam, the last one first
  have hts₂ := hrest.of_leaves (leaves_skipTrivia.trans (leaves_expectSymbol hstop))
  have hts₁ := hts₂.of_leaves
    ((rounds_of_repeated stop_inheritedName hnames).leaves leaves_inheritedName)
  -- the same steps on the second side, the first one first
  obtain ⟨⟨source', more'⟩, ts₁', hsource', hs₁, hk₁⟩ := crosses_inheritSource hop hs hsource hts₁
  obtain ⟨names', ts₂', hnames', hs₂, hk₂⟩ := (crosses_inheritedName hop).repeated
    repeatable_inheritedName leaves_inheritedName hs₁ hnames hts₂
  obtain ⟨stop', rest', hstop', behind, hspan⟩ := hs₂.skip.expectSymbol hstop hrest
  obtain ⟨hk₁, hmore⟩ := Prod.mk.inj hk₁
  refine ⟨_, rest', inheritance_eq_ok_iff.mpr ⟨source', more', ts₁', hsource', names', ts₂',
    hnames', stop', hstop', rfl⟩, .before behind, ?_⟩
  simp only [Binding.relabel, relabelExpr?_eq, relabelPaths_eq, c_append, c'_append, Span.map_join]
  rw [hk₁, hk₂, hcomments, hmore, hs₂.comments, hstart, hspan]

theorem crosses_assignment {comments comments' : List Comment}
    (hcomments : M.c comments = M.c' comments') :
    M.Crosses (assignment (operandUpTo n) comments) (assignment (operandUpTo n) comments')
      (Binding.relabel M.f M.c) (Binding.relabel M.f' M.c') := by
  intro ts ts' b rest hs h hrest
  obtain ⟨name, ts₁, hname, eq, ts₂, heq, value, ts₃, hvalue, stop, hstop, rfl⟩ :=
    assignment_eq_ok_iff.mp h
  have hts₃ := hrest.of_leaves (leaves_expectSymbol hstop)
  have hts₂ := hts₃.of_leaves (leaves_expression (advances_operandUpTo n) hvalue)
  have hts₁ := hts₂.of_leaves (leaves_skipTrivia.trans (leaves_expectSymbol heq))
  obtain ⟨name', ts₁', hname', hs₁, hk₁⟩ := crosses_attrPath hop hs hname hts₁
  obtain ⟨eq', ts₂', heq', behind, -⟩ := hs₁.skip.expectSymbol heq hts₂
  obtain ⟨value', ts₃', hvalue', hs₃, hk₂⟩ := crosses_expression hop (.before behind) hvalue hts₃
  obtain ⟨stop', rest', hstop', behind, hspan⟩ := hs₃.expectSymbol hstop hrest
  refine ⟨_, rest', assignment_eq_ok_iff.mpr ⟨name', ts₁', hname', eq', ts₂', heq', value', ts₃',
    hvalue', stop', hstop', rfl⟩, .before behind, ?_⟩
  simp only [Binding.relabel, c_append, c'_append, Span.map_join]
  have hname := AttrPath.map_span_eq hk₁
  rw [hk₁, hk₂, hcomments, hs₁.comments, hspan, hname]

theorem crosses_binding :
    M.Crosses (binding (operandUpTo n)) (binding (operandUpTo n))
      (Binding.relabel M.f M.c) (Binding.relabel M.f' M.c') := by
  intro ts ts' b rest hs h hrest
  rcases binding_eq_ok_iff.mp h with ⟨start, us, hts, hb⟩ | ⟨hnext, hb⟩
  · have hus := hrest.of_leaves (leaves_inheritance (advances_operandUpTo n) hb)
    obtain ⟨t', us', hts', alike, behind⟩ := hs.next hts hus
    obtain ⟨start', rfl, hstart⟩ := alike.keyword
    obtain ⟨b', rest', hb', hs', hk⟩ :=
      crosses_inheritance hop hs.comments hstart (.before behind) hb hrest
    exact ⟨b', rest', binding_eq_ok_iff.mpr (.inl ⟨start', us', hts', hb'⟩), hs', hk⟩
  · obtain ⟨b', rest', hb', hs', hk⟩ := crosses_assignment hop hs.comments hs.skip hb hrest
    exact ⟨b', rest', binding_eq_ok_iff.mpr (.inr ⟨hs.nextIsKeyword hnext, hb'⟩), hs', hk⟩

omit hop in
/-- A binding takes something that is no trivia. -/
theorem leaves_skipTrivia_binding {b : Binding}
    (h : binding (operandUpTo n) ts = .ok (b, rest)) : Leaves 1 (skipTrivia ts) rest := by
  have hadv := advances_operandUpTo n
  rcases binding_eq_ok_iff.mp h with ⟨start, us, hts, hb⟩ | ⟨-, hb⟩
  · rw [hts]
    exact ((leaves_inheritance hadv hb).cons rfl).mono (by omega)
  · exact leaves_assignment hadv hb

/-- What ends a set: a look at the next token. If the look says no on the first side, it says no on
the second. If it says yes, the second side ends here as well, by the same token or by the end of
input. -/
structure Watches (M : Seam) (closed : List Token → Bool) : Prop where
  not_closed : ∀ {ts ts'}, M.Sim ts ts' → closed ts = false → closed ts' = false
  closed : ∀ {ts ts'}, M.Sim ts ts' → closed ts = true →
    atEnd (skipTrivia ts') = true ∨ closed ts' = true

omit hop in
theorem watches_closeBrace : M.Watches (nextIsSymbol .closeBrace) :=
  ⟨Sim.nextIsSymbol, Sim.nextIsSymbol_or⟩

omit hop in
theorem watches_in : M.Watches (nextIsKeyword .in_) :=
  ⟨Sim.nextIsKeyword, Sim.nextIsKeyword_or⟩

/-- One round of the loop: a binding, unless the set is closed. -/
theorem crosses_bindingUnless {closed : List Token → Bool} (hclosed : M.Watches closed) :
    M.Crosses (bindingUnless (operandUpTo n) closed) (bindingUnless (operandUpTo n) closed)
      (Option.map (Binding.relabel M.f M.c)) (Option.map (Binding.relabel M.f' M.c')) := by
  intro ts ts' b rest hs h hrest
  cases b with
  | none =>
    -- the set may be closed behind the seam, where the second side has ended
    obtain ⟨rfl, hend⟩ := bindingUnless_eq_none_iff.mp h
    exact ⟨none, ts', bindingUnless_eq_none_iff.mpr ⟨rfl, hend.elim (.inl ∘ hs.ended)
      (hclosed.closed hs)⟩, hs, rfl⟩
  | some b =>
    obtain ⟨hend, hnext, hb⟩ := bindingUnless_eq_some_iff.mp h
    obtain ⟨b', rest', hb', hs', hk⟩ := crosses_binding hop hs hb hrest
    exact ⟨b', rest', bindingUnless_eq_some_iff.mpr
      ⟨hs.not_ended (leaves_skipTrivia_binding hb) hrest hend, hclosed.not_closed hs hnext, hb'⟩,
      hs', congrArg some hk⟩

/-- The bindings of a set, with the comments behind the last. -/
theorem crosses_bindings {closed : List Token → Bool} {bs : List Binding}
    (hclosed : M.Watches closed) (hs : M.Sim ts ts')
    (h : repeated (bindingUnless (operandUpTo n) closed) ts = .ok (bs, rest))
    (hrest : M.Reaches rest) :
    ∃ bs' rest', repeated (bindingUnless (operandUpTo n) closed) ts' = .ok (bs', rest') ∧
      M.Sim rest rest' ∧
      relabelBindings M.f M.c (attachToLast (commentsAhead rest) bs).1 =
        relabelBindings M.f' M.c' (attachToLast (commentsAhead rest') bs').1 ∧
      M.c (attachToLast (commentsAhead rest) bs).2 =
        M.c' (attachToLast (commentsAhead rest') bs').2 := by
  have hadv := advances_operandUpTo n
  obtain ⟨bs', rest', hbs', hs', hk⟩ := (crosses_bindingUnless hop hclosed).repeated
    (repeatable_bindingUnless hadv)
    (fun h => leaves_binding hadv (bindingUnless_eq_some_iff.mp h).2.2) hs h hrest
  -- comments behind the last binding may be those behind the seam, where none are compared
  have hlast := attachToLast_relabel (f := M.f) M.c_nil M.c_append (commentsAhead rest) bs
  rw [hk, hs'.comments, attachToLast_relabel M.c'_nil M.c'_append] at hlast
  obtain ⟨hbindings, hcomments⟩ := Prod.mk.inj hlast
  refine ⟨bs', rest', hbs', hs', ?_, hcomments.symm⟩
  rw [relabelBindings_eq, relabelBindings_eq, hbindings]

theorem crosses_attrSet {recursive : Bool} {start start' : Span}
    (hstart : start.map M.f = start'.map M.f') :
    M.Crosses (attrSet (operandUpTo n) recursive start) (attrSet (operandUpTo n) recursive start')
      (Term.relabel M.f M.c) (Term.relabel M.f' M.c') := by
  intro ts ts' t rest hs h hrest
  obtain ⟨bs, mid, hbs, stop, hstop, rfl⟩ := attrSet_eq_ok_iff.mp h
  have hmid := hrest.of_leaves (leaves_skipTrivia.trans (leaves_expectSymbol hstop))
  obtain ⟨bs', mid', hbs', hs', hk, hcomments⟩ :=
    crosses_bindings hop watches_closeBrace hs hbs hmid
  obtain ⟨stop', rest', hstop', behind, hspan⟩ := hs'.skip.expectSymbol hstop hrest
  refine ⟨_, rest', attrSet_eq_ok_iff.mpr ⟨bs', mid', hbs', stop', hstop', rfl⟩, .before behind, ?_⟩
  rw [Term.relabel, Term.relabel, hk, hcomments, Span.map_join, Span.map_join, hstart, hspan]

theorem crosses_letIn {start start' : Span} (hstart : start.map M.f = start'.map M.f') :
    M.Crosses (letIn (operandUpTo n) start) (letIn (operandUpTo n) start')
      (Term.relabel M.f M.c) (Term.relabel M.f' M.c') := by
  intro ts ts' t rest hs h hrest
  obtain ⟨bs, ts₁, hbs, stop, ts₂, hin, body, hbody, rfl⟩ := letIn_eq_ok_iff.mp h
  have hts₂ := hrest.of_leaves (leaves_expression (advances_operandUpTo n) hbody)
  have hts₁ := hts₂.of_leaves (leaves_skipTrivia.trans (leaves_expectKeyword hin))
  obtain ⟨bs', ts₁', hbs', hs₁, hk, hcomments⟩ := crosses_bindings hop watches_in hs hbs hts₁
  obtain ⟨stop', ts₂', hin', behind, -⟩ := hs₁.skip.expectKeyword hin hts₂
  obtain ⟨body', rest', hbody', hs', hkb⟩ := crosses_expression hop (.before behind) hbody hrest
  refine ⟨_, rest', letIn_eq_ok_iff.mpr ⟨bs', ts₁', hbs', stop', ts₂', hin', body', hbody', rfl⟩,
    hs', ?_⟩
  have hspan := Expr.map_span_eq hkb
  rw [Term.relabel, Term.relabel, hk, hcomments, hkb, Span.map_join, Span.map_join, hstart, hspan]

/-! ### Functions

A function is a parameter and a body. With a pattern as the parameter, what is read between the
braces is followed along the relation `ReadsPattern`, and the rest of it, the name before or behind
and the colon, step by step. -/

theorem crosses_lambda {parameter parameter' : AttrPath}
    (hparameter : parameter.relabel M.f M.c = parameter'.relabel M.f' M.c') :
    M.Crosses (lambda (operandUpTo n) parameter) (lambda (operandUpTo n) parameter')
      (Term.relabel M.f M.c) (Term.relabel M.f' M.c') := by
  intro ts ts' t rest hs h hrest
  obtain ⟨body, hbody, rfl⟩ := lambda_eq_ok_iff.mp h
  obtain ⟨body', rest', hbody', hs', hk⟩ := crosses_expression hop hs hbody hrest
  refine ⟨_, rest', lambda_eq_ok_iff.mpr ⟨body', hbody', rfl⟩, hs', ?_⟩
  have hstart := AttrPath.map_span_eq hparameter
  have hstop := Expr.map_span_eq hk
  rw [Term.relabel, Term.relabel, Parameter.relabel, Parameter.relabel, hparameter, hk,
    Span.map_join, Span.map_join, hstart, hstop]

/-- One attribute of a pattern, with its default if there is one. -/
theorem crosses_formal {comments comments' : List Comment}
    (hcomments : M.c comments = M.c' comments') :
    M.Crosses (formal (operandUpTo n) comments) (formal (operandUpTo n) comments')
      (Formal.relabel M.f M.c) (Formal.relabel M.f' M.c') := by
  intro ts ts' a rest hs h hrest
  obtain ⟨name, mid, hname, hshape⟩ := formal_eq_ok_iff.mp h
  rcases hshape with ⟨start, us, e, hmid, he, rfl⟩ | ⟨hnext, rfl, rfl⟩
  · have hus := hrest.of_leaves (leaves_expression (advances_operandUpTo n) he)
    have hmid' := hus.of_leaves (leaves_of_skipTrivia rfl hmid (Leaves.refl us))
    obtain ⟨name', mid', hname', hs₁, hk⟩ := crosses_attrPath hop hs hname hmid'
    obtain ⟨t', us', hskip', alike, behind⟩ := hs₁.next hmid hus
    obtain ⟨start', rfl, -⟩ := alike.symbol
    obtain ⟨e', rest', he', hs', hke⟩ := crosses_expression hop (.before behind) he hrest
    refine ⟨_, rest', formal_eq_ok_iff.mpr
      ⟨name', mid', hname', .inl ⟨start', us', e', hskip', he', rfl⟩⟩, hs', ?_⟩
    have hstart := AttrPath.map_span_eq hk
    have hstop := Expr.map_span_eq hke
    rw [Formal.relabel, Formal.relabel, relabelExpr?, relabelExpr?, hk, hke, c_append, c'_append,
      hcomments, hs₁.comments, Span.map_join, Span.map_join, hstart, hstop]
  · have hmid := hrest.of_leaves leaves_skipTrivia
    obtain ⟨name', mid', hname', hs', hk⟩ := crosses_attrPath hop hs hname hmid
    refine ⟨_, _, formal_eq_ok_iff.mpr
      ⟨name', mid', hname', .inr ⟨hs'.nextIsSymbol hnext, rfl, rfl⟩⟩, hs'.skip, ?_⟩
    have hspan := AttrPath.map_span_eq hk
    rw [Formal.relabel, Formal.relabel, relabelExpr?, relabelExpr?, hk, c_append, c'_append,
      hcomments, hs'.comments, hspan]

omit hop in
/-- The inside of a pattern with other positions and comments. -/
def relabelBody (f : Position → Position) (c : List Comment → List Comment) (body : PatternBody) :
    PatternBody :=
  ⟨body.formals.map (Formal.relabel f c), body.variadic, c body.comments⟩

/-- The inside of a pattern. That a closing brace follows is asked for, since a pattern may end at
its brace without taking it. -/
theorem crosses_pattern {body : PatternBody} (hs : M.Sim ts ts')
    (h : ReadsPattern (operandUpTo n) ts body rest) (hrest : M.Reaches rest)
    (hclose : ∃ span us, skipTrivia rest = ⟨.symbol .closeBrace, span⟩ :: us ∧ M.Reaches us) :
    ∃ body' rest', ReadsPattern (operandUpTo n) ts' body' rest' ∧ M.Sim rest rest' ∧
      relabelBody M.f M.c body = relabelBody M.f' M.c' body' := by
  have hadv := advances_operandUpTo n
  -- along the attributes; the closing brace behind them is known to be in front of the seam
  induction h generalizing ts' with
  | @closed ts us span next =>
    obtain ⟨span', us', hus, hreach⟩ := hclose
    rw [skipTrivia_skipTrivia] at hus
    obtain ⟨t', us'', hts', alike, behind⟩ := hs.next hus hreach
    obtain ⟨span'', rfl, -⟩ := alike.symbol
    exact ⟨_, _, .closed hts', hs.skip, by simp [relabelBody, hs.comments]⟩
  | @variadic ts us span next =>
    have hus := hrest.of_leaves leaves_skipTrivia
    obtain ⟨t', us', hts', alike, behind⟩ := hs.next next hus
    obtain ⟨span', rfl, -⟩ := alike.symbol
    have hbehind := Sim.before behind
    exact ⟨_, _, .variadic hts', hbehind.skip,
      by simp [relabelBody, hs.comments, hbehind.comments]⟩
  | @comma ts mid rest span a body head tail ih =>
    have hmid := hrest.of_leaves (tail.leaves hadv)
    have hcomma : M.Reaches (⟨.symbol .comma, span⟩ :: mid) :=
      hmid.of_leaves ((Leaves.refl mid).cons rfl)
    obtain ⟨a', us', ha', hs₁, hk⟩ := crosses_formal hop hs.comments hs.skip head hcomma
    obtain ⟨t', mid', rfl, alike, behind⟩ := hs₁.head rfl hmid
    obtain ⟨span', rfl, -⟩ := alike.symbol
    obtain ⟨body', rest', htail', hs', hks⟩ := ih (.before behind) hrest hclose
    refine ⟨_, rest', .comma ha' htail', hs', ?_⟩
    simp only [relabelBody, PatternBody.mk.injEq] at hks ⊢
    simp [hk, hks]
  | @last ts us span a head =>
    obtain ⟨span', us', heq, hreach⟩ := hclose
    rw [skipTrivia_cons_of_not_isTrivia us rfl] at heq
    obtain ⟨-, rfl⟩ := List.cons.inj heq
    obtain ⟨a', mid', ha', hs₁, hk⟩ := crosses_formal hop hs.comments hs.skip head hrest
    obtain ⟨t', us'', rfl, alike, behind⟩ := hs₁.head rfl hreach
    obtain ⟨span'', rfl, -⟩ := alike.symbol
    exact ⟨_, _, .last ha', hs₁, by simp [relabelBody, hk]⟩

/-- The name behind a pattern. -/
theorem crosses_patternName :
    M.Crosses (patternName (operandUpTo n)) (patternName (operandUpTo n))
      (fun r => (relabelPath? M.f M.c r.1, M.c r.2))
      (fun r => (relabelPath? M.f' M.c' r.1, M.c' r.2)) := by
  intro ts ts' r rest hs h hrest
  obtain ⟨whole, cs⟩ := r
  rcases patternName_eq_ok_iff.mp h with
    ⟨at_, us, name, mid, rfl, hname, rfl, rfl, rfl⟩ | ⟨hat, rfl, rfl, rfl⟩
  · have hmid := hrest.of_leaves leaves_skipTrivia
    have hus := hmid.of_leaves (leaves_skipTrivia.trans (leaves_attrPath hname))
    obtain ⟨t', us', rfl, alike, behind⟩ := hs.head rfl hus
    obtain ⟨at', rfl, -⟩ := alike.symbol
    have hbehind := Sim.before behind
    obtain ⟨name', mid', hname', hs', hk⟩ := crosses_attrPath hop hbehind.skip hname hmid
    refine ⟨_, _, patternName_eq_ok_iff.mpr
      (.inl ⟨at', us', name', mid', rfl, hname', rfl, rfl, rfl⟩), hs'.skip, ?_⟩
    simp [relabelPath?, hk, hbehind.comments, hs'.comments]
  · exact ⟨_, ts', patternName_eq_ok_iff.mpr (.inr ⟨hs.ne_flat rfl hat, rfl, rfl, rfl⟩), hs,
      by simp [relabelPath?]⟩

/-- The name of a pattern, before or behind. A name before leaves nothing to read behind. -/
theorem crosses_patternEnd {front front' : Option AttrPath} {start start' stop stop' : Span}
    (hfront : relabelPath? M.f M.c front = relabelPath? M.f' M.c' front')
    (hstart : start.map M.f = start'.map M.f') (hstop : stop.map M.f = stop'.map M.f') :
    M.Crosses (patternEnd (operandUpTo n) front start stop)
      (patternEnd (operandUpTo n) front' start' stop')
      (fun r => (relabelPath? M.f M.c r.1, r.2.1.map M.f, M.c r.2.2))
      (fun r => (relabelPath? M.f' M.c' r.1, r.2.1.map M.f', M.c' r.2.2)) := by
  intro ts ts' r rest hs h hrest
  obtain ⟨whole, span, cs⟩ := r
  cases front with
  | some name =>
    cases front' with
    | none => simp [relabelPath?] at hfront
    | some name' =>
      obtain ⟨⟨rfl, rfl, rfl⟩, rfl⟩ := by simpa using h
      have hk : name.relabel M.f M.c = name'.relabel M.f' M.c' := by
        simpa [relabelPath?] using hfront
      exact ⟨_, ts', rfl, hs, by simp [hfront, AttrPath.map_span_eq hk, hstop]⟩
  | none =>
    cases front' with
    | some name' => simp [relabelPath?] at hfront
    | none =>
      -- a name is read behind, if there is one, and the span ends with it
      obtain ⟨hname, rfl⟩ := patternEnd_none_eq_ok_iff.mp h
      obtain ⟨⟨whole', cs'⟩, rest', hname', hs', hk⟩ := crosses_patternName hop hs hname hrest
      obtain ⟨hwhole, hcs⟩ := Prod.mk.inj hk
      refine ⟨_, rest', patternEnd_none_eq_ok_iff.mpr ⟨hname', rfl⟩, hs', ?_⟩
      cases whole with
      | none =>
        cases whole' with
        | none => simp [hwhole, hcs, hstart, hstop]
        | some name' => simp [relabelPath?] at hwhole
      | some name =>
        cases whole' with
        | none => simp [relabelPath?] at hwhole
        | some name' =>
          have hk : name.relabel M.f M.c = name'.relabel M.f' M.c' := by
            simpa [relabelPath?] using hwhole
          simp [hwhole, hcs, hstart, AttrPath.map_span_eq hk]

/-- A function with a pattern, from behind the opening brace. -/
theorem crosses_patternLambda {front front' : Option AttrPath} {start start' : Span}
    (hfront : relabelPath? M.f M.c front = relabelPath? M.f' M.c' front')
    (hstart : start.map M.f = start'.map M.f') :
    M.Crosses (patternLambda (operandUpTo n) front start)
      (patternLambda (operandUpTo n) front' start')
      (Term.relabel M.f M.c) (Term.relabel M.f' M.c') := by
  intro ts ts' t rest hs h hrest
  have hadv := advances_operandUpTo n
  obtain ⟨body, ts₁, hbody, stop, ts₂, hstop, whole, span, more, ts₃, hend, colon, ts₄, hcolon,
    result, hresult, rfl⟩ := patternLambda_eq_ok_iff.mp h
  -- a result was read behind the colon, so all of the pattern is in front of the seam
  have hts₄ := hrest.of_leaves (leaves_expression hadv hresult)
  have hts₃ := hts₄.of_leaves (leaves_expectSymbol hcolon)
  have hts₂ := hts₃.of_leaves (leaves_skipTrivia.trans (leaves_patternEnd hend))
  have hts₁ := hts₂.of_leaves (leaves_expectSymbol hstop)
  have hinside := (patternBody_eq_ok_iff hadv).mp hbody
  have hclose := skipTrivia_of_expectSymbol hstop
  obtain ⟨body', ts₁', hbody', hs₁, hkb⟩ :=
    crosses_pattern hop hs hinside hts₁ ⟨stop, ts₂, hclose, hts₂⟩
  obtain ⟨stop', ts₂', hstop', behind, hspan⟩ := hs₁.expectSymbol hstop hts₂
  have hs₂ := Sim.before behind
  obtain ⟨⟨whole', span', more'⟩, ts₃', hend', hs₃, hke⟩ :=
    crosses_patternEnd hop hfront hstart hspan hs₂.skip hend hts₃
  obtain ⟨colon', ts₄', hcolon', behind, -⟩ := hs₃.expectSymbol hcolon hts₄
  obtain ⟨result', rest', hresult', hs', hkr⟩ :=
    crosses_expression hop (.before behind) hresult hrest
  refine ⟨_, rest', patternLambda_eq_ok_iff.mpr ⟨body', ts₁',
    (patternBody_eq_ok_iff hadv).mpr hbody', stop', ts₂', hstop', whole', span', more', ts₃', hend',
    colon', ts₄', hcolon', result', hresult', rfl⟩, hs', ?_⟩
  obtain ⟨hformals, hvariadic, hcomments⟩ := PatternBody.mk.inj hkb
  obtain ⟨hwhole, hwhole_span, hmore⟩ : relabelPath? M.f M.c whole = relabelPath? M.f' M.c' whole' ∧
      span.map M.f = span'.map M.f' ∧ M.c more = M.c' more' := by simpa using hke
  have hresult_span := Expr.map_span_eq hkr
  simp only [Term.relabel, Parameter.relabel, relabelFormals_eq, c_append, c'_append, Span.map_join]
  rw [hformals, hvariadic, hcomments, hwhole, hwhole_span, hmore, hs₂.comments, hkr, hresult_span]

/-! ### Terms

Forms that begin with a token of their own are instances of one lemma (`Sim.form`). The others are
names, which may turn out to begin a function, and the forms that look further ahead. -/

theorem crosses_paren {start start' : Span} (hstart : start.map M.f = start'.map M.f') :
    M.Crosses (paren (operandUpTo n) start) (paren (operandUpTo n) start')
      (Term.relabel M.f M.c) (Term.relabel M.f' M.c') := by
  intro ts ts' t rest hs h hrest
  obtain ⟨body, mid, hbody, stop, hstop, rfl⟩ := paren_eq_ok_iff.mp h
  have hmid := hrest.of_leaves (leaves_expectSymbol hstop)
  obtain ⟨body', mid', hbody', hs', hk⟩ := crosses_expression hop hs hbody hmid
  obtain ⟨stop', rest', hstop', behind, hspan⟩ := hs'.expectSymbol hstop hrest
  refine ⟨_, rest', paren_eq_ok_iff.mpr ⟨body', mid', hbody', stop', hstop', rfl⟩,
    .before behind, ?_⟩
  rw [Term.relabel, Term.relabel, hk, Span.map_join, Span.map_join, hstart, hspan]

theorem crosses_item :
    M.Crosses (item (operandUpTo n)) (item (operandUpTo n))
      (Option.map (Operand.relabel M.f M.c)) (Option.map (Operand.relabel M.f' M.c')) := by
  intro ts ts' o rest hs h hrest
  cases o with
  | none =>
    obtain ⟨rfl, hend⟩ := item_eq_none_iff.mp h
    have hend' := hend.elim (.inl ∘ hs.ended) hs.nextIsSymbol_or
    exact ⟨none, ts', item_eq_none_iff.mpr ⟨rfl, hend'⟩, hs, rfl⟩
  | some o =>
    obtain ⟨hend, hnext, ho⟩ := item_eq_some_iff.mp h
    obtain ⟨o', rest', ho', hs', hk⟩ := hop M .single hs ho hrest
    exact ⟨some o', rest', item_eq_some_iff.mpr ⟨hs.not_ended (leaves_of_operandUpTo ho) hrest hend,
      hs.nextIsSymbol hnext, ho'⟩, hs', congrArg some hk⟩

/-- From the items. Comments between them are passed on at the end, on both sides alike. -/
theorem crosses_list {start start' : Span} (hstart : start.map M.f = start'.map M.f') :
    M.Crosses (list (operandUpTo n) start) (list (operandUpTo n) start')
      (Term.relabel M.f M.c) (Term.relabel M.f' M.c') := by
  intro ts ts' t rest hs h hrest
  have hadv := advances_operandUpTo n
  obtain ⟨items, mid, hitems, stop, hstop, rfl⟩ := list_eq_ok_iff.mp h
  have hmid := hrest.of_leaves (leaves_skipTrivia.trans (leaves_expectSymbol hstop))
  obtain ⟨items', mid', hitems', hs', hk⟩ :=
    (crosses_item hop).repeated (repeatable_item hadv) (leaves_item hadv) hs hitems hmid
  obtain ⟨stop', rest', hstop', behind, hspan⟩ := hs'.skip.expectSymbol hstop hrest
  refine ⟨_, rest', list_eq_ok_iff.mpr ⟨items', mid', hitems', stop', hstop', rfl⟩, .before behind,
    ?_⟩
  -- what is passed on depends on the comments of the items alone
  have hpassed := passOnComments_relabel (f := M.f) M.c_nil M.c_append [] items
  have hpassed' := passOnComments_relabel (f := M.f') M.c'_nil M.c'_append [] items'
  rw [M.c_nil, hk] at hpassed
  rw [M.c'_nil, hpassed] at hpassed'
  simp only [Term.relabel, relabelExprs_map_operand, Span.map_join]
  rw [hpassed', hs'.comments, hstart, hspan]

theorem crosses_conditional {start start' : Span} (hstart : start.map M.f = start'.map M.f') :
    M.Crosses (conditional (operandUpTo n) start) (conditional (operandUpTo n) start')
      (Term.relabel M.f M.c) (Term.relabel M.f' M.c') := by
  intro ts ts' t rest hs h hrest
  have hadv := advances_operandUpTo n
  obtain ⟨c, ts₁, hc, s₁, ts₂, hthen, a, ts₃, ha, s₂, ts₄, helse, b, hb, rfl⟩ :=
    conditional_eq_ok_iff.mp h
  have hts₄ := hrest.of_leaves (leaves_expression hadv hb)
  have hts₃ := hts₄.of_leaves (leaves_expectKeyword helse)
  have hts₂ := hts₃.of_leaves (leaves_expression hadv ha)
  have hts₁ := hts₂.of_leaves (leaves_expectKeyword hthen)
  obtain ⟨c', ts₁', hc', hs₁, hkc⟩ := crosses_expression hop hs hc hts₁
  obtain ⟨s₁', ts₂', hthen', behind, -⟩ := hs₁.expectKeyword hthen hts₂
  obtain ⟨a', ts₃', ha', hs₃, hka⟩ := crosses_expression hop (.before behind) ha hts₃
  obtain ⟨s₂', ts₄', helse', behind, -⟩ := hs₃.expectKeyword helse hts₄
  obtain ⟨b', rest', hb', hs', hkb⟩ := crosses_expression hop (.before behind) hb hrest
  refine ⟨_, rest', conditional_eq_ok_iff.mpr ⟨c', ts₁', hc', s₁', ts₂', hthen', a', ts₃', ha', s₂',
    ts₄', helse', b', hb', rfl⟩, hs', ?_⟩
  have hspan := Expr.map_span_eq hkb
  rw [Term.relabel, Term.relabel, hkc, hka, hkb, Span.map_join, Span.map_join, hstart, hspan]

theorem crosses_importOf {start start' : Span} (hstart : start.map M.f = start'.map M.f') :
    M.Crosses (importOf (operandUpTo n) start) (importOf (operandUpTo n) start')
      (Term.relabel M.f M.c) (Term.relabel M.f' M.c') := by
  intro ts ts' t rest hs h hrest
  obtain ⟨source, hsource, rfl⟩ := importOf_eq_ok_iff.mp h
  obtain ⟨source', rest', hsource', hs', hk⟩ := hop M .single hs hsource hrest
  refine ⟨_, rest', importOf_eq_ok_iff.mpr ⟨source', hsource', rfl⟩, hs', ?_⟩
  have hspan := Operand.map_span_eq hk
  rw [Term.relabel, Term.relabel, Expr.relabel_operand, Expr.relabel_operand, hk, Span.map_join,
    Span.map_join, hstart, hspan]

/-- The operand behind a sign or a negation, in the same context. -/
theorem crosses_unary {ctx : Context} {op : UnaryOp} {start start' : Span}
    (hstart : start.map M.f = start'.map M.f') :
    M.Crosses (unary (operandUpTo n) ctx op start) (unary (operandUpTo n) ctx op start')
      (Term.relabel M.f M.c) (Term.relabel M.f' M.c') := by
  intro ts ts' t rest hs h hrest
  obtain ⟨o, ho, rfl⟩ := unary_eq_ok_iff.mp h
  obtain ⟨o', rest', ho', hs', hk⟩ := hop M ctx hs ho hrest
  refine ⟨_, rest', unary_eq_ok_iff.mpr ⟨o', ho', rfl⟩, hs', ?_⟩
  have hspan := Operand.map_span_eq hk
  rw [Term.relabel, Term.relabel, Expr.relabel_operand, Expr.relabel_operand, hk, Span.map_join,
    Span.map_join, hstart, hspan]

omit hop in
/-- A name in front of a function looks alike on both sides. -/
theorem relabel_argumentName {name : String} {span span' : Span}
    (h : span.map M.f = span'.map M.f') :
    AttrPath.relabel M.f M.c ⟨[.name name], [], span⟩ =
      AttrPath.relabel M.f' M.c' ⟨[.name name], [], span'⟩ := by
  simp [AttrPath.relabel, relabelSegments, Segment.relabel, h]

omit hop in
/-- A form that begins with a token of its own. What is read behind the token on the first side is
read behind it on the second. -/
theorem Sim.form {rule : Span → Rule Term} {kind : TokenKind} {start : Span} {us : List Token}
    {t : Term} (hs : M.Sim (⟨kind, start⟩ :: us) ts') (hflat : kind.isFlat = true)
    (ht : Token.isTrivia ⟨kind, start⟩ = false) (hus : M.Reaches us)
    (hrule : ∀ {start start' : Span}, start.map M.f = start'.map M.f' →
      M.Crosses (rule start) (rule start') (Term.relabel M.f M.c) (Term.relabel M.f' M.c'))
    (h : rule start us = .ok (t, rest)) (hrest : M.Reaches rest) :
    ∃ start' us' t' rest', ts' = ⟨kind, start'⟩ :: us' ∧ M.Before us us' ∧
      rule start' us' = .ok (t', rest') ∧ M.Sim rest rest' ∧
      t.relabel M.f M.c = t'.relabel M.f' M.c' := by
  obtain ⟨start', us', rfl, hstart, behind⟩ := hs.take hflat ht hus
  obtain ⟨t', rest', h', hs', hk⟩ := hrule hstart (.before behind) h hrest
  exact ⟨start', us', t', rest', rfl, behind, h', hs', hk⟩

/-- **A term crosses the seam.** There is one case for each form, in the order of the rule. Forms
with a look ahead have to show that it has the same outcome on the second side. -/
theorem crosses_term (ctx : Context) :
    M.Crosses (termIn (operandUpTo n) ctx) (termIn (operandUpTo n) ctx)
      (Term.relabel M.f M.c) (Term.relabel M.f' M.c') := by
  intro ts ts' t rest hs h hrest
  have hadv := advances_operandUpTo n
  have hread := termIn_eq_ok_iff.mp h
  -- a term takes the token that it begins with, so the seam is behind this token
  have htail : ∀ first us, ts = first :: us → M.Reaches us := by
    rintro first us rfl
    obtain ⟨first', us', heq, -, hleaves⟩ := hread.leaves_tail hadv
    obtain ⟨-, rfl⟩ := List.cons.inj heq
    exact hrest.of_leaves hleaves
  suffices ∃ t' rest', ReadsTerm (operandUpTo n) ctx ts' t' rest' ∧ M.Sim rest rest' ∧
      t.relabel M.f M.c = t'.relabel M.f' M.c' by
    obtain ⟨t', rest', hread', hs', hk⟩ := this
    exact ⟨t', rest', termIn_eq_ok_iff.mpr hread', hs', hk⟩
  cases hread with
  | null =>
    obtain ⟨span', us', rfl, hspan, behind⟩ := hs.take rfl rfl (htail _ _ rfl)
    exact ⟨_, us', .null, .before behind, by simp [Term.relabel, hspan]⟩
  | bool =>
    obtain ⟨span', us', rfl, hspan, behind⟩ := hs.take rfl rfl (htail _ _ rfl)
    exact ⟨_, us', .bool, .before behind, by simp [Term.relabel, hspan]⟩
  | int =>
    obtain ⟨span', us', rfl, hspan, behind⟩ := hs.take rfl rfl (htail _ _ rfl)
    exact ⟨_, us', .int, .before behind, by simp [Term.relabel, hspan]⟩
  | float =>
    obtain ⟨span', us', rfl, hspan, behind⟩ := hs.take rfl rfl (htail _ _ rfl)
    exact ⟨_, us', .float, .before behind, by simp [Term.relabel, hspan]⟩
  | negativeInt =>
    obtain ⟨start', us', rfl, hstart, behind⟩ := hs.take rfl rfl (htail _ _ rfl)
    obtain ⟨stop', vs', rfl, hstop, behind₁⟩ := Sim.take (.before behind) rfl rfl hrest
    exact ⟨_, vs', .negativeInt, .before behind₁, by simp [Term.relabel, hstart, hstop]⟩
  | negativeFloat =>
    obtain ⟨start', us', rfl, hstart, behind⟩ := hs.take rfl rfl (htail _ _ rfl)
    obtain ⟨stop', vs', rfl, hstop, behind₁⟩ := Sim.take (.before behind) rfl rfl hrest
    exact ⟨_, vs', .negativeFloat, .before behind₁, by simp [Term.relabel, hstart, hstop]⟩
  | path =>
    obtain ⟨span', us', rfl, hspan, behind⟩ := hs.take rfl rfl (htail _ _ rfl)
    exact ⟨_, us', .path, .before behind, by simp [Term.relabel, hspan]⟩
  | string hliteral =>
    obtain ⟨t', us', rfl, alike, behind⟩ := hs.head rfl (htail _ _ rfl)
    obtain ⟨fragments', span', rfl, hfragments, hspan⟩ := alike.string
    obtain ⟨literal', hliteral', hk⟩ := crosses_stringOf hop hfragments hspan hliteral
    exact ⟨_, us', .string hliteral', .before behind, by simp [Term.relabel, hk]⟩
  | interpolation hcontent =>
    obtain ⟨t', us', rfl, alike, behind⟩ := hs.head rfl (htail _ _ rfl)
    obtain ⟨tokens', span', rfl, htokens, hspan⟩ := alike.interpolation
    obtain ⟨content', hcontent', hk⟩ := crosses_interpolationOf hop htokens hspan hcontent
    exact ⟨_, us', .interpolation hcontent', .before behind, by simp [Term.relabel, hk]⟩
  | name no_colon no_pattern hp =>
    obtain ⟨p', rest', hp', hs', hk⟩ := crosses_attrPath hop hs hp hrest
    obtain ⟨span', us', rfl, -, behind⟩ := hs.take rfl rfl (htail _ _ rfl)
    have hbehind := Sim.before behind
    refine ⟨_, rest', .name (hbehind.ne_flat rfl no_colon) ?_ hp', hs', by simp [Term.relabel, hk]⟩
    -- a look ahead that fails on the first side fails on the second, where less follows
    rintro at' start' us rfl
    obtain ⟨at_, vs, rfl, behind₁⟩ := hbehind.back rfl
    obtain ⟨start, ws, rfl, behind₂⟩ := Sim.back rfl (.before behind₁)
    exact behind₂.opensPattern (no_pattern _ _ _ rfl)
  | list h =>
    obtain ⟨_, us', t', rest', rfl, -, h', hs', hk⟩ :=
      hs.form rfl rfl (htail _ _ rfl) (crosses_list hop) h hrest
    exact ⟨t', rest', .list h', hs', hk⟩
  | attrSet no_pattern h =>
    obtain ⟨_, us', t', rest', rfl, behind, h', hs', hk⟩ :=
      hs.form rfl rfl (htail _ _ rfl) (crosses_attrSet hop) h hrest
    exact ⟨t', rest', .attrSet (behind.opensPattern no_pattern) h', hs', hk⟩
  | recursive hbrace h =>
    obtain ⟨start', us', rfl, hstart, behind⟩ := hs.take rfl rfl (htail _ _ rfl)
    obtain ⟨brace', vs', hbrace', behind₁, -⟩ :=
      Sim.expectSymbol (.before behind) hbrace (hrest.of_leaves (leaves_attrSet hadv h))
    obtain ⟨t', rest', h', hs', hk⟩ := crosses_attrSet hop hstart (.before behind₁) h hrest
    exact ⟨t', rest', .recursive hbrace' h', hs', hk⟩
  | lambda h =>
    obtain ⟨span', us', rfl, hspan, behind⟩ := hs.take rfl rfl (htail _ _ rfl)
    obtain ⟨colon', vs', rfl, -, behind₁⟩ :=
      Sim.take (.before behind) rfl rfl (hrest.of_leaves (leaves_lambda hadv h))
    obtain ⟨t', rest', h', hs', hk⟩ :=
      crosses_lambda hop (relabel_argumentName hspan) (.before behind₁) h hrest
    exact ⟨t', rest', .lambda h', hs', hk⟩
  | pattern _ h =>
    have hfront : relabelPath? M.f M.c none = relabelPath? M.f' M.c' none := by
      rw [relabelPath?, relabelPath?]
    obtain ⟨_, us', t', rest', rfl, -, h', hs', hk⟩ :=
      hs.form rfl rfl (htail _ _ rfl) (crosses_patternLambda hop hfront) h hrest
    exact ⟨t', rest', .pattern (opensPattern_of_patternLambda h') h', hs', hk⟩
  | @namedPattern name span at_ start ts rest t _ h =>
    obtain ⟨span', us', rfl, hspan, behind⟩ := hs.take rfl rfl (htail _ _ rfl)
    have hus := hrest.of_leaves (leaves_patternLambda hadv h)
    obtain ⟨at', vs', rfl, -, behind₁⟩ :=
      Sim.take (.before behind) rfl rfl (hus.of_leaves ((Leaves.refl _).cons rfl))
    obtain ⟨start', ws', rfl, hstart, behind₂⟩ := Sim.take (.before behind₁) rfl rfl hus
    have hfront : relabelPath? M.f M.c (some ⟨[.name name], [], span⟩) =
        relabelPath? M.f' M.c' (some ⟨[.name name], [], span'⟩) := by
      rw [relabelPath?, relabelPath?, relabel_argumentName hspan]
    obtain ⟨t', rest', h', hs', hk⟩ :=
      crosses_patternLambda hop hfront hstart (.before behind₂) h hrest
    exact ⟨t', rest', .namedPattern (opensPattern_of_patternLambda h') h', hs', hk⟩
  | letIn h =>
    obtain ⟨_, us', t', rest', rfl, -, h', hs', hk⟩ :=
      hs.form rfl rfl (htail _ _ rfl) (crosses_letIn hop) h hrest
    exact ⟨t', rest', .letIn h', hs', hk⟩
  | import_ h =>
    obtain ⟨_, us', t', rest', rfl, -, h', hs', hk⟩ :=
      hs.form rfl rfl (htail _ _ rfl) (crosses_importOf hop) h hrest
    exact ⟨t', rest', .import_ h', hs', hk⟩
  | conditional h =>
    obtain ⟨_, us', t', rest', rfl, -, h', hs', hk⟩ :=
      hs.form rfl rfl (htail _ _ rfl) (crosses_conditional hop) h hrest
    exact ⟨t', rest', .conditional h', hs', hk⟩
  | not h =>
    obtain ⟨_, us', t', rest', rfl, -, h', hs', hk⟩ :=
      hs.form rfl rfl (htail _ _ rfl) (crosses_unary hop) h hrest
    exact ⟨t', rest', .not h', hs', hk⟩
  | negate no_int no_float h =>
    obtain ⟨_, us', t', rest', rfl, behind, h', hs', hk⟩ :=
      hs.form rfl rfl (htail _ _ rfl) (crosses_unary hop) h hrest
    have hbehind := Sim.before behind
    exact ⟨t', rest', .negate (fun value => hbehind.ne_flat rfl (no_int value))
      (fun value => hbehind.ne_flat rfl (no_float value)) h', hs', hk⟩
  | paren h =>
    obtain ⟨_, us', t', rest', rfl, -, h', hs', hk⟩ :=
      hs.form rfl rfl (htail _ _ rfl) (crosses_paren hop) h hrest
    exact ⟨t', rest', .paren h', hs', hk⟩

/-! ### Operands

An operand is made of clauses, a term and its arguments. With a bound that is one larger than that
of the operands inside, it crosses a seam if they cross all seams, and this is the step of the
induction. -/

theorem crosses_argument :
    M.Crosses (argument (operandUpTo n)) (argument (operandUpTo n))
      (Option.map (Operand.relabel M.f M.c)) (Option.map (Operand.relabel M.f' M.c')) := by
  intro ts ts' o rest hs h hrest
  cases o with
  | none =>
    obtain ⟨rfl, hnone⟩ := argument_eq_none_iff.mp h
    refine ⟨none, ts', argument_eq_none_iff.mpr ⟨rfl, fun t' us' hskip => ?_⟩, hs, rfl⟩
    -- no argument begins at an end, which is all that the second side has behind the seam
    rcases hs.skip.peek with hend | ⟨t, us, t', us', hts, hts', alike, -⟩
    · rw [hskip] at hend
      exact startsArgument_of_isEnd hend
    · obtain ⟨rfl, -⟩ := List.cons.inj (hskip.symm.trans hts')
      exact alike.startsArgument.trans (hnone t us hts)
  | some o =>
    obtain ⟨t, us, hskip, hstarts, ho⟩ := argument_eq_some_iff.mp h
    -- the argument begins with a token that it takes
    have hus : M.Reaches us := by
      have hlength := (leaves_of_operandUpTo ho).length_le
      rw [hskip, List.length_cons] at hlength
      exact Nat.le_trans hrest (by omega)
    obtain ⟨t', us', hskip', alike, -⟩ := hs.next hskip hus
    obtain ⟨o', rest', ho', hs', hk⟩ := hop M .single hs ho hrest
    exact ⟨some o', rest', argument_eq_some_iff.mpr
      ⟨t', us', hskip', alike.startsArgument.trans hstarts, ho'⟩, hs', congrArg some hk⟩

theorem crosses_applied {callee callee' : Term}
    (hcallee : callee.relabel M.f M.c = callee'.relabel M.f' M.c') :
    M.Crosses (applied (operandUpTo n) callee) (applied (operandUpTo n) callee')
      (Term.relabel M.f M.c) (Term.relabel M.f' M.c') := by
  intro ts ts' t rest hs h hrest
  have hadv := advances_operandUpTo n
  obtain ⟨arguments, harguments, -⟩ := applied_eq_ok_iff.mp h
  obtain ⟨arguments', rest', harguments', hs', hk⟩ := (crosses_argument hop).repeated
    (repeatable_argument hadv) (leaves_argument hadv) hs harguments hrest
  obtain ⟨t', h', ht⟩ := exists_applied_of_map_eq h harguments harguments' hcallee hk
  exact ⟨t', rest', h', hs', ht⟩

/-- Whether a term takes arguments depends on its form, which is the same on both sides. -/
theorem crosses_withArguments {ctx : Context} {head head' : Term}
    (hhead : head.relabel M.f M.c = head'.relabel M.f' M.c') :
    M.Crosses (withArguments (operandUpTo n) ctx head) (withArguments (operandUpTo n) ctx head')
      (Term.relabel M.f M.c) (Term.relabel M.f' M.c') := by
  intro ts ts' t rest hs h hrest
  unfold withArguments at h ⊢
  -- both heads are called, or neither
  rw [← Term.isCallable_eq hhead]
  split at h
  · rw [if_pos ‹_›]
    exact crosses_applied hop hhead hs h hrest
  · rw [if_neg ‹_›]
    obtain ⟨rfl, rfl⟩ := by simpa using h
    exact ⟨head', ts', rfl, hs, hhead⟩

/-- A clause in front of an operand, with the comments in front of it. -/
theorem crosses_clause :
    M.Crosses (clause (operandUpTo n)) (clause (operandUpTo n))
      (Option.map fun d => (M.c d.1, d.2.relabel M.f M.c))
      (Option.map fun d => (M.c' d.1, d.2.relabel M.f' M.c')) := by
  intro ts ts' d rest hs h hrest
  cases d with
  | none =>
    obtain ⟨rfl, hnone⟩ := clause_eq_none_iff.mp h
    refine ⟨none, ts', clause_eq_none_iff.mpr ⟨rfl, fun k start' us' hskip' => ?_⟩, hs, rfl⟩
    have hskip := hs.skip
    rw [hskip'] at hskip
    obtain ⟨start, us, hskip, -⟩ := hskip.back rfl
    exact hnone k start us hskip
  | some d =>
    obtain ⟨cs, m⟩ := d
    obtain ⟨k, start, us, kind, hskip, hkind, subject, mid, he, stop, hstop, rfl, rfl⟩ :=
      clause_eq_some_iff.mp h
    have hmid := hrest.of_leaves (leaves_expectSymbol hstop)
    have hus := hmid.of_leaves (leaves_expression (advances_operandUpTo n) he)
    obtain ⟨t', us', hskip', alike, behind⟩ := hs.next hskip hus
    obtain ⟨start', rfl, hstart⟩ := alike.keyword
    obtain ⟨subject', mid', he', hs₁, hk⟩ := crosses_expression hop (.before behind) he hmid
    obtain ⟨stop', rest', hstop', behind, hspan⟩ := hs₁.expectSymbol hstop hrest
    refine ⟨some (commentsAhead ts', ⟨kind, subject', start'.join stop'⟩), rest',
      clause_eq_some_iff.mpr ⟨k, start', us', kind, hskip', hkind, subject', mid', he', stop',
        hstop', rfl, rfl⟩, .before behind, ?_⟩
    simp [Modifier.relabel, hs.comments, hk, hstart, hspan]

/-- From the operands inside to the operand around them. -/
theorem crosses_operandWith (M : Seam) (ctx : Context) :
    M.Crosses (operandWith (operandUpTo n) ctx) (operandWith (operandUpTo n) ctx)
      (Operand.relabel M.f M.c) (Operand.relabel M.f' M.c') := by
  intro ts ts' o rest hs h hrest
  have hadv := advances_operandUpTo n
  obtain ⟨clauses, ts₁, hclauses, head, ts₂, hhead, t, ts₃, ht, rfl, rfl⟩ :=
    operandWith_eq_ok_iff.mp h
  have hts₃ := hrest.of_leaves leaves_skipTrivia
  have hts₂ := hts₃.of_leaves (leaves_withArguments hadv ht)
  have hts₁ := hts₂.of_leaves (leaves_skipTrivia.trans ((termIn_eq_ok_iff.mp hhead).leaves hadv))
  obtain ⟨clauses', ts₁', hclauses', hs₁, hk₁⟩ := (crosses_clause hop).repeated
    (repeatable_clause hadv) (leaves_clause hadv) hs hclauses hts₁
  obtain ⟨head', ts₂', hhead', hs₂, hk₂⟩ := crosses_term hop ctx hs₁.skip hhead hts₂
  obtain ⟨t', ts₃', ht', hs₃, hk₃⟩ := crosses_withArguments hop hk₂ hs₂ ht hts₃
  refine ⟨_, _, operandWith_eq_ok_iff.mpr ⟨clauses', ts₁', hclauses', head', ts₂', hhead', t', ts₃',
    ht', rfl, rfl⟩, hs₃.skip, ?_⟩
  have hmodifiers := congrArg (List.map Prod.snd) hk₁
  have hcomments := congrArg (List.flatMap Prod.fst) hk₁
  simp only [List.map_map, List.flatMap_map, Function.comp_def] at hmodifiers hcomments
  have hspan : (operandSpan (clauses.map (·.2)) t).map M.f =
      (operandSpan (clauses'.map (·.2)) t').map M.f' := by
    rw [operandSpan_relabel M.f M.c, operandSpan_relabel M.f' M.c', List.map_map, List.map_map, hk₃]
    exact congrArg (operandSpan · _) hmodifiers
  simp only [Operand.relabel, relabelModifiers_eq, c_append, c'_append, c_flatMap, c'_flatMap,
    List.map_map, Function.comp_def]
  rw [hmodifiers, hcomments, hs₁.comments, hs₃.comments, hk₃, hspan]

omit hop in
/-- **Every operand crosses every seam.** -/
theorem crosses_operandUpTo (n : Nat) (M : Seam) (ctx : Context) :
    M.Crosses (operandUpTo n ctx) (operandUpTo n ctx) (Operand.relabel M.f M.c)
      (Operand.relabel M.f' M.c') := by
  induction n generalizing M ctx with
  | zero =>
    intro ts ts' o rest hs h
    simp [operandUpTo] at h
  | succ n ih => exact crosses_operandWith ih M ctx

end Seam

end Grammar

end NixSyntax
