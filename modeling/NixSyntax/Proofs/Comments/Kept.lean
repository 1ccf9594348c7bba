import NixSyntax.Proofs.Comments.Vectors
import NixSyntax.Proofs.Reading.Depth
import NixSyntax.Proofs.Tree.Moves

/-!
# No comment is lost

Wherever a rule passes over comments it keeps them: an operand those in front of its term and behind
it, a form those that stand where no operand is next to them. Comments that move afterwards go to
the end of the list in front of which they stood, or to the front of the list behind them. So the
tree has the comments of the tokens, each of them once, and no list has them out of order.

## How the lemmas go

For each rule, `Gathers` says that the lists of comments in what it has made hold the comments of
the tokens it has taken. A rule is a chain of smaller rules. Where two follow one another, their
lists are put side by side (`Gathers.trans`), or a list of the one is continued by a list of the
other (`Gathers.join`), which is allowed because the comments of the second stand behind all
comments of the first.

A rule that is given comments was given those directly in front of its tokens. Its lemma starts
where these comments start, so that they are among those it accounts for (`hc`).

The marks that a rule requires may have line breaks in front of them, and no comments. Where
comments may stand in front of a mark, the rule has passed over the trivia before it asks for the
mark, and has put the comments somewhere. So no comment is ever skipped without being kept: there is
no lemma here for skipping trivia that would gather nothing.

## What moves

Comments behind an item of a list go in front of the next item, and those behind the last binding of
a block to the end of its list. Both are seen as lists that are joined: the first in
`Rounds.gathers_items`, the second in `gathers_attachToLast`.

## Main results

* `gathers_list`, `gathers_attrSet`, `gathers_patternLambda`: the forms that have comments of their
  own or move them
* `gathers_operandWith`: from the operands inside to the operand around them
* `Program.comments_kept`: the tree of a program holds the comments of its tokens
-/

namespace NixSyntax

/-- The comments of a path, and those in its names. -/
theorem AttrPath.commentLists_nodes (p : AttrPath) :
    commentLists p.nodes = {p.comments} + (p.segments.map fun s => commentLists s.nodes).sum := by
  cases p
  simp [AttrPath.nodes, Node.commentLists, segmentsNodes_eq]

/-- The comments of an operand: in front, behind, in its clauses and in its term. -/
theorem Operand.commentLists_nodes (o : Operand) :
    commentLists o.nodes = {o.before} + ({o.after} +
      ((o.modifiers.map fun m => commentLists m.nodes).sum + commentLists o.term.nodes)) := by
  cases o
  simp only [Operand.nodes, commentLists_cons, commentLists_append, Node.commentLists,
    modifiersNodes_eq, commentLists_flatMap, add_assoc]

/-- More comments of a binding make its own list longer, and leave those inside it alone. -/
theorem Binding.exists_commentLists (b : Binding) :
    ∃ inner, commentLists b.nodes = {b.comments} + inner ∧
      ∀ more, commentLists (b.addComments more).nodes = {b.comments ++ more} + inner := by
  cases b with
  | assign name value comments span =>
    exact ⟨commentLists (name.nodes ++ value.nodes), by simp [Binding.nodes, Node.commentLists],
      by simp [Binding.nodes, Node.commentLists, addComments, Binding.comments]⟩
  | inherit source names comments span =>
    exact ⟨commentLists (exprNodes? source ++ pathsNodes names),
      by simp [Binding.nodes, Node.commentLists],
      by simp [Binding.nodes, Node.commentLists, addComments, Binding.comments]⟩

/-- An operator is no comment and holds none. -/
theorem Token.comments_of_binaryOp? {t : Token} {op : BinaryOp} (h : t.binaryOp? = some op) :
    t.isEnd = false ∧ t.comments = [] := by
  obtain ⟨kind, span⟩ := t
  cases kind <;> simp_all [binaryOp?, isEnd, comments, comment?, TokenKind.innerComments]

namespace Grammar

variable {V : Multiset (List Comment)} {ts ts₀ mid rest : List Token}
  {operand : Context → Rule Operand}
  (hop : ∀ ⦃ctx ts o rest⦄, operand ctx ts = .ok (o, rest) →
    Gathers (commentLists o.nodes) ts rest)
include hop

/-! ### Expressions

Between two operands there is an operator, and the trivia around it went to the operands. -/

theorem gathers_link {l : Operator × Operand} (h : link operand ts = .ok (some l, rest)) :
    Gathers (commentLists l.2.nodes) ts rest := by
  obtain ⟨operator, o⟩ := l
  obtain ⟨t, us, op, rfl, hop', rfl, ho⟩ := link_eq_some_iff.mp h
  obtain ⟨hend, hcomments⟩ := t.comments_of_binaryOp? hop'
  exact (gathers_token hend (hcomments ▸ .nil)).none_then (hop ho)

/-- A chain holds what its operands hold, in whatever tree they stand. -/
theorem gathers_expression {e : Expr} (h : expression operand ts = .ok (e, rest)) :
    Gathers (commentLists e.nodes) ts rest := by
  obtain ⟨first, mid, hfirst, links, hlinks, rfl⟩ := expression_eq_ok_iff.mp h
  have hrounds := rounds_of_repeated stop_link hlinks
  rw [Expr.commentLists_nodes, first_assemble, links_assemble]
  exact (hop hfirst).trans (hrounds.gathers (gathers_link hop))

/-- Behind a whole expression there are no comments that count, since the input has ended. -/
theorem keeps_complete {e : Expr} (h : complete operand ts = .ok e) :
    Keeps (commentLists e.nodes) (commentsOf ts) := by
  obtain ⟨rest, he, hend⟩ := complete_eq_ok_iff.mp h
  obtain ⟨cs, hts, hkeeps⟩ := gathers_expression hop he
  rwa [hts, commentsOf_of_atEnd hend, List.append_nil]

theorem keeps_interpolationOf {span : Span} {c : Interpolation}
    (h : interpolationOf operand ts span = .ok c) :
    Keeps (commentLists c.nodes) (commentsOf ts) := by
  obtain ⟨body, hbody, rfl⟩ := interpolationOf_eq_ok_iff.mp h
  simpa [Interpolation.nodes, Node.commentLists] using keeps_complete hop hbody

/-! ### Strings and names

Comments inside a string stand in its interpolations, and are told there as those of a program. -/

theorem ReadsParts.keeps {fragments : List StringFragment} {parts : List StringPart}
    (h : ReadsParts operand fragments parts) :
    Keeps (parts.map fun p => commentLists p.nodes).sum (fragmentsComments fragments) := by
  induction h with
  | nil => simpa [fragmentsComments] using Keeps.nil
  | text _ ih =>
    simpa [fragmentsComments, StringPart.nodes, StringFragment.comments] using ih
  | interpolation hc _ ih =>
    simpa [fragmentsComments, StringPart.nodes, StringFragment.comments] using
      (keeps_interpolationOf hop hc).append ih

theorem gathers_stringOf {fragments : List StringFragment} {multiline : Bool} {span : Span}
    {s : StringLiteral} (h : stringOf operand fragments multiline span = .ok s) :
    Gathers (commentLists s.nodes) (⟨.string fragments multiline, span⟩ :: ts) ts := by
  obtain ⟨parts, hparts, rfl⟩ := stringOf_eq_ok_iff.mp h
  refine gathers_token rfl ?_
  simpa [StringLiteral.nodes, Node.commentLists, partsNodes_eq, Token.comments, Token.comment?,
    TokenKind.innerComments] using hparts.keeps hop

theorem gathers_interpolationOf {tokens : List Token} {span : Span} {c : Interpolation}
    (h : interpolationOf operand tokens span = .ok c) :
    Gathers (commentLists c.nodes) (⟨.interpolation tokens, span⟩ :: ts) ts := by
  refine gathers_token rfl ?_
  simpa [Token.comments, Token.comment?, TokenKind.innerComments] using
    keeps_interpolationOf hop h

theorem ReadsSegment.gathers {s : Segment} {span : Span}
    (h : ReadsSegment operand ts s span rest) : Gathers (commentLists s.nodes) ts rest := by
  cases h with
  | name =>
    rw [Segment.nodes, commentLists_nil]
    exact gathers_token rfl .nil
  | string hl =>
    rw [Segment.nodes]
    exact gathers_stringOf hop hl
  | interpolation hc =>
    rw [Segment.nodes]
    exact gathers_interpolationOf hop hc

theorem gathers_dottedSegment {m : Segment × Span}
    (h : dottedSegment operand ts = .ok (some m, rest)) :
    Gathers (commentLists m.1.nodes) ts rest := by
  obtain ⟨s, span⟩ := m
  obtain ⟨dot, us, rfl, hs⟩ := dottedSegment_eq_some_iff.mp h
  exact gathers_symbol.none_then (hs.gathers hop)

/-- A path has the comments in its names, and none of its own yet. -/
theorem gathers_segments {p : AttrPath} (h : attrPath operand ts = .ok (p, rest)) :
    p.comments = [] ∧ Gathers (p.segments.map fun s => commentLists s.nodes).sum ts rest := by
  obtain ⟨first, start, mid, hfirst, more, hmore, rfl⟩ := attrPath_eq_ok_iff.mp h
  have hrounds := rounds_of_repeated stop_dottedSegment hmore
  have hdotted := hrounds.gathers (gathers_dottedSegment hop)
  refine ⟨rfl, ?_⟩
  simpa [Function.comp_def] using (hfirst.gathers hop).trans hdotted

/-- A path of names is read without comments of its own. Those around it are added by the forms that
have one. -/
theorem gathers_attrPath {p : AttrPath} (h : attrPath operand ts = .ok (p, rest)) :
    Gathers (commentLists p.nodes) ts rest := by
  obtain ⟨hcomments, hgathers⟩ := gathers_segments hop h
  rw [p.commentLists_nodes, hcomments]
  exact Gathers.nil_add_iff.mpr hgathers

/-! ### Bindings

A binding has the comments in front of it, and those in front of its marks where no operand stands
next to them. -/

theorem gathers_inheritSource {source : Option Expr} {cs : List Comment}
    (h : inheritSource operand ts = .ok ((source, cs), rest)) :
    Gathers ({cs} + commentLists (exprNodes? source)) ts rest := by
  rcases inheritSource_eq_ok_iff.mp h with
    ⟨start, us, e, mid, stop, hstart, he, hstop, rfl, rfl⟩ | ⟨-, rfl, rfl, rfl⟩
  · rw [exprNodes?]
    exact gathers_of_skipTrivia_eq hstart
      ((gathers_symbol.none_then (gathers_expression hop he)).then_none
        (gathers_expectSymbol hstop))
  · exact Gathers.nil_add_iff.mpr (.refl _)

theorem gathers_inheritedName {p : AttrPath}
    (h : inheritedName operand ts = .ok (some p, rest)) :
    Gathers (commentLists p.nodes) ts rest := by
  obtain ⟨-, -, name, hname, rfl⟩ := inheritedName_eq_some_iff.mp h
  rw [AttrPath.commentLists_nodes]
  exact (gathers_skipTrivia ts).trans (gathers_segments hop hname).2

/-- The comments of an `inherit` stand in front of it, in front of its source and in front of its
semicolon. -/
theorem gathers_inheritance {comments : List Comment} {start : Span} {b : Binding}
    (hc : Gathers {comments} ts₀ ts) (h : inheritance operand comments start ts = .ok (b, rest)) :
    Gathers (commentLists b.nodes) ts₀ rest := by
  obtain ⟨source, more, ts₁, hsource, names, ts₂, hnames, stop, hstop, rfl⟩ :=
    inheritance_eq_ok_iff.mp h
  have hrounds := rounds_of_repeated stop_inheritedName hnames
  have hfront := hc.join_left (gathers_inheritSource hop hsource)
  have hback := (gathers_skipTrivia ts₂).then_none (gathers_expectSymbol hstop)
  simpa [Binding.nodes, Node.commentLists, pathsNodes_eq, Binding.comments] using
    (hfront.extend (hrounds.gathers (gathers_inheritedName hop))).join_right hback

/-- The comments of an assignment stand in front of its name and behind it. -/
theorem gathers_assignment {comments : List Comment} {b : Binding}
    (hc : Gathers {comments} ts₀ ts) (h : assignment operand comments ts = .ok (b, rest)) :
    Gathers (commentLists b.nodes) ts₀ rest := by
  obtain ⟨name, ts₁, hname, eq, ts₂, heq, value, ts₃, hvalue, stop, hstop, rfl⟩ :=
    assignment_eq_ok_iff.mp h
  have hback := ((gathers_skipTrivia ts₁).then_none (gathers_expectSymbol heq))
  have hvalue := (gathers_expression hop hvalue).then_none (gathers_expectSymbol hstop)
  simpa [Binding.nodes, Node.commentLists, Binding.comments] using
    ((hc.trans (gathers_attrPath hop hname)).join_right hback).extend hvalue

theorem gathers_bindingUnless {closed : List Token → Bool} {b : Binding}
    (h : bindingUnless operand closed ts = .ok (some b, rest)) :
    Gathers (commentLists b.nodes) ts rest := by
  rcases binding_eq_ok_iff.mp (bindingUnless_eq_some_iff.mp h).2.2 with
    ⟨start, us, hstart, hb⟩ | ⟨-, hb⟩
  · have hc := gathers_skipTrivia ts
    rw [hstart] at hc
    exact gathers_inheritance hop (hc.then_none gathers_keyword) hb
  · exact gathers_assignment hop (gathers_skipTrivia ts) hb

omit hop in
/-- Comments behind the bindings go to the last of them, or to the form when it has none. -/
theorem gathers_attachToLast {more : List Comment} (bs : List Binding)
    (h : Gathers (V + (bs.map fun b => commentLists b.nodes).sum) ts mid)
    (h' : Gathers {more} mid rest) :
    Gathers (V + ({(attachToLast more bs).2} +
      ((attachToLast more bs).1.map fun b => commentLists b.nodes).sum)) ts rest := by
  induction bs generalizing V with
  | nil => simpa [attachToLast] using h.trans h'
  | cons b bs ih =>
    cases bs with
    | nil =>
      obtain ⟨inner, hb, hmore⟩ := b.exists_commentLists
      have hb' : Gathers ({b.comments} + (V + inner)) ts mid := by
        rw [add_left_comm, ← hb]
        simpa using h
      rw [add_left_comm]
      refine Gathers.nil_add_iff.mpr ?_
      rw [attachToLast, List.map_singleton, List.sum_singleton, hmore, add_left_comm]
      exact hb'.join_right h'
    | cons c bs =>
      have hrest := ih (V := V + commentLists b.nodes) (by simpa [add_assoc] using h)
      simpa [attachToLast, add_assoc, add_left_comm] using hrest

/-- The comments at the end of a set go to its last binding, or to the set if it has none. -/
theorem gathers_attrSet {recursive : Bool} {start : Span} {t : Term}
    (h : attrSet operand recursive start ts = .ok (t, rest)) :
    Gathers (commentLists t.nodes) ts rest := by
  obtain ⟨bs, mid, hbs, stop, hstop, rfl⟩ := attrSet_eq_ok_iff.mp h
  have hrounds := rounds_of_repeated stop_bindingUnless hbs
  have hback := (gathers_skipTrivia mid).then_none (gathers_expectSymbol hstop)
  simpa [Term.nodes, Node.commentLists, bindingsNodes_eq] using
    gathers_attachToLast (V := 0) bs
      (by simpa using hrounds.gathers (gathers_bindingUnless hop)) hback

theorem gathers_letIn {start : Span} {t : Term} (h : letIn operand start ts = .ok (t, rest)) :
    Gathers (commentLists t.nodes) ts rest := by
  obtain ⟨bs, ts₁, hbs, stop, ts₂, hstop, body, hbody, rfl⟩ := letIn_eq_ok_iff.mp h
  have hrounds := rounds_of_repeated stop_bindingUnless hbs
  have hback := (gathers_skipTrivia ts₁).then_none (gathers_expectKeyword hstop)
  have hbindings := gathers_attachToLast (V := 0) bs
    (by simpa using hrounds.gathers (gathers_bindingUnless hop)) hback
  simpa [Term.nodes, Node.commentLists, bindingsNodes_eq] using
    hbindings.trans (gathers_expression hop hbody)

/-! ### Functions

An attribute has the comments in front of it and behind its name. Those in front of the closing
brace go to the pattern. -/

theorem gathers_formal {comments : List Comment} {f : Formal}
    (hc : Gathers {comments} ts₀ ts) (h : formal operand comments ts = .ok (f, rest)) :
    Gathers (commentLists f.nodes) ts₀ rest := by
  obtain ⟨name, mid, hname, ⟨start, us, e, hstart, he, rfl⟩ | ⟨-, rfl, rfl⟩⟩ :=
    formal_eq_ok_iff.mp h
  · have hback := gathers_skipTrivia mid
    rw [hstart] at hback
    have hfront := (hc.trans (gathers_attrPath hop hname)).join_right
      (hback.then_none gathers_symbol)
    simpa [Formal.nodes, Node.commentLists, exprNodes?] using
      hfront.extend (gathers_expression hop he)
  · simpa [Formal.nodes, Node.commentLists, exprNodes?] using
      (hc.trans (gathers_attrPath hop hname)).join_right (gathers_skipTrivia mid)

/-- Attribute by attribute. The comments at the end are those of the pattern. -/
theorem ReadsPattern.gathers {body : PatternBody} (h : ReadsPattern operand ts body rest) :
    Gathers ({body.comments} + (body.formals.map fun f => commentLists f.nodes).sum) ts rest := by
  induction h with
  | @closed ts => simpa using gathers_skipTrivia ts
  | @variadic ts rest span next =>
    have hfront := gathers_skipTrivia ts
    rw [next] at hfront
    have hall := (hfront.then_none gathers_symbol).join_left (W := 0)
      (by simpa using gathers_skipTrivia rest)
    simpa using hall
  | comma head tail ih =>
    have hhead := (gathers_formal hop (gathers_skipTrivia _) head).then_none gathers_symbol
    simpa using hhead.trans ih
  | last head =>
    refine Gathers.nil_add_iff.mpr ?_
    simpa using gathers_formal hop (gathers_skipTrivia _) head

theorem gathers_patternName {whole : Option AttrPath} {cs : List Comment}
    (h : patternName operand ts = .ok ((whole, cs), rest)) :
    Gathers ({cs} + commentLists (pathNodes? whole)) ts rest := by
  rcases patternName_eq_ok_iff.mp h with
    ⟨start, us, name, mid, rfl, hname, rfl, rfl, rfl⟩ | ⟨-, rfl, rfl, rfl⟩
  · have hfront := (gathers_skipTrivia us).trans (gathers_attrPath hop hname)
    exact gathers_symbol.none_then (hfront.join_right (gathers_skipTrivia mid))
  · exact Gathers.nil_add_iff.mpr (.refl _)

/-- The comments of a pattern stand in front of its closing brace, behind it, and around the name
behind it. A name in front of the pattern has none. -/
theorem gathers_patternLambda {front : Option AttrPath} {start : Span} {t : Term}
    (hfront : ∀ name ∈ front, commentLists name.nodes = {[]})
    (h : patternLambda operand front start ts = .ok (t, rest)) :
    Gathers (commentLists t.nodes) ts rest := by
  obtain ⟨body, ts₁, hbody, stop, ts₂, hstop, whole, span, more, ts₃, hend, colon, ts₄, hcolon,
    result, hresult, rfl⟩ := patternLambda_eq_ok_iff.mp h
  have hbraces := ((readsPattern_of_patternBodyUpTo hbody).gathers hop).then_none
    (gathers_expectSymbol hstop)
  have hname : Gathers ({more} + commentLists (pathNodes? whole)) (skipTrivia ts₂) ts₃ := by
    cases front with
    | some name =>
      obtain ⟨⟨rfl, -, rfl⟩, rfl⟩ := by simpa using hend
      rw [pathNodes?, hfront name rfl]
      exact Gathers.nil_add_iff.mpr (Gathers.nil_add_iff.mpr (.refl _))
    | none => exact gathers_patternName hop (patternEnd_none_eq_ok_iff.mp hend).1
  have hresult := (gathers_expectSymbol hcolon).none_then (gathers_expression hop hresult)
  simpa [Term.nodes, Node.commentLists, Parameter.nodes, formalsNodes_eq, add_assoc] using
    ((hbraces.join_right (gathers_skipTrivia ts₂)).join hname).extend hresult

/-! ### Terms and operands

An operand is the one place where comments are taken on both sides of something, and the two lists
it has for them are filled here. -/

/-- Items hand the comments behind them on to the next item. `V` is what was gathered before, and
`pending` are the comments that were handed on. -/
theorem Rounds.gathers_items {pending : List Comment} {os : List Operand}
    (hc : Gathers ({pending} + V) ts₀ ts) (h : Rounds (item operand) ts os rest) (hos : os ≠ []) :
    Gathers (V + ((passOnComments pending os).map fun o => commentLists o.nodes).sum) ts₀ rest := by
  induction h generalizing pending V with
  | nil => exact absurd rfl hos
  | @cons ts mid rest o os head tail ih =>
    have ho := hop (item_eq_some_iff.mp head).2.2
    rw [o.commentLists_nodes] at ho
    have hjoined := hc.join ho
    cases os with
    | nil =>
      cases tail
      simpa [passOnComments, Operand.commentLists_nodes, add_left_comm] using hjoined
    | cons p os =>
      -- the comments behind `o` are handed on, and an empty list is left in their place
      have hc' : Gathers ({o.after} + (V + commentLists (Operand.nodes
          { o with before := pending ++ o.before, after := [] }))) ts₀ mid := by
        rw [Operand.commentLists_nodes]
        convert Gathers.nil_add_iff.mpr hjoined using 1
        abel
      simpa [passOnComments, add_assoc] using ih hc' (by simp)

/-- A list without items has the comments in it for itself. Else the last item has those at the
end. -/
theorem gathers_list {start : Span} {t : Term} (h : list operand start ts = .ok (t, rest)) :
    Gathers (commentLists t.nodes) ts rest := by
  obtain ⟨items, mid, hitems, stop, hstop, rfl⟩ := list_eq_ok_iff.mp h
  have hrounds := rounds_of_repeated stop_item hitems
  have hback := (gathers_skipTrivia mid).then_none (gathers_expectSymbol hstop)
  have hall : Gathers ((passOnComments [] items).map fun o => commentLists o.nodes).sum ts mid := by
    by_cases hempty : items = []
    · subst hempty
      cases hrounds
      exact .refl _
    · simpa using hrounds.gathers_items (V := 0) hop (Gathers.nil_add_iff.mpr (.refl ts)) hempty
  simpa [Term.nodes, Node.commentLists, exprsNodes_eq, Expr.nodes, List.flatMap_map, add_comm]
    using hall.trans hback

theorem gathers_conditional {start : Span} {t : Term}
    (h : conditional operand start ts = .ok (t, rest)) :
    Gathers (commentLists t.nodes) ts rest := by
  obtain ⟨condition, ts₁, hc, s₁, ts₂, hthen, consequence, ts₃, ha, s₂, ts₄, helse, alternative,
    hb, rfl⟩ := conditional_eq_ok_iff.mp h
  have hcondition := (gathers_expression hop hc).then_none (gathers_expectKeyword hthen)
  have hconsequence := (gathers_expression hop ha).then_none (gathers_expectKeyword helse)
  simpa [Term.nodes, Node.commentLists, add_assoc] using
    (hcondition.trans hconsequence).trans (gathers_expression hop hb)

theorem ReadsTerm.gathers {ctx : Context} {t : Term} (h : ReadsTerm operand ctx ts t rest) :
    Gathers (commentLists t.nodes) ts rest := by
  cases h with
  | null | bool | int | float | path =>
    simp only [Term.nodes, commentLists_cons, commentLists_nil, Node.commentLists, add_zero]
    exact gathers_token rfl .nil
  | negativeInt | negativeFloat =>
    simp only [Term.nodes, commentLists_cons, commentLists_nil, Node.commentLists, add_zero]
    exact gathers_symbol.none_then (gathers_token rfl .nil)
  | string hl => simpa [Term.nodes, Node.commentLists] using gathers_stringOf hop hl
  | interpolation hc => simpa [Term.nodes, Node.commentLists] using gathers_interpolationOf hop hc
  | name _ _ hp => simpa [Term.nodes, Node.commentLists] using gathers_attrPath hop hp
  | list h => exact gathers_symbol.none_then (gathers_list hop h)
  | attrSet _ h => exact gathers_symbol.none_then (gathers_attrSet hop h)
  | recursive hbrace h =>
    exact gathers_keyword.none_then
      ((gathers_expectSymbol hbrace).none_then (gathers_attrSet hop h))
  | @lambda name span colon ts _ _ h =>
    obtain ⟨body, hbody, rfl⟩ := lambda_eq_ok_iff.mp h
    -- the name has a list of comments, which is empty
    have hname : Gathers {[]} (⟨.identifier name, span⟩ :: ⟨.symbol .colon, colon⟩ :: ts) ts :=
      Gathers.nil_add_iff.mpr ((gathers_token rfl .nil).none_then gathers_symbol)
    simpa [Term.nodes, Node.commentLists, Parameter.nodes, AttrPath.nodes, segmentsNodes,
      Segment.nodes] using hname.trans (gathers_expression hop hbody)
  | pattern _ h => exact gathers_symbol.none_then (gathers_patternLambda hop (by simp) h)
  | @namedPattern name span atSign start ts _ _ _ h =>
    have hfront : Gathers 0 (⟨.identifier name, span⟩ :: ⟨.symbol .atSign, atSign⟩ ::
        ⟨.symbol .openBrace, start⟩ :: ts) ts :=
      (gathers_token rfl .nil).none_then (gathers_symbol.none_then gathers_symbol)
    refine hfront.none_then (gathers_patternLambda hop ?_ h)
    simp [AttrPath.nodes, segmentsNodes, Segment.nodes, Node.commentLists]
  | letIn h => exact gathers_keyword.none_then (gathers_letIn hop h)
  | import_ h =>
    obtain ⟨source, hsource, rfl⟩ := importOf_eq_ok_iff.mp h
    simpa [Term.nodes, Node.commentLists, Expr.nodes] using
      gathers_keyword.none_then (hop hsource)
  | conditional h => exact gathers_keyword.none_then (gathers_conditional hop h)
  | not h | negate _ _ h =>
    obtain ⟨o, ho, rfl⟩ := unary_eq_ok_iff.mp h
    simpa [Term.nodes, Node.commentLists, Expr.nodes] using gathers_symbol.none_then (hop ho)
  | paren h =>
    obtain ⟨body, mid, hbody, stop, hstop, rfl⟩ := paren_eq_ok_iff.mp h
    simpa [Term.nodes, Node.commentLists] using gathers_symbol.none_then
      ((gathers_expression hop hbody).then_none (gathers_expectSymbol hstop))

/-- Arguments go on with what their function has gathered. -/
theorem gathers_withArguments {ctx : Context} {head t : Term}
    (hhead : Gathers (commentLists head.nodes) ts mid)
    (h : withArguments operand ctx head mid = .ok (t, rest)) :
    Gathers (commentLists t.nodes) ts rest := by
  rcases withArguments_cases h with ⟨rfl, rfl⟩ | ⟨arguments, span, hrounds, rfl⟩
  · exact hhead
  · have hargs := hrounds.gathers (f := fun o => commentLists o.nodes) fun h => by
      obtain ⟨-, -, -, -, ho⟩ := argument_eq_some_iff.mp h
      exact hop ho
    simpa [Term.nodes, Node.commentLists, exprsNodes_eq, Expr.nodes, List.flatMap_map] using
      hhead.trans hargs

/-- The comments in front of the clauses are put together, those inside them stay there. -/
theorem Rounds.gathers_clauses {clauses : List (List Comment × Modifier)}
    (h : Rounds (clause operand) ts clauses rest) :
    Gathers ({clauses.flatMap (·.1)} + (clauses.map fun c => commentLists c.2.nodes).sum)
      ts rest := by
  induction h with
  | nil => exact Gathers.nil_add_iff.mpr (.refl _)
  | @cons ts mid rest c clauses head tail ih =>
    obtain ⟨cs, m⟩ := c
    obtain ⟨k, start, us, kind, hstart, -, subject, after, he, stop, hstop, rfl, rfl⟩ :=
      clause_eq_some_iff.mp head
    have hsubject := (gathers_expression hop he).then_none (gathers_expectSymbol hstop)
    simpa [Modifier.nodes, Node.commentLists] using
      (gathers_of_skipTrivia_eq hstart (gathers_keyword.none_then hsubject)).join ih

/-- **An operand holds the comments it was read from, if the operands inside it do.** -/
theorem gathers_operandWith {ctx : Context} {o : Operand}
    (h : operandWith operand ctx ts = .ok (o, rest)) : Gathers (commentLists o.nodes) ts rest := by
  obtain ⟨clauses, ts₁, hclauses, head, ts₂, hhead, t, ts₃, ht, rfl, rfl⟩ :=
    operandWith_eq_ok_iff.mp h
  have hrounds := rounds_of_repeated stop_clause hclauses
  have hbefore := (hrounds.gathers_clauses hop).join_right (gathers_skipTrivia ts₁)
  have hterm := gathers_withArguments hop ((termIn_eq_ok_iff.mp hhead).gathers hop) ht
  rw [Operand.commentLists_nodes]
  convert (hbefore.extend hterm).extend (gathers_skipTrivia ts₃) using 2
  simp only [List.map_map, Function.comp_def]
  abel

omit hop in
theorem gathers_operandUpTo (n : Nat) {ctx : Context} {o : Operand}
    (h : operandUpTo n ctx ts = .ok (o, rest)) : Gathers (commentLists o.nodes) ts rest := by
  induction n generalizing ctx ts o rest with
  | zero => simp [operandUpTo] at h
  | succ n ih => exact gathers_operandWith (fun _ _ _ _ h => ih h) h

end Grammar

namespace Program

variable {ts : List Token} {p : Program}

/-- The lists of a program keep the comments of its tokens. -/
theorem keeps_of_ofTokens (h : ofTokens ts = .ok p) :
    Keeps (commentLists p.body.nodes) (commentsOf ts) :=
  Grammar.keeps_complete (fun _ _ _ _ => Grammar.gathers_operandUpTo _) (complete_of_ofTokens h)

/-- **No comment is lost and none is kept twice, and no list of comments is out of order.** -/
theorem comments_kept (h : ofTokens ts = .ok p) :
    ((commentLists p.body.nodes).map Multiset.ofList).sum = commentsOf ts ∧
      ∀ l ∈ commentLists p.body.nodes, l.Sublist (commentsOf ts) :=
  ⟨(keeps_of_ofTokens h).all, (keeps_of_ofTokens h).order⟩

/-- The tokens of `[ a b ]` with comments in front of both items and behind the second, and with
one behind the end of input. -/
def listTokens : List Token :=
  [⟨.symbol .openBracket, default⟩, ⟨.comment "first" false, default⟩, ⟨.newline, default⟩,
    ⟨.identifier "a", default⟩, ⟨.comment "second" true, default⟩, ⟨.identifier "b", default⟩,
    ⟨.comment "third" true, default⟩, ⟨.symbol .closeBracket, default⟩,
    ⟨.endOfInput, default⟩, ⟨.comment "never" true, default⟩]

theorem comments_kept_listTokens :
    ∃ p, ofTokens listTokens = .ok p ∧ (commentsOf listTokens).length = 3 ∧
      ((commentLists p.body.nodes).map Multiset.ofList).sum = commentsOf listTokens ∧
      ∀ l ∈ commentLists p.body.nodes, l.Sublist (commentsOf listTokens) :=
  ⟨_, rfl, rfl, @comments_kept listTokens _ rfl⟩

end Program

end NixSyntax
