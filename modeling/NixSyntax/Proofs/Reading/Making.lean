import NixSyntax.Proofs.Chain.Parts
import NixSyntax.Proofs.Reading.Origin

/-!
# Every node is made by a rule

Each rule puts a node around the nodes that the rules inside it have made, in the order in which it
asked for them. So a tree has no node that is not the result of a rule, and none of its
interpolations is lost, doubled or moved.

## How comments come in

The nodes of a tree are listed with their comments, and some comments are attached after the rule
for the node has returned. `Made` allows for that: an operand, a path and a binding may have other
comments than the rule gave them. So the rules that pass comments on have their nodes made as well,
and only the list of nodes has to be seen to stay the same but for those comments (`nodes_with`).

## The order of interpolations

`Makes` matches the interpolations of the tokens with those of the nodes. A term in front of its
arguments, a name in front of its value, a condition in front of what it decides: the nodes are
listed in the order in which the rules read them. So the match is one of lists, and it is composed
by appending (`Makes.trans`).

## Main results

* `makes_operandWith`: from the operands inside to the operand around them
* `Program.made_of_mem_nodes`: every node of a program is the result of a rule
* `Program.interpolations_read`: the interpolations of its tokens are read one by one
-/

namespace NixSyntax

theorem Operand.eta (o : Operand) :
    Operand.mk o.modifiers o.before o.after o.term o.span = o := by
  cases o
  rfl

theorem AttrPath.eta (p : AttrPath) : AttrPath.mk p.segments p.comments p.span = p := by
  cases p
  rfl

/-- The nodes inside a binding. -/
def Binding.inside : Binding → List Node
  | .assign name value _ _ => name.nodes ++ value.nodes
  | .inherit source names _ _ => exprNodes? source ++ pathsNodes names

/-- A binding with all the nodes in it, however many comments it has got. -/
theorem Binding.nodes_addComments (b : Binding) (more : List Comment) :
    (b.addComments more).nodes = .binding (b.addComments more) :: b.inside := by
  cases b <;> simp [addComments, Binding.nodes, inside]

/-- An operand with all the nodes in it, whatever its comments are. -/
theorem Operand.nodes_with (o : Operand) (before after : List Comment) :
    ({ o with before, after } : Operand).nodes =
      .operand { o with before, after } :: (modifiersNodes o.modifiers ++ o.term.nodes) := by
  cases o
  simp [Operand.nodes]

/-- An operand is in front of the nodes inside of it. -/
theorem Operand.nodes_eq (o : Operand) :
    o.nodes = .operand o :: (modifiersNodes o.modifiers ++ o.term.nodes) := by
  cases o
  simp [Operand.nodes]

/-- A path has the same names, whatever its comments are. -/
theorem AttrPath.nodes_with (p : AttrPath) (comments : List Comment) :
    ({ p with comments } : AttrPath).nodes =
      .path { p with comments } :: segmentsNodes p.segments := by
  cases p
  simp [AttrPath.nodes]

namespace Grammar

variable {n : Nat} {ts mid rest : List Token}

/-- An operator is no node. -/
theorem makes_operator {t : Token} {op : BinaryOp} (h : t.binaryOp? = some op) :
    Makes (t :: ts) [] ts := by
  obtain ⟨kind, span⟩ := t
  obtain rfl : kind = op.kind := Token.binaryOp?_eq_some_iff.mp h
  cases op <;> exact .flat rfl rfl

section

variable (hop : ∀ ⦃ctx ts o rest⦄, operandUpTo n ctx ts = .ok (o, rest) → Makes ts o.nodes rest)
include hop

/-! ### Expressions

A chain is not a node until it is assembled. The operands are made as they are read, and the
operators between them are made of the links. -/

/-- All nodes over a chain, by the way in which they were assembled. -/
theorem makes_chain {e : Expr} (he : e.Assembled)
    (hfirst : operandUpTo n .chain ts = .ok (e.first, mid))
    (hlinks : Rounds (link (operandUpTo n)) mid e.links rest) : Makes ts e.nodes rest := by
  have hmade : Made ts (.expr e) :=
    .expr .refl hfirst e.first.eta.symm hlinks he (.inl rfl)
  induction e using Expr.sides.induct generalizing ts mid rest with
  | case1 operator left right span ihl ihr =>
    obtain ⟨hl, hr⟩ := he.sides
    obtain ⟨us, hleft, hrest⟩ := hlinks.split
    cases hrest with
    | cons head tail =>
      obtain ⟨t, vs, op, rfl, hop', -, ho⟩ := link_eq_some_iff.mp head
      have hls := ihl hl hfirst hleft
        (.expr .refl hfirst left.first.eta.symm hleft hl (.inl rfl))
      have hrs := ihr hr ho tail (.expr .refl ho right.first.eta.symm tail hr (.inl rfl))
      rw [Expr.nodes]
      exact (hls.trans ((makes_operator hop').none_then hrs)).node hmade rfl
  | case2 o =>
    cases hlinks
    rw [Expr.nodes]
    exact (hop hfirst).node hmade rfl

theorem makes_expression {e : Expr} (h : expression (operandUpTo n) ts = .ok (e, rest)) :
    Makes ts e.nodes rest := by
  obtain ⟨first, mid, hfirst, links, hlinks, rfl⟩ := expression_eq_ok_iff.mp h
  have hrounds := rounds_of_repeated stop_link hlinks
  rw [← first_assemble first links] at hfirst
  refine makes_chain hop (by simp [Expr.Assembled]) hfirst ?_
  rwa [links_assemble]

/-- An operand that is in no chain, with other comments. -/
theorem makes_moved {ctx : Context} {o : Operand} (before : List Comment) {after : List Comment}
    (hafter : after = o.after ∨ after = []) (h : operandUpTo n ctx ts = .ok (o, rest)) :
    Makes ts (Expr.operand { o with before, after }).nodes rest := by
  have hmakes := hop h
  have hinside : ∀ nd ∈ modifiersNodes o.modifiers ++ o.term.nodes, Made ts nd := fun nd hnd =>
    hmakes.made nd (by rw [o.nodes_eq]; exact List.mem_cons_of_mem _ hnd)
  obtain ⟨is, his, hmatch⟩ := hmakes.matched
  rw [o.nodes_eq] at hmatch
  rw [Expr.nodes, Operand.nodes_with]
  refine ⟨hmakes.leaves, hmakes.level, ?_, is, his, hmatch⟩
  refine List.forall_mem_cons.mpr ⟨?_, List.forall_mem_cons.mpr ⟨?_, hinside⟩⟩
  · exact .expr .refl h rfl .nil rfl (.inr rfl)
  · exact .operand .refl h hafter

/-- An operand that stands as an expression. -/
theorem makes_single {ctx : Context} {o : Operand}
    (h : operandUpTo n ctx ts = .ok (o, rest)) : Makes ts (Expr.operand o).nodes rest := by
  have hmoved := makes_moved hop o.before (.inl rfl) h
  rwa [o.eta] at hmoved

/-- The tokens of an interpolation are all made into its expression. -/
theorem makes_complete {e : Expr} (h : complete (operandUpTo n) ts = .ok e) :
    (∀ nd ∈ e.nodes, Made ts nd) ∧ List.Forall₂ ReadAs (interpolationsOf ts) e.interpolations := by
  obtain ⟨rest, he, hend⟩ := complete_eq_ok_iff.mp h
  have hmakes := makes_expression hop he
  obtain ⟨is, his, hmatch⟩ := hmakes.matched
  rw [interpolationsOf_of_atEnd hend, List.append_nil] at his
  exact ⟨hmakes.made, his ▸ hmatch⟩

/-- An interpolation is a node in front of those of its expression, and its tokens are one of the
token's lists. -/
theorem made_interpolationOf {t : Token} (ts : List Token) {i : List Token × Span}
    {c : Interpolation} (hi : i ∈ t.interpolations)
    (h : interpolationOf (operandUpTo n) i.1 i.2 = .ok c) :
    (∀ nd ∈ c.nodes, Made (t :: ts) nd) ∧
      List.Forall₂ ReadAs (i :: interpolationsOf i.1) (c.nodes.filterMap Node.interpolation?) := by
  obtain ⟨body, hbody, rfl⟩ := interpolationOf_eq_ok_iff.mp h
  obtain ⟨hmade, hmatch⟩ := makes_complete hop hbody
  rw [Interpolation.nodes]
  refine ⟨List.forall_mem_cons.mpr ⟨.interpolation .refl hi h, fun nd hnd => ?_⟩, ?_⟩
  · exact (hmade nd hnd).of_inside (.within hi .refl)
  · exact .cons ⟨n, h⟩ hmatch

theorem makes_interpolationOf {tokens : List Token} {span : Span} {c : Interpolation}
    (h : interpolationOf (operandUpTo n) tokens span = .ok c) :
    Makes (⟨.interpolation tokens, span⟩ :: ts) c.nodes ts := by
  have hi : (tokens, span) ∈ Token.interpolations ⟨.interpolation tokens, span⟩ := by
    simp [Token.interpolations]
  obtain ⟨hmade, hmatch⟩ := made_interpolationOf hop ts hi h
  exact .token rfl rfl hmade (by simpa [Token.allInterpolations] using hmatch)

/-! ### Strings and names

A string is made of one token, and each interpolation in it of those between its braces. -/

theorem ReadsParts.made {t : Token} (ts : List Token) {fragments : List StringFragment}
    {parts : List StringPart}
    (hi : ∀ i ∈ fragments.filterMap StringFragment.interpolation?, i ∈ t.interpolations)
    (h : ReadsParts (operandUpTo n) fragments parts) :
    (∀ nd ∈ partsNodes parts, Made (t :: ts) nd) ∧
      List.Forall₂ ReadAs (fragmentsInterpolations fragments)
        ((partsNodes parts).filterMap Node.interpolation?) := by
  induction h with
  | nil => simp [partsNodes, fragmentsInterpolations]
  | text _ ih =>
    simpa [fragmentsInterpolations, partsNodes, StringPart.nodes,
      StringFragment.allInterpolations] using
      ih (by simpa [StringFragment.interpolation?] using hi)
  | @interpolation tokens span _ fragments _ hc _ ih =>
    obtain ⟨hfirst, hrest⟩ : (tokens, span) ∈ t.interpolations ∧
        ∀ i ∈ fragments.filterMap StringFragment.interpolation?, i ∈ t.interpolations := by
      simpa [StringFragment.interpolation?] using hi
    obtain ⟨hmade, hmatch⟩ := made_interpolationOf hop ts hfirst hc
    obtain ⟨hmade', hmatch'⟩ := ih hrest
    rw [fragmentsInterpolations, partsNodes, StringPart.nodes, List.filterMap_append,
      StringFragment.allInterpolations]
    exact ⟨List.forall_mem_append.mpr ⟨hmade, hmade'⟩, List.rel_append hmatch hmatch'⟩

theorem makes_stringOf {fragments : List StringFragment} {multiline : Bool} {span : Span}
    {s : StringLiteral} (h : stringOf (operandUpTo n) fragments multiline span = .ok s) :
    Makes (⟨.string fragments multiline, span⟩ :: ts) s.nodes ts := by
  obtain ⟨parts, hparts, rfl⟩ := stringOf_eq_ok_iff.mp h
  obtain ⟨hmade, hmatch⟩ := hparts.made hop (t := ⟨.string fragments multiline, span⟩) ts
    (by simp [Token.interpolations])
  rw [StringLiteral.nodes]
  exact (Makes.token rfl rfl hmade (by simpa [Token.allInterpolations] using hmatch)).node
    (.string .refl h) rfl

/-- A name is made of its token. -/
theorem ReadsSegment.makes {s : Segment} {span : Span}
    (h : ReadsSegment (operandUpTo n) ts s span rest) : Makes ts s.nodes rest := by
  cases h with
  | name =>
    rw [Segment.nodes]
    exact .flat rfl rfl
  | string hl =>
    rw [Segment.nodes]
    exact makes_stringOf hop hl
  | interpolation hc =>
    rw [Segment.nodes]
    exact makes_interpolationOf hop hc

/-- A path of names, with any comments. -/
theorem makes_attrPath {p : AttrPath} (comments : List Comment)
    (h : attrPath (operandUpTo n) ts = .ok (p, rest)) :
    Makes ts ({ p with comments } : AttrPath).nodes rest := by
  have hmade : Made ts (.path { p with comments }) := .path .refl h
  obtain ⟨first, start, mid, hfirst, more, hmore, rfl⟩ := attrPath_eq_ok_iff.mp h
  have hrounds := rounds_of_repeated stop_dottedSegment hmore
  have hdotted := hrounds.makes (f := fun m => m.1.nodes) fun {_ m _} hm => by
    obtain ⟨dot, us, rfl, hs⟩ := dottedSegment_eq_some_iff.mp hm
    exact (makes_mark rfl).none_then (hs.makes hop)
  rw [AttrPath.nodes_with]
  refine Makes.node hmade rfl ?_
  simpa [segmentsNodes_eq, List.flatMap_map] using (hfirst.makes hop).trans hdotted

/-- A path of names that has no comments yet. -/
theorem makes_path {p : AttrPath} (h : attrPath (operandUpTo n) ts = .ok (p, rest)) :
    Makes ts p.nodes rest := by
  have hpath := makes_attrPath hop p.comments h
  rwa [p.eta] at hpath

omit hop in
/-- The name of a function's argument. -/
theorem makes_argumentName {name : String} {span : Span} :
    Makes (⟨.identifier name, span⟩ :: ts) (AttrPath.nodes ⟨[.name name], [], span⟩) ts := by
  simp only [AttrPath.nodes, segmentsNodes, Segment.nodes, List.append_nil]
  exact (Makes.flat rfl rfl).node .argumentName rfl

/-! ### Bindings

A binding is made with the comments that it has in the end. -/

theorem makes_inheritSource {source : Option Expr} {cs : List Comment}
    (h : inheritSource (operandUpTo n) ts = .ok ((source, cs), rest)) :
    Makes ts (exprNodes? source) rest := by
  rcases inheritSource_eq_ok_iff.mp h with
    ⟨start, us, e, mid, stop, hstart, he, hstop, rfl, -⟩ | ⟨-, rfl, -, rfl⟩
  · have hparen := (makes_expression hop he).then_none (makes_expectSymbol rfl hstop)
    rw [exprNodes?]
    exact .of_skipTrivia_eq hstart ((makes_mark rfl).none_then hparen)
  · rw [exprNodes?]
    exact .refl _

theorem makes_inheritedName {p : AttrPath}
    (h : inheritedName (operandUpTo n) ts = .ok (some p, rest)) : Makes ts p.nodes rest := by
  obtain ⟨-, -, name, hname, rfl⟩ := inheritedName_eq_some_iff.mp h
  exact .of_skipTrivia (makes_attrPath hop _ hname)

theorem makes_inheritance {comments : List Comment} {start : Span} {b : Binding}
    (h : inheritance (operandUpTo n) comments start ts = .ok (b, rest)) :
    Makes (⟨.keyword .inherit, start⟩ :: ts) b.inside rest := by
  obtain ⟨source, cs, ts₁, hsource, names, ts₂, hnames, stop, hstop, rfl⟩ :=
    inheritance_eq_ok_iff.mp h
  have hrounds := rounds_of_repeated stop_inheritedName hnames
  have hinside := (makes_inheritSource hop hsource).trans (hrounds.makes (makes_inheritedName hop))
  have hclose := Makes.of_skipTrivia (makes_expectSymbol rfl hstop)
  rw [Binding.inside, pathsNodes_eq]
  exact makes_keyword.none_then (hinside.then_none hclose)

theorem makes_assignment {comments : List Comment} {b : Binding}
    (h : assignment (operandUpTo n) comments ts = .ok (b, rest)) : Makes ts b.inside rest := by
  obtain ⟨name, ts₁, hname, eq, ts₂, heq, value, ts₃, hvalue, stop, hstop, rfl⟩ :=
    assignment_eq_ok_iff.mp h
  have heq := Makes.of_skipTrivia (makes_expectSymbol rfl heq)
  have hvalue := (makes_expression hop hvalue).then_none (makes_expectSymbol rfl hstop)
  exact (makes_path hop hname).trans (heq.none_then hvalue)

/-- A binding, with more comments. -/
theorem makes_bindingUnless {closed : List Token → Bool} {b : Binding} (more : List Comment)
    (h : bindingUnless (operandUpTo n) closed ts = .ok (some b, rest)) :
    Makes ts (b.addComments more).nodes rest := by
  have hb := (bindingUnless_eq_some_iff.mp h).2.2
  have hinside : Makes ts b.inside rest := by
    rcases binding_eq_ok_iff.mp hb with ⟨start, us, hstart, h'⟩ | ⟨-, h'⟩
    · exact .of_skipTrivia_eq hstart (makes_inheritance hop h')
    · exact .of_skipTrivia (makes_assignment hop h')
  rw [b.nodes_addComments]
  exact hinside.node (.binding .refl hb) rfl

/-- The last binding may get comments, and is made nevertheless. -/
theorem makes_attachToLast {closed : List Token → Bool} {bs : List Binding} (more : List Comment)
    (h : Rounds (bindingUnless (operandUpTo n) closed) ts bs rest) :
    Makes ts (bindingsNodes (attachToLast more bs).1) rest := by
  induction h with
  | nil => exact .refl _
  | @cons ts mid rest b bs head tail ih =>
    cases bs with
    | nil =>
      cases tail
      simpa [attachToLast, bindingsNodes] using makes_bindingUnless hop more head
    | cons c bs =>
      have hb := makes_bindingUnless hop [] head
      rw [show b.addComments [] = b by cases b <;> simp [Binding.addComments]] at hb
      simpa [attachToLast, bindingsNodes] using hb.trans ih

theorem makes_bindings {closed : List Token → Bool} {bs : List Binding} (more : List Comment)
    (h : repeated (bindingUnless (operandUpTo n) closed) ts = .ok (bs, rest)) :
    Makes ts (bindingsNodes (attachToLast more bs).1) rest :=
  makes_attachToLast hop more (rounds_of_repeated stop_bindingUnless h)

/-- What is inside a set, from its opening brace on. -/
theorem makes_attrSet {recursive : Bool} {start : Span} (brace : Span) {t : Term}
    (h : attrSet (operandUpTo n) recursive start ts = .ok (t, rest)) :
    ∃ ns, t.nodes = .term t :: ns ∧ Makes (⟨.symbol .openBrace, brace⟩ :: ts) ns rest := by
  obtain ⟨bs, mid, hbs, stop, hstop, rfl⟩ := attrSet_eq_ok_iff.mp h
  have hclose := skipTrivia_of_expectSymbol hstop
  rw [skipTrivia_skipTrivia] at hclose
  rw [Term.nodes]
  exact ⟨_, rfl, (makes_bindings hop _ hbs).braces hclose⟩

theorem makes_letIn {start : Span} {t : Term}
    (h : letIn (operandUpTo n) start ts = .ok (t, rest)) :
    ∃ ns, t.nodes = .term t :: ns ∧ Makes (⟨.keyword .let_, start⟩ :: ts) ns rest := by
  obtain ⟨bs, ts₁, hbs, stop, ts₂, hin, body, hbody, rfl⟩ := letIn_eq_ok_iff.mp h
  have hin := Makes.of_skipTrivia (makes_expectKeyword hin)
  rw [Term.nodes]
  exact ⟨_, rfl, makes_keyword.none_then ((makes_bindings hop _ hbs).trans
    (hin.none_then (makes_expression hop hbody)))⟩

/-! ### Functions

The parameter of a function is made before the body. A name in front of a pattern has been read as a
token only, and is made without a rule. -/

theorem makes_formal {comments : List Comment} {f : Formal}
    (h : formal (operandUpTo n) comments ts = .ok (f, rest)) : Makes ts f.nodes rest := by
  have hmade : Made ts (.formal f) := .formal .refl h
  obtain ⟨name, mid, hname, ⟨start, us, e, hstart, he, rfl⟩ | ⟨-, rfl, rfl⟩⟩ :=
    formal_eq_ok_iff.mp h
  · have hfallback := Makes.of_skipTrivia_eq hstart
      ((makes_mark rfl).none_then (makes_expression hop he))
    rw [Formal.nodes, exprNodes?]
    exact ((makes_path hop hname).trans hfallback).node hmade rfl
  · rw [Formal.nodes, exprNodes?, List.append_nil]
    exact (makes_path hop hname).skipTrivia_right.node hmade rfl

/-- The attributes between the braces, one behind the other. -/
theorem ReadsPattern.makes {body : PatternBody}
    (h : ReadsPattern (operandUpTo n) ts body rest) :
    Makes ts (formalsNodes body.formals) rest := by
  induction h with
  | @closed ts rest span next =>
    rw [formalsNodes]
    exact makes_skipTrivia ts
  | @variadic ts rest span next =>
    rw [formalsNodes]
    exact .of_skipTrivia_eq next ((makes_mark rfl).then_none (makes_skipTrivia rest))
  | comma head tail ih =>
    rw [formalsNodes]
    exact (Makes.of_skipTrivia (makes_formal hop head)).trans ((makes_mark rfl).none_then ih)
  | last head =>
    rw [formalsNodes, formalsNodes, List.append_nil]
    exact .of_skipTrivia (makes_formal hop head)

theorem makes_patternName {whole : Option AttrPath} {cs : List Comment}
    (h : patternName (operandUpTo n) ts = .ok ((whole, cs), rest)) :
    Makes ts (pathNodes? whole) rest := by
  rcases patternName_eq_ok_iff.mp h with
    ⟨start, us, name, mid, rfl, hname, rfl, -, rfl⟩ | ⟨-, rfl, -, rfl⟩
  · rw [pathNodes?]
    exact (makes_mark rfl).none_then (Makes.of_skipTrivia (makes_path hop hname)).skipTrivia_right
  · rw [pathNodes?]
    exact .refl _

/-- What is between the braces of a pattern, from its opening brace to its closing one. -/
theorem makes_braces {body : PatternBody} (brace : Span) {stop : Span}
    (hbody : patternBody (operandUpTo n) ts = .ok (body, mid))
    (hstop : expectSymbol .closeBrace mid = .ok (stop, rest)) :
    Makes (⟨.symbol .openBrace, brace⟩ :: ts) (formalsNodes body.formals) rest :=
  ((readsPattern_of_patternBodyUpTo hbody).makes hop).braces
    (skipTrivia_of_expectSymbol hstop)

/-- A pattern with a name behind it, or with none. -/
theorem makes_pattern {start : Span} {t : Term}
    (h : patternLambda (operandUpTo n) none start ts = .ok (t, rest)) :
    ∃ ns, t.nodes = .term t :: ns ∧ Makes (⟨.symbol .openBrace, start⟩ :: ts) ns rest := by
  have hlambda := h
  obtain ⟨body, ts₁, hbody, stop, ts₂, hstop, whole, span, more, ts₃, hend, colon, ts₄, hcolon,
    result, hresult, rfl⟩ := patternLambda_eq_ok_iff.mp h
  have hbraces := makes_braces hop start hbody hstop
  have hname := Makes.of_skipTrivia (makes_patternName hop (patternEnd_none_eq_ok_iff.mp hend).1)
  have hresult := (makes_expectSymbol rfl hcolon).none_then (makes_expression hop hresult)
  rw [Term.nodes, Parameter.nodes]
  refine ⟨_, rfl, (Makes.node ?_ rfl (hbraces.trans hname)).trans hresult⟩
  exact .pattern (.behind .refl) (by simp) hlambda

/-- A pattern with a name in front of it. -/
theorem makes_namedPattern {name : String} {span atSign start : Span} {t : Term}
    (h : patternLambda (operandUpTo n) (some ⟨[.name name], [], span⟩) start ts =
      .ok (t, rest)) :
    ∃ ns, t.nodes = .term t :: ns ∧ Makes (⟨.identifier name, span⟩ ::
      ⟨.symbol .atSign, atSign⟩ :: ⟨.symbol .openBrace, start⟩ :: ts) ns rest := by
  have hlambda := h
  obtain ⟨body, ts₁, hbody, stop, ts₂, hstop, whole, whole_span, more, ts₃, hend, colon, ts₄,
    hcolon, result, hresult, rfl⟩ := patternLambda_eq_ok_iff.mp h
  obtain ⟨⟨rfl, -⟩, rfl⟩ := by simpa using hend
  have hbraces := makes_braces hop start hbody hstop
  have hfront : Makes (⟨.identifier name, span⟩ :: ⟨.symbol .atSign, atSign⟩ ::
      ⟨.symbol .openBrace, start⟩ :: ts) (formalsNodes body.formals) ts₂ :=
    (Makes.flat rfl rfl).none_then ((makes_mark rfl).none_then hbraces)
  have hresult := (makes_expectSymbol rfl hcolon).none_then (makes_expression hop hresult)
  rw [Term.nodes, Parameter.nodes]
  refine ⟨_, rfl, Makes.trans (Makes.node ?_ rfl ?_) (.of_skipTrivia hresult)⟩
  · exact .pattern (.behind (.behind (.behind .refl))) (by simp) hlambda
  · -- the name is a node too, although its token stands in front of the braces
    obtain ⟨is, his, hmatch⟩ := hfront.matched
    refine ⟨hfront.leaves, hfront.level, ?_, is, his, ?_⟩
    · simp only [pathNodes?, AttrPath.nodes, segmentsNodes, Segment.nodes, List.append_nil,
        List.forall_mem_append, List.forall_mem_singleton]
      exact ⟨hfront.made, .argumentName⟩
    · simp only [pathNodes?, AttrPath.nodes, segmentsNodes, Segment.nodes, List.append_nil,
        List.filterMap_append]
      rw [List.filterMap_cons_none rfl, List.filterMap_nil, List.append_nil]
      exact hmatch

/-! ### Terms and operands

A form is a node, with what is inside of it behind. Clauses are in front of the term, as they are in
the text. -/

/-- Items stay where they are when comments move from one to the next. -/
theorem makes_passOnComments {os : List Operand} (pending : List Comment)
    (h : Rounds (item (operandUpTo n)) ts os rest) :
    Makes ts (exprsNodes ((passOnComments pending os).map .operand)) rest := by
  induction h generalizing pending with
  | nil => exact .refl _
  | @cons ts mid rest o os head tail ih =>
    have ho := (item_eq_some_iff.mp head).2.2
    cases os with
    | nil =>
      cases tail
      simpa [passOnComments, exprsNodes] using makes_moved hop (pending ++ o.before) (.inl rfl) ho
    | cons p os =>
      have hmoved := makes_moved hop (pending ++ o.before) (.inr (Eq.refl [])) ho
      simpa [passOnComments, exprsNodes] using hmoved.trans (ih o.after)

theorem makes_list {start : Span} {t : Term}
    (h : list (operandUpTo n) start ts = .ok (t, rest)) :
    ∃ ns, t.nodes = .term t :: ns ∧ Makes (⟨.symbol .openBracket, start⟩ :: ts) ns rest := by
  obtain ⟨items, mid, hitems, stop, hstop, rfl⟩ := list_eq_ok_iff.mp h
  have hinside := makes_passOnComments hop [] (rounds_of_repeated stop_item hitems)
  have hclose := Makes.of_skipTrivia (makes_expectSymbol rfl hstop)
  rw [Term.nodes]
  exact ⟨_, rfl, (makes_mark rfl).none_then (hinside.then_none hclose)⟩

theorem makes_paren {start : Span} {t : Term}
    (h : paren (operandUpTo n) start ts = .ok (t, rest)) :
    ∃ ns, t.nodes = .term t :: ns ∧ Makes (⟨.symbol .openParen, start⟩ :: ts) ns rest := by
  obtain ⟨body, mid, hbody, stop, hstop, rfl⟩ := paren_eq_ok_iff.mp h
  have hbody := (makes_expression hop hbody).then_none (makes_expectSymbol rfl hstop)
  rw [Term.nodes]
  exact ⟨_, rfl, (makes_mark rfl).none_then hbody⟩

theorem makes_conditional {start : Span} {t : Term}
    (h : conditional (operandUpTo n) start ts = .ok (t, rest)) :
    ∃ ns, t.nodes = .term t :: ns ∧ Makes (⟨.keyword .if_, start⟩ :: ts) ns rest := by
  obtain ⟨condition, ts₁, hc, s₁, ts₂, hthen, consequence, ts₃, ha, s₂, ts₄, helse, alternative,
    hb, rfl⟩ := conditional_eq_ok_iff.mp h
  have hc := (makes_expression hop hc).then_none (makes_expectKeyword hthen)
  have ha := (makes_expression hop ha).then_none (makes_expectKeyword helse)
  rw [Term.nodes]
  exact ⟨_, rfl, makes_keyword.none_then (hc.trans (ha.trans (makes_expression hop hb)))⟩

theorem makes_importOf {start : Span} {t : Term}
    (h : importOf (operandUpTo n) start ts = .ok (t, rest)) :
    ∃ ns, t.nodes = .term t :: ns ∧ Makes (⟨.keyword .import_, start⟩ :: ts) ns rest := by
  obtain ⟨source, hsource, rfl⟩ := importOf_eq_ok_iff.mp h
  rw [Term.nodes]
  exact ⟨_, rfl, makes_keyword.none_then (makes_single hop hsource)⟩

theorem makes_unary {ctx : Context} {op : UnaryOp} {start : Span} {t : Term}
    (h : unary (operandUpTo n) ctx op start ts = .ok (t, rest)) :
    ∃ ns, t.nodes = .term t :: ns ∧ Makes (⟨.symbol op.mark, start⟩ :: ts) ns rest := by
  obtain ⟨o, ho, rfl⟩ := unary_eq_ok_iff.mp h
  rw [Term.nodes]
  exact ⟨_, rfl, (makes_mark (by cases op <;> rfl)).none_then (makes_single hop ho)⟩

/-- A term has its own node in front of the nodes made inside it. -/
theorem ReadsTerm.makes_inside {ctx : Context} {t : Term}
    (h : ReadsTerm (operandUpTo n) ctx ts t rest) :
    ∃ ns, t.nodes = .term t :: ns ∧ Makes ts ns rest := by
  cases h with
  | null | bool | int | float | path => exact ⟨[], by simp [Term.nodes], .flat rfl rfl⟩
  | negativeInt | negativeFloat =>
    exact ⟨[], by simp [Term.nodes], (makes_mark rfl).none_then (.flat rfl rfl)⟩
  | string hl => exact ⟨_, by rw [Term.nodes], makes_stringOf hop hl⟩
  | interpolation hc => exact ⟨_, by rw [Term.nodes], makes_interpolationOf hop hc⟩
  | name _ _ hp => exact ⟨_, by rw [Term.nodes], makes_path hop hp⟩
  | list h => exact makes_list hop h
  | attrSet _ h => exact makes_attrSet hop _ h
  | @recursive start brace ts us rest t hbrace h =>
    obtain ⟨ns, hns, hmakes⟩ := makes_attrSet hop brace h
    have hopen := skipTrivia_of_expectSymbol hbrace
    exact ⟨ns, hns, makes_keyword.none_then (.of_skipTrivia_eq hopen hmakes)⟩
  -- the parameter is a node that no rule of its own makes
  | @lambda name span colon ts rest t h =>
    obtain ⟨body, hbody, rfl⟩ := lambda_eq_ok_iff.mp h
    have hcolon : Makes (⟨.symbol .colon, colon⟩ :: ts) [] ts := makes_mark rfl
    have hbody := hcolon.none_then (makes_expression hop hbody)
    rw [Term.nodes, Parameter.nodes]
    exact ⟨_, rfl, (makes_argumentName.node .named rfl).trans hbody⟩
  | pattern _ h => exact makes_pattern hop h
  | namedPattern _ h => exact makes_namedPattern hop h
  | letIn h => exact makes_letIn hop h
  | import_ h => exact makes_importOf hop h
  | conditional h => exact makes_conditional hop h
  | not h => exact makes_unary hop h
  | negate _ _ h => exact makes_unary hop h
  | paren h => exact makes_paren hop h

/-- A term with its own node. -/
theorem ReadsTerm.makes {ctx : Context} {t : Term}
    (h : ReadsTerm (operandUpTo n) ctx ts t rest) : Makes ts t.nodes rest := by
  obtain ⟨ns, hns, hmakes⟩ := h.makes_inside hop
  rw [hns]
  exact hmakes.node (.term .refl h) rfl

/-- A call has the node of its function and those of its arguments inside it. -/
theorem makes_withArguments {ctx : Context} {head t : Term}
    (hhead : ReadsTerm (operandUpTo n) ctx ts head mid)
    (h : withArguments (operandUpTo n) ctx head mid = .ok (t, rest)) : Makes ts t.nodes rest := by
  rw [withArguments] at h
  split at h
  · next hcallable =>
    obtain ⟨rfl, hcallable⟩ : ctx = .chain ∧ head.isCallable = true := by simpa using hcallable
    have happlied := h
    obtain ⟨arguments, harguments, ⟨rfl, rfl⟩ | ⟨last, -, rfl⟩⟩ := applied_eq_ok_iff.mp h
    · cases rounds_of_repeated stop_argument harguments
      exact hhead.makes hop
    · have hrounds := (rounds_of_repeated stop_argument harguments).makes
        (f := fun o => (Expr.operand o).nodes) fun {_ o _} ho => by
          obtain ⟨-, -, -, -, ho⟩ := argument_eq_some_iff.mp ho
          exact makes_single hop ho
      rw [Term.nodes, exprsNodes_eq, List.flatMap_map]
      exact ((hhead.makes hop).trans hrounds).node (.call .refl hhead hcallable happlied) rfl
  · obtain ⟨rfl, rfl⟩ := by simpa using h
    exact hhead.makes hop

theorem makes_clause {c : List Comment × Modifier}
    (h : clause (operandUpTo n) ts = .ok (some c, rest)) : Makes ts c.2.nodes rest := by
  have hmade : Made ts (.modifier c.2) := .modifier .refl h
  obtain ⟨cs, m⟩ := c
  obtain ⟨k, start, us, kind, hstart, -, subject, mid, he, stop, hstop, -, rfl⟩ :=
    clause_eq_some_iff.mp h
  have hsubject := (makes_expression hop he).then_none (makes_expectSymbol rfl hstop)
  rw [Modifier.nodes]
  exact (Makes.of_skipTrivia_eq hstart (makes_keyword.none_then hsubject)).node hmade rfl

/-- **An operand is made of what was read, if the operands inside it are.** -/
theorem makes_operandWith {ctx : Context} {o : Operand}
    (h : operandUpTo (n + 1) ctx ts = .ok (o, rest)) : Makes ts o.nodes rest := by
  have hmade : Made ts (.operand o) := by
    have hmoved : Made ts (.operand ⟨o.modifiers, o.before, o.after, o.term, o.span⟩) :=
      .operand .refl h (.inl rfl)
    rwa [o.eta] at hmoved
  obtain ⟨clauses, ts₁, hclauses, head, ts₂, hhead, t, ts₃, ht, rfl, rfl⟩ :=
    operandWith_eq_ok_iff.mp h
  have hrounds := (rounds_of_repeated stop_clause hclauses).makes
    (f := fun c : List Comment × Modifier => c.2.nodes) (makes_clause hop)
  have hterm := makes_withArguments hop (termIn_eq_ok_iff.mp hhead) ht
  rw [Operand.nodes, modifiersNodes_eq, List.flatMap_map]
  exact (hrounds.trans (Makes.of_skipTrivia hterm).skipTrivia_right).node hmade rfl

end

/-- By induction on the bound. -/
theorem makes_operandUpTo (n : Nat) {ctx : Context} {o : Operand}
    (h : operandUpTo n ctx ts = .ok (o, rest)) : Makes ts o.nodes rest := by
  induction n generalizing ctx ts o rest with
  | zero => simp [operandUpTo] at h
  | succ n ih => exact makes_operandWith (fun _ _ _ _ h => ih h) h

/-- The braces of a pattern match. -/
theorem behindBraces_of_patternBody {body : PatternBody} {stop : Span}
    (h : patternBody (operandUpTo n) ts = .ok (body, mid))
    (hstop : expectSymbol .closeBrace mid = .ok (stop, rest)) : behindBraces 0 ts = some rest := by
  have hlevel := ((readsPattern_of_patternBodyUpTo h).makes
    fun _ _ _ _ => makes_operandUpTo n).skipTrivia_right.level 0
  rwa [skipTrivia_of_expectSymbol hstop] at hlevel

/-- What was read as a pattern looks like one. -/
theorem opensPattern_of_patternLambda {front : Option AttrPath} {start : Span} {t : Term}
    (h : patternLambda (operandUpTo n) front start ts = .ok (t, rest)) :
    opensPattern front.isSome ts = true := by
  obtain ⟨body, ts₁, hbody, stop, ts₂, hstop, whole, span, more, ts₃, hend, colon, ts₄, hcolon,
    -⟩ := patternLambda_eq_ok_iff.mp h
  have hclosed := behindBraces_of_patternBody hbody hstop
  have hcolon' := skipTrivia_of_expectSymbol hcolon
  rw [opensPattern, hclosed, Bool.or_eq_true]
  cases front with
  | some name =>
    obtain ⟨-, rfl⟩ := by simpa using hend
    exact .inl (nextIsSymbol_iff.mpr ⟨colon, ts₄, by rw [← hcolon', skipTrivia_skipTrivia]⟩)
  | none =>
    rcases patternName_eq_ok_iff.mp (patternEnd_none_eq_ok_iff.mp hend).1 with
      ⟨at_, us, name, mid, hat, -⟩ | ⟨-, -, -, rfl⟩
    · refine .inr ?_
      rw [nextIsSymbol_iff.mpr ⟨at_, us, hat⟩]
      rfl
    · exact .inl (nextIsSymbol_iff.mpr ⟨colon, ts₄, by rw [← hcolon', skipTrivia_skipTrivia]⟩)

end Grammar

namespace Program

variable {ts : List Token} {p : Program}

/-- **Every node of a program is the result of a rule**, applied to some of its tokens. -/
theorem made_of_mem_nodes (h : ofTokens ts = .ok p) {nd : Node} (hnd : nd ∈ p.body.nodes) :
    Grammar.Made ts nd :=
  (Grammar.makes_complete (fun _ _ _ _ => Grammar.makes_operandUpTo _)
    (complete_of_ofTokens h)).1 nd hnd

/-- The interpolations of a program are read one by one: those of the tokens are, in their order,
those of the tree. -/
theorem interpolations_read (h : ofTokens ts = .ok p) :
    List.Forall₂ Grammar.ReadAs (interpolationsOf ts) p.body.interpolations :=
  (Grammar.makes_complete (fun _ _ _ _ => Grammar.makes_operandUpTo _)
    (complete_of_ofTokens h)).2

end Program

end NixSyntax
