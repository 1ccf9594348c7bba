import NixSyntax.Proofs.Cursor.Reach
import NixSyntax.Proofs.Lexing.Turns
import NixSyntax.Proofs.Reading.Making

/-!
# Each opening brace opens a term

No rule passes over an opening brace unless it has a use for it. A brace is where a term begins, or
it is behind the `rec` of a set, or behind a name and the `@` that names a pattern. So each opening
brace that a rule has passed, in its tokens or in an interpolation among them, belongs to a term,
and this term is a node of what the rule has made.

## What has to be carried along

The braces of a piece of program are those at the places of a cursor (`Reached`), in front of the
tokens that the rule has left. For those at the places behind, nothing can be said yet, and that is
why `Tells` gives a choice: a brace at a place of `ts` is at a place of `rest`, or it is told. Two
parts of a rule then follow one another (`Tells.trans`), and at the end of a program no place is
left, so that all braces are told (`Tells.told`).

Only the rules for terms pass an opening brace, and they know the term they are making. All other
rules pass marks that are no opening braces, and pass on what the rules inside them tell. A node
around these has more terms than they have, and never fewer (`Tells.mono`).

Comments are moved from one place of the tree to another when a list or a block of bindings is put
together. Terms stay where they are (`term_mem_passOnComments`, `term_mem_attachToLast`).

## Main definitions

* `Opens`: the use of an opening brace
* `Told`, `Tells`: terms among some nodes have all opening braces, or those in front of the tokens
  that are left

## Main results

* `ReadsTerm.tells`: a term tells of its own brace and of those inside it
* `tells_operandWith`: from the operands inside to the operand around them
* `Program.exists_opens`: each opening brace of a program opens a term of it
-/

namespace NixSyntax

/-- The terms of an operator expression are those of its operands. -/
theorem Expr.term_mem_nodes_iff {t : Term} : (e : Expr) →
    (.term t ∈ e.nodes ↔ .term t ∈ e.first.nodes ++ e.links.flatMap fun l => l.2.nodes)
  | .operand o => by simp [Expr.nodes, Expr.first, Expr.links]
  | .binary operator left right span => by
    have hleft := left.term_mem_nodes_iff (t := t)
    have hright := right.term_mem_nodes_iff (t := t)
    simp only [List.mem_append] at hleft hright
    simp only [Expr.nodes, Expr.first, Expr.links, List.flatMap_append, List.flatMap_cons,
      List.mem_cons, List.mem_append, reduceCtorEq, false_or, hleft, hright, or_assoc]

namespace Grammar

variable {n : Nat} {ts us mid rest : List Token} {ns ns' : List Node} {t : Token} {start : Span}

/-! ### The use of a brace

There are three, by what stands in front of the brace: nothing that belongs to the term, the keyword
of a recursive set, or the name of a pattern. -/

/-- A rule has read the term `t`, and in the tokens `input` the opening brace in front of `vs` opens
it. -/
inductive Opens (input : List Token) (t : Term) (start : Span) (vs : List Token) : Prop
  /-- The term begins with the brace. -/
  | operand {n : Nat} {ctx : Context} {rest : List Token}
      (reads : ReadsTerm (operandUpTo n) ctx (⟨.symbol .openBrace, start⟩ :: vs) t rest) :
      Opens input t start vs
  /-- The brace is behind the keyword of a recursive set. -/
  | recursive {n : Nat} {ctx : Context} {keyword : Span} {ts rest : List Token}
      (reached : Reached (⟨.keyword .rec_, keyword⟩ :: ts) input)
      (brace_eq : expectSymbol .openBrace ts = .ok (start, vs))
      (reads : ReadsTerm (operandUpTo n) ctx (⟨.keyword .rec_, keyword⟩ :: ts) t rest) :
      Opens input t start vs
  /-- The brace is behind the name of a pattern. -/
  | named {n : Nat} {ctx : Context} {name : String} {span atSign : Span} {rest : List Token}
      (reached : Reached (⟨.identifier name, span⟩ :: ⟨.symbol .atSign, atSign⟩ ::
        ⟨.symbol .openBrace, start⟩ :: vs) input)
      (opens : opensPattern true vs = true)
      (reads : ReadsTerm (operandUpTo n) ctx (⟨.identifier name, span⟩ ::
        ⟨.symbol .atSign, atSign⟩ :: ⟨.symbol .openBrace, start⟩ :: vs) t rest) :
      Opens input t start vs

/-- A part of the tokens is read. -/
theorem Opens.of_reached {t : Term} {vs : List Token} (h : Opens us t start vs)
    (hreached : Reached us ts) : Opens ts t start vs := by
  cases h with
  | operand reads => exact .operand reads
  | recursive reached brace_eq reads => exact .recursive (reached.trans hreached) brace_eq reads
  | named reached opens reads => exact .named (reached.trans hreached) opens reads

/-- Each opening brace among the tokens opens a term among the nodes. -/
def Told (ns : List Node) (ts : List Token) : Prop :=
  ∀ ⦃start vs⦄, Reached (⟨.symbol .openBrace, start⟩ :: vs) ts →
    ∃ t, .term t ∈ ns ∧ Opens ts t start vs

/-- Each opening brace among the tokens in front of `rest` opens a term among the nodes. -/
structure Tells (ts : List Token) (ns : List Node) (rest : List Token) : Prop where
  reached : Reached rest ts
  opens : ∀ ⦃start vs⦄, Reached (⟨.symbol .openBrace, start⟩ :: vs) ts →
    Reached (⟨.symbol .openBrace, start⟩ :: vs) rest ∨ ∃ t, .term t ∈ ns ∧ Opens ts t start vs

/-- No place of a cursor is behind the end of the input. -/
theorem not_reached_of_atEnd {vs : List Token} (h : atEnd ts = true) :
    ¬Reached (⟨.symbol .openBrace, start⟩ :: vs) ts := by
  intro hreached
  cases hreached with
  | refl => cases h
  | behind goes_on => exact absurd h (by simpa [atEnd] using goes_on)
  | @within t ts i mem =>
    obtain ⟨kind, span⟩ := t
    cases kind <;> simp_all [atEnd, Token.isEnd, Token.interpolations]

/-- Among more nodes there are no fewer terms. -/
theorem Told.mono (h : Told ns ts) (hns : ∀ t, .term t ∈ ns → .term t ∈ ns') : Told ns' ts := by
  intro start vs hreached
  obtain ⟨t, ht, hopens⟩ := h hreached
  exact ⟨t, hns t ht, hopens⟩

namespace Tells

theorem refl (ts : List Token) : Tells ts ns ts := ⟨.refl, fun _ _ hreached => .inl hreached⟩

/-- What is behind some tokens, with the same terms. -/
theorem trans (h : Tells ts ns mid) (h' : Tells mid ns rest) : Tells ts ns rest := by
  refine ⟨h'.reached.trans h.reached, fun start vs hreached => ?_⟩
  rcases h.opens hreached with hmid | htold
  · rcases h'.opens hmid with hrest | ⟨t, ht, hopens⟩
    · exact .inl hrest
    · exact .inr ⟨t, ht, hopens.of_reached h.reached⟩
  · exact .inr htold

theorem mono (h : Tells ts ns rest) (hns : ∀ t, .term t ∈ ns → .term t ∈ ns') :
    Tells ts ns' rest := by
  refine ⟨h.reached, fun start vs hreached => ?_⟩
  rcases h.opens hreached with hrest | ⟨t, ht, hopens⟩
  · exact .inl hrest
  · exact .inr ⟨t, hns t ht, hopens⟩

/-- What is behind some tokens, with other terms. -/
theorem append (h : Tells ts ns mid) (h' : Tells mid ns' rest) : Tells ts (ns ++ ns') rest :=
  (h.mono fun _ ht => List.mem_append_left _ ht).trans
    (h'.mono fun _ ht => List.mem_append_right _ ht)

/-- The node around those with the terms. -/
theorem node {nd : Node} (h : Tells ts ns rest) : Tells ts (nd :: ns) rest :=
  h.mono fun _ ht => List.mem_cons_of_mem _ ht

/-- Where the input ends behind some tokens, all their braces are told. -/
theorem told (h : Tells ts ns rest) (hend : atEnd rest = true) : Told ns ts := fun _ _ hreached =>
  (h.opens hreached).resolve_left (not_reached_of_atEnd hend)

/-- A token that is no opening brace, when the braces in its interpolations are told. -/
theorem token (hend : t.isEnd = false) (hmark : t.isMark .openBrace = false)
    (h : ∀ i ∈ t.interpolations, Told ns i.1) : Tells (t :: ts) ns ts := by
  refine ⟨.behind hend .refl, fun start vs hreached => ?_⟩
  cases hreached with
  | refl => cases hmark
  | behind _ hrest => exact .inl hrest
  | within mem hinside =>
    obtain ⟨t, ht, hopens⟩ := h _ mem hinside
    exact .inr ⟨t, ht, hopens.of_reached (.within mem .refl)⟩

/-- A token that is no opening brace and holds no tokens. -/
theorem flat (hflat : t.kind.isFlat = true) (hmark : t.isMark .openBrace = false) :
    Tells (t :: ts) ns ts := by
  obtain ⟨kind, span⟩ := t
  refine token (TokenKind.isEnd_of_isFlat hflat span) hmark fun i hi => ?_
  rw [TokenKind.interpolations_of_isFlat hflat] at hi
  cases hi

/-- An opening brace with the term that it opens. -/
theorem brace {t : Term} (h : Tells ts ns (⟨.symbol .openBrace, start⟩ :: rest))
    (ht : .term t ∈ ns) (hopens : Opens ts t start rest) : Tells ts ns rest := by
  refine ⟨.trans (.behind rfl .refl) h.reached, fun start vs hreached => ?_⟩
  rcases h.opens hreached with hbrace | htold
  · cases hbrace with
    | refl => exact .inr ⟨t, ht, hopens⟩
    | behind _ hrest => exact .inl hrest
    | within mem => simp [Token.interpolations] at mem
  · exact .inr htold

/-- Trivia has no braces. -/
theorem dropWhile {p : Token → Bool} (hp : ∀ t, p t = true → t.isTrivia = true) (ts : List Token) :
    Tells ts ns (ts.dropWhile p) := by
  induction ts with
  | nil => exact .refl []
  | cons t ts ih =>
    cases ht : p t with
    | true =>
      obtain ⟨kind, span⟩ := t
      have htrivia := hp _ ht
      have hflat : Tells (⟨kind, span⟩ :: ts) ns ts := by
        cases kind <;> first | exact .flat rfl rfl | cases htrivia
      rw [List.dropWhile_cons_of_pos ht]
      exact hflat.trans ih
    | false =>
      rw [List.dropWhile_cons_of_neg (by simp [ht])]
      exact .refl _

theorem skipTrivia (ts : List Token) : Tells ts ns (skipTrivia ts) := dropWhile (fun _ h => h) ts

/-- Tokens that follow trivia. -/
theorem of_skipTrivia_eq (h : Grammar.skipTrivia ts = mid) (h' : Tells mid ns rest) :
    Tells ts ns rest := (skipTrivia ts).trans (h ▸ h')

/-- A mark that is required has no braces in it, and is none itself unless it is an opening one. -/
theorem expectSymbol {s : Symbol} {span : Span}
    (hs : Token.isMark .openBrace ⟨.symbol s, span⟩ = false)
    (h : Grammar.expectSymbol s ts = .ok (span, rest)) : Tells ts ns rest :=
  .of_skipTrivia_eq (skipTrivia_of_expectSymbol h) (.flat rfl hs)

/-- A symbol behind trivia. -/
theorem symbolAhead {s : Symbol} {span : Span}
    (hs : Token.isMark .openBrace ⟨.symbol s, span⟩ = false)
    (h : Grammar.expectSymbol s (Grammar.skipTrivia ts) = .ok (span, rest)) : Tells ts ns rest :=
  (skipTrivia ts).trans (expectSymbol hs h)

theorem expectKeyword {k : Keyword} {span : Span}
    (h : Grammar.expectKeyword k ts = .ok (span, rest)) : Tells ts ns rest :=
  .of_skipTrivia_eq (skipTrivia_of_expectKeyword h) (.flat rfl rfl)

/-- Rounds tell what each of them does. -/
theorem rounds {α : Type} {round : Rule (Option α)} {as : List α} {f : α → List Node}
    (hround : ∀ {ts a rest}, round ts = .ok (some a, rest) → Tells ts (f a) rest)
    (h : Rounds round ts as rest) : Tells ts (as.flatMap f) rest := by
  induction h with
  | nil => exact .refl _
  | cons head tail ih =>
    rw [List.flatMap_cons]
    exact (hround head).append ih

end Tells

/-! ### Expressions

The terms of a chain are those of its operands. Grafting an operator into a tree adds none. -/

section

variable (hop : ∀ ⦃ctx ts o rest⦄, operandUpTo n ctx ts = .ok (o, rest) → Tells ts o.nodes rest)
include hop

theorem tells_link {l : Operator × Operand} (h : link (operandUpTo n) ts = .ok (some l, rest)) :
    Tells ts l.2.nodes rest := by
  obtain ⟨operator, o⟩ := l
  obtain ⟨t, us, op, rfl, hop', -, ho⟩ := link_eq_some_iff.mp h
  obtain ⟨kind, span⟩ := t
  obtain rfl : kind = op.kind := Token.binaryOp?_eq_some_iff.mp hop'
  have hflat : Tells (⟨op.kind, span⟩ :: us) o.nodes us := by cases op <;> exact .flat rfl rfl
  exact hflat.trans (hop ho)

theorem tells_expression {e : Expr} (h : expression (operandUpTo n) ts = .ok (e, rest)) :
    Tells ts e.nodes rest := by
  obtain ⟨first, mid, hfirst, links, hlinks, rfl⟩ := expression_eq_ok_iff.mp h
  have hrounds := Tells.rounds (f := fun l => l.2.nodes) (tells_link hop)
    (rounds_of_repeated stop_link hlinks)
  refine ((hop hfirst).append hrounds).mono fun t ht => ?_
  rw [Expr.term_mem_nodes_iff, first_assemble, links_assemble]
  exact ht

/-- Behind a whole expression the input ends, so that no brace is left to be told. -/
theorem told_complete {e : Expr} (h : complete (operandUpTo n) ts = .ok e) : Told e.nodes ts := by
  obtain ⟨rest, he, hend⟩ := complete_eq_ok_iff.mp h
  exact (tells_expression hop he).told hend

theorem told_interpolationOf {span : Span} {c : Interpolation}
    (h : interpolationOf (operandUpTo n) ts span = .ok c) : Told c.nodes ts := by
  obtain ⟨body, hbody, rfl⟩ := interpolationOf_eq_ok_iff.mp h
  exact (told_complete hop hbody).mono fun t ht => by simpa [Interpolation.nodes] using ht

/-! ### Strings and names

What stands in an interpolation is read up to its end, so all braces in it are told. -/

/-- Each interpolation of a string is told by the part that is made of it. -/
theorem ReadsParts.told {fragments : List StringFragment} {parts : List StringPart}
    (h : ReadsParts (operandUpTo n) fragments parts) :
    ∀ i ∈ fragments.filterMap StringFragment.interpolation?, Told (partsNodes parts) i.1 := by
  induction h with
  | nil => simp
  | text _ ih => simpa [partsNodes, StringPart.nodes, StringFragment.interpolation?] using ih
  | @interpolation tokens span _ fragments _ hc _ ih =>
    rw [partsNodes, StringPart.nodes]
    change ∀ i ∈ (tokens, span) :: fragments.filterMap StringFragment.interpolation?, _
    refine List.forall_mem_cons.mpr ⟨?_, fun i hi => ?_⟩
    · exact (told_interpolationOf hop hc).mono fun t ht => List.mem_append_left _ ht
    · exact (ih i hi).mono fun t ht => List.mem_append_right _ ht

theorem tells_stringOf {fragments : List StringFragment} {multiline : Bool} {span : Span}
    {s : StringLiteral} (h : stringOf (operandUpTo n) fragments multiline span = .ok s) :
    Tells (⟨.string fragments multiline, span⟩ :: ts) s.nodes ts := by
  obtain ⟨parts, hparts, rfl⟩ := stringOf_eq_ok_iff.mp h
  refine .token rfl rfl fun i hi => (hparts.told hop i hi).mono fun t ht => ?_
  simpa [StringLiteral.nodes] using ht

theorem tells_interpolationOf {tokens : List Token} {span : Span} {c : Interpolation}
    (h : interpolationOf (operandUpTo n) tokens span = .ok c) :
    Tells (⟨.interpolation tokens, span⟩ :: ts) c.nodes ts := by
  refine .token rfl rfl fun i hi => ?_
  obtain rfl : i = (tokens, span) := by simpa [Token.interpolations] using hi
  exact told_interpolationOf hop h

theorem ReadsSegment.tells {s : Segment} {span : Span}
    (h : ReadsSegment (operandUpTo n) ts s span rest) : Tells ts s.nodes rest := by
  cases h with
  | name => exact .flat rfl rfl
  | string hl =>
    rw [Segment.nodes]
    exact tells_stringOf hop hl
  | interpolation hc =>
    rw [Segment.nodes]
    exact tells_interpolationOf hop hc

/-- The segments of a path of names, with the dots between them. -/
theorem tells_attrPath {p : AttrPath} (h : attrPath (operandUpTo n) ts = .ok (p, rest)) :
    Tells ts p.nodes rest := by
  obtain ⟨first, start, mid, hfirst, more, hmore, rfl⟩ := attrPath_eq_ok_iff.mp h
  have hdotted {ts rest : List Token} {m : Segment × Span}
      (hm : dottedSegment (operandUpTo n) ts = .ok (some m, rest)) : Tells ts m.1.nodes rest := by
    obtain ⟨s, span⟩ := m
    obtain ⟨dot, us, rfl, hs⟩ := dottedSegment_eq_some_iff.mp hm
    exact (Tells.flat rfl rfl).trans (hs.tells hop)
  have hrounds := Tells.rounds (f := fun m => m.1.nodes) hdotted
    (rounds_of_repeated stop_dottedSegment hmore)
  rw [AttrPath.nodes, segmentsNodes, segmentsNodes_eq, List.flatMap_map]
  exact .node ((hfirst.tells hop).append hrounds)

/-! ### Bindings

The braces in a block of bindings are those of its names and values. The closing brace of a set is
passed by the set, and is none to be told. -/

theorem tells_inheritSource {source : Option Expr} {cs : List Comment}
    (h : inheritSource (operandUpTo n) ts = .ok ((source, cs), rest)) :
    Tells ts (exprNodes? source) rest := by
  rcases inheritSource_eq_ok_iff.mp h with
    ⟨start, us, e, mid, stop, hstart, he, hstop, rfl, -⟩ | ⟨-, rfl, -, rfl⟩
  · rw [exprNodes?]
    exact .of_skipTrivia_eq hstart
      ((Tells.flat rfl rfl).trans ((tells_expression hop he).trans (.expectSymbol rfl hstop)))
  · exact .refl _

theorem tells_inheritedName {p : AttrPath}
    (h : inheritedName (operandUpTo n) ts = .ok (some p, rest)) : Tells ts p.nodes rest := by
  obtain ⟨-, -, name, hname, rfl⟩ := inheritedName_eq_some_iff.mp h
  refine (Tells.skipTrivia ts).trans ((tells_attrPath hop hname).mono fun t ht => ?_)
  rw [AttrPath.nodes_with]
  cases name
  simpa [AttrPath.nodes] using ht

theorem tells_inheritance {comments : List Comment} {start : Span} {b : Binding}
    (h : inheritance (operandUpTo n) comments start ts = .ok (b, rest)) :
    Tells ts b.nodes rest := by
  obtain ⟨source, cs, ts₁, hsource, names, ts₂, hnames, stop, hstop, rfl⟩ :=
    inheritance_eq_ok_iff.mp h
  have hrounds := Tells.rounds (tells_inheritedName hop)
    (rounds_of_repeated stop_inheritedName hnames)
  rw [Binding.nodes, pathsNodes_eq]
  exact .node ((tells_inheritSource hop hsource).append (hrounds.trans (.symbolAhead rfl hstop)))

theorem tells_assignment {comments : List Comment} {b : Binding}
    (h : assignment (operandUpTo n) comments ts = .ok (b, rest)) : Tells ts b.nodes rest := by
  obtain ⟨name, ts₁, hname, eq, ts₂, heq, value, ts₃, hvalue, stop, hstop, rfl⟩ :=
    assignment_eq_ok_iff.mp h
  have hvalue := (tells_expression hop hvalue).trans (.expectSymbol rfl hstop)
  rw [Binding.nodes]
  exact .node ((tells_attrPath hop hname).append (.trans (.symbolAhead rfl heq) hvalue))

theorem tells_binding {b : Binding} (h : binding (operandUpTo n) ts = .ok (b, rest)) :
    Tells ts b.nodes rest := by
  rcases binding_eq_ok_iff.mp h with ⟨start, us, hstart, hb⟩ | ⟨-, hb⟩
  · exact .of_skipTrivia_eq hstart ((Tells.flat rfl rfl).trans (tells_inheritance hop hb))
  · exact (Tells.skipTrivia ts).trans (tells_assignment hop hb)

omit hop in
/-- Comments behind the last binding are no terms of it. -/
theorem term_mem_attachToLast {t : Term} {bs : List Binding} (more : List Comment)
    (ht : .term t ∈ bs.flatMap Binding.nodes) :
    .term t ∈ bindingsNodes (attachToLast more bs).1 := by
  rw [bindingsNodes_eq]
  rw [List.mem_flatMap] at ht ⊢
  refine (exists_mem_attachToLast (fun b more => ?_) more bs).mpr ht
  cases b <;> simp [Binding.addComments, Binding.nodes]

/-- Comments at the end of a block are put into its last binding, which changes none of its
terms. -/
theorem tells_bindings {closed : List Token → Bool} {bs : List Binding} (more : List Comment)
    (h : repeated (bindingUnless (operandUpTo n) closed) ts = .ok (bs, rest)) :
    Tells ts (bindingsNodes (attachToLast more bs).1) rest := by
  have hrounds := Tells.rounds (f := Binding.nodes)
    (fun hb => tells_binding hop (bindingUnless_eq_some_iff.mp hb).2.2)
    (rounds_of_repeated stop_bindingUnless h)
  exact hrounds.mono fun _ ht => term_mem_attachToLast more ht

theorem tells_attrSet {recursive : Bool} {start : Span} {t : Term}
    (h : attrSet (operandUpTo n) recursive start ts = .ok (t, rest)) : Tells ts t.nodes rest := by
  obtain ⟨bs, mid, hbs, stop, hstop, rfl⟩ := attrSet_eq_ok_iff.mp h
  rw [Term.nodes]
  exact .node ((tells_bindings hop _ hbs).trans (.symbolAhead rfl hstop))

theorem tells_letIn {start : Span} {t : Term}
    (h : letIn (operandUpTo n) start ts = .ok (t, rest)) : Tells ts t.nodes rest := by
  obtain ⟨bs, ts₁, hbs, stop, ts₂, hin, body, hbody, rfl⟩ := letIn_eq_ok_iff.mp h
  have hbody := (Tells.expectKeyword hin).trans (tells_expression hop hbody)
  rw [Term.nodes]
  exact .node ((tells_bindings hop _ hbs).append (.trans (.skipTrivia ts₁) hbody))

/-! ### Functions

The braces of a pattern are told by the function, which is the term they open. What is between them
is told by the attributes and their defaults. -/

theorem tells_lambda {parameter : AttrPath} {t : Term}
    (h : lambda (operandUpTo n) parameter ts = .ok (t, rest)) : Tells ts t.nodes rest := by
  obtain ⟨body, hbody, rfl⟩ := lambda_eq_ok_iff.mp h
  rw [Term.nodes]
  exact .node ((Tells.refl ts).append (tells_expression hop hbody))

theorem tells_formal {comments : List Comment} {f : Formal}
    (h : formal (operandUpTo n) comments ts = .ok (f, rest)) : Tells ts f.nodes rest := by
  obtain ⟨name, mid, hname, ⟨start, us, e, hstart, he, rfl⟩ | ⟨-, rfl, rfl⟩⟩ :=
    formal_eq_ok_iff.mp h
  · have hfallback := Tells.of_skipTrivia_eq hstart
      ((Tells.flat rfl rfl).trans (tells_expression hop he))
    rw [Formal.nodes, exprNodes?]
    exact .node ((tells_attrPath hop hname).append hfallback)
  · rw [Formal.nodes]
    exact .node ((tells_attrPath hop hname).append (.skipTrivia mid))

/-- Attribute by attribute, up to the closing brace. -/
theorem ReadsPattern.tells {body : PatternBody}
    (h : ReadsPattern (operandUpTo n) ts body rest) :
    Tells ts (formalsNodes body.formals) rest := by
  induction h with
  | closed => exact .skipTrivia _
  | @variadic ts rest span next =>
    exact .of_skipTrivia_eq next ((Tells.flat rfl rfl).trans (.skipTrivia rest))
  | @comma ts mid rest span f body head tail ih =>
    rw [formalsNodes]
    have hformal := (Tells.skipTrivia ts).trans (tells_formal hop head)
    exact hformal.append ((Tells.flat rfl rfl).trans ih)
  | @last ts rest span f head =>
    rw [formalsNodes, formalsNodes, List.append_nil]
    exact (Tells.skipTrivia ts).trans (tells_formal hop head)

theorem tells_patternName {whole : Option AttrPath} {cs : List Comment}
    (h : patternName (operandUpTo n) ts = .ok ((whole, cs), rest)) :
    Tells ts (pathNodes? whole) rest := by
  rcases patternName_eq_ok_iff.mp h with
    ⟨start, us, name, mid, rfl, hname, rfl, -, rfl⟩ | ⟨-, rfl, -, rfl⟩
  · rw [pathNodes?]
    exact (Tells.flat rfl rfl).trans ((Tells.skipTrivia us).trans
      ((tells_attrPath hop hname).trans (.skipTrivia mid)))
  · exact .refl _

theorem tells_patternEnd {front whole : Option AttrPath} {start stop span : Span}
    {cs : List Comment}
    (h : patternEnd (operandUpTo n) front start stop ts = .ok ((whole, span, cs), rest)) :
    Tells ts (pathNodes? whole) rest := by
  cases front with
  | none => exact tells_patternName hop (patternEnd_none_eq_ok_iff.mp h).1
  | some name =>
    obtain ⟨-, rfl⟩ := by simpa using h
    exact .refl _

/-- From behind its opening brace on, a function tells of all braces in its pattern and in its
body. -/
theorem tells_patternLambda {front : Option AttrPath} {start : Span} {t : Term}
    (h : patternLambda (operandUpTo n) front start ts = .ok (t, rest)) : Tells ts t.nodes rest := by
  obtain ⟨body, ts₁, hbody, stop, ts₂, hstop, whole, span, more, ts₃, hend, colon, ts₄, hcolon,
    result, hresult, rfl⟩ := patternLambda_eq_ok_iff.mp h
  have hinside := (readsPattern_of_patternBodyUpTo hbody).tells hop
  have hname := (Tells.expectSymbol rfl hstop).trans
    ((Tells.skipTrivia ts₂).trans (tells_patternEnd hop hend))
  have hresult := (Tells.expectSymbol rfl hcolon).trans (tells_expression hop hresult)
  rw [Term.nodes, Parameter.nodes]
  exact .node ((Tells.node (hinside.append hname)).append hresult)

/-! ### Terms and operands

Here the opening braces are passed. A set, a recursive set, and a pattern with or without a name
each pass their own. -/

omit hop in
/-- Items of a list stay where they are when comments move from one to the next. -/
theorem term_mem_passOnComments {t : Term} {os : List Operand} (pending : List Comment)
    (ht : .term t ∈ os.flatMap Operand.nodes) :
    .term t ∈ exprsNodes ((passOnComments pending os).map .operand) := by
  rw [exprsNodes_eq, List.flatMap_map]
  rw [List.mem_flatMap] at ht ⊢
  refine (exists_mem_passOnComments (fun o before after => ?_) pending os).mpr ?_
  · simp [Expr.nodes, Operand.nodes_with, o.nodes_eq]
  · simpa [Expr.nodes] using ht

theorem tells_list {start : Span} {t : Term}
    (h : list (operandUpTo n) start ts = .ok (t, rest)) : Tells ts t.nodes rest := by
  obtain ⟨items, mid, hitems, stop, hstop, rfl⟩ := list_eq_ok_iff.mp h
  have hrounds := Tells.rounds (f := Operand.nodes) (fun ho => hop (item_eq_some_iff.mp ho).2.2)
    (rounds_of_repeated stop_item hitems)
  have hitems := hrounds.mono fun _ ht => term_mem_passOnComments [] ht
  rw [Term.nodes]
  exact .node (hitems.trans (.symbolAhead rfl hstop))

theorem tells_paren {start : Span} {t : Term}
    (h : paren (operandUpTo n) start ts = .ok (t, rest)) : Tells ts t.nodes rest := by
  obtain ⟨body, mid, hbody, stop, hstop, rfl⟩ := paren_eq_ok_iff.mp h
  rw [Term.nodes]
  exact .node ((tells_expression hop hbody).trans (.expectSymbol rfl hstop))

theorem tells_conditional {start : Span} {t : Term}
    (h : conditional (operandUpTo n) start ts = .ok (t, rest)) : Tells ts t.nodes rest := by
  obtain ⟨condition, ts₁, hc, s₁, ts₂, hthen, consequence, ts₃, ha, s₂, ts₄, helse, alternative,
    hb, rfl⟩ := conditional_eq_ok_iff.mp h
  have hc := (tells_expression hop hc).trans (.expectKeyword hthen)
  have ha := (tells_expression hop ha).trans (.expectKeyword helse)
  rw [Term.nodes]
  exact .node (hc.append (ha.append (tells_expression hop hb)))

theorem tells_importOf {start : Span} {t : Term}
    (h : importOf (operandUpTo n) start ts = .ok (t, rest)) : Tells ts t.nodes rest := by
  obtain ⟨source, hsource, rfl⟩ := importOf_eq_ok_iff.mp h
  rw [Term.nodes, Expr.nodes]
  exact .node (.node (hop hsource))

theorem tells_unary {ctx : Context} {op : UnaryOp} {start : Span} {t : Term}
    (h : unary (operandUpTo n) ctx op start ts = .ok (t, rest)) : Tells ts t.nodes rest := by
  obtain ⟨o, ho, rfl⟩ := unary_eq_ok_iff.mp h
  rw [Term.nodes, Expr.nodes]
  exact .node (.node (hop ho))

omit hop in
theorem term_mem_nodes (t : Term) : .term t ∈ t.nodes := by
  cases t <;> simp [Term.nodes]

/-- **A term tells of its own brace, and of those inside it.** -/
theorem ReadsTerm.tells {ctx : Context} {t : Term}
    (h : ReadsTerm (operandUpTo n) ctx ts t rest) : Tells ts t.nodes rest := by
  have hmem := term_mem_nodes t
  have hterm := h
  cases h with
  | null | bool | int | float | path => exact .flat rfl rfl
  | negativeInt | negativeFloat => exact (Tells.flat rfl rfl).trans (.flat rfl rfl)
  | string hl =>
    rw [Term.nodes]
    exact .node (tells_stringOf hop hl)
  | interpolation hc =>
    rw [Term.nodes]
    exact .node (tells_interpolationOf hop hc)
  | name _ _ hp =>
    rw [Term.nodes]
    exact .node (tells_attrPath hop hp)
  | list h => exact (Tells.flat rfl rfl).trans (tells_list hop h)
  | attrSet _ h => exact ((Tells.refl _).brace hmem (.operand hterm)).trans (tells_attrSet hop h)
  | recursive hbrace h =>
    have hopen := skipTrivia_of_expectSymbol hbrace
    refine Tells.trans (.brace ?_ hmem (.recursive .refl hbrace hterm)) (tells_attrSet hop h)
    exact (Tells.flat rfl rfl).trans (.of_skipTrivia_eq hopen (.refl _))
  | lambda h => exact (Tells.flat rfl rfl).trans ((Tells.flat rfl rfl).trans (tells_lambda hop h))
  | pattern _ h =>
    exact ((Tells.refl _).brace hmem (.operand hterm)).trans (tells_patternLambda hop h)
  | namedPattern opens h =>
    refine Tells.trans (.brace ?_ hmem (.named .refl opens hterm)) (tells_patternLambda hop h)
    exact (Tells.flat rfl rfl).trans (.flat rfl rfl)
  | letIn h => exact (Tells.flat rfl rfl).trans (tells_letIn hop h)
  | import_ h => exact (Tells.flat rfl rfl).trans (tells_importOf hop h)
  | conditional h => exact (Tells.flat rfl rfl).trans (tells_conditional hop h)
  | not h => exact (Tells.flat rfl rfl).trans (tells_unary hop h)
  | negate _ _ h => exact (Tells.flat rfl rfl).trans (tells_unary hop h)
  | paren h => exact (Tells.flat rfl rfl).trans (tells_paren hop h)

/-- A call has the terms of its function and of its arguments. -/
theorem tells_withArguments {ctx : Context} {head t : Term}
    (hhead : Tells ts head.nodes mid)
    (h : withArguments (operandUpTo n) ctx head mid = .ok (t, rest)) : Tells ts t.nodes rest := by
  rcases withArguments_cases h with ⟨rfl, rfl⟩ | ⟨arguments, span, hrounds, rfl⟩
  · exact hhead
  · have harguments : Tells mid (arguments.flatMap fun o => (Expr.operand o).nodes) rest :=
      .rounds (fun {_ o _} ho => by
        obtain ⟨-, -, -, -, ho⟩ := argument_eq_some_iff.mp ho
        rw [Expr.nodes]
        exact .node (hop ho)) hrounds
    rw [Term.nodes, exprsNodes_eq, List.flatMap_map]
    exact .node (hhead.append harguments)

theorem tells_clause {c : List Comment × Modifier}
    (h : clause (operandUpTo n) ts = .ok (some c, rest)) : Tells ts c.2.nodes rest := by
  obtain ⟨cs, m⟩ := c
  obtain ⟨k, start, us, kind, hstart, -, subject, mid, he, stop, hstop, -, rfl⟩ :=
    clause_eq_some_iff.mp h
  have hsubject := (tells_expression hop he).trans (.expectSymbol rfl hstop)
  rw [Modifier.nodes]
  exact .of_skipTrivia_eq hstart ((Tells.flat rfl rfl).trans (.node hsubject))

/-- **An operand tells of all braces in it, if the operands inside it do.** -/
theorem tells_operandWith {ctx : Context} {o : Operand}
    (h : operandUpTo (n + 1) ctx ts = .ok (o, rest)) : Tells ts o.nodes rest := by
  obtain ⟨clauses, ts₁, hclauses, head, ts₂, hhead, t, ts₃, ht, rfl, rfl⟩ :=
    operandWith_eq_ok_iff.mp h
  have hrounds := Tells.rounds (f := fun c => c.2.nodes) (tells_clause hop)
    (rounds_of_repeated stop_clause hclauses)
  have hterm := tells_withArguments hop ((termIn_eq_ok_iff.mp hhead).tells hop) ht
  rw [Operand.nodes, modifiersNodes_eq, List.flatMap_map]
  exact .node (hrounds.append ((Tells.skipTrivia ts₁).trans (hterm.trans (.skipTrivia ts₃))))

end

/-- By induction on the bound for the depth. -/
theorem tells_operandUpTo (n : Nat) {ctx : Context} {o : Operand}
    (h : operandUpTo n ctx ts = .ok (o, rest)) : Tells ts o.nodes rest := by
  induction n generalizing ctx ts o rest with
  | zero => simp [operandUpTo] at h
  | succ n ih => exact tells_operandWith (fun _ _ _ _ h => ih h) h

end Grammar

namespace Program

/-- **Each opening brace of a program opens a term of it**, in its tokens and in the interpolations
among them. -/
theorem exists_opens {ts vs : List Token} {p : Program} {start : Span} (h : ofTokens ts = .ok p)
    (hreached : Grammar.Reached (⟨.symbol .openBrace, start⟩ :: vs) ts) :
    ∃ t, .term t ∈ p.body.nodes ∧ Grammar.Opens ts t start vs :=
  Grammar.told_complete (fun _ _ _ _ => Grammar.tells_operandUpTo _) (complete_of_ofTokens h)
    hreached

end Program

end NixSyntax
