import NixSyntax.Proofs.Chain.Frames
import NixSyntax.Proofs.Reading.Depth
import NixSyntax.Proofs.Tree.Moves
import NixSyntax.Proofs.Tree.Nodes

/-!
# Every operator expression was assembled

`assemble` is the only place where operators are put into a tree, and nothing takes such a tree
apart afterwards. So every maximal operator expression of a tree, at any depth, is what `assemble`
makes of its own operands and operators, and whatever holds of assembled chains holds of all of
them.

## What is said of a node

A node holds expressions of its own: a parenthesis one, a binding its value, a function its body, a
call its arguments. These are the maximal operator expressions, since a side of an operator is held
by no node other than the operator. `AllAssembled` says of a list of nodes that all the expressions
they hold are assembled. It goes along with the lists by which the nodes of a tree are made of those
of its parts, so that each lemma below is about the parts of one form.

An expression is read in one place (`assembled_expression`), where it is assembled by definition.
That its nodes are so as well needs to be known of its operands only
(`Expr.allAssembled_nodes_iff`), which is the hypothesis `hop` under which all forms are looked at.
The bound for the depth carries the induction.

Comments that move to the last binding or to the next item of a list do not touch an expression.

## Main definitions

* `Expr.Assembled`: the tree that its operands and operators are assembled to
* `AllAssembled`: some nodes hold assembled expressions only

## Main results

* `assembled_operandWith`: from the operands inside to the operand around them
* `Program.assembled_of_mem_chains`: every maximal operator expression of a program is assembled
* `Program.chains_eq_frames`: so it is what the rule on a stack of frames makes of its chain
-/

namespace NixSyntax

/-- The tree that its operands and operators are assembled to. -/
def Expr.Assembled (e : Expr) : Prop := Grammar.assemble e.first e.links = e

/-- An operand is the chain without operators. -/
theorem Expr.assembled_operand (o : Operand) : (Expr.operand o).Assembled := rfl

/-- The expressions that some nodes hold are assembled. -/
def AllAssembled (nodes : List Node) : Prop := ∀ nd ∈ nodes, ∀ e ∈ nd.expressions, e.Assembled

@[simp] theorem allAssembled_nil : AllAssembled [] := by simp [AllAssembled]

@[simp] theorem allAssembled_cons (nd : Node) (nodes : List Node) :
    AllAssembled (nd :: nodes) ↔ (∀ e ∈ nd.expressions, e.Assembled) ∧ AllAssembled nodes := by
  simp [AllAssembled]

@[simp] theorem allAssembled_append (nodes nodes' : List Node) :
    AllAssembled (nodes ++ nodes') ↔ AllAssembled nodes ∧ AllAssembled nodes' := by
  simp [AllAssembled, or_imp, forall_and]

@[simp] theorem allAssembled_flatMap {α : Type} (f : α → List Node) (as : List α) :
    AllAssembled (as.flatMap f) ↔ ∀ a ∈ as, AllAssembled (f a) := by
  simp only [AllAssembled, List.mem_flatMap, forall_exists_index, and_imp]
  exact ⟨fun h a ha nd hnd => h nd a ha hnd, fun h nd a ha hnd => h a ha nd hnd⟩

/-- The nodes of an operator expression are those of its operands, and its own. -/
theorem Expr.allAssembled_nodes_iff : (e : Expr) →
    (AllAssembled e.nodes ↔ AllAssembled e.first.nodes ∧ ∀ l ∈ e.links, AllAssembled l.2.nodes)
  | .operand o => by simp [Expr.nodes, Node.expressions]
  | .binary operator left right span => by
    have hleft := left.allAssembled_nodes_iff
    have hright := right.allAssembled_nodes_iff
    simp only [Expr.nodes, Expr.first, Expr.links, allAssembled_cons, allAssembled_append, hleft,
      hright, Node.expressions, List.not_mem_nil, false_imp_iff, implies_true, true_and,
      List.forall_mem_append, List.forall_mem_cons, and_assoc]

namespace Grammar

variable {operand : Context → Rule Operand} {ts rest : List Token}

/-! ### The rules

In the order of the grammar. A form holds the expressions that it has read, and what it has read
them with holds those inside. -/

/-- Comments are added to a binding, which keeps its expressions. -/
theorem allAssembled_attachToLast {more : List Comment} {bs : List Binding}
    (h : ∀ b ∈ bs, AllAssembled b.nodes) :
    ∀ b ∈ (attachToLast more bs).1, AllAssembled b.nodes := by
  refine (forall_mem_attachToLast (fun b more => ?_) more bs).mpr h
  cases b <;> simp [Binding.addComments, Binding.nodes, Node.expressions]

variable (hop : ∀ ⦃ctx ts o rest⦄, operand ctx ts = .ok (o, rest) → AllAssembled o.nodes)
include hop

/-- A chain is assembled when it has been read, and its nodes are those of its operands. -/
theorem assembled_expression {e : Expr} (h : expression operand ts = .ok (e, rest)) :
    e.Assembled ∧ AllAssembled e.nodes := by
  obtain ⟨first, mid, hfirst, links, hlinks, rfl⟩ := expression_eq_ok_iff.mp h
  have hrounds := rounds_of_repeated stop_link hlinks
  have hall : ∀ l ∈ links, AllAssembled l.2.nodes := by
    refine hrounds.forall_mem fun {_ l _} hl => ?_
    obtain ⟨_, o⟩ := l
    obtain ⟨_, _, _, _, _, _, ho⟩ := link_eq_some_iff.mp hl
    exact hop ho
  refine ⟨by simp [Expr.Assembled], (Expr.allAssembled_nodes_iff _).mpr ?_⟩
  rw [first_assemble, links_assemble]
  exact ⟨hop hfirst, hall⟩

/-- A whole program, or the content of an interpolation, is an expression. -/
theorem assembled_complete {e : Expr} (h : complete operand ts = .ok e) :
    e.Assembled ∧ AllAssembled e.nodes := by
  obtain ⟨rest, he, -⟩ := complete_eq_ok_iff.mp h
  exact assembled_expression hop he

theorem assembled_interpolationOf {span : Span} {c : Interpolation}
    (h : interpolationOf operand ts span = .ok c) : AllAssembled c.nodes := by
  obtain ⟨body, hbody, rfl⟩ := interpolationOf_eq_ok_iff.mp h
  simpa [Interpolation.nodes, Node.expressions] using assembled_complete hop hbody

/-- Of the parts of a string only the interpolations hold expressions. -/
theorem ReadsParts.assembled {fragments : List StringFragment} {parts : List StringPart}
    (h : ReadsParts operand fragments parts) : ∀ p ∈ parts, AllAssembled p.nodes := by
  induction h with
  | nil => simp
  | text _ ih => exact List.forall_mem_cons.mpr ⟨by simp [StringPart.nodes], ih⟩
  | interpolation hc _ ih =>
    refine List.forall_mem_cons.mpr ⟨?_, ih⟩
    simpa [StringPart.nodes] using assembled_interpolationOf hop hc

theorem assembled_stringOf {fragments : List StringFragment} {multiline : Bool} {span : Span}
    {s : StringLiteral} (h : stringOf operand fragments multiline span = .ok s) :
    AllAssembled s.nodes := by
  obtain ⟨parts, hparts, rfl⟩ := stringOf_eq_ok_iff.mp h
  simpa [StringLiteral.nodes, Node.expressions, partsNodes_eq] using hparts.assembled hop

theorem ReadsSegment.assembled {s : Segment} {span : Span}
    (h : ReadsSegment operand ts s span rest) : AllAssembled s.nodes := by
  cases h with
  | name => simp [Segment.nodes]
  | string hl => simpa [Segment.nodes] using assembled_stringOf hop hl
  | interpolation hi => simpa [Segment.nodes] using assembled_interpolationOf hop hi

/-- Of the segments of a path only strings and interpolations hold expressions. -/
theorem assembled_attrPath {p : AttrPath} (h : attrPath operand ts = .ok (p, rest)) :
    AllAssembled p.nodes := by
  obtain ⟨first, start, mid, hfirst, more, hmore, rfl⟩ := attrPath_eq_ok_iff.mp h
  have hrounds := rounds_of_repeated stop_dottedSegment hmore
  have hall : ∀ m ∈ more, AllAssembled m.1.nodes := by
    refine hrounds.forall_mem fun {_ m _} hm => ?_
    obtain ⟨s, _⟩ := m
    obtain ⟨_, _, _, hs⟩ := dottedSegment_eq_some_iff.mp hm
    exact hs.assembled hop
  simpa [AttrPath.nodes, Node.expressions, segmentsNodes_eq] using
    ⟨hfirst.assembled hop, fun s span hm => hall (s, span) hm⟩

/-! ### Bindings

A binding holds its value, or the source that it inherits from. -/

/-- Either form of a binding: the expressions it holds were read as such. -/
theorem assembled_binding {b : Binding} (h : binding operand ts = .ok (b, rest)) :
    AllAssembled b.nodes := by
  rcases binding_eq_ok_iff.mp h with ⟨start, us, -, hb⟩ | ⟨-, hb⟩
  · obtain ⟨source, more, ts₁, hsource, names, ts₂, hnames, stop, -, rfl⟩ :=
      inheritance_eq_ok_iff.mp hb
    have hall : ∀ p ∈ names, AllAssembled p.nodes := by
      have hrounds := rounds_of_repeated stop_inheritedName hnames
      refine hrounds.forall_mem fun hp => ?_
      obtain ⟨-, -, ⟨_, _, _⟩, hname, rfl⟩ := inheritedName_eq_some_iff.mp hp
      simpa [AttrPath.nodes, Node.expressions] using assembled_attrPath hop hname
    have hfrom : ∀ e ∈ source.toList, e.Assembled ∧ AllAssembled e.nodes := by
      rcases inheritSource_eq_ok_iff.mp hsource with
        ⟨-, us, e, mid, -, -, he, -, rfl, -⟩ | ⟨-, rfl, -⟩
      · simpa using assembled_expression hop he
      · simp
    simp only [Binding.nodes, Node.expressions, exprNodes?_eq, pathsNodes_eq, allAssembled_cons,
      allAssembled_append, allAssembled_flatMap]
    exact ⟨fun e he => (hfrom e he).1, fun e he => (hfrom e he).2, hall⟩
  · obtain ⟨name, ts₁, hname, eq, ts₂, -, value, ts₃, hvalue, stop, -, rfl⟩ :=
      assignment_eq_ok_iff.mp hb
    have hval := assembled_expression hop hvalue
    simpa [Binding.nodes, Node.expressions, hval] using assembled_attrPath hop hname

theorem assembled_bindings {closed : List Token → Bool} {bs : List Binding}
    (h : repeated (bindingUnless operand closed) ts = .ok (bs, rest)) :
    ∀ b ∈ bs, AllAssembled b.nodes := by
  have hrounds := rounds_of_repeated stop_bindingUnless h
  exact hrounds.forall_mem fun hb => assembled_binding hop (bindingUnless_eq_some_iff.mp hb).2.2

theorem assembled_attrSet {recursive : Bool} {start : Span} {t : Term}
    (h : attrSet operand recursive start ts = .ok (t, rest)) : AllAssembled t.nodes := by
  obtain ⟨bs, mid, hbs, stop, -, rfl⟩ := attrSet_eq_ok_iff.mp h
  simpa [Term.nodes, Node.expressions, Term.expressions, bindingsNodes_eq] using
    allAssembled_attachToLast (assembled_bindings hop hbs)

theorem assembled_letIn {start : Span} {t : Term} (h : letIn operand start ts = .ok (t, rest)) :
    AllAssembled t.nodes := by
  obtain ⟨bs, ts₁, hbs, stop, ts₂, -, body, hbody, rfl⟩ := letIn_eq_ok_iff.mp h
  have hb := assembled_expression hop hbody
  simpa [Term.nodes, Node.expressions, Term.expressions, bindingsNodes_eq, hb] using
    allAssembled_attachToLast (assembled_bindings hop hbs)

/-! ### Functions

A function holds its body, and each attribute of its pattern its default. -/

/-- A default is read as an expression, behind a name. -/
theorem assembled_formal {comments : List Comment} {f : Formal}
    (h : formal operand comments ts = .ok (f, rest)) : AllAssembled f.nodes := by
  obtain ⟨name, mid, hname, ⟨-, us, e, -, he, rfl⟩ | ⟨-, -, rfl⟩⟩ := formal_eq_ok_iff.mp h
  · have hb := assembled_expression hop he
    simpa [Formal.nodes, Node.expressions, exprNodes?_eq, hb] using assembled_attrPath hop hname
  · simpa [Formal.nodes, Node.expressions, exprNodes?_eq] using assembled_attrPath hop hname

theorem ReadsPattern.assembled {body : PatternBody} (h : ReadsPattern operand ts body rest) :
    ∀ f ∈ body.formals, AllAssembled f.nodes := by
  induction h with
  | closed => simp
  | variadic => simp
  | comma head tail ih => exact List.forall_mem_cons.mpr ⟨assembled_formal hop head, ih⟩
  | last head => simpa using assembled_formal hop head

/-- The name in front of a pattern was read before the pattern, so its nodes are given. -/
theorem assembled_patternLambda {front : Option AttrPath} {start : Span} {t : Term}
    (hfront : ∀ p ∈ front, AllAssembled p.nodes)
    (h : patternLambda operand front start ts = .ok (t, rest)) : AllAssembled t.nodes := by
  obtain ⟨body, ts₁, hbody, stop, ts₂, -, whole, span, more, ts₃, hend, colon, ts₄, -, result,
    hresult, rfl⟩ := patternLambda_eq_ok_iff.mp h
  have hformals := (readsPattern_of_patternBodyUpTo hbody).assembled hop
  have hr := assembled_expression hop hresult
  have hwhole : ∀ p ∈ whole, AllAssembled p.nodes :=
    forall_mem_of_patternEnd hend hfront (assembled_attrPath hop)
  simpa [Term.nodes, Node.expressions, Term.expressions, Parameter.nodes, formalsNodes_eq,
    pathNodes?_eq, hr] using ⟨hformals, hwhole⟩

/-! ### Terms and operands

A list and a call hold their items and arguments as expressions without operators. -/

/-- Items are operands, each the chain of itself, whatever comments have moved to them. -/
theorem assembled_list {start : Span} {t : Term} (h : list operand start ts = .ok (t, rest)) :
    AllAssembled t.nodes := by
  obtain ⟨items, mid, hitems, stop, -, rfl⟩ := list_eq_ok_iff.mp h
  have hrounds := rounds_of_repeated stop_item hitems
  have hall := hrounds.forall_mem fun ho => hop (item_eq_some_iff.mp ho).2.2
  have hmoved : ∀ o ∈ passOnComments [] items, AllAssembled o.nodes := by
    refine (forall_mem_passOnComments (fun o before after => ?_) [] items).mpr hall
    cases o
    simp [Operand.nodes, Node.expressions]
  simpa [Term.nodes, Node.expressions, Term.expressions, exprsNodes_eq, Expr.nodes,
    Expr.assembled_operand, List.flatMap_map] using hmoved

/-- **A term holds assembled expressions**, if the operands inside it do. -/
theorem ReadsTerm.assembled {ctx : Context} {t : Term} (h : ReadsTerm operand ctx ts t rest) :
    AllAssembled t.nodes := by
  cases h with
  | null | bool | int | float | negativeInt | negativeFloat | path =>
    simp [Term.nodes, Node.expressions, Term.expressions]
  | string hl =>
    simpa [Term.nodes, Node.expressions, Term.expressions] using assembled_stringOf hop hl
  | interpolation hi =>
    simpa [Term.nodes, Node.expressions, Term.expressions] using assembled_interpolationOf hop hi
  | name _ _ hp =>
    simpa [Term.nodes, Node.expressions, Term.expressions] using assembled_attrPath hop hp
  | list h => exact assembled_list hop h
  | attrSet _ h => exact assembled_attrSet hop h
  | recursive _ h => exact assembled_attrSet hop h
  | lambda h =>
    obtain ⟨body, hbody, rfl⟩ := lambda_eq_ok_iff.mp h
    have hb := assembled_expression hop hbody
    simp [Term.nodes, Node.expressions, Term.expressions, Parameter.nodes, AttrPath.nodes,
      segmentsNodes_eq, Segment.nodes, hb]
  | pattern _ h => exact assembled_patternLambda hop (by simp) h
  | namedPattern _ h =>
    refine assembled_patternLambda hop ?_ h
    simp [AttrPath.nodes, segmentsNodes_eq, Segment.nodes, Node.expressions]
  | letIn h => exact assembled_letIn hop h
  | import_ h =>
    obtain ⟨source, hsource, rfl⟩ := importOf_eq_ok_iff.mp h
    simpa [Term.nodes, Node.expressions, Term.expressions, Expr.nodes, Expr.assembled_operand]
      using hop hsource
  | conditional h =>
    obtain ⟨c, ts₁, hc, s₁, ts₂, -, a, ts₃, ha, s₂, ts₄, -, b, hb, rfl⟩ :=
      conditional_eq_ok_iff.mp h
    simp [Term.nodes, Node.expressions, Term.expressions, assembled_expression hop hc,
      assembled_expression hop ha, assembled_expression hop hb]
  | not h | negate _ _ h =>
    obtain ⟨o, ho, rfl⟩ := unary_eq_ok_iff.mp h
    simpa [Term.nodes, Node.expressions, Term.expressions, Expr.nodes, Expr.assembled_operand]
      using hop ho
  | paren h =>
    obtain ⟨body, mid, hbody, stop, -, rfl⟩ := paren_eq_ok_iff.mp h
    simp [Term.nodes, Node.expressions, Term.expressions, assembled_expression hop hbody]

theorem assembled_withArguments {ctx : Context} {head t : Term} (hhead : AllAssembled head.nodes)
    (h : withArguments operand ctx head ts = .ok (t, rest)) : AllAssembled t.nodes := by
  rcases withArguments_cases h with ⟨rfl, -⟩ | ⟨arguments, span, hrounds, rfl⟩
  · exact hhead
  · have hall : ∀ o ∈ arguments, AllAssembled o.nodes := by
      refine hrounds.forall_mem fun ho => ?_
      obtain ⟨-, -, -, -, ho⟩ := argument_eq_some_iff.mp ho
      exact hop ho
    simpa [Term.nodes, Node.expressions, Term.expressions, exprsNodes_eq, Expr.nodes,
      Expr.assembled_operand, List.flatMap_map, hhead] using hall

/-- **From the operands inside to the operand around them.** The clauses hold their subjects. -/
theorem assembled_operandWith {ctx : Context} {o : Operand}
    (h : operandWith operand ctx ts = .ok (o, rest)) : AllAssembled o.nodes := by
  obtain ⟨clauses, ts₁, hclauses, head, ts₂, hhead, t, ts₃, ht, -, rfl⟩ :=
    operandWith_eq_ok_iff.mp h
  have hrounds := rounds_of_repeated stop_clause hclauses
  have hall : ∀ c ∈ clauses, AllAssembled c.2.nodes := by
    refine hrounds.forall_mem fun {_ c _} hc => ?_
    obtain ⟨_, _⟩ := c
    obtain ⟨_, _, _, _, _, _, subject, _, he, _, _, _, rfl⟩ := clause_eq_some_iff.mp hc
    simpa [Modifier.nodes, Node.expressions] using assembled_expression hop he
  have hterm := assembled_withArguments hop ((termIn_eq_ok_iff.mp hhead).assembled hop) ht
  simpa [Operand.nodes, Node.expressions, modifiersNodes_eq, List.flatMap_map, hterm] using hall

omit hop in
theorem assembled_operandUpTo (n : Nat) {ctx : Context} {o : Operand}
    (h : operandUpTo n ctx ts = .ok (o, rest)) : AllAssembled o.nodes := by
  induction n generalizing ctx ts o rest with
  | zero => simp [operandUpTo] at h
  | succ n ih => exact assembled_operandWith (fun _ _ _ _ h => ih h) h

end Grammar

/-! ### Programs -/

namespace Program

variable {ts : List Token} {p : Program}

/-- Every maximal operator expression of a program is assembled. -/
theorem assembled_of_mem_chains (h : ofTokens ts = .ok p) {e : Expr} (he : e ∈ p.body.chains) :
    e.Assembled := by
  have hbody := Grammar.assembled_complete
    (fun _ _ _ _ => Grammar.assembled_operandUpTo _) (complete_of_ofTokens h)
  rcases List.mem_cons.mp he with rfl | he
  · exact hbody.1
  · obtain ⟨nd, hnd, he⟩ := List.mem_flatMap.mp he
    exact hbody.2 nd hnd e he

/-- **Every maximal operator expression of a program has the shape that the stack of frames gives
its operands and operators.** -/
theorem chains_eq_frames (h : ofTokens ts = .ok p) :
    ∀ e ∈ p.body.chains, e = Grammar.FrameStack.assemble e.first e.links := by
  intro e he
  rw [← Grammar.assemble_eq_frames]
  exact (assembled_of_mem_chains h he).symm

/-- The tokens of `a * b + (c == d)`. -/
def sumTokens : List Token :=
  [⟨.identifier "a", default⟩, ⟨.symbol .star, default⟩, ⟨.identifier "b", default⟩,
    ⟨.symbol .plus, default⟩, ⟨.symbol .openParen, default⟩, ⟨.identifier "c", default⟩,
    ⟨.symbol .equal, default⟩, ⟨.identifier "d", default⟩, ⟨.symbol .closeParen, default⟩]

/-- The sum and the comparison in its parenthesis are two chains. -/
theorem chains_eq_frames_sumTokens :
    ∃ p, ofTokens sumTokens = .ok p ∧ p.body.chains.length = 2 ∧
      ∀ e ∈ p.body.chains, e = Grammar.FrameStack.assemble e.first e.links :=
  ⟨_, rfl, rfl, @chains_eq_frames sumTokens _ rfl⟩

end Program

end NixSyntax
