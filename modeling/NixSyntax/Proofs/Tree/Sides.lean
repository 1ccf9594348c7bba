import NixSyntax.Proofs.Tree.Nodes

/-!
# The parts of an operator expression

A tree lists its operator expressions in two ways. `Expr.nodes` has every expression, also those
that are one side of an operator. `Expr.chains` has the maximal ones only, and what the rule for
operators promises is promised for those. A law about every single node of a tree is therefore
proved for the sides of a maximal expression, and carried over by `Expr.mem_sides_of_mem_nodes`.

## The proof

The induction is over all types of nodes, and it says a little more than the result. A node other
than an expression is no side itself, so an expression in it is a side of one that some node in it
holds (`sidesOf`). An expression may also be a side of the expression it stands in, and whoever
holds that one makes it a member of `sidesOf`. In each case the lists of nodes and of sides split in
the same way, and the goal is a matter of membership in their parts.

## Main definitions

* `Expr.sides`: an expression, its two sides, their sides, and so on
* `sidesOf`: the sides of the expressions that some nodes hold

## Main results

* `Expr.mem_sides_of_mem_nodes`: every expression of a tree is a side of a maximal one
-/

namespace NixSyntax

/-! ### Sides -/

/-- An expression with all it is joined from: its two sides, their sides, and so on. -/
def Expr.sides : Expr → List Expr
  | e@(.binary _ left right _) => e :: (left.sides ++ right.sides)
  | e@(.operand _) => [e]

/-- The expression is one of its sides. -/
theorem Expr.self_mem_sides (e : Expr) : e ∈ e.sides := by
  cases e <;> simp [Expr.sides]

/-- What holds at every operator of two joined expressions holds at the one that joins them, and at
every operator of the two. -/
theorem Expr.forall_mem_sides_joined_iff {P : Operator → Expr → Expr → Prop} {operator : Operator}
    {left right : Expr} :
    (∀ ⦃op l r span⦄, .binary op l r span ∈ (Expr.joined operator left right).sides → P op l r) ↔
      P operator left right ∧ (∀ ⦃op l r span⦄, .binary op l r span ∈ left.sides → P op l r) ∧
        ∀ ⦃op l r span⦄, .binary op l r span ∈ right.sides → P op l r := by
  constructor
  · intro h
    exact ⟨h (Expr.self_mem_sides _),
      fun _ _ _ _ hmem => h (List.mem_cons_of_mem _ (List.mem_append_left _ hmem)),
      fun _ _ _ _ hmem => h (List.mem_cons_of_mem _ (List.mem_append_right _ hmem))⟩
  · rintro ⟨htop, hleft, hright⟩ op l r span hmem
    rcases List.mem_cons.mp hmem with heq | hmem
    · cases heq
      exact htop
    · exact (List.mem_append.mp hmem).elim (@hleft op l r span) (@hright op l r span)

/-! ### The sides that some nodes hold -/

/-- The sides of the expressions that some nodes hold. -/
def sidesOf (nodes : List Node) : List Expr :=
  nodes.flatMap fun nd => nd.expressions.flatMap Expr.sides

@[simp] theorem sidesOf_cons (nd : Node) (nodes : List Node) :
    sidesOf (nd :: nodes) = nd.expressions.flatMap Expr.sides ++ sidesOf nodes := rfl

/-- The sides of two lists of nodes are those of the one and those of the other. -/
@[simp] theorem sidesOf_append (nodes nodes' : List Node) :
    sidesOf (nodes ++ nodes') = sidesOf nodes ++ sidesOf nodes' := by
  simp [sidesOf]

section

attribute [local simp] Expr.nodes Operand.nodes modifiersNodes Modifier.nodes Term.nodes
  exprsNodes exprNodes? StringLiteral.nodes partsNodes StringPart.nodes Interpolation.nodes
  AttrPath.nodes pathsNodes pathNodes? segmentsNodes Segment.nodes bindingsNodes Binding.nodes
  Parameter.nodes formalsNodes Formal.nodes Node.expressions Term.expressions Expr.sides

variable {x : Expr}

mutual

/-- An expression is a side of the one it stands in, or of one further inside. -/
theorem Expr.mem_sides :
    (e : Expr) → .expr x ∈ e.nodes → x ∈ e.sides ∨ x ∈ sidesOf e.nodes
  | .binary _ left right _ => by
    have hleft := left.mem_sides
    have hright := right.mem_sides
    simp
    grind
  | .operand o => by
    have ho := o.mem_sides
    simp
    grind

/-- In an operand, an expression stands in one of its clauses or in its term. -/
theorem Operand.mem_sides : (o : Operand) → .expr x ∈ o.nodes → x ∈ sidesOf o.nodes
  | ⟨modifiers, _, _, term, _⟩ => by
    have hmodifiers := mem_sides_modifiers modifiers
    have hterm := term.mem_sides
    simp
    grind

theorem mem_sides_modifiers : (ms : List Modifier) →
    .expr x ∈ modifiersNodes ms → x ∈ sidesOf (modifiersNodes ms)
  | [] => by simp
  | m :: ms => by
    have hm := m.mem_sides
    have hms := mem_sides_modifiers ms
    simp
    grind

theorem Modifier.mem_sides : (m : Modifier) → .expr x ∈ m.nodes → x ∈ sidesOf m.nodes
  | ⟨_, subject, _⟩ => by
    have h := subject.mem_sides
    simpa using h

/-- In a term, it stands in one of those that the term is made of. These are held by the term. -/
theorem Term.mem_sides : (t : Term) → .expr x ∈ t.nodes → x ∈ sidesOf t.nodes
  | .null _ | .bool _ _ | .int _ _ | .float _ _ | .path _ _ => by simp
  | .string literal => by
    have h := literal.mem_sides
    simpa using h
  | .interpolation content => by
    have h := content.mem_sides
    simpa using h
  | .name p => by
    have h := p.mem_sides
    simpa using h
  | .list items _ _ => by
    have h := mem_sides_exprs items
    simpa using h
  | .attrSet _ bindings _ _ => by
    have h := mem_sides_bindings bindings
    simpa using h
  | .lambda parameter body _ => by
    have hparameter := parameter.mem_sides
    have hbody := body.mem_sides
    simp
    grind
  | .call callee arguments _ => by
    have hcallee := callee.mem_sides
    have harguments := mem_sides_exprs arguments
    simp
    grind
  | .letIn bindings _ body _ => by
    have hbindings := mem_sides_bindings bindings
    have hbody := body.mem_sides
    simp
    grind
  | .import_ source _ => by
    have h := source.mem_sides
    simpa using h
  | .conditional condition consequence alternative _ => by
    have hcondition := condition.mem_sides
    have hconsequence := consequence.mem_sides
    have halternative := alternative.mem_sides
    simp
    grind
  | .unary _ argument _ => by
    have h := argument.mem_sides
    simpa using h
  | .paren body _ => by
    have h := body.mem_sides
    simpa using h

/-- Expressions in a row are held by whatever node they stand in, so the sides of each of them
count. -/
theorem mem_sides_exprs : (es : List Expr) →
    .expr x ∈ exprsNodes es → x ∈ es.flatMap Expr.sides ∨ x ∈ sidesOf (exprsNodes es)
  | [] => by simp
  | e :: es => by
    have he := e.mem_sides
    have hes := mem_sides_exprs es
    simp
    grind

/-- An expression that may be missing is held likewise. -/
theorem mem_sides_expr? : (e : Option Expr) →
    .expr x ∈ exprNodes? e → x ∈ e.toList.flatMap Expr.sides ∨ x ∈ sidesOf (exprNodes? e)
  | none => by simp
  | some e => by
    have h := e.mem_sides
    simpa using h

theorem StringLiteral.mem_sides :
    (s : StringLiteral) → .expr x ∈ s.nodes → x ∈ sidesOf s.nodes
  | ⟨parts, _, _⟩ => by
    have h := mem_sides_parts parts
    simpa using h

theorem mem_sides_parts : (ps : List StringPart) →
    .expr x ∈ partsNodes ps → x ∈ sidesOf (partsNodes ps)
  | [] => by simp
  | p :: ps => by
    have hp := p.mem_sides
    have hps := mem_sides_parts ps
    simp
    grind

theorem StringPart.mem_sides : (p : StringPart) → .expr x ∈ p.nodes → x ∈ sidesOf p.nodes
  | .text _ => by simp
  | .interpolation content => by
    have h := content.mem_sides
    simpa using h

theorem Interpolation.mem_sides :
    (c : Interpolation) → .expr x ∈ c.nodes → x ∈ sidesOf c.nodes
  | ⟨body, _⟩ => by
    have h := body.mem_sides
    simpa using h

theorem AttrPath.mem_sides : (p : AttrPath) → .expr x ∈ p.nodes → x ∈ sidesOf p.nodes
  | ⟨segments, _, _⟩ => by
    have h := mem_sides_segments segments
    simpa using h

theorem mem_sides_paths : (ps : List AttrPath) →
    .expr x ∈ pathsNodes ps → x ∈ sidesOf (pathsNodes ps)
  | [] => by simp
  | p :: ps => by
    have hp := p.mem_sides
    have hps := mem_sides_paths ps
    simp
    grind

theorem mem_sides_path? : (p : Option AttrPath) →
    .expr x ∈ pathNodes? p → x ∈ sidesOf (pathNodes? p)
  | none => by simp
  | some p => by
    have h := p.mem_sides
    simpa using h

theorem mem_sides_segments : (ss : List Segment) →
    .expr x ∈ segmentsNodes ss → x ∈ sidesOf (segmentsNodes ss)
  | [] => by simp
  | s :: ss => by
    have hs := s.mem_sides
    have hss := mem_sides_segments ss
    simp
    grind

theorem Segment.mem_sides : (s : Segment) → .expr x ∈ s.nodes → x ∈ sidesOf s.nodes
  | .name _ => by simp
  | .string literal => by
    have h := literal.mem_sides
    simpa using h
  | .interpolation content => by
    have h := content.mem_sides
    simpa using h

theorem mem_sides_bindings : (bs : List Binding) →
    .expr x ∈ bindingsNodes bs → x ∈ sidesOf (bindingsNodes bs)
  | [] => by simp
  | b :: bs => by
    have hb := b.mem_sides
    have hbs := mem_sides_bindings bs
    simp
    grind

/-- In a binding, it stands in a name or in a value. -/
theorem Binding.mem_sides : (b : Binding) → .expr x ∈ b.nodes → x ∈ sidesOf b.nodes
  | .assign name value _ _ => by
    have hname := name.mem_sides
    have hvalue := value.mem_sides
    simp
    grind
  | .inherit source names _ _ => by
    have hsource := mem_sides_expr? source
    have hnames := mem_sides_paths names
    simp
    grind

theorem Parameter.mem_sides : (p : Parameter) → .expr x ∈ p.nodes → x ∈ sidesOf p.nodes
  | .named name => by
    have h := name.mem_sides
    simpa using h
  | .pattern formals _ whole _ _ => by
    have hformals := mem_sides_formals formals
    have hwhole := mem_sides_path? whole
    simp
    grind

theorem mem_sides_formals : (fs : List Formal) →
    .expr x ∈ formalsNodes fs → x ∈ sidesOf (formalsNodes fs)
  | [] => by simp
  | f :: fs => by
    have hf := f.mem_sides
    have hfs := mem_sides_formals fs
    simp
    grind

theorem Formal.mem_sides : (f : Formal) → .expr x ∈ f.nodes → x ∈ sidesOf f.nodes
  | ⟨name, fallback, _, _⟩ => by
    have hname := name.mem_sides
    have hfallback := mem_sides_expr? fallback
    simp
    grind

end

end

/-- **Every expression of a tree is a side of a maximal one.** -/
theorem Expr.mem_sides_of_mem_nodes {x : Expr} (e : Expr) (h : .expr x ∈ e.nodes) :
    ∃ c ∈ e.chains, x ∈ c.sides := by
  rcases Expr.mem_sides e h with h | h
  · exact ⟨e, List.mem_cons_self, h⟩
  · obtain ⟨nd, hnd, h⟩ := List.mem_flatMap.mp h
    obtain ⟨c, hc, hx⟩ := List.mem_flatMap.mp h
    exact ⟨c, List.mem_cons_of_mem _ (List.mem_flatMap.mpr ⟨nd, hnd, hc⟩), hx⟩

end NixSyntax
