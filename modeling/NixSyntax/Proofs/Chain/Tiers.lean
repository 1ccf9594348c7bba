import NixSyntax.Fault
import NixSyntax.Proofs.Chain.Assembled
import NixSyntax.Proofs.Tree.Sides
import Mathlib.Data.List.Chain

/-!
# How tightly the sides of an operator bind

The right side of an operator never binds looser than the operator itself. The left side may: an
operator is compared with the one in front of it only, so an operator that is looser than that one
takes the whole chain as its left side, whatever stands further to the left. In `a == b * c + d` the
sum takes the comparison.

What does hold on the left is about the operator in front, which ends the right spine of the left
side: it binds strictly tighter.

## The spine

Both statements are about the operators down the right spine of an expression. The operator at its
top is the one that joins the expression, and the one at its end is the last in the source, the one
that the next operator is compared with. So the right side is asked about at the top, and the left
side at the end (`Operator.Nests`).

The operator in front tells something about the others on the spine of the left side only if these
do not bind looser than it. They may, and then the left side narrows towards its end.

## Main definitions

* `Expr.spine`: the operators down the right spine of an expression
* `Operator.Nests`: the tiers of both sides agree with the operator that joins them
* `Expr.Nested`: they do at every operator of an expression

## Main results

* `Expr.Assembled.nested`: an expression that was assembled is nested
* `Program.nests_of_mem_nodes`: so is every node of the tree of a source
* `Program.tier_le_of_side`: and the tiers of its sides follow
* `Program.exists_looser_left_side`: a left side that binds looser than its operator
-/

namespace NixSyntax

/-- The operators down the right spine of an expression, the outermost first. -/
def Expr.spine : Expr → List Operator
  | .binary operator _ right _ => operator :: right.spine
  | .operand _ => []

@[simp] theorem Expr.spine_operand (o : Operand) : (Expr.operand o).spine = [] := rfl

@[simp] theorem Expr.spine_joined (operator : Operator) (left right : Expr) :
    (Expr.joined operator left right).spine = operator :: right.spine := rfl

/-- The operator that joins an expression is the first on its spine. -/
theorem Expr.spine_of_asBinary? {e l r : Expr} {o : Operator}
    (h : e.asBinary? = some (o, l, r)) : e.spine = o :: r.spine := by
  cases e with
  | binary operator left right span =>
    obtain ⟨rfl, -, rfl⟩ : operator = o ∧ left = l ∧ right = r := by simpa [Expr.asBinary?] using h
    rfl
  | operand o => cases h

/-- The tiers of two sides agree with the operator that joins them. -/
structure Operator.Nests (operator : Operator) (left right : Expr) : Prop where
  /-- The last operator of the left side binds tighter. -/
  left : ∀ o ∈ left.spine.getLast?, o.op.tier < operator.op.tier
  /-- The operator at the top of the right side does not bind looser. -/
  right : ∀ o ∈ right.spine.head?, o.op.tier ≤ operator.op.tier

/-- The tiers agree at every operator of an expression. -/
def Expr.Nested (e : Expr) : Prop :=
  ∀ ⦃operator left right span⦄, .binary operator left right span ∈ e.sides →
    operator.Nests left right

theorem Expr.nested_operand (o : Operand) : (Expr.operand o).Nested := by
  simp [Expr.Nested, Expr.sides]

/-- The operators of an expression are the one on top and those of its sides. -/
theorem Expr.nested_joined_iff {operator : Operator} {left right : Expr} :
    (Expr.joined operator left right).Nested ↔
      operator.Nests left right ∧ left.Nested ∧ right.Nested :=
  Expr.forall_mem_sides_joined_iff

namespace Grammar

/-! ### Stacks of frames

What holds of the stack of a chain at each of its operators. -/

/-- The operators of the frames, from the outside to the inside, and then those of what they are
around. -/
theorem spine_collapseAround (frames : List (Expr × Operator)) (e : Expr) :
    (FrameStack.collapseAround frames e).spine = (frames.map Prod.snd).reverse ++ e.spine := by
  induction frames generalizing e with
  | nil => rfl
  | cons frame frames ih =>
    calc (FrameStack.collapseAround (frame :: frames) e).spine
        = (frames.map Prod.snd).reverse ++ (Expr.joined frame.2 frame.1 e).spine := ih _
      _ = ((frame :: frames).map Prod.snd).reverse ++ e.spine := by simp

/-- A stack whose frames bind no tighter from the inside to the outside, with left sides that are
nested and end in tighter operators. -/
structure FrameStack.Ordered (f : FrameStack) : Prop where
  left : ∀ frame ∈ f.frames,
    frame.1.Nested ∧ ∀ o ∈ frame.1.spine.getLast?, o.op.tier < frame.2.op.tier
  frames : f.frames.IsChain fun inner outer => inner.2.op.tier ≤ outer.2.op.tier
  tail : ∃ o, f.tail = .operand o

theorem FrameStack.Ordered.single (o : Operand) : FrameStack.Ordered ⟨[], .operand o⟩ where
  left _ h := by cases h
  frames := .nil
  tail := ⟨o, rfl⟩

/-- Frames around a nested expression, whose operators bind no tighter on the way out. -/
theorem nested_collapseAround {frames : List (Expr × Operator)} {e : Expr} (he : e.Nested)
    (hhead : ∀ o ∈ e.spine.head?, ∀ frame ∈ frames.head?, o.op.tier ≤ frame.2.op.tier)
    (hleft : ∀ frame ∈ frames,
      frame.1.Nested ∧ ∀ o ∈ frame.1.spine.getLast?, o.op.tier < frame.2.op.tier)
    (hframes : frames.IsChain fun inner outer => inner.2.op.tier ≤ outer.2.op.tier) :
    (FrameStack.collapseAround frames e).Nested := by
  induction frames generalizing e with
  | nil => exact he
  | cons frame frames ih =>
    obtain ⟨hfirst, hrest⟩ := List.forall_mem_cons.mp hleft
    have hnests : frame.2.Nests frame.1 e :=
      ⟨hfirst.2, fun o ho => hhead o ho frame rfl⟩
    refine ih (Expr.nested_joined_iff.mpr ⟨hnests, hfirst.1, he⟩) ?_ hrest hframes.tail
    intro o ho next hnext
    obtain rfl : frame.2 = o := by simpa using ho
    exact (List.isChain_cons.mp hframes).1 next hnext

theorem FrameStack.Ordered.nested_collapse {f : FrameStack} (h : f.Ordered) :
    f.collapse.Nested := by
  obtain ⟨o, ho⟩ := h.tail
  refine nested_collapseAround ?_ ?_ h.left h.frames
  · rw [ho]
    exact Expr.nested_operand o
  · simp [ho]

/-- The last operator of an ordered stack is that of its innermost frame. -/
theorem FrameStack.Ordered.getLast?_spine_collapse {f : FrameStack} (h : f.Ordered) :
    f.collapse.spine.getLast? = f.frames.head?.map Prod.snd := by
  obtain ⟨o, ho⟩ := h.tail
  rw [FrameStack.collapse, spine_collapseAround, ho]
  simp

/-- **One operator keeps a stack ordered.** -/
theorem FrameStack.Ordered.push {f : FrameStack} (h : f.Ordered) (operator : Operator)
    (o : Operand) : (f.push operator o).Ordered := by
  have hlast := h.getLast?_spine_collapse
  obtain ⟨t, ht⟩ := h.tail
  unfold FrameStack.push
  split
  · rename_i hframes
    -- no operator is in front, so the left side ends in none
    rw [hframes] at hlast
    exact ⟨by simp [h.nested_collapse, hlast], .singleton _, o, rfl⟩
  · rename_i left last frames hframes
    rw [hframes] at hlast
    split
    · rename_i hlooser
      exact ⟨by simpa [h.nested_collapse, hlast] using hlooser, .singleton _, o, rfl⟩
    · rename_i htighter
      refine ⟨List.forall_mem_cons.mpr ⟨?_, h.left⟩, ?_, o, rfl⟩
      · simp [ht, Expr.nested_operand]
      · rw [hframes, List.isChain_cons_cons]
        exact ⟨Nat.le_of_not_lt htighter, hframes ▸ h.frames⟩

/-- So does a whole chain. -/
theorem FrameStack.Ordered.foldl {f : FrameStack} (h : f.Ordered)
    (links : List (Operator × Operand)) :
    (links.foldl (fun (s : FrameStack) link => s.push link.1 link.2) f).Ordered := by
  induction links generalizing f with
  | nil => exact h
  | cons link links ih => exact ih (h.push link.1 link.2)

end Grammar

/-- **An expression that was assembled is nested.** -/
theorem Expr.Assembled.nested {e : Expr} (h : e.Assembled) : e.Nested := by
  rw [← h, Grammar.assemble_eq_frames]
  exact ((Grammar.FrameStack.Ordered.single _).foldl _).nested_collapse

/-! ### Sources

Every operator of a source was put into its tree by an assembled chain, at whatever depth. -/

namespace Program

variable {source : String} {p : Program}

/-- Every node of the tree of a source nests its two sides. -/
theorem nests_of_mem_nodes (h : ofText source = .ok p) {operator : Operator} {left right : Expr}
    {span : Span} (hmem : .expr (.binary operator left right span) ∈ p.body.nodes) :
    operator.Nests left right := by
  obtain ⟨ts, -, hp⟩ := ofText_eq_ok_iff.mp h
  obtain ⟨chain, hchain, hside⟩ := Expr.mem_sides_of_mem_nodes p.body hmem
  exact (assembled_of_mem_chains hp hchain).nested hside

/-- **The tiers of the sides of an operator.** A right side that is joined by an operator never
binds looser than the operator it stands behind. Nor does a left side, unless it narrows: its own
right side ends in an operator that binds tighter. The operator in front, which ends the right spine
of the left side, always does. -/
theorem tier_le_of_side (h : ofText source = .ok p) {operator : Operator} {left right : Expr}
    {span : Span} (hmem : .expr (.binary operator left right span) ∈ p.body.nodes) :
    (∀ o l r, right.asBinary? = some (o, l, r) → o.op.tier ≤ operator.op.tier) ∧
    (∀ o l r, left.asBinary? = some (o, l, r) →
      o.op.tier ≤ operator.op.tier ∨ ∃ last ∈ r.spine.getLast?, last.op.tier < operator.op.tier) ∧
    (∀ last ∈ left.spine.getLast?, last.op.tier < operator.op.tier) := by
  have hnests := nests_of_mem_nodes h hmem
  refine ⟨fun o l r hright => ?_, fun o l r hleft => ?_, hnests.left⟩
  · refine hnests.right o ?_
    rw [Expr.spine_of_asBinary? hright]
    rfl
  · have hlast := hnests.left
    rw [Expr.spine_of_asBinary? hleft, List.getLast?_cons] at hlast
    cases hr : r.spine.getLast? with
    | none => exact .inl (Nat.le_of_lt (hlast o (by simp [hr])))
    | some last => exact .inr ⟨last, rfl, hlast last (by simp [hr])⟩

/-! ### A chain that narrows -/

/-- A stretch of the first line. -/
def onFirstLine (first last : Nat) : Span := ⟨⟨1, first + 1, first⟩, ⟨1, last + 1, last⟩⟩

/-- A plain name as an operand. -/
def nameAt (name : String) (span : Span) : Expr :=
  .operand ⟨[], [], [], .name ⟨[.name name], [], span⟩, span⟩

/-- The left side of the sum in `a == b * c + d`. -/
def narrowingComparison : Expr :=
  .joined ⟨.equal, onFirstLine 2 4⟩ (nameAt "a" (onFirstLine 0 1))
    (.joined ⟨.mul, onFirstLine 7 8⟩ (nameAt "b" (onFirstLine 5 6)) (nameAt "c" (onFirstLine 9 10)))

/-- The tree of `a == b * c + d`. -/
def narrowingSum : Expr :=
  .joined ⟨.add, onFirstLine 11 12⟩ narrowingComparison (nameAt "d" (onFirstLine 13 14))

theorem ofText_narrowing : ofText "a == b * c + d" = .ok ⟨narrowingSum, onFirstLine 0 14⟩ :=
  ofText_eq_ok_iff.mpr
    ⟨[⟨.identifier "a", onFirstLine 0 1⟩, ⟨.symbol .equal, onFirstLine 2 4⟩,
        ⟨.identifier "b", onFirstLine 5 6⟩, ⟨.symbol .star, onFirstLine 7 8⟩,
        ⟨.identifier "c", onFirstLine 9 10⟩, ⟨.symbol .plus, onFirstLine 11 12⟩,
        ⟨.identifier "d", onFirstLine 13 14⟩, ⟨.endOfInput, onFirstLine 14 14⟩],
      rfl, rfl⟩

/-- The sum of `a == b * c + d` has a comparison on its left and a product in front of it. -/
theorem tier_le_of_side_narrowing :
    ofText "a == b * c + d" = .ok ⟨narrowingSum, onFirstLine 0 14⟩ ∧
    .expr narrowingSum ∈ narrowingSum.nodes ∧ narrowingComparison.spine.length = 2 ∧
    (∀ o l r, (nameAt "d" (onFirstLine 13 14)).asBinary? = some (o, l, r) →
      o.op.tier ≤ BinaryOp.add.tier) ∧
    (∀ o l r, narrowingComparison.asBinary? = some (o, l, r) →
      o.op.tier ≤ BinaryOp.add.tier ∨
        ∃ last ∈ r.spine.getLast?, last.op.tier < BinaryOp.add.tier) ∧
    (∀ last ∈ narrowingComparison.spine.getLast?, last.op.tier < BinaryOp.add.tier) :=
  ⟨ofText_narrowing, .head _, rfl, tier_le_of_side ofText_narrowing (.head _)⟩

/-- **A left side may bind looser than the operator behind it**: in `a == b * c + d` a comparison
is the left side of a sum. -/
theorem exists_looser_left_side : ∃ p operator left right span o l r,
    ofText "a == b * c + d" = .ok p ∧
    .expr (.binary operator left right span) ∈ p.body.nodes ∧
    left.asBinary? = some (o, l, r) ∧ operator.op.tier < o.op.tier :=
  ⟨_, _, _, _, _, _, _, _, ofText_narrowing, .head _, rfl, by decide⟩

end Program

end NixSyntax
