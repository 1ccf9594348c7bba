import NixSyntax.Grammar.Chain

/-!
# The binding rule on a stack of frames

`assemble` keeps the tree of a chain as a tree and walks down its right spine for every operator.
The same rule is easier to see on the spine laid out flat: a stack of frames, each a left side with
its operator, above the operand that came last.

An operator that binds looser than the operator in front of it, or that has none in front of it,
collapses the stack into the left side of one new frame. Any other operator takes the last operand
as the left side of one more frame. At the end the stack collapses to the right.

## The invariant

The tree of a `Spine` is its stack, collapsed. The node at which the last operator stands is the
innermost frame, so it is as many steps down the spine as there are frames outside it. This is
`Spine.Flat`, and `Spine.Flat.push` is the step.

## Main definitions

* `FrameStack`: the stack, with the last operand
* `FrameStack.push`, `FrameStack.collapse`: one more operator, and the tree at the end
* `FrameStack.assemble`: the tree of a whole chain
* `Expr.first`, `Expr.links`: the operands and operators of a tree, in their order

## Main results

* `assemble_eq_frames`: the two rules make the same tree of every chain
* `first_assemble`, `links_assemble`: the tree reads in order as the chain it was made from
-/

namespace NixSyntax

namespace Grammar

/-! ### Frames

The innermost frame comes first, since it is the one that a new operator is compared with.
Collapsing begins at the inside too: the tail is the right side of the innermost frame, and what
comes of it the right side of the next. -/

/-- A part of a chain, laid out flat. -/
structure FrameStack where
  /-- The left sides that wait for their right sides, the innermost first. -/
  frames : List (Expr × Operator)
  /-- The operand that came last. -/
  tail : Expr

namespace FrameStack

/-- The tree of some frames around an expression. -/
def collapseAround (frames : List (Expr × Operator)) (e : Expr) : Expr :=
  frames.foldl (fun right frame => .joined frame.2 frame.1 right) e

/-- The tree of a part of a chain. -/
def collapse (s : FrameStack) : Expr := collapseAround s.frames s.tail

/-- One more operator and operand. -/
def push (s : FrameStack) (operator : Operator) (o : Operand) : FrameStack :=
  match s.frames with
  | [] => ⟨[(s.collapse, operator)], .operand o⟩
  | (_, last) :: _ =>
    if last.op.tier < operator.op.tier then ⟨[(s.collapse, operator)], .operand o⟩
    else ⟨(s.tail, operator) :: s.frames, .operand o⟩

/-- The tree of a chain, made on a stack of frames. -/
def assemble (first : Operand) (links : List (Operator × Operand)) : Expr :=
  (links.foldl (fun (s : FrameStack) link => s.push link.1 link.2) ⟨[], .operand first⟩).collapse

end FrameStack

/-- A graft below some frames is a graft in what they are around. -/
theorem graft_collapseAround (operator : Operator) (right : Expr) (depth : Nat)
    (frames : List (Expr × Operator)) (e : Expr) :
    graft operator right (frames.length + depth) (FrameStack.collapseAround frames e)
      = FrameStack.collapseAround frames (graft operator right depth e) := by
  induction frames generalizing depth e with
  | nil => simp [FrameStack.collapseAround]
  | cons frame frames ih =>
    calc graft operator right ((frame :: frames).length + depth)
          (FrameStack.collapseAround (frame :: frames) e)
        = graft operator right (frames.length + (depth + 1))
            (FrameStack.collapseAround frames (.joined frame.2 frame.1 e)) := by
          rw [List.length_cons, Nat.add_assoc, Nat.add_comm 1 depth]
          rfl
      _ = FrameStack.collapseAround frames
            (graft operator right (depth + 1) (.joined frame.2 frame.1 e)) := ih _ _
      _ = FrameStack.collapseAround (frame :: frames) (graft operator right depth e) := rfl

/-- A spine, laid out flat: the stack collapses to its tree, its tier is that of the innermost
frame, and its depth is the number of frames outside that one. -/
structure Spine.Flat (s : Spine) (f : FrameStack) : Prop where
  root : s.root = f.collapse
  empty : f.frames = [] → s.tier = 0
  tier : ∀ frame frames, f.frames = frame :: frames → s.tier = frame.2.op.tier
  depth : ∀ frame frames, f.frames = frame :: frames → s.depth = frames.length

theorem Spine.Flat.single (o : Operand) : Spine.Flat (.single o) ⟨[], .operand o⟩ where
  root := rfl
  empty _ := rfl
  tier _ _ h := by cases h
  depth _ _ h := by cases h

/-- A stack with one frame, around an operand. -/
theorem Spine.Flat.joined (root : Expr) (operator : Operator) (o : Operand) :
    Spine.Flat ⟨.joined operator root (.operand o), operator.op.tier, 0⟩
      ⟨[(root, operator)], .operand o⟩ where
  root := rfl
  empty h := by cases h
  tier _ _ h := by
    cases h
    rfl
  depth _ _ h := by
    cases h
    rfl

/-- **One operator keeps the stack and the tree together.** -/
theorem Spine.Flat.push {s : Spine} {f : FrameStack} (h : Spine.Flat s f) (operator : Operator)
    (o : Operand) : Spine.Flat (s.push operator o) (f.push operator o) := by
  obtain ⟨frames, tail⟩ := f
  cases frames with
  | nil =>
    have htier : s.tier < operator.op.tier := by
      rw [h.empty rfl]
      exact operator.op.tier_pos
    rw [Spine.push, if_pos htier, h.root]
    exact .joined _ _ _
  | cons frame frames =>
    by_cases htier : frame.2.op.tier < operator.op.tier
    · rw [Spine.push, h.tier _ _ rfl, if_pos htier, h.root]
      simp only [FrameStack.push, if_pos htier]
      exact .joined _ _ _
    · rw [Spine.push, h.tier _ _ rfl, if_neg htier]
      simp only [FrameStack.push, if_neg htier]
      refine ⟨?_, fun h => (by cases h), fun _ _ h => (by cases h; rfl), fun _ _ h' => ?_⟩
      · -- the innermost frame is the node that `depth` leads to
        have hgraft := graft_collapseAround operator (.operand o) 0 frames
          (.joined frame.2 frame.1 tail)
        rw [Nat.add_zero] at hgraft
        rw [h.root, h.depth _ _ rfl]
        exact hgraft
      · cases h'
        rw [h.depth _ _ rfl]
        rfl

/-- The step, along a chain. -/
theorem Spine.Flat.foldl {s : Spine} {f : FrameStack} (h : Spine.Flat s f)
    (links : List (Operator × Operand)) :
    Spine.Flat (links.foldl (fun s link => s.push link.1 link.2) s)
      (links.foldl (fun s link => s.push link.1 link.2) f) := by
  induction links generalizing s f with
  | nil => exact h
  | cons link links ih => exact ih (h.push link.1 link.2)

/-- **The two rules make the same tree of every chain.** -/
theorem assemble_eq_frames (first : Operand) (links : List (Operator × Operand)) :
    assemble first links = FrameStack.assemble first links :=
  ((Spine.Flat.single first).foldl links).root

end Grammar

/-! ### The chain of a tree

Read from left to right, a tree gives back operands and operators in their order, whatever its
shape. Grafting and joining add one operator at the end of it. -/

namespace Expr

/-- The first operand of an expression. -/
def first : Expr → Operand
  | binary _ left _ _ => left.first
  | operand o => o

/-- The operators of an expression, each with the operand behind it. -/
def links : Expr → List (Operator × Operand)
  | binary operator left right _ => left.links ++ (operator, right.first) :: right.links
  | operand _ => []

@[simp] theorem first_operand (o : Operand) : (operand o).first = o := rfl

@[simp] theorem links_operand (o : Operand) : (operand o).links = [] := rfl

@[simp] theorem first_joined (operator : Operator) (left right : Expr) :
    (joined operator left right).first = left.first := rfl

@[simp] theorem links_joined (operator : Operator) (left right : Expr) :
    (joined operator left right).links = left.links ++ (operator, right.first) :: right.links := rfl

end Expr

namespace Grammar

/-- A graft leaves the beginning of a tree alone. -/
theorem first_graft (operator : Operator) (right : Expr) (depth : Nat) (e : Expr) :
    (graft operator right depth e).first = e.first := by
  fun_induction graft operator right depth e with
  | case1 => rfl
  | case2 => rfl
  | case3 depth op l r span ih => rfl

/-- A graft appends to the chain, however deep down the spine it is made. -/
theorem links_graft (operator : Operator) (right : Expr) (depth : Nat) (e : Expr) :
    (graft operator right depth e).links = e.links ++ (operator, right.first) :: right.links := by
  fun_induction graft operator right depth e with
  | case1 => rfl
  | case2 op l r span => simp [Expr.links]
  | case3 depth op l r span ih => simp [Expr.links, ih, first_graft]

theorem Spine.first_push (s : Spine) (operator : Operator) (o : Operand) :
    (s.push operator o).root.first = s.root.first := by
  rw [Spine.push]
  split
  · rfl
  · exact first_graft ..

/-- One more operator is one more link at the end of the chain. -/
theorem Spine.links_push (s : Spine) (operator : Operator) (o : Operand) :
    (s.push operator o).root.links = s.root.links ++ [(operator, o)] := by
  rw [Spine.push]
  split
  · rfl
  · exact links_graft ..

theorem foldl_push_root (s : Spine) (links : List (Operator × Operand)) :
    (links.foldl (fun s link => s.push link.1 link.2) s).root.first = s.root.first ∧
      (links.foldl (fun s link => s.push link.1 link.2) s).root.links = s.root.links ++ links := by
  induction links generalizing s with
  | nil => simp
  | cons link links ih =>
    obtain ⟨hfirst, hlinks⟩ := ih (s.push link.1 link.2)
    rw [s.first_push] at hfirst
    rw [s.links_push] at hlinks
    exact ⟨hfirst, by simpa using hlinks⟩

@[simp] theorem first_assemble (o : Operand) (links : List (Operator × Operand)) :
    (assemble o links).first = o :=
  (foldl_push_root (.single o) links).1

@[simp] theorem links_assemble (o : Operand) (links : List (Operator × Operand)) :
    (assemble o links).links = links :=
  (foldl_push_root (.single o) links).2

end Grammar

end NixSyntax
