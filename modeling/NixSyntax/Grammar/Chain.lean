import NixSyntax.Tree.Basic

/-!
# Chains of operators

Operands joined by operators are first read as a flat chain and then put into the shape of a tree.
This module is the second step.

## The binding rule

Each operator is compared with the operator in front of it, and with no other. If it binds looser,
all that was built so far becomes its left side. Otherwise it takes the last operand away from the
operator in front of it and puts itself in its place. So operators of one tier nest to the right.

The operator in front stands at the end of the tree's right spine: the root, its right side, the
right side of that, and so on. `Spine.depth` says how many steps down it is, and `graft` walks
there.

## Main definitions

* `Spine`: the tree of a part of a chain, with the place of its last operator
* `graft`: putting an operator below the operator at the end of a spine
* `Spine.push`: one more operator and operand
* `assemble`: the tree of a whole chain
-/

namespace NixSyntax

namespace Grammar

/-- Gives the node `depth` steps down the right spine a new right side: its old one, joined with
`right`. The spans above follow. An operand has no node to go down to and is joined itself. -/
def graft (operator : Operator) (right : Expr) : Nat → Expr → Expr
  | _, .operand o => .joined operator (.operand o) right
  | 0, .binary op l r _ => .joined op l (.joined operator r right)
  | depth + 1, .binary op l r _ => .joined op l (graft operator right depth r)

/-- The tree of a part of a chain. -/
structure Spine where
  /-- The tree. -/
  root : Expr
  /-- The tier of the last operator. It is zero as long as there is none. -/
  tier : Nat
  /-- How many steps down the right spine of the tree the last operator is. -/
  depth : Nat

namespace Spine

/-- The tree of a chain without operators. -/
def single (o : Operand) : Spine := ⟨.operand o, 0, 0⟩

/-- The tree of a chain with one more operator and operand. -/
def push (s : Spine) (operator : Operator) (o : Operand) : Spine :=
  if s.tier < operator.op.tier then ⟨.joined operator s.root (.operand o), operator.op.tier, 0⟩
  else ⟨graft operator (.operand o) s.depth s.root, operator.op.tier, s.depth + 1⟩

end Spine

/-- The tree of a chain: a first operand, and operators each with the operand behind it. -/
def assemble (first : Operand) (links : List (Operator × Operand)) : Expr :=
  (links.foldl (fun s link => s.push link.1 link.2) (Spine.single first)).root

end Grammar

end NixSyntax
