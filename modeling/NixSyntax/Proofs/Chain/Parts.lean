import NixSyntax.Proofs.Chain.Tiers

/-!
# The sides of an assembled expression are assembled

Taken by itself, the chain of either side of an operator would be put into the very tree that the
side is. So a side can be read alone.

On the stack of frames this is plain to see. The outermost frame holds the tree of a whole
beginning of the chain, and every other frame holds one operand. What those others collapse to is
the right side. Their operators bind no tighter from the outside to the inside, so the rule puts
them on a stack of its own without collapsing anything.

## Why it is not said of the tree

A side of a tree is not read on its own, and its operators were compared with operators outside it.
On the left this makes no difference, as the left side was whole before the operator came. On the
right it might: the first operator of the right side was put there because it binds no looser than
the operator in front, which is missing when the right side is read alone. But without an operator
in front it is put on an empty stack, and the ones behind it are compared with it as before.

## Main definitions

* `FrameStack.ofChain`: the stack of a chain
* `FrameStack.Parted`: what the frames of a stack hold

## Main results

* `Expr.Assembled.sides`: the two sides of an assembled expression are assembled
-/

namespace NixSyntax

namespace Grammar

/-- The stack of a chain. -/
def FrameStack.ofChain (first : Operand) (links : List (Operator × Operand)) : FrameStack :=
  links.foldl (fun s l => s.push l.1 l.2) ⟨[], .operand first⟩

/-- One more link is pushed last. -/
theorem FrameStack.ofChain_append_singleton (first : Operand) (links : List (Operator × Operand))
    (l : Operator × Operand) :
    ofChain first (links ++ [l]) = (ofChain first links).push l.1 l.2 := by
  simp [ofChain]

theorem FrameStack.ordered_ofChain (first : Operand) (links : List (Operator × Operand)) :
    (ofChain first links).Ordered :=
  (FrameStack.Ordered.single first).foldl links

/-- What a stack of a chain collapses to is assembled. -/
theorem FrameStack.assembled_collapse_ofChain (first : Operand)
    (links : List (Operator × Operand)) : (ofChain first links).collapse.Assembled := by
  have heq : (ofChain first links).collapse = Grammar.assemble first links :=
    (assemble_eq_frames first links).symm
  simp [heq, Expr.Assembled]

/-- Frames that hold one operand each, with operators that bind no tighter on the way in, are the
stack of some chain. -/
theorem FrameStack.exists_ofChain_eq {frames : List (Expr × Operator)}
    (hleft : ∀ frame ∈ frames, ∃ o, frame.1 = .operand o)
    (hframes : frames.IsChain fun inner outer => inner.2.op.tier ≤ outer.2.op.tier)
    (tail : Operand) : ∃ first links, ofChain first links = ⟨frames, .operand tail⟩ := by
  induction frames generalizing tail with
  | nil => exact ⟨tail, [], rfl⟩
  | cons frame frames ih =>
    obtain ⟨⟨o, ho⟩, hleft⟩ := List.forall_mem_cons.mp hleft
    obtain ⟨first, links, hlinks⟩ := ih hleft hframes.tail o
    refine ⟨first, links ++ [(frame.2, tail)], ?_⟩
    rw [ofChain_append_singleton, hlinks]
    cases frames with
    | nil => simp [push, collapse, collapseAround, ← ho]
    | cons outer frames =>
      have htier := (List.isChain_cons_cons.mp hframes).1
      simp [push, Nat.not_lt.mpr htier, ← ho]

/-- The outermost frame holds an assembled expression, and every other frame holds an operand. -/
def FrameStack.Parted (f : FrameStack) : Prop :=
  ∀ inner frame, f.frames = inner ++ [frame] →
    frame.1.Assembled ∧ ∀ fr ∈ inner, ∃ o, fr.1 = .operand o

/-- **One operator keeps a stack parted**, if its tree so far is assembled. -/
theorem FrameStack.Parted.push {f : FrameStack} (h : f.Parted) (hordered : f.Ordered)
    (hf : f.collapse.Assembled) (operator : Operator) (o : Operand) :
    (f.push operator o).Parted := by
  have hcollapse : FrameStack.Parted ⟨[(f.collapse, operator)], .operand o⟩ := by
    intro inner frame heq
    obtain ⟨rfl, hlast⟩ := List.append_eq_singleton_iff.mp heq.symm |>.resolve_right (by simp)
    obtain rfl := List.singleton_inj.mp hlast
    exact ⟨hf, by simp⟩
  unfold FrameStack.push
  split
  · exact hcollapse
  · rename_i left last frames hframes
    split
    · exact hcollapse
    · intro inner frame heq
      cases inner with
      | nil =>
        rw [hframes] at heq
        simp at heq
      | cons top inner =>
        obtain ⟨htop, heq⟩ := List.cons.inj heq
        obtain ⟨hframe, hinner⟩ := h inner frame heq
        obtain ⟨t, ht⟩ := hordered.tail
        exact ⟨hframe, List.forall_mem_cons.mpr ⟨⟨t, by rw [← htop, ht]⟩, hinner⟩⟩

theorem FrameStack.parted_ofChain (first : Operand) (links : List (Operator × Operand)) :
    (ofChain first links).Parted := by
  induction links using List.reverseRecOn with
  | nil =>
    intro inner frame heq
    simp [ofChain] at heq
  | append_singleton links l ih =>
    rw [ofChain_append_singleton]
    exact ih.push (ordered_ofChain first links) (assembled_collapse_ofChain first links) l.1 l.2

end Grammar

open Grammar (FrameStack)

/-- **The sides of an assembled expression are assembled.** -/
theorem Expr.Assembled.sides {operator : Operator} {left right : Expr} {span : Span}
    (h : (Expr.binary operator left right span).Assembled) : left.Assembled ∧ right.Assembled := by
  obtain ⟨first, links, hstack⟩ : ∃ first links,
      (FrameStack.ofChain first links).collapse = .binary operator left right span :=
    ⟨_, _, (Grammar.assemble_eq_frames _ _).symm.trans h⟩
  have hordered := FrameStack.ordered_ofChain first links
  obtain ⟨o, ho⟩ := hordered.tail
  rcases List.eq_nil_or_concat (FrameStack.ofChain first links).frames with
    hnil | ⟨inner, frame, hframes⟩
  · simp [FrameStack.collapse, FrameStack.collapseAround, hnil, ho] at hstack
  · rw [List.concat_eq_append] at hframes
    obtain ⟨hframe, hinner⟩ := FrameStack.parted_ofChain first links inner frame hframes
    have hchain := hordered.frames
    rw [hframes] at hchain
    -- the frames inside the outermost one are a stack of their own
    obtain ⟨first', links', hinside⟩ :=
      FrameStack.exists_ofChain_eq hinner hchain.left_of_append o
    have hright := FrameStack.assembled_collapse_ofChain first' links'
    rw [hinside] at hright
    simp only [FrameStack.collapse, FrameStack.collapseAround, hframes, ho, List.foldl_append,
      List.foldl_cons, List.foldl_nil, Expr.joined, Expr.binary.injEq] at hstack
    obtain ⟨-, rfl, rfl, -⟩ := hstack
    exact ⟨hframe, hright⟩

end NixSyntax
