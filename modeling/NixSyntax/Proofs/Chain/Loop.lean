import NixSyntax.Proofs.Chain.Frontier

/-!
# The loop that reads a chain

A chain is read one operator at a time. Between two operators the loop holds the tree so far, the
tier of the operator handled last, and how many steps down the right spine that operator stands: a
`Spine`. The three are three things that have to agree. If the depth led past the last operator,
`graft` would meet an operand and join it as if it were the whole tree.

## The invariant

As long as no operator was handled, the tree is the first operand. From then on the right spine has
one operator more than the depth says, the operator at its end is the one handled last, the operand
behind that one is the operand read last, and the operators down the spine bind no looser from one
to the next. This is `Spine.Holds`, and it is read off the stack of frames, whose innermost frame is
the operator handled last.

## Why it is a relation

The rule for expressions is a fold over what a repetition has read, and has no states to be spoken
of. `Loop` gives it states: one for each operand that was read, with the tree as the fold has it
there. That these are the states of the rule itself, and not of something that looks like it, is
`Loop.answers`: the rule succeeds with the tree of a state behind which no operator follows, and
fails where a state is stuck.

The steps are defined on all trees and at all depths, and would join an operand as a whole if they
were led there. `graft?` and `Spine.push?` say no in that case. Under the invariant they never do
(`Loop.push?`).

## Main definitions

* `Loop`: the states of the loop on given tokens, until it stops or fails
* `graft?`, `Spine.push?`: the step of the loop, without an answer where no operator is found
* `Spine.Holds`: the invariant

## Main results

* `Loop.answers`: the loop is the rule for expressions
* `Loop.holds`: the invariant at every state, and why no step is without an answer
-/

namespace NixSyntax

/-- The operand at the end of the right spine of an expression. -/
def Expr.tip : Expr → Operand
  | .binary _ _ right _ => right.tip
  | .operand o => o

namespace Grammar

/-! ### The states of the loop

The states in the order in which the loop comes to them. A state does not say whether the loop goes
on from it. -/

variable {operand : Context → Rule Operand} {ts mid rest : List Token}

/-- The states of the loop that reads a chain from the given tokens: the operator handled last with
the operand behind it, the tree so far, and the tokens that are left. -/
inductive Loop (operand : Context → Rule Operand) (ts : List Token) :
    Option (Operator × Operand) → Spine → List Token → Prop
  /-- The first operand was read. -/
  | first {o : Operand} {rest : List Token} (read : operand .chain ts = .ok (o, rest)) :
      Loop operand ts none (.single o) rest
  /-- One more operator was handled. -/
  | next {handled : Option (Operator × Operand)} {s : Spine} {mid : List Token}
      {l : Operator × Operand} {rest : List Token} (before : Loop operand ts handled s mid)
      (read : link operand mid = .ok (some l, rest)) :
      Loop operand ts (some l) (s.push l.1 l.2) rest

/-- The loop goes on with all operators that follow. -/
theorem Loop.rounds {handled : Option (Operator × Operand)} {s : Spine}
    {links : List (Operator × Operand)} (h : Loop operand ts handled s mid)
    (hlinks : Rounds (link operand) mid links rest) :
    ∃ handled, Loop operand ts handled (links.foldl (fun s l => s.push l.1 l.2) s) rest := by
  induction hlinks generalizing handled s with
  | nil => exact ⟨handled, h⟩
  | cons head tail ih => exact ih (h.next head)

/-- **What a state of the loop has read**: a first operand, and operators each with the operand
behind it. The tree is made of them by the binding rule. -/
theorem Loop.exists_rounds {handled : Option (Operator × Operand)} {s : Spine}
    (h : Loop operand ts handled s rest) : ∃ first mid links,
      operand .chain ts = .ok (first, mid) ∧ Rounds (link operand) mid links rest ∧
      s = links.foldl (fun s l => s.push l.1 l.2) (.single first) := by
  induction h with
  | @first o rest read => exact ⟨o, rest, [], read, .nil, rfl⟩
  | @next handled s mid' l rest before read ih =>
    obtain ⟨first, mid, links, hfirst, hlinks, rfl⟩ := ih
    exact ⟨first, mid, links ++ [l], hfirst, hlinks.concat read, by simp⟩

/-- **The loop is the rule for expressions.** An expression is the tree of a state behind which no
operator follows. The rule fails if the first operand does, or if some state is stuck. -/
theorem Loop.answers (hop : Advances operand) (ts : List Token) :
    (∀ e rest, expression operand ts = .ok (e, rest) ↔
      ∃ handled s, Loop operand ts handled s rest ∧ link operand rest = .ok (none, rest) ∧
        s.root = e) ∧
    ∀ stuck, expression operand ts = .error stuck ↔
      operand .chain ts = .error stuck ∨
        ∃ handled s mid, Loop operand ts handled s mid ∧ link operand mid = .error stuck := by
  have hlink := repeatable_link hop
  constructor
  · intro e rest
    -- the rounds of the rule are the steps of the loop, up to the one that ends both
    simp only [expression_eq_ok_iff, repeated_eq_ok_iff hlink]
    constructor
    · rintro ⟨first, mid, hfirst, links, ⟨hlinks, hend⟩, rfl⟩
      obtain ⟨handled, hloop⟩ := (Loop.first hfirst).rounds hlinks
      exact ⟨handled, _, hloop, hend, rfl⟩
    · rintro ⟨handled, s, hloop, hend, rfl⟩
      obtain ⟨first, mid, links, hfirst, hlinks, rfl⟩ := hloop.exists_rounds
      exact ⟨first, mid, hfirst, links, ⟨hlinks, hend⟩, rfl⟩
  · intro stuck
    rw [expression, bind_eq_error_iff]
    refine or_congr_right ?_
    constructor
    · rintro ⟨⟨first, mid⟩, hfirst, h⟩
      have hstuck : repeated (link operand) mid = .error stuck := by
        simpa [bind_eq_error_iff, pure, Except.pure] using h
      obtain ⟨links, mid', hlinks, hlast⟩ := (repeated_eq_error_iff hlink).mp hstuck
      obtain ⟨handled, hloop⟩ := (Loop.first hfirst).rounds hlinks
      exact ⟨handled, _, mid', hloop, hlast⟩
    · rintro ⟨handled, s, mid', hloop, hlast⟩
      obtain ⟨first, mid, links, hfirst, hlinks, rfl⟩ := hloop.exists_rounds
      exact ⟨(first, mid), hfirst, bind_eq_error_iff.mpr
        (.inl ((repeated_eq_error_iff hlink).mpr ⟨links, mid', hlinks, hlast⟩))⟩

/-! ### Steps that may be without an answer

The case in which a graft meets an operand on its way down is there in the definition, as it has to
be. Here it is left without an answer. -/

/-- `graft`, without an answer where it meets an operand on its way down. -/
def graft? (operator : Operator) (right : Expr) : Nat → Expr → Option Expr
  | _, .operand _ => none
  | 0, .binary op l r _ => some (.joined op l (.joined operator r right))
  | depth + 1, .binary op l r _ => (graft? operator right depth r).map (.joined op l)

/-- A graft finds an operator at each of its steps, if the spine has more operators than it has
steps to go. -/
theorem graft?_eq_some (operator : Operator) (right : Expr) {depth : Nat} {e : Expr}
    (h : depth < e.spine.length) :
    graft? operator right depth e = some (graft operator right depth e) := by
  induction depth generalizing e with
  | zero =>
    cases e with
    | operand o => cases h
    | binary op l r span => rfl
  | succ depth ih =>
    cases e with
    | operand o => cases h
    | binary op l r span =>
      have hr : depth < r.spine.length := Nat.lt_of_succ_lt_succ h
      rw [graft?, ih hr]
      rfl

/-- One more operator and operand, as the loop decides it: an operand is joined, a looser operator
is put on top, and any other operator is grafted. It is without an answer where the graft is. -/
def Spine.push? (s : Spine) (operator : Operator) (o : Operand) : Option Spine :=
  if s.root.asBinary?.isNone || s.tier < operator.op.tier then
    some ⟨.joined operator s.root (.operand o), operator.op.tier, 0⟩
  else
    (graft? operator (.operand o) s.depth s.root).map (⟨·, operator.op.tier, s.depth + 1⟩)

/-! ### The invariant

By induction on the states, with the stack of frames that the loop would have built in the place of
its tree. -/

/-- What the loop knows of the tree when it has handled an operator. -/
structure Spine.Holds (s : Spine) (l : Operator × Operand) : Prop where
  /-- The right spine has one operator more than there are steps down to the last one. -/
  length : s.root.spine.length = s.depth + 1
  /-- The operator at its end is the one handled last. -/
  last : s.root.spine.getLast? = some l.1
  /-- The tier is that of this operator. -/
  tier : s.tier = l.1.op.tier
  /-- The right side of this operator is the operand that was read behind it. -/
  tip : s.root.tip = l.2
  /-- Down the spine no operator binds looser than the one above it. -/
  descending : s.root.spine.IsChain fun upper lower => lower.op.tier ≤ upper.op.tier

/-- Frames are put around an expression on its left, so its last operand stays the last. -/
theorem tip_collapseAround (frames : List (Expr × Operator)) (e : Expr) :
    (FrameStack.collapseAround frames e).tip = e.tip := by
  induction frames generalizing e with
  | nil => rfl
  | cons frame frames ih => exact ih _

theorem FrameStack.tail_push (f : FrameStack) (operator : Operator) (o : Operand) :
    (f.push operator o).tail = .operand o := by
  unfold push
  split
  · rfl
  · split <;> rfl

/-- An ordered stack whose innermost frame is the operator handled last, laid out again. -/
theorem Spine.Flat.holds {s : Spine} {f : FrameStack} {l : Operator × Operand} (h : s.Flat f)
    (hordered : f.Ordered) (hlast : f.frames.head?.map Prod.snd = some l.1)
    (htail : f.tail = .operand l.2) : s.Holds l := by
  obtain ⟨⟨left, operator⟩, hframe, hoperator⟩ := Option.map_eq_some_iff.mp hlast
  obtain ⟨outer, hframes⟩ := List.head?_eq_some_iff.mp hframe
  have hspine : s.root.spine = (f.frames.map Prod.snd).reverse := by
    rw [h.root, FrameStack.collapse, spine_collapseAround, htail]
    simp
  constructor
  · rw [hspine, h.depth _ _ hframes, hframes]
    simp
  · rw [h.root, hordered.getLast?_spine_collapse, hlast]
  · rw [h.tier _ _ hframes, hoperator]
  · rw [h.root, FrameStack.collapse, tip_collapseAround, htail]
    rfl
  · rw [hspine, List.isChain_reverse, List.isChain_map]
    exact hordered.frames

/-- The stack that the loop would have built instead of its tree. -/
theorem Loop.exists_flat {handled : Option (Operator × Operand)} {s : Spine}
    (h : Loop operand ts handled s rest) : ∃ f : FrameStack, s.Flat f ∧ f.Ordered ∧
      ∀ l ∈ handled, f.frames.head?.map Prod.snd = some l.1 ∧ f.tail = .operand l.2 := by
  induction h with
  | @first o rest read => exact ⟨_, .single o, .single o, nofun⟩
  | @next handled s mid l rest before read ih =>
    obtain ⟨f, hflat, hordered, -⟩ := ih
    refine ⟨f.push l.1 l.2, hflat.push l.1 l.2, hordered.push l.1 l.2, ?_⟩
    intro last hlast
    obtain rfl : l = last := by simpa using hlast
    exact ⟨f.head?_frames_push l.1 l.2, f.tail_push l.1 l.2⟩

/-- **The invariant at every state of the loop.** The tree is the first operand as long as no
operator was handled. -/
theorem Loop.holds {handled : Option (Operator × Operand)} {s : Spine}
    (h : Loop operand ts handled s rest) :
    (handled = none ∧ ∃ o, operand .chain ts = .ok (o, rest) ∧ s = .single o) ∨
      ∃ l, handled = some l ∧ s.Holds l := by
  obtain ⟨f, hflat, hordered, hlast⟩ := h.exists_flat
  cases h with
  | @first o _ read => exact .inl ⟨rfl, o, read, rfl⟩
  | @next _ _ _ l _ before read =>
    obtain ⟨hframe, htail⟩ := hlast l rfl
    exact .inr ⟨l, rfl, hflat.holds hordered hframe htail⟩

/-- An operator always has a place in a tree that keeps the invariant. -/
theorem Spine.Holds.push? {s : Spine} {l : Operator × Operand} (h : s.Holds l)
    (operator : Operator) (o : Operand) : s.push? operator o = some (s.push operator o) := by
  have hbinary : s.root.asBinary?.isNone = false := by
    cases hroot : s.root with
    | binary op left right span => rfl
    | operand o' =>
      have := h.length
      rw [hroot] at this
      cases this
  rw [Spine.push?, Spine.push, hbinary]
  by_cases htier : s.tier < operator.op.tier
  · simp [htier]
  · have hdepth : s.depth < s.root.spine.length := by
      have := h.length
      omega
    simp [htier, graft?_eq_some operator (.operand o) hdepth]

/-- **Every step of the loop finds the place of its operator.** -/
theorem Loop.push? {handled : Option (Operator × Operand)} {s : Spine}
    (h : Loop operand ts handled s rest) (operator : Operator) (o : Operand) :
    s.push? operator o = some (s.push operator o) := by
  rcases h.holds with ⟨-, first, -, rfl⟩ | ⟨l, -, hholds⟩
  · have htier : 0 < operator.op.tier := operator.op.tier_pos
    simp [Spine.push?, Spine.push, Spine.single, Expr.asBinary?, htier]
  · exact hholds.push? operator o

/-- **The loop that reads a chain, on any tokens and with any bound for the operands.** It is the
rule for expressions, with the same answers and the same faults. At each of its states the tree is
the first operand, or it was grown by an operator and keeps the invariant. Whatever operator comes
next, its place is found without ever walking down to an operand. -/
theorem chain_loop_invariant (n : Nat) (ts : List Token) :
    ((∀ e rest, expression (operandUpTo n) ts = .ok (e, rest) ↔
        ∃ handled s, Loop (operandUpTo n) ts handled s rest ∧
          link (operandUpTo n) rest = .ok (none, rest) ∧ s.root = e) ∧
      ∀ stuck, expression (operandUpTo n) ts = .error stuck ↔
        operandUpTo n .chain ts = .error stuck ∨
          ∃ handled s mid, Loop (operandUpTo n) ts handled s mid ∧
            link (operandUpTo n) mid = .error stuck) ∧
    ∀ handled s rest, Loop (operandUpTo n) ts handled s rest →
      ((handled = none ∧ ∃ o, operandUpTo n .chain ts = .ok (o, rest) ∧ s = .single o) ∨
        ∃ l, handled = some l ∧ s.Holds l) ∧
      ∀ operator o, s.push? operator o = some (s.push operator o) :=
  ⟨Loop.answers (advances_operandUpTo n) ts,
    fun _ _ _ hloop => ⟨hloop.holds, hloop.push?⟩⟩

open Program (narrowingComparison narrowingSum onFirstLine)

/-- The tokens of `a == b * c + d`. -/
def narrowingTokens : List Token :=
  [⟨.identifier "a", onFirstLine 0 1⟩, ⟨.symbol .equal, onFirstLine 2 4⟩,
    ⟨.identifier "b", onFirstLine 5 6⟩, ⟨.symbol .star, onFirstLine 7 8⟩,
    ⟨.identifier "c", onFirstLine 9 10⟩, ⟨.symbol .plus, onFirstLine 11 12⟩,
    ⟨.identifier "d", onFirstLine 13 14⟩, ⟨.endOfInput, onFirstLine 14 14⟩]

/-- In `a == b * c + d` the product is put below the comparison, so the spine is two operators long
when the sum comes. The sum binds looser than the product and becomes the top of the tree. -/
theorem chain_loop_invariant_narrowing : ∃ l s,
    Loop (operandUpTo 8) narrowingTokens (some l) s (narrowingTokens.drop 5) ∧
    s.root = narrowingComparison ∧ s.depth = 1 ∧ s.Holds l ∧
    s.push? ⟨.add, onFirstLine 11 12⟩ narrowingSum.tip =
      some ⟨narrowingSum, BinaryOp.add.tier, 0⟩ := by
  have hfirst : Loop (operandUpTo 8) narrowingTokens none _ (narrowingTokens.drop 1) := .first rfl
  have hloop : Loop (operandUpTo 8) narrowingTokens _ _ (narrowingTokens.drop 5) :=
    .next (.next hfirst rfl) rfl
  obtain ⟨⟨hnone, -⟩ | ⟨l, hl, hholds⟩, hpush⟩ :=
    (chain_loop_invariant 8 narrowingTokens).2 _ _ _ hloop
  · cases hnone
  · cases hl
    exact ⟨_, _, hloop, rfl, rfl, hholds, hpush _ _⟩

end Grammar

end NixSyntax
