import NixSyntax.Proofs.Chain.Parts
import Mathlib.Data.List.GetD

/-!
# The chains whose operators cover their sides

A right side never binds looser than the operator it stands behind, and a left side sometimes does.
Whether it does anywhere can be read off the tiers of the operators alone, in the order in which
they are written.

From one rise of the tiers to the next one they descend. A rise collapses the stack of frames to the
left side of one frame, and until the next rise the frames are put inside that one. So when the
tiers rise again, the new left side is joined by the operator at which the descent began. It is
covered if the tiers climb back at least to where they were there.

## Where a descent begins

For an operator at `k`, the descent up to it began at the last rise in front of it, or at the
beginning of the chain. `DescendsFrom tiers r k` says that it was at `r`, and there is only one such
`r`. What makes the statement about all left sides one about tiers is that the outermost frame of
the stack holds this operator (`exists_outermost_ofChain`). A rise compares itself with the
innermost frame, and then covers its left side if the outermost one binds no looser than itself. If
it rises, but not up to there, the left side narrows.

Both directions come from the same induction on the chain, one operator at a time: an operator that
rises adds one condition on each side, and one that descends adds none.

## Main definitions

* `Expr.Covered`: no side of an operator in an expression binds looser than the operator
* `DescendsFrom`: where the descent up to some operator began
* `ClimbsBack`: every rise gets at least as high as the descent in front of it began

## Main results

* `Grammar.FrameStack.covered_ofChain_iff`: the stack of a chain is covered if its tiers climb back
* `Program.covered_iff_climbsBack`: so is every maximal operator expression of a source
-/

namespace NixSyntax

/-! ### Tiers in a row

About lists of numbers. A list grows at its end, as a chain does when one more operator is read. -/

/-- The tiers do not rise behind `r` and up to `k`. At `r` they do, or the chain begins. -/
@[mk_iff]
structure DescendsFrom (tiers : List Nat) (r k : Nat) : Prop where
  le : r ≤ k
  rise : r = 0 ∨ tiers.getD (r - 1) 0 < tiers.getD r 0
  descent : ∀ i ≤ k, r < i → tiers.getD i 0 ≤ tiers.getD (i - 1) 0

instance (tiers : List Nat) (r k : Nat) : Decidable (DescendsFrom tiers r k) :=
  decidable_of_iff _ (descendsFrom_iff tiers r k).symm

/-- Where the tiers rise, they climb back at least to where the descent in front began. -/
def ClimbsBack (tiers : List Nat) : Prop :=
  ∀ k r, k + 1 < tiers.length → tiers.getD k 0 < tiers.getD (k + 1) 0 → DescendsFrom tiers r k →
    tiers.getD r 0 ≤ tiers.getD (k + 1) 0

instance (tiers : List Nat) : Decidable (ClimbsBack tiers) :=
  decidable_of_iff
    (∀ k < tiers.length - 1, ∀ r ≤ k, tiers.getD k 0 < tiers.getD (k + 1) 0 →
      DescendsFrom tiers r k → tiers.getD r 0 ≤ tiers.getD (k + 1) 0)
    ⟨fun h k r hk hrise hr => h k (by omega) r hr.le hrise hr,
      fun h k hk r _ hrise hr => h k r (by omega) hrise hr⟩

section

variable {tiers : List Nat} {r r' k tier : Nat}

/-- There is only one place where a descent began: the last rise. -/
theorem DescendsFrom.unique (h : DescendsFrom tiers r k) (h' : DescendsFrom tiers r' k) :
    r = r' := by
  rcases Nat.lt_trichotomy r r' with hlt | heq | hgt
  · have hflat := h.descent r' h'.le hlt
    have hrise := h'.rise.resolve_left (by omega)
    omega
  · exact heq
  · have hflat := h'.descent r h.le hgt
    have hrise := h.rise.resolve_left (by omega)
    omega

/-- A descent begins at a rise. -/
theorem descendsFrom_self (h : k = 0 ∨ tiers.getD (k - 1) 0 < tiers.getD k 0) :
    DescendsFrom tiers k k :=
  ⟨le_rfl, h, fun _ hle hlt => by omega⟩

/-- A descent goes on where there is no rise. -/
theorem DescendsFrom.succ (h : DescendsFrom tiers r k)
    (hk : tiers.getD (k + 1) 0 ≤ tiers.getD k 0) : DescendsFrom tiers r (k + 1) where
  le := Nat.le_succ_of_le h.le
  rise := h.rise
  descent i hle hi := by
    rcases Nat.lt_or_eq_of_le hle with hlt | rfl
    · exact h.descent i (Nat.le_of_lt_succ hlt) hi
    · exact hk

/-- What follows a descent is no part of it. -/
theorem descendsFrom_append_iff (hk : k < tiers.length) :
    DescendsFrom (tiers ++ [tier]) r k ↔ DescendsFrom tiers r k := by
  have hget : ∀ i, i ≤ k → (tiers ++ [tier]).getD i 0 = tiers.getD i 0 := fun i hi =>
    List.getD_append _ _ _ _ (by omega)
  constructor
  · intro h
    have hr := h.le
    refine ⟨hr, ?_, fun i hle hi => ?_⟩
    · rw [← hget r hr, ← hget (r - 1) (by omega)]
      exact h.rise
    · rw [← hget i hle, ← hget (i - 1) (by omega)]
      exact h.descent i hle hi
  · intro h
    have hr := h.le
    refine ⟨hr, ?_, fun i hle hi => ?_⟩
    · rw [hget r hr, hget (r - 1) (by omega)]
      exact h.rise
    · rw [hget i hle, hget (i - 1) (by omega)]
      exact h.descent i hle hi

/-- One more tier has to climb back only if it rises. -/
theorem climbsBack_append_iff (hk : tiers.length = k + 1) :
    ClimbsBack (tiers ++ [tier]) ↔ ClimbsBack tiers ∧
      (tiers.getD k 0 < tier → ∀ r, DescendsFrom tiers r k → tiers.getD r 0 ≤ tier) := by
  have hget : ∀ i, i ≤ k → (tiers ++ [tier]).getD i 0 = tiers.getD i 0 := fun i hi =>
    List.getD_append _ _ _ _ (by omega)
  have hlast : (tiers ++ [tier]).getD (k + 1) 0 = tier := by
    rw [List.getD_append_right _ _ _ _ hk.le, hk, Nat.sub_self]
    rfl
  -- a rise inside `tiers` is one of before; the only new one is from its last place
  constructor
  · refine fun h => ⟨fun j r hj hrise hr => ?_, fun hrise r hr => ?_⟩
    · have hle := hr.le
      have h := h j r (by rw [List.length_append]; omega)
      rw [hget j (by omega), hget (j + 1) (by omega), hget r (by omega),
        descendsFrom_append_iff (by omega)] at h
      exact h hrise hr
    · have h := h k r (by rw [List.length_append, hk]; exact Nat.lt_succ_self _)
      rw [hlast, hget k le_rfl, hget r hr.le, descendsFrom_append_iff (by omega)] at h
      exact h hrise hr
  · rintro ⟨h, htop⟩ j r hj hrise hr
    have hle := hr.le
    rw [List.length_append, List.length_singleton] at hj
    rw [descendsFrom_append_iff (by omega)] at hr
    rcases Nat.lt_or_eq_of_le (show j ≤ k by omega) with hlt | rfl
    · rw [hget j (by omega), hget (j + 1) (by omega)] at hrise
      rw [hget (j + 1) (by omega), hget r (by omega)]
      exact h j r (by omega) hrise hr
    · rw [hlast, hget j le_rfl] at hrise
      rw [hlast, hget r hle]
      exact htop hrise r hr

end

/-! ### Covered expressions

That a side is covered is asked of the operator at its top only. The operators further down are
asked about at their own nodes. -/

/-- If the side is joined by an operator, it binds no looser than this one. -/
def Operator.Covers (operator : Operator) (side : Expr) : Prop :=
  ∀ o l r, side.asBinary? = some (o, l, r) → o.op.tier ≤ operator.op.tier

theorem Operator.covers_iff_spine {operator : Operator} {side : Expr} :
    operator.Covers side ↔ ∀ o ∈ side.spine.head?, o.op.tier ≤ operator.op.tier := by
  cases side <;> simp [Operator.Covers, Expr.asBinary?, Expr.spine]

/-- An operand has no operator that could bind looser. -/
theorem Operator.covers_operand (operator : Operator) (o : Operand) :
    operator.Covers (.operand o) := by
  simp [Operator.Covers, Expr.asBinary?]

/-- No side of an operator in an expression binds looser than the operator. -/
def Expr.Covered (e : Expr) : Prop :=
  ∀ ⦃operator left right span⦄, .binary operator left right span ∈ e.sides →
    operator.Covers left ∧ operator.Covers right

theorem Expr.covered_operand (o : Operand) : (Expr.operand o).Covered := by
  simp [Expr.Covered, Expr.sides]

/-- The sides of an expression are its own two, and those of each. -/
theorem Expr.covered_joined_iff {operator : Operator} {left right : Expr} :
    (Expr.joined operator left right).Covered ↔
      (operator.Covers left ∧ operator.Covers right) ∧ left.Covered ∧ right.Covered :=
  Expr.forall_mem_sides_joined_iff

namespace Grammar

/-! ### Stacks of frames

The frames of an ordered stack bind no tighter on the way out, so right sides are covered without
more. What is left to be asked are the left sides. -/

/-- Frames that bind no tighter to the outside leave only their left sides to be covered. -/
theorem covered_collapseAround_iff {frames : List (Expr × Operator)} {e : Expr}
    (hhead : ∀ o ∈ e.spine.head?, ∀ frame ∈ frames.head?, o.op.tier ≤ frame.2.op.tier)
    (hframes : frames.IsChain fun inner outer => inner.2.op.tier ≤ outer.2.op.tier) :
    (FrameStack.collapseAround frames e).Covered ↔
      e.Covered ∧ ∀ frame ∈ frames, frame.1.Covered ∧ frame.2.Covers frame.1 := by
  induction frames generalizing e with
  | nil => simp [FrameStack.collapseAround]
  | cons frame frames ih =>
    have hright : frame.2.Covers e :=
      Operator.covers_iff_spine.mpr fun o ho => hhead o ho frame rfl
    have hnext : ∀ o ∈ (Expr.joined frame.2 frame.1 e).spine.head?, ∀ next ∈ frames.head?,
        o.op.tier ≤ next.2.op.tier := by
      intro o ho next hnext
      obtain rfl : frame.2 = o := by simpa using ho
      exact (List.isChain_cons.mp hframes).1 next hnext
    calc (FrameStack.collapseAround (frame :: frames) e).Covered
        ↔ (Expr.joined frame.2 frame.1 e).Covered ∧
            ∀ fr ∈ frames, fr.1.Covered ∧ fr.2.Covers fr.1 := ih hnext hframes.tail
      _ ↔ e.Covered ∧ ∀ fr ∈ frame :: frames, fr.1.Covered ∧ fr.2.Covers fr.1 := by
        rw [Expr.covered_joined_iff, List.forall_mem_cons]
        tauto

namespace FrameStack

variable {f : FrameStack}

/-- Of an ordered stack, only the left sides have to be covered. -/
theorem Ordered.covered_collapse_iff (h : f.Ordered) :
    f.collapse.Covered ↔ ∀ frame ∈ f.frames, frame.1.Covered ∧ frame.2.Covers frame.1 := by
  obtain ⟨o, ho⟩ := h.tail
  rw [collapse, ho, covered_collapseAround_iff (by simp) h.frames]
  exact and_iff_right (Expr.covered_operand o)

/-- The operator at the top of a stack is that of the outermost frame. -/
theorem Ordered.head?_spine_collapse (h : f.Ordered) :
    f.collapse.spine.head? = f.frames.getLast?.map Prod.snd := by
  obtain ⟨o, ho⟩ := h.tail
  rw [collapse, spine_collapseAround, ho]
  simp

/-- The innermost frame is that of the last operator. -/
theorem head?_frames_push (f : FrameStack) (operator : Operator) (o : Operand) :
    (f.push operator o).frames.head?.map Prod.snd = some operator := by
  unfold push
  split
  · rfl
  · split <;> rfl

/-- An operator that rises collapses the stack. -/
theorem push_of_rise {operator : Operator} {o : Operand}
    (h : ∀ last ∈ f.frames.head?, last.2.op.tier < operator.op.tier) :
    f.push operator o = ⟨[(f.collapse, operator)], .operand o⟩ := by
  unfold push
  split
  · rfl
  · rename_i left last frames hframes
    rw [if_pos (h (left, last) (by rw [hframes]; rfl))]

/-- An operator that does not rise is put inside the other frames. -/
theorem push_of_descent {operator : Operator} {o : Operand} {last : Expr × Operator}
    (hlast : last ∈ f.frames.head?) (h : operator.op.tier ≤ last.2.op.tier) :
    f.push operator o = ⟨(f.tail, operator) :: f.frames, .operand o⟩ := by
  obtain ⟨frames, hframes⟩ := List.head?_eq_some_iff.mp hlast
  unfold push
  split
  · rename_i hnil
    cases hframes.symm.trans hnil
  · rename_i left operator' frames' hframes'
    obtain ⟨rfl, -⟩ := List.cons.inj (hframes.symm.trans hframes')
    rw [if_neg (Nat.not_lt.mpr h)]

end FrameStack

/-! ### Chains

The stack of a chain with one more operator, by the tier of this operator. -/

/-- The tiers of the operators of a chain, in their order. -/
def tiersOf (links : List (Operator × Operand)) : List Nat := links.map fun l => l.1.op.tier

@[simp] theorem length_tiersOf (links : List (Operator × Operand)) :
    (tiersOf links).length = links.length := List.length_map _

theorem tiersOf_append_singleton (links : List (Operator × Operand)) (l : Operator × Operand) :
    tiersOf (links ++ [l]) = tiersOf links ++ [l.1.op.tier] := by
  simp [tiersOf]

/-- The last tier of a chain. -/
theorem getD_tiersOf_append_singleton (links : List (Operator × Operand))
    (l : Operator × Operand) : (tiersOf (links ++ [l])).getD links.length 0 = l.1.op.tier := by
  rw [tiersOf_append_singleton, List.getD_append_right _ _ _ _ (length_tiersOf links).le,
    length_tiersOf, Nat.sub_self]
  rfl

namespace FrameStack

variable {links : List (Operator × Operand)} {k : Nat}

/-- A chain with operators has an innermost frame, which has the last tier. -/
theorem exists_innermost_ofChain (first : Operand) (hk : links.length = k + 1) :
    ∃ last ∈ (ofChain first links).frames.head?,
      last.2.op.tier = (tiersOf links).getD k 0 := by
  rcases List.eq_nil_or_concat links with rfl | ⟨links, l, rfl⟩
  · cases hk
  · rw [List.concat_eq_append] at *
    obtain rfl : links.length = k := by simpa using hk
    obtain ⟨last, hlast, hl⟩ :=
      Option.map_eq_some_iff.mp (head?_frames_push (ofChain first links) l.1 l.2)
    exact ⟨last, by rw [ofChain_append_singleton]; exact hlast,
      by rw [getD_tiersOf_append_singleton, hl]⟩

/-- **One more operator**, which rises and collapses the stack, or descends and is put inside. -/
theorem push_cases (first : Operand) (hk : links.length = k + 1) (l : Operator × Operand) :
    ((tiersOf links).getD k 0 < l.1.op.tier ∧ ofChain first (links ++ [l]) =
        ⟨[((ofChain first links).collapse, l.1)], .operand l.2⟩) ∨
    (l.1.op.tier ≤ (tiersOf links).getD k 0 ∧ ofChain first (links ++ [l]) =
        ⟨((ofChain first links).tail, l.1) :: (ofChain first links).frames, .operand l.2⟩) := by
  obtain ⟨last, hlast, htier⟩ := exists_innermost_ofChain first hk
  rw [ofChain_append_singleton]
  rcases Nat.lt_or_ge last.2.op.tier l.1.op.tier with hrise | hdescent
  · refine .inl ⟨htier ▸ hrise, push_of_rise fun last' hlast' => ?_⟩
    obtain rfl := Option.mem_unique hlast hlast'
    exact hrise
  · exact .inr ⟨htier ▸ hdescent, push_of_descent hlast hdescent⟩

/-- **The outermost frame has the tier at which the descent began.** -/
theorem exists_outermost_ofChain (first : Operand) (hk : links.length = k + 1) :
    ∃ r, DescendsFrom (tiersOf links) r k ∧ ∃ outer ∈ (ofChain first links).frames.getLast?,
      outer.2.op.tier = (tiersOf links).getD r 0 := by
  induction links using List.reverseRecOn generalizing k with
  | nil => cases hk
  | append_singleton links l ih =>
    obtain rfl : links.length = k := by simpa using hk
    have htop := getD_tiersOf_append_singleton links l
    cases hlen : links.length with
    | zero =>
      obtain rfl := List.eq_nil_of_length_eq_zero hlen
      exact ⟨0, descendsFrom_self (.inl rfl), _, rfl, rfl⟩
    | succ j =>
      rw [hlen] at htop
      have hj : j < (tiersOf links).length := by rw [length_tiersOf]; omega
      have hlast : (tiersOf (links ++ [l])).getD j 0 = (tiersOf links).getD j 0 := by
        rw [tiersOf_append_singleton, List.getD_append _ _ _ _ hj]
      rcases push_cases first hlen l with ⟨hrise, hpush⟩ | ⟨hdescent, hpush⟩
      · refine ⟨j + 1, descendsFrom_self (.inr ?_), _, by rw [hpush]; rfl, htop.symm⟩
        rwa [htop, Nat.add_sub_cancel, hlast]
      · obtain ⟨r, hr, outer, houter, htier⟩ := ih hlen
        have hr' : DescendsFrom (tiersOf (links ++ [l])) r j := by
          rwa [tiersOf_append_singleton, descendsFrom_append_iff hj]
        refine ⟨r, hr'.succ (by rwa [htop, hlast]), outer, ?_, ?_⟩
        · rw [hpush, List.getLast?_cons, houter]
          rfl
        · rw [htier, tiersOf_append_singleton, List.getD_append _ _ _ _ (hr.le.trans_lt hj)]

/-- **The stack of a chain is covered if the tiers climb back**, and only then. -/
theorem covered_ofChain_iff (first : Operand) (links : List (Operator × Operand)) :
    (ofChain first links).collapse.Covered ↔ ClimbsBack (tiersOf links) := by
  induction links using List.reverseRecOn with
  | nil => exact iff_of_true (Expr.covered_operand first) fun _ _ hk => by cases hk
  | append_singleton links l ih =>
    have hordered := ordered_ofChain first links
    have hordered' := ordered_ofChain first (links ++ [l])
    cases hlen : links.length with
    | zero =>
      obtain rfl := List.eq_nil_of_length_eq_zero hlen
      refine iff_of_true ?_ fun _ _ hk => by simp [tiersOf] at hk
      exact Expr.covered_joined_iff.mpr ⟨⟨l.1.covers_operand _, l.1.covers_operand _⟩,
        Expr.covered_operand _, Expr.covered_operand _⟩
    | succ j =>
      rw [tiersOf_append_singleton, climbsBack_append_iff (by rw [length_tiersOf, hlen]), ← ih,
        hordered'.covered_collapse_iff]
      rcases push_cases first hlen l with ⟨hrise, hpush⟩ | ⟨hdescent, hpush⟩
      · -- the left side is all that was there, with the operator of the outermost frame on top
        obtain ⟨r, hr, outer, houter, htier⟩ := exists_outermost_ofChain first hlen
        have htop : l.1.Covers (ofChain first links).collapse ↔
            (tiersOf links).getD r 0 ≤ l.1.op.tier := by
          rw [Operator.covers_iff_spine, hordered.head?_spine_collapse, houter, ← htier]
          simp
        rw [hpush, List.forall_mem_singleton, htop]
        refine and_congr_right fun _ => ⟨fun hle _ r' hr' => hr.unique hr' ▸ hle, fun h => ?_⟩
        exact h hrise r hr
      · have htail : (ofChain first links).tail.Covered ∧
            l.1.Covers (ofChain first links).tail := by
          obtain ⟨o, ho⟩ := hordered.tail
          rw [ho]
          exact ⟨Expr.covered_operand o, l.1.covers_operand o⟩
        rw [hpush, List.forall_mem_cons, hordered.covered_collapse_iff]
        exact ⟨fun h => ⟨h.2, fun hrise => absurd hrise (Nat.not_lt.mpr hdescent)⟩,
          fun h => ⟨htail, h.1⟩⟩

end FrameStack

end Grammar

/-! ### Sources -/

namespace Program

/-- **Where the tiers of a chain climb back, and only there, every operator covers its sides.** -/
theorem covered_iff_climbsBack {source : String} {p : Program} (h : ofText source = .ok p)
    {e : Expr} (he : e ∈ p.body.chains) :
    e.Covered ↔ ClimbsBack (Grammar.tiersOf e.links) := by
  obtain ⟨ts, -, hp⟩ := ofText_eq_ok_iff.mp h
  rw [← Grammar.FrameStack.covered_ofChain_iff e.first e.links]
  have hstack : (Grammar.FrameStack.ofChain e.first e.links).collapse = e :=
    (Grammar.assemble_eq_frames _ _).symm.trans (assembled_of_mem_chains hp he)
  rw [hstack]

/-- In `a == b * c + d` the tiers rise at the sum, and not up to the comparison at which they began
to descend. So the sum does not cover its left side. -/
theorem covered_iff_climbsBack_narrowing :
    ofText "a == b * c + d" = .ok ⟨narrowingSum, onFirstLine 0 14⟩ ∧
    narrowingSum ∈ narrowingSum.chains ∧ DescendsFrom (Grammar.tiersOf narrowingSum.links) 0 1 ∧
    ¬ narrowingSum.Covered :=
  ⟨ofText_narrowing, .head _, by decide,
    (covered_iff_climbsBack ofText_narrowing (.head _)).not.mpr (by decide)⟩

end Program

end NixSyntax
