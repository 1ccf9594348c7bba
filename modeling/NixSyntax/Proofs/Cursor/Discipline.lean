import NixSyntax.Proofs.Cursor.Loops
import NixSyntax.Proofs.Cursor.Rules

/-!
# The cursor moves forward, and every parse ends

The grammar is written with bounds: for the rounds of a repetition, for the attributes of a pattern,
and for the depth of operands inside operands. Here it is shown that none of them is ever felt.

## What the bounds are for

A recursion has to be seen to end, and that of the grammar ends because each step takes a token. The
bounds say so in the simplest way: a step may go on only as often as the bound allows, and the bound
is taken from the number of tokens. Nothing shows yet that the bound is large enough. If it were
not, the grammar would refuse deep expressions, or long lists, that it should read.

With the bound that `operandOf` takes from its tokens, the rule for operands is the one operand
around itself (`operandOf_eq`), and it asks for the operands inside only where fewer tokens are left
(`operandWith_eq_operandOf`). So there is nothing that a rule without bounds could do differently,
and nothing it could go on with for ever. More than that: any rule for operands that is the one
operand around itself, at the places of a list, gives the list the same meaning.

## Why they are large enough

The reason is the discipline of the cursor. A rule for a piece of tree that succeeds has taken a
token, and so has each round of a loop that does not end the loop. Whether it succeeds or not, the
cursor stays at the places of its list: behind tokens of which none ends the input. Tokens behind an
end of input are never looked at, in a program as little as in an interpolation.

## Main definitions

* `operandOf`: an operand, however deep
* `Proceeds`, `Rounded`, `Loops`: what the cursor does in a rule, in a round, and in a loop
* `Disciplined`: all of this for all rules

## Main results

* `confined_operandUpTo`: all bounds that suffice are equal
* `operandOf_eq`: the rule for operands is the one operand around itself
* `agreeing_of_eq`: there is no other such rule
* `cursor_discipline`: the discipline of the cursor
-/

namespace NixSyntax

namespace Grammar

variable {α : Type} {operand operand' : Context → Rule Operand} {ts us rest : List Token}

/-! ### Rounds

The loops in front of a term and in a pattern are put together in another way than by `repeated`.
Their rounds are confined like the rules they are made of. -/

section

variable (hadv : Advances operand)
include hadv

theorem confined_modifierRound (h : Agreeing operand operand' ts) :
    Confined ts (modifierRound operand ts) (modifierRound operand' ts) := by
  have hskip : Leaves 0 ts (skipNewlines ts) := leaves_skipNewlines
  rw [modifierRound, modifierRound]
  split
  · rename_i k start us heq
    rw [heq] at hskip
    have hus : Leaves 1 ts us := hskip.trans ((Leaves.refl us).cons rfl)
    split
    · refine Confined.of_leaves ?_ hus
      refine (confined_expression hadv (h.behind hus)).andThen (leaves_expression hadv)
        fun _ mid _ => ?_
      exact (confined_expectSymbol _ mid).bind fun _ _ => .pure _
    · exact .ok _
  · exact .ok _

/-- The inner loop, and then the comments behind it. -/
theorem confined_frontRound (h : Agreeing operand operand' ts) :
    Confined ts (frontRound operand ts) (frontRound operand' ts) := by
  have hmodifiers : Confined ts (repeated (modifierRound operand) ts)
      (repeated (modifierRound operand') ts) :=
    confined_repeated (fun us hus => confined_modifierRound hadv (h.behind hus))
      (leaves_modifierRound hadv)
  refine hmodifiers.bind fun found _ => ?_
  dsimp only
  split <;> exact .pure _

/-- An attribute, and behind it what may stand there: a comma, or the closing brace. -/
theorem confined_patternRound (h : Agreeing operand operand' ts) :
    Confined ts (patternRound operand ts) (patternRound operand' ts) := by
  rw [patternRound, patternRound]
  split
  · exact .ok _
  · exact .ok _
  · refine Confined.behindTrivia ?_
    refine (confined_formal hadv _ (h.behind leaves_skipTrivia)).andThen (leaves_formal hadv)
      fun f mid _ => ?_
    dsimp only
    unfold separated
    split
    · exact .ok _
    · exact .ok _
    · exact .refuse _ _

end

/-! ### Operands without a bound

By induction on the bound. An operand asks for operands only where fewer tokens are left, so a bound
that is lower by one is still enough for those. Without tokens no operand is asked for at all, and
bound zero gives the same refusal as any other (`operandUpTo_nil`). -/

theorem eq_nil_of_countTokens_eq_zero (h : countTokens ts = 0) : ts = [] :=
  List.eq_nil_of_length_eq_zero (Nat.le_zero.mp (h ▸ length_le_countTokens ts))

/-- Without tokens there is no operand, whatever the bound. -/
theorem operandUpTo_nil (n : Nat) (ctx : Context) :
    operandUpTo n ctx [] = refuse .unexpectedToken [] := by
  cases n <;> rfl

/-- **All bounds that suffice are equal**, and a fault is at a place of the cursor. -/
theorem confined_operandUpTo {k m : Nat} (hk : countTokens ts ≤ k) (hm : countTokens ts ≤ m)
    (ctx : Context) : Confined ts (operandUpTo k ctx ts) (operandUpTo m ctx ts) := by
  induction k generalizing m ts ctx with
  | zero =>
    obtain rfl := eq_nil_of_countTokens_eq_zero (Nat.le_zero.mp hk)
    rw [operandUpTo_nil, operandUpTo_nil]
    exact .refuse _ _
  | succ k ih =>
    cases m with
    | zero =>
      obtain rfl := eq_nil_of_countTokens_eq_zero (Nat.le_zero.mp hm)
      rw [operandUpTo_nil, operandUpTo_nil]
      exact .refuse _ _
    | succ m =>
      refine confined_operandWith (advances_operandUpTo k) ctx fun us _ hlt ctx' => ?_
      exact ih (by omega) (by omega) ctx'

/-- An operand, however deep it is. -/
def operandOf (ctx : Context) : Rule Operand := fun ts => operandUpTo (countTokens ts) ctx ts

/-- An operand takes a token. -/
theorem advances_operandOf : Advances operandOf := by
  intro ctx ts o rest h
  exact advances_operandUpTo _ h

theorem confined_operandOf (ctx : Context) (ts : List Token) :
    Confined ts (operandOf ctx ts) (operandOf ctx ts) :=
  confined_operandUpTo le_rfl le_rfl ctx

/-- **An operand asks for operands only where fewer tokens are left.** What a rule for operands does
at other places does not matter. -/
theorem operandWith_eq_operandOf (ctx : Context)
    (h : ∀ us, Reached us ts → countTokens us < countTokens ts →
      ∀ ctx', operand ctx' us = operandOf ctx' us) :
    operandWith operand ctx ts = operandOf ctx ts := by
  have hstep : operandOf ctx ts = operandWith (operandUpTo (countTokens ts)) ctx ts :=
    (confined_operandUpTo le_rfl (Nat.le_succ _) ctx).eq
  rw [hstep]
  refine (confined_operandWith (advances_operandUpTo _) ctx fun us hus hlt ctx' => ?_).eq.symm
  rw [h us hus hlt ctx']
  exact confined_operandUpTo hlt.le le_rfl ctx'

/-- The rule for operands is the one operand around itself. -/
theorem operandOf_eq (ctx : Context) (ts : List Token) :
    operandOf ctx ts = operandWith operandOf ctx ts :=
  (operandWith_eq_operandOf ctx fun _ _ _ _ => rfl).symm

theorem agreeing_operandOf (ts : List Token) : Agreeing operandOf operandOf ts :=
  fun us _ ctx => confined_operandOf ctx us

/-- A rule for operands that is the operand around itself, at each place of the cursor, is the one
rule for operands there. -/
theorem agreeing_of_eq
    (h : ∀ us, Reached us ts → ∀ ctx, operand ctx us = operandWith operand ctx us) :
    Agreeing operandOf operand ts := by
  intro us hus ctx
  induction hn : countTokens us using Nat.strong_induction_on generalizing us ctx with
  | _ n ih =>
    subst hn
    rw [operandOf_eq, h us hus ctx]
    refine confined_operandWith advances_operandOf ctx fun vs hvs hlt ctx' => ?_
    exact ih _ hlt (hvs.trans hus) ctx' rfl

/-- What a list of tokens is as a program, without any bound. -/
theorem ofTokens_eq (ts : List Token) :
    Program.ofTokens ts =
      ((complete operandOf ts).map fun body => Program.mk body body.span).mapError
        (Stuck.settle (endOf ts)) := by
  have heq : complete operandOf ts = complete (operandUpTo (countTokens ts)) ts := by
    refine (confined_complete advances_operandOf fun us hus ctx => ?_).eq
    exact confined_operandUpTo le_rfl hus.countTokens_le ctx
  rw [Program.ofTokens]
  cases hbody : complete (operandUpTo (countTokens ts)) ts with
  | error s => rw [heq.trans hbody]; rfl
  | ok body => rw [heq.trans hbody]; rfl

/-! ### The discipline

What the cursor does, for each rule and for each loop. `Leaves 1 ts rest` says that at least one
token was taken to get from `ts` to `rest`, and that none of those that were taken ends the
input. -/

/-- What the cursor does in a rule for a piece of tree. -/
structure Proceeds (r : Rule α) : Prop where
  /-- If the rule succeeds, it has taken a token, and none behind the end of the input. -/
  forward : ∀ {ts a rest}, r ts = .ok (a, rest) → Leaves 1 ts rest
  /-- If it fails, it does so at a place of the cursor. -/
  stands : ∀ {ts s}, r ts = .error s → s.StandsIn ts

/-- What the cursor does in a round of a loop. -/
structure Rounded (round : Rule (Option α)) : Prop where
  /-- A round that does not end the loop has taken a token. -/
  forward : ∀ {ts a rest}, round ts = .ok (some a, rest) → Leaves 1 ts rest
  /-- The round that ends the loop has not passed the end of the input. -/
  ends : ∀ {ts rest}, round ts = .ok (none, rest) → Leaves 0 ts rest
  /-- A round fails at a place of the cursor. -/
  stands : ∀ {ts s}, round ts = .error s → s.StandsIn ts

/-- What the cursor does in a loop. -/
structure Loops (round : Rule (Option α)) : Prop extends Rounded round where
  /-- The loop goes on as long as its rounds do. -/
  goes_on : ∀ ts, repeated round ts = (do
    match ← round ts with
    | (none, ts) => return ([], ts)
    | (some a, ts) =>
      let (as, ts) ← repeated round ts
      return (a :: as, ts))

/-- Most loops are repetitions, and go on by definition as long as a round takes a token. -/
theorem Loops.of_repeatable {round : Rule (Option α)} (hr : Repeatable round)
    (hforward : ∀ {ts a rest}, round ts = .ok (some a, rest) → Leaves 1 ts rest)
    (hstands : ∀ {ts s}, round ts = .error s → s.StandsIn ts) : Loops round where
  forward := hforward
  ends h := by
    rw [hr.stop h]
    exact .refl _
  stands := hstands
  goes_on := repeated_eq hr.nil hr.shrinks

/-- The discipline of the cursor: in each rule for a piece of tree, and in each loop. -/
structure Disciplined (operand : Context → Rule Operand) : Prop where
  expression : Proceeds (expression operand)
  operandIn (ctx : Context) : Proceeds (operand ctx)
  termIn (ctx : Context) : Proceeds (termIn operand ctx)
  primary : Proceeds (primary operand)
  attrPath : Proceeds (attrPath operand)
  binding : Proceeds (binding operand)
  formal (comments : List Comment) : Proceeds (formal operand comments)
  /-- The loop of an expression. -/
  link : Loops (link operand)
  /-- The loops in front of a term. -/
  frontRound : Loops (frontRound operand)
  modifierRound : Loops (modifierRound operand)
  /-- The loop behind a term. -/
  argument : Loops (argument operand)
  /-- The loops of `let` blocks and attribute sets, which differ in what ends them. -/
  bindingUnless (closed : List Token → Bool) : Loops (bindingUnless operand closed)
  item : Loops (item operand)
  inheritedName : Loops (inheritedName operand)
  dottedSegment : Loops (dottedSegment operand)
  /-- The loop of a pattern, which is no repetition. -/
  patternRound : Rounded (patternRound operand)

/-- **The discipline holds of the rule for operands.** That rules move forward is known from what
they read, and that they fail at a place because they are confined. -/
theorem disciplined_operandOf : Disciplined operandOf := by
  have hadv := advances_operandOf
  have hall := agreeing_operandOf
  have hinside (ts : List Token) : AgreeingInside operandOf operandOf ts :=
    fun us hus _ ctx => hall ts hus ctx
  exact {
    expression := ⟨leaves_expression hadv, (confined_expression hadv (hall _)).stands _⟩
    operandIn := fun ctx => ⟨fun h => hadv h, (confined_operandOf ctx _).stands _⟩
    termIn := fun ctx => ⟨fun h => (termIn_eq_ok_iff.mp h).leaves hadv,
      (confined_termIn hadv ctx (hinside _)).stands _⟩
    primary := ⟨fun h => ReadsTerm.leaves hadv (readsTerm_of_primary h : ReadsTerm _ .chain _ _ _),
      (confined_primary hadv (hinside _)).stands _⟩
    attrPath := ⟨leaves_attrPath, (confined_attrPath hadv (hall _)).stands _⟩
    binding := ⟨leaves_binding hadv, (confined_binding hadv (hall _)).stands _⟩
    formal := fun comments =>
      ⟨leaves_formal hadv, (confined_formal hadv comments (hall _)).stands _⟩
    link := .of_repeatable (repeatable_link hadv) (leaves_link hadv)
      ((confined_link (hall _)).stands _)
    frontRound := ⟨⟨leaves_frontRound hadv, leaves_frontRound_none hadv,
      (confined_frontRound hadv (hall _)).stands _⟩, repeated_eq rfl (length_frontRound hadv)⟩
    modifierRound := ⟨⟨leaves_modifierRound hadv, leaves_modifierRound_none,
      (confined_modifierRound hadv (hall _)).stands _⟩, repeated_eq rfl (length_modifierRound hadv)⟩
    argument := .of_repeatable (repeatable_argument hadv) (leaves_argument hadv)
      ((confined_argument (hall _)).stands _)
    bindingUnless := fun closed => .of_repeatable (repeatable_bindingUnless hadv)
      (fun h => leaves_binding hadv (bindingUnless_eq_some_iff.mp h).2.2)
      ((confined_bindingUnless hadv closed (hall _)).stands _)
    item := .of_repeatable (repeatable_item hadv) (leaves_item hadv)
      ((confined_item (hall _)).stands _)
    inheritedName := .of_repeatable repeatable_inheritedName leaves_inheritedName
      ((confined_inheritedName hadv (hall _)).stands _)
    dottedSegment := .of_repeatable repeatable_dottedSegment leaves_dottedSegment
      ((confined_dottedSegment hadv (hall _)).stands _)
    patternRound := ⟨leaves_patternRound hadv, fun h => patternRound_eq_none h ▸ .refl _,
      (confined_patternRound hadv (hall _)).stands _⟩ }

/-- **The discipline of the cursor.** Each rule for a piece of tree that succeeds has moved the
cursor, so has each round of a loop that does not end the loop, and the cursor never gets behind a
token that ends the input, be it in the tokens of a program or in those of an interpolation. So
every parse ends. An operand asks only for operands at places with fewer tokens, the loops in front
of a term and in a pattern go on as long as their rounds do, and what a list of tokens is as a
program depends on nothing else: not on a bound, and not on a rule for operands anywhere but at the
places of the cursor. -/
theorem cursor_discipline :
    Disciplined operandOf ∧
    (∀ (operand : Context → Rule Operand) ctx ts,
      (∀ us, Reached us ts → countTokens us < countTokens ts →
        ∀ ctx', operand ctx' us = operandOf ctx' us) →
      operandWith operand ctx ts = operandOf ctx ts) ∧
    (∀ ctx ts, operandOf ctx ts = (do
      let ((modifiers, before), ts) ← front operandOf ts
      let (term, rest) ← termIn operandOf ctx ts
      let (term, rest) ←
        if ctx = .chain && term.isCallable then applied operandOf term rest else pure (term, rest)
      return (⟨modifiers, before, commentsAhead rest, term, operandSpan modifiers term⟩,
        skipTrivia rest))) ∧
    (∀ ts, patternBody operandOf ts =
      patternRound operandOf ts >>= patternBehind (patternBody operandOf)) ∧
    ∀ ts,
      (∀ operand : Context → Rule Operand,
        (∀ us, Reached us ts → ∀ ctx, operand ctx us = operandWith operand ctx us) →
        complete operand ts = complete operandOf ts) ∧
      Program.ofTokens ts =
        ((complete operandOf ts).map fun body => Program.mk body body.span).mapError
          (Stuck.settle (endOf ts)) := by
  have hadv := advances_operandOf
  refine ⟨disciplined_operandOf, fun operand ctx ts h => operandWith_eq_operandOf ctx h,
    fun ctx ts => ?_, patternBody_eq hadv, fun ts => ⟨fun operand h => ?_, ofTokens_eq ts⟩⟩
  · rw [operandOf_eq]
    exact operandWith_eq hadv ctx ts
  · exact (confined_complete hadv (agreeing_of_eq h)).eq.symm

/-- The tokens of `{ x = 1` and of `}`, with an end of input between them. -/
def endInsideTokens : List Token :=
  [⟨.symbol .openBrace, default⟩, ⟨.identifier "x", default⟩, ⟨.symbol .assign, default⟩,
    ⟨.int 1, default⟩, ⟨.endOfInput, default⟩, ⟨.symbol .semicolon, default⟩,
    ⟨.symbol .closeBrace, default⟩]

/-- The value is read up to the end of input. The set is not closed behind it. -/
theorem cursor_discipline_endInside :
    (∃ e, expression operandOf (endInsideTokens.drop 3) = .ok (e, endInsideTokens.drop 4) ∧
      Leaves 1 (endInsideTokens.drop 3) (endInsideTokens.drop 4)) ∧
    (∃ s, primary operandOf endInsideTokens = .error s ∧ s.StandsIn endInsideTokens) ∧
    complete operandOf endInsideTokens = complete (operandUpTo 9) endInsideTokens := by
  obtain ⟨hrules, -, -, -, hparses⟩ := cursor_discipline
  refine ⟨⟨_, rfl, hrules.expression.forward rfl⟩, ⟨_, rfl, hrules.primary.stands rfl⟩, ?_⟩
  refine ((hparses endInsideTokens).1 (operandUpTo 9) fun us hus ctx => ?_).symm
  have hle : countTokens us ≤ 9 := hus.countTokens_le.trans (by decide)
  exact (confined_operandUpTo hle (hle.trans (Nat.le_succ 9)) ctx).eq

end Grammar

end NixSyntax
