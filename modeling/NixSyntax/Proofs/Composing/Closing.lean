import NixSyntax.Proofs.Reading.Borders

/-!
# Tokens with a closing token behind them

An expression that is the whole of some tokens is put between others: between parentheses, in front
of a semicolon or of a keyword. Behind its end there now is a token where there was none. The marks
and keywords behind which an expression may stand in a form all close it: none of them is an
operator, begins an argument or is trivia. Neither is the end of input. In front of such a token
every look ahead gives the answer that it gives at the end of the tokens.

There is one exception. A name in front of an `@` is a part of a pattern if the brace behind the
`@` matches, and the brace that matches may be among the new tokens. So nothing is said about rules
that stop at an `@`; no form goes on there.

## What a rule may leave

`Extends tail P r` is about a rule and the tokens it leaves: if these are as `P` says, more tokens
may be put behind them. For rules that end with a mark or a keyword `P` is nothing, since all of
what they have looked at has been taken. Rules that end with an operand have looked at the token
behind it. What they leave then should begin with no `@`.

The rules are put together where one begins with what the other has left. Here that means that the
second must not begin at an `@` either, and none does that reads a mark, a keyword or an operand
(`noAtSign_of_expectSymbol`).

## Main definitions

* `Closing`: tokens that begin with one behind which an expression has ended
* `NoAtSign`: no `@` is ahead
* `Extends`: a rule reads the same with more tokens behind

## Main results

* `Closing.skipTrivia_append`, `Closing.opensPattern_append`, …: the looks ahead
* `extend_repeated`: from one round to a repetition
-/

namespace NixSyntax

namespace Grammar

/-- Tokens that begin with one behind which an expression has ended. -/
def Closing (tail : List Token) : Prop := ∃ t us, tail = t :: us ∧ closes t.kind = true

/-- No `@` is ahead. -/
def NoAtSign (ts : List Token) : Prop := nextIsSymbol .atSign ts = false

/-- If what the rule leaves is as `P` says, it reads the same with `tail` behind its tokens. -/
def Extends {α : Type} (tail : List Token) (P : List Token → Prop) (r : Rule α) : Prop :=
  ∀ ⦃ts a rest⦄, r ts = .ok (a, rest) → P rest → r (ts ++ tail) = .ok (a, rest ++ tail)

variable {tail ts rest : List Token}

/-! ### In front of a closing token

A closing token is no trivia, so trivia is passed over up to it at most. All of the looks ahead ask
for the first token behind the trivia, or for a brace that matches. -/

/-- The brace that matches is found where it was, if it was found before. -/
theorem behindBraces_append {depth : Nat} (h : behindBraces depth ts = some rest)
    (tail : List Token) : behindBraces depth (ts ++ tail) = some (rest ++ tail) := by
  fun_induction behindBraces depth ts with
  | case1 => cases h
  | case2 depth span ts ih => simpa [behindBraces] using ih h
  | case3 span ts => simpa [behindBraces] using h
  | case4 depth span ts ih => simpa [behindBraces] using ih h
  | case5 depth t ts hopen hclose hcloses ih =>
    rw [List.cons_append, behindBraces, ih h] <;> assumption

namespace Closing

variable (hc : Closing tail)
include hc

theorem skipTrivia_eq : skipTrivia tail = tail := by
  obtain ⟨t, us, rfl, ht⟩ := hc
  exact skipTrivia_cons_of_not_isTrivia us (not_ahead_of_closes ht).1

/-- The first token is one of those in front of the tail, or it is the one that closes. -/
theorem append_eq_cons {t : Token} {us : List Token} (h : ts ++ tail = t :: us) :
    (∃ us', ts = t :: us') ∨ ts = [] ∧ closes t.kind = true := by
  cases ts with
  | nil =>
    obtain ⟨t', us', rfl, ht⟩ := hc
    obtain ⟨rfl, -⟩ := List.cons.inj h
    exact .inr ⟨rfl, ht⟩
  | cons t' ts =>
    obtain ⟨rfl, -⟩ := List.cons.inj h
    exact .inl ⟨ts, rfl⟩

/-- A token that does not close is not in front of the tail if it is not in front of the others. -/
theorem append_ne_cons {kind : TokenKind} (hk : closes kind = false)
    (h : ∀ span us, ts ≠ ⟨kind, span⟩ :: us) (span : Span) (us : List Token) :
    ts ++ tail ≠ ⟨kind, span⟩ :: us := by
  intro heq
  rcases hc.append_eq_cons heq with ⟨us', rfl⟩ | ⟨-, hcloses⟩
  · exact h span us' rfl
  · rw [hk] at hcloses
    cases hcloses

theorem skipTrivia_append (ts : List Token) :
    skipTrivia (ts ++ tail) = skipTrivia ts ++ tail := by
  induction ts with
  | nil => exact hc.skipTrivia_eq
  | cons t ts ih =>
    cases ht : t.isTrivia with
    | true =>
      rw [List.cons_append, skipTrivia_cons_of_isTrivia _ ht, skipTrivia_cons_of_isTrivia _ ht, ih]
    | false =>
      rw [List.cons_append, skipTrivia_cons_of_not_isTrivia _ ht,
        skipTrivia_cons_of_not_isTrivia _ ht, List.cons_append]

theorem skipTrivia_cons {t : Token} {us : List Token} (h : skipTrivia ts = t :: us) :
    skipTrivia (ts ++ tail) = t :: (us ++ tail) := by
  rw [hc.skipTrivia_append, h]
  rfl

/-- The comments ahead end in front of the closing token. -/
theorem commentsAhead_append (ts : List Token) :
    commentsAhead (ts ++ tail) = commentsAhead ts := by
  induction ts with
  | nil =>
    obtain ⟨t, us, rfl, ht⟩ := hc
    simp [commentsAhead, (not_ahead_of_closes ht).1]
  | cons t ts ih =>
    cases ht : t.isTrivia with
    | true => cases hcomment : t.comment? <;> simpa [commentsAhead, ht, hcomment] using ih
    | false => simp [commentsAhead, ht]

theorem nextIsSymbol_append {s : Symbol} (hs : closes (.symbol s) = false) (ts : List Token) :
    nextIsSymbol s (ts ++ tail) = nextIsSymbol s ts := by
  cases hnext : nextIsSymbol s ts with
  | true =>
    obtain ⟨span, us, h⟩ := nextIsSymbol_iff.mp hnext
    exact nextIsSymbol_iff.mpr ⟨span, us ++ tail, hc.skipTrivia_cons h⟩
  | false =>
    refine nextIsSymbol_eq_false_iff.mpr fun span us => ?_
    rw [hc.skipTrivia_append]
    exact hc.append_ne_cons hs (nextIsSymbol_eq_false_iff.mp hnext) span us

theorem nextIsKeyword_append {k : Keyword} (hk : closes (.keyword k) = false) (ts : List Token) :
    nextIsKeyword k (ts ++ tail) = nextIsKeyword k ts := by
  cases hnext : nextIsKeyword k ts with
  | true =>
    obtain ⟨span, us, h⟩ := nextIsKeyword_iff.mp hnext
    exact nextIsKeyword_iff.mpr ⟨span, us ++ tail, hc.skipTrivia_cons h⟩
  | false =>
    refine nextIsKeyword_eq_false_iff.mpr fun span us => ?_
    rw [hc.skipTrivia_append]
    exact hc.append_ne_cons hk (nextIsKeyword_eq_false_iff.mp hnext) span us

/-- Where the tokens have not ended, the tail is not seen. -/
theorem atEnd_append (h : atEnd (skipTrivia ts) = false) :
    atEnd (skipTrivia (ts ++ tail)) = false := by
  rw [hc.skipTrivia_append]
  cases hts : skipTrivia ts with
  | nil => simp [hts, atEnd] at h
  | cons t us => rwa [hts] at h

theorem nextIsSymbol_append_of_not_atEnd (h : atEnd (skipTrivia ts) = false) (s : Symbol) :
    nextIsSymbol s (ts ++ tail) = nextIsSymbol s ts := by
  rw [nextIsSymbol, nextIsSymbol, hc.skipTrivia_append]
  rcases hts : skipTrivia ts with _ | ⟨⟨kind, span⟩, us⟩
  · simp [hts, atEnd] at h
  · cases kind <;> rfl

theorem nextIsKeyword_append_of_not_atEnd (h : atEnd (skipTrivia ts) = false)
    (k : Keyword) : nextIsKeyword k (ts ++ tail) = nextIsKeyword k ts := by
  rw [nextIsKeyword, nextIsKeyword, hc.skipTrivia_append]
  rcases hts : skipTrivia ts with _ | ⟨⟨kind, span⟩, us⟩
  · simp [hts, atEnd] at h
  · cases kind <;> rfl

theorem nextIsSymbol_of_expectSymbol {s : Symbol} {span : Span}
    (h : expectSymbol s (skipTrivia ts) = .ok (span, rest)) :
    nextIsSymbol s (ts ++ tail) = true := by
  have hts := skipTrivia_of_expectSymbol h
  rw [skipTrivia_skipTrivia] at hts
  exact nextIsSymbol_iff.mpr ⟨span, rest ++ tail, hc.skipTrivia_cons hts⟩

theorem nextIsKeyword_of_expectKeyword {k : Keyword} {span : Span}
    (h : expectKeyword k (skipTrivia ts) = .ok (span, rest)) :
    nextIsKeyword k (ts ++ tail) = true := by
  have hts := skipTrivia_of_expectKeyword h
  rw [skipTrivia_skipTrivia] at hts
  exact nextIsKeyword_iff.mpr ⟨span, rest ++ tail, hc.skipTrivia_cons hts⟩

theorem skipNewlines_append (ts : List Token) :
    skipNewlines (ts ++ tail) = skipNewlines ts ++ tail := by
  have htail : skipNewlines tail = tail := by
    obtain ⟨⟨kind, span⟩, us, rfl, ht⟩ := hc
    cases kind <;> first | rfl | cases ht
  induction ts with
  | nil => exact htail
  | cons t ts ih =>
    cases ht : t.isNewline with
    | true => simpa [skipNewlines, ht] using ih
    | false => simp [skipNewlines, ht]

theorem opensPattern_append {named : Bool} (h : behindBraces 0 ts = some rest) :
    opensPattern named (ts ++ tail) = opensPattern named ts := by
  rw [opensPattern, opensPattern, behindBraces_append h, h]
  simp only [hc.nextIsSymbol_append (s := .colon) rfl, hc.nextIsSymbol_append (s := .atSign) rfl]

/-- A mark that was found is found again, and what is behind it is left with the tail. -/
theorem extends_expectSymbol (s : Symbol) : Extends tail (fun _ => True) (expectSymbol s) := by
  intro ts span rest h _
  rw [expectSymbol_eq_ok_iff] at h ⊢
  rw [hc.skipNewlines_append, h]
  rfl

theorem extends_expectKeyword (k : Keyword) : Extends tail (fun _ => True) (expectKeyword k) := by
  intro ts span rest h _
  rw [expectKeyword_eq_ok_iff] at h ⊢
  rw [hc.skipNewlines_append, h]
  rfl

theorem expectSymbol_skipTrivia {s : Symbol} {span : Span}
    (h : expectSymbol s (skipTrivia ts) = .ok (span, rest)) :
    expectSymbol s (skipTrivia (ts ++ tail)) = .ok (span, rest ++ tail) := by
  rw [hc.skipTrivia_append]
  exact hc.extends_expectSymbol s h trivial

theorem expectKeyword_skipTrivia {k : Keyword} {span : Span}
    (h : expectKeyword k (skipTrivia ts) = .ok (span, rest)) :
    expectKeyword k (skipTrivia (ts ++ tail)) = .ok (span, rest ++ tail) := by
  rw [hc.skipTrivia_append]
  exact hc.extends_expectKeyword k h trivial

end Closing

/-- In front of another mark there is no `@`. -/
theorem noAtSign_of_expectSymbol {s : Symbol} {span : Span}
    (h : expectSymbol s ts = .ok (span, rest)) (hs : s ≠ .atSign) : NoAtSign ts :=
  nextIsSymbol_of_eq (skipTrivia_of_expectSymbol h)
    (by simpa using hs)

theorem noAtSign_of_expectKeyword {k : Keyword} {span : Span}
    (h : expectKeyword k ts = .ok (span, rest)) : NoAtSign ts :=
  nextIsSymbol_of_eq (skipTrivia_of_expectKeyword h) (by simp)

/-! ### Repetitions

A repetition that has ended at the end of the tokens, or in front of a token that ends it, should do
so again in front of the tail. This is asked of the round that ends it (`hend`). -/

section

variable {α : Type} {round : Rule (Option α)} {as : List α} {P : List Token → Prop}

/-- The first round begins where the others do, or the repetition has no round. -/
theorem Rounds.start (hstart : ∀ {ts a rest}, round ts = .ok (some a, rest) → P ts)
    (h : Rounds round ts as rest) (hrest : P rest) : P ts := by
  cases h with
  | nil => exact hrest
  | cons head tail => exact hstart head

theorem Rounds.extend
    (hround : ∀ {ts a rest}, round ts = .ok (some a, rest) → P rest →
      round (ts ++ tail) = .ok (some a, rest ++ tail))
    (hstart : ∀ {ts a rest}, round ts = .ok (some a, rest) → P ts)
    (h : Rounds round ts as rest) (hrest : P rest) :
    Rounds round (ts ++ tail) as (rest ++ tail) := by
  induction h with
  | nil => exact .nil
  | cons head more ih => exact .cons (hround head (more.start hstart hrest)) (ih hrest)

/-- **From one round to a repetition.** The bound for the rounds is another one with more tokens,
and is never felt. -/
theorem extend_repeated (hr : Repeatable round)
    (hround : ∀ {ts a rest}, round ts = .ok (some a, rest) → P rest →
      round (ts ++ tail) = .ok (some a, rest ++ tail))
    (hstart : ∀ {ts a rest}, round ts = .ok (some a, rest) → P ts)
    (h : repeated round ts = .ok (as, rest)) (hrest : P rest)
    (hend : round (rest ++ tail) = .ok (none, rest ++ tail)) :
    repeated round (ts ++ tail) = .ok (as, rest ++ tail) :=
  (repeated_eq_ok_iff hr).mpr
    ⟨(rounds_of_repeated hr.stop h).extend hround hstart hrest, hend⟩

end

end Grammar

end NixSyntax
