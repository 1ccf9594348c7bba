import NixSyntax.Grammar.Reading
import Mathlib.Tactic.Push

/-!
# What a rule that succeeds has read: single tokens and repetitions

Everything proved about trees starts from a rule that succeeded. A rule is a chain of smaller
rules, so its success is opened one bind at a time: `bind_eq_ok_iff` is the only lemma about
`Except` that this needs.

## Repetitions without their bound

`repeated` counts its rounds down from the number of tokens, which no statement about trees should
have to mention. `Rounds` is the same repetition without a bound. The two agree for every round
that is `Repeatable`: one that takes a token whenever it reads something, and reads nothing when no
token is left. Such a round can only run out of tokens, never out of bound.

## Failing

A repetition fails if one of its rounds does, and it does not fail for want of rounds. So a fault
can be followed back to the round in which it occurred, behind all rounds that succeeded
(`repeated_eq_error_iff`). The equation `repeated_eq` says the same as a recursion, for rounds that
are repeatable.

## Main definitions

* `Rounds`: some successful rounds, one behind the other
* `Repeatable`: rounds for which the bound of a repetition is never felt

## Main results

* `rounds_of_repeated`: a repetition that succeeds is made of rounds
* `repeated_eq_ok_iff`: and of all the rounds that there are, when its round is repeatable
* `repeated_eq`, `repeated_eq_error_iff`: such a repetition goes on round after round, and fails in
  the first round that fails
-/

namespace NixSyntax

namespace Grammar

theorem bind_eq_ok_iff {ε α β : Type} {x : Except ε α} {f : α → Except ε β} {b : β} :
    (x >>= f) = .ok b ↔ ∃ a, x = .ok a ∧ f a = .ok b := by
  cases x <;> simp [bind, Except.bind]

theorem pure_eq_ok_iff {ε α : Type} {a b : α} : (pure a : Except ε α) = .ok b ↔ a = b := by
  simp [pure, Except.pure]

theorem bind_eq_error_iff {ε α β : Type} {x : Except ε α} {f : α → Except ε β} {e : ε} :
    (x >>= f) = .error e ↔ x = .error e ∨ ∃ a, x = .ok a ∧ f a = .error e := by
  cases x <;> simp [bind, Except.bind]

@[simp] theorem refuse_ne_ok {α : Type} {cause : ParseCause} {ts : List Token} {a : α} :
    refuse cause ts ≠ .ok a := by
  simp [refuse]

variable {ts rest : List Token}

/-! ### Single tokens

Which token is next decides everything, and the lemmas say which. To look ahead passes all trivia.
To ask for a token passes line breaks only, so that a comment in front of a mark is not lost but
refused. -/

theorem expectSymbol_eq_ok_iff {s : Symbol} {span : Span} :
    expectSymbol s ts = .ok (span, rest) ↔ skipNewlines ts = ⟨.symbol s, span⟩ :: rest := by
  rw [expectSymbol]
  split
  · next s' span' rest' h =>
    rw [h]
    split
    · next hs => simp [hs]
    · next hs => simp [hs]
  · next h =>
    simp only [refuse_ne_ok, false_iff]
    exact h s span rest

theorem expectKeyword_eq_ok_iff {k : Keyword} {span : Span} :
    expectKeyword k ts = .ok (span, rest) ↔ skipNewlines ts = ⟨.keyword k, span⟩ :: rest := by
  rw [expectKeyword]
  split
  · next k' span' rest' h =>
    rw [h]
    split
    · next hk => simp [hk]
    · next hk => simp [hk]
  · next h =>
    simp only [refuse_ne_ok, false_iff]
    exact h k span rest

/-- A token that is no trivia is the first one behind the line breaks only if it is the first one
behind the comments too. -/
theorem skipTrivia_of_skipNewlines {t : Token} (ht : t.isTrivia = false)
    (h : skipNewlines ts = t :: rest) : skipTrivia ts = t :: rest := by
  induction ts with
  | nil => simp [skipNewlines] at h
  | cons a ts ih =>
    cases ha : a.isNewline with
    | true =>
      rw [skipTrivia_cons_of_isTrivia ts (Token.isTrivia_of_isNewline ha)]
      exact ih (by simpa [skipNewlines, ha] using h)
    | false =>
      obtain ⟨rfl, rfl⟩ : a = t ∧ ts = rest := by simpa [skipNewlines, ha] using h
      exact skipTrivia_cons_of_not_isTrivia _ ht

/-- A mark that was found behind line breaks is found behind all trivia. -/
theorem skipTrivia_of_expectSymbol {s : Symbol} {span : Span}
    (h : expectSymbol s ts = .ok (span, rest)) : skipTrivia ts = ⟨.symbol s, span⟩ :: rest :=
  skipTrivia_of_skipNewlines rfl (expectSymbol_eq_ok_iff.mp h)

theorem skipTrivia_of_expectKeyword {k : Keyword} {span : Span}
    (h : expectKeyword k ts = .ok (span, rest)) : skipTrivia ts = ⟨.keyword k, span⟩ :: rest :=
  skipTrivia_of_skipNewlines rfl (expectKeyword_eq_ok_iff.mp h)

/-- The mark is the first token behind the trivia. -/
theorem nextIsSymbol_iff {s : Symbol} :
    nextIsSymbol s ts = true ↔ ∃ span rest, skipTrivia ts = ⟨.symbol s, span⟩ :: rest := by
  rw [nextIsSymbol]
  split
  · next s' span rest h => simp [h, eq_comm]
  · next h => simpa using fun span rest => h s span rest

theorem nextIsKeyword_iff {k : Keyword} :
    nextIsKeyword k ts = true ↔ ∃ span rest, skipTrivia ts = ⟨.keyword k, span⟩ :: rest := by
  rw [nextIsKeyword]
  split
  · next k' span rest h => simp [h, eq_comm]
  · next h => simpa using fun span rest => h k span rest

/-- The first token behind the trivia, if there is one, is another. -/
theorem nextIsSymbol_eq_false_iff {s : Symbol} :
    nextIsSymbol s ts = false ↔ ∀ span rest, skipTrivia ts ≠ ⟨.symbol s, span⟩ :: rest := by
  rw [Bool.eq_false_iff, ne_eq, nextIsSymbol_iff]
  push Not
  rfl

theorem nextIsKeyword_eq_false_iff {k : Keyword} :
    nextIsKeyword k ts = false ↔ ∀ span rest, skipTrivia ts ≠ ⟨.keyword k, span⟩ :: rest := by
  rw [Bool.eq_false_iff, ne_eq, nextIsKeyword_iff]
  push Not
  rfl

/-! ### Repetitions

The relation is the one that proofs use, and the rule is compared with it here. -/

variable {α : Type} {round : Rule (Option α)} {as : List α}

/-- Some rounds of a rule, one behind the other. Nothing is said about a further round. -/
inductive Rounds (round : Rule (Option α)) : List Token → List α → List Token → Prop
  /-- No round. -/
  | nil {ts : List Token} : Rounds round ts [] ts
  /-- A round in front of others. -/
  | cons {ts mid rest : List Token} {a : α} {as : List α}
      (head : round ts = .ok (some a, mid)) (tail : Rounds round mid as rest) :
      Rounds round ts (a :: as) rest

/-- One more round than `n`: it reads nothing and is the last, or `n` rounds follow it. -/
theorem rounds_succ_eq_ok_iff {n : Nat} :
    rounds round (n + 1) ts = .ok (as, rest) ↔
      (round ts = .ok (none, rest) ∧ as = []) ∨
        ∃ a mid as', round ts = .ok (some a, mid) ∧ rounds round n mid = .ok (as', rest) ∧
          as = a :: as' := by
  simp only [rounds, bind_eq_ok_iff]
  constructor
  · rintro ⟨⟨_ | a, mid⟩, hround, h⟩
    · obtain ⟨rfl, rfl⟩ : [] = as ∧ mid = rest := by simpa [pure_eq_ok_iff] using h
      exact .inl ⟨hround, rfl⟩
    · simp only [bind_eq_ok_iff, pure_eq_ok_iff, Prod.exists, Prod.mk.injEq] at h
      obtain ⟨as', _, htail, rfl, rfl⟩ := h
      exact .inr ⟨a, mid, as', hround, htail, rfl⟩
  · rintro (⟨hround, rfl⟩ | ⟨a, mid, as', hround, htail, rfl⟩)
    · exact ⟨_, hround, rfl⟩
    · refine ⟨_, hround, ?_⟩
      simp only [bind_eq_ok_iff, pure_eq_ok_iff]
      exact ⟨_, htail, rfl⟩

/-- What holds of the result of every round holds of all results. -/
theorem Rounds.forall_mem {P : α → Prop}
    (hround : ∀ {ts a rest}, round ts = .ok (some a, rest) → P a) (h : Rounds round ts as rest) :
    ∀ a ∈ as, P a := by
  induction h with
  | nil => simp
  | cons head tail ih => exact List.forall_mem_cons.mpr ⟨hround head, ih⟩

/-- What holds in front of the first round and behind every round holds behind the last. -/
theorem Rounds.behind {P : List Token → Prop}
    (hround : ∀ {ts a rest}, round ts = .ok (some a, rest) → P rest)
    (h : Rounds round ts as rest) (hts : P ts) : P rest := by
  induction h with
  | nil => exact hts
  | cons head tail ih => exact ih (hround head)

/-- What holds behind every round holds behind the last, if there is one. -/
theorem Rounds.behind_of_ne_nil {P : List Token → Prop}
    (hround : ∀ {ts a rest}, round ts = .ok (some a, rest) → P rest)
    (h : Rounds round ts as rest) (has : as ≠ []) : P rest := by
  cases h with
  | nil => exact absurd rfl has
  | cons head tail => exact tail.behind hround (hround head)

/-- Some rounds and then some more. -/
theorem Rounds.split {as bs : List α} (h : Rounds round ts (as ++ bs) rest) :
    ∃ mid, Rounds round ts as mid ∧ Rounds round mid bs rest := by
  induction as generalizing ts with
  | nil => exact ⟨ts, .nil, h⟩
  | cons a as ih =>
    cases h with
    | cons head tail =>
      obtain ⟨mid, has, hbs⟩ := ih tail
      exact ⟨mid, .cons head has, hbs⟩

/-- Some rounds and one more. -/
theorem Rounds.concat {mid : List Token} {a : α} (h : Rounds round ts as mid)
    (hlast : round mid = .ok (some a, rest)) : Rounds round ts (as ++ [a]) rest := by
  induction h with
  | nil => exact .cons hlast .nil
  | cons head tail ih => exact .cons head (ih hlast)

/-- A repetition that succeeds is made of rounds, if a round that reads nothing takes nothing. -/
theorem rounds_of_repeated (hstop : ∀ {ts rest}, round ts = .ok (none, rest) → rest = ts)
    (h : repeated round ts = .ok (as, rest)) : Rounds round ts as rest := by
  suffices ∀ n ts as, rounds round n ts = .ok (as, rest) → Rounds round ts as rest from
    this _ _ _ h
  intro n
  induction n with
  | zero =>
    intro ts as h
    obtain ⟨rfl, rfl⟩ : [] = as ∧ ts = rest := by simpa [rounds] using h
    exact .nil
  | succ n ih =>
    intro ts as h
    rcases rounds_succ_eq_ok_iff.mp h with ⟨hround, rfl⟩ | ⟨a, mid, as', hround, htail, rfl⟩
    · rw [hstop hround]
      exact .nil
    · exact .cons hround (ih _ _ htail)

/-- A round for which the bound of a repetition is never felt. -/
structure Repeatable (round : Rule (Option α)) : Prop where
  /-- A round that reads nothing takes nothing. -/
  stop : ∀ {ts rest}, round ts = .ok (none, rest) → rest = ts
  /-- Without tokens there is nothing to read. -/
  nil : round [] = .ok (none, [])
  /-- A round that reads something takes a token. -/
  shrinks : ∀ {ts a rest}, round ts = .ok (some a, rest) → rest.length < ts.length

/-- Rounds behind which there is no further one are a repetition whose bound allows for as many
rounds as there are tokens. -/
theorem rounds_eq_ok (hr : Repeatable round) (h : Rounds round ts as rest)
    (hend : round rest = .ok (none, rest)) :
    ∀ n, ts.length ≤ n → rounds round n ts = .ok (as, rest) := by
  induction h with
  | nil =>
    intro n hn
    cases n with
    | zero => rfl
    | succ n => exact rounds_succ_eq_ok_iff.mpr (.inl ⟨hend, rfl⟩)
  | cons head tail ih =>
    intro n hn
    have hlt := hr.shrinks head
    obtain ⟨n, rfl⟩ : ∃ m, n = m + 1 := ⟨n - 1, by omega⟩
    exact rounds_succ_eq_ok_iff.mpr (.inr ⟨_, _, _, head, ih hend n (by omega), rfl⟩)

/-- A repetition reads all the rounds that there are. -/
theorem end_of_repeated (hr : Repeatable round) (h : repeated round ts = .ok (as, rest)) :
    round rest = .ok (none, rest) := by
  suffices ∀ n ts as, ts.length ≤ n → rounds round n ts = .ok (as, rest) →
      round rest = .ok (none, rest) from this _ _ _ (Nat.le_refl _) h
  intro n
  induction n with
  | zero =>
    intro ts as hn h
    obtain ⟨rfl, rfl⟩ : [] = as ∧ ts = rest := by simpa [rounds] using h
    obtain rfl := List.eq_nil_of_length_eq_zero (Nat.le_zero.mp hn)
    exact hr.nil
  | succ n ih =>
    intro ts as hn h
    rcases rounds_succ_eq_ok_iff.mp h with ⟨hround, rfl⟩ | ⟨a, mid, as', hround, htail, rfl⟩
    · obtain rfl := hr.stop hround
      exact hround
    · have hlt := hr.shrinks hround
      exact ih _ _ (by omega) htail

/-- **A repetition, without its bound.** -/
theorem repeated_eq_ok_iff (hr : Repeatable round) :
    repeated round ts = .ok (as, rest) ↔
      Rounds round ts as rest ∧ round rest = .ok (none, rest) :=
  ⟨fun h => ⟨rounds_of_repeated hr.stop h, end_of_repeated hr h⟩,
    fun ⟨h, hend⟩ => rounds_eq_ok hr h hend _ (Nat.le_refl _)⟩

/-- Without tokens there are no rounds. -/
theorem rounds_nil (hnil : round [] = .ok (none, [])) (n : Nat) :
    rounds round n [] = .ok ([], []) := by
  cases n with
  | zero => rfl
  | succ n =>
    simp only [rounds, hnil]
    rfl

section

variable (hnil : round [] = .ok (none, []))
  (hshrinks : ∀ {ts a rest}, round ts = .ok (some a, rest) → rest.length < ts.length)
include hnil hshrinks

/-- A bound for as many rounds as there are tokens is as good as any larger one. -/
theorem rounds_eq_repeated {n : Nat} (hn : ts.length ≤ n) :
    rounds round n ts = repeated round ts := by
  suffices ∀ n m ts, ts.length ≤ n → ts.length ≤ m → rounds round n ts = rounds round m ts from
    this n ts.length ts hn (Nat.le_refl _)
  intro n
  induction n with
  | zero =>
    intro m ts hn hm
    obtain rfl := List.eq_nil_of_length_eq_zero (Nat.le_zero.mp hn)
    exact (rounds_nil hnil m).symm
  | succ n ih =>
    intro m ts hn hm
    -- two bounds that both suffice, so neither is used up first
    cases m with
    | zero =>
      obtain rfl := List.eq_nil_of_length_eq_zero (Nat.le_zero.mp hm)
      exact rounds_nil hnil (n + 1)
    | succ m =>
      rw [rounds, rounds]
      cases hround : round ts with
      | error s => rfl
      | ok found =>
        obtain ⟨_ | a, mid⟩ := found
        · rfl
        · have hlt := hshrinks hround
          have hmore : rounds round n mid = rounds round m mid := ih m mid (by omega) (by omega)
          exact congrArg (· >>= fun r => pure (a :: r.1, r.2)) hmore

/-- **A repetition is its first round, with a repetition behind it**, however many tokens there
are. -/
theorem repeated_eq (ts : List Token) :
    repeated round ts = (do
      match ← round ts with
      | (none, ts) => return ([], ts)
      | (some a, ts) =>
        let (as, ts) ← repeated round ts
        return (a :: as, ts)) := by
  rw [← rounds_eq_repeated hnil hshrinks (Nat.le_succ ts.length), rounds]
  cases hround : round ts with
  | error s => rfl
  | ok found =>
    obtain ⟨_ | a, mid⟩ := found
    · rfl
    · have hlt := hshrinks hround
      have hmore : rounds round ts.length mid = repeated round mid :=
        rounds_eq_repeated hnil hshrinks (Nat.le_of_lt hlt)
      exact congrArg (· >>= fun r => pure (a :: r.1, r.2)) hmore

end

/-- **A repetition fails in the first round that does.** -/
theorem repeated_eq_error_iff (hr : Repeatable round) {s : Stuck} :
    repeated round ts = .error s ↔
      ∃ as mid, Rounds round ts as mid ∧ round mid = .error s := by
  constructor
  · suffices ∀ n ts, rounds round n ts = .error s →
        ∃ as mid, Rounds round ts as mid ∧ round mid = .error s from this _ ts
    intro n
    induction n with
    | zero =>
      intro ts h
      cases h
    | succ n ih =>
      intro ts h
      rw [rounds] at h
      rcases bind_eq_error_iff.mp h with hround | ⟨⟨_ | a, mid⟩, hround, h⟩
      · exact ⟨[], ts, .nil, hround⟩
      · cases h
      · have hmore : rounds round n mid = .error s := by
          simpa [bind_eq_error_iff, pure, Except.pure] using h
        obtain ⟨as, last, hrounds, hlast⟩ := ih mid hmore
        exact ⟨a :: as, last, .cons hround hrounds, hlast⟩
  · rintro ⟨as, mid, hrounds, hmid⟩
    induction hrounds with
    | nil =>
      rw [repeated_eq hr.nil hr.shrinks, hmid]
      rfl
    | cons head tail ih =>
      rw [repeated_eq hr.nil hr.shrinks, head]
      exact bind_eq_error_iff.mpr (.inr ⟨_, rfl, bind_eq_error_iff.mpr (.inl (ih hmid))⟩)

end Grammar

end NixSyntax
