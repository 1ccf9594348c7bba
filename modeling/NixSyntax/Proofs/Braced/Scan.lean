import NixSyntax.Proofs.Composing.Interpolated

/-!
# Looking ahead to the brace that matches

A brace at the place of an operand begins a pattern or an attribute set, and this is told without
reading either: the tokens are run through with a count of the braces, up from zero with each
opening brace and down with each closing one, until the count is zero again. What the count finds
needs no count to be said. It is the shortest stretch of the tokens in which as many braces close as
open, and the token behind this stretch decides.

The count never falls below zero. It would have to pass zero, and there it ends.

## Two counts

The look ahead of the grammar (`behindBraces`) begins behind the opening brace and counts the braces
that are still open, less this one. There it cannot fall below zero by the way it is written: where
no other brace is open, a closing brace is the one that matches. The count that is told in words
begins in front of the opening brace. `countBraces` is that one, and has a case of its own for
falling below zero. The two are compared in `countBraces_succ`, and with them it is clear that this
case does not occur.

What ends where is said without a count in the rest of the module. A `Stretch` is a part of the
tokens with as many closing as opening braces, and no shorter part from the same token on has that.
`Closes` is what is left of this behind the first brace, with `depth + 1` braces open, and is what
the induction is about.

## Main definitions

* `countBraces`: the count, with an answer of its own where it would fall below zero
* `Stretch`: the shortest stretch in which as many braces close as open
* `Closes`: what is behind the opening brace in a stretch
* `patternAt`: the look ahead at a place in a list of tokens

## Main results

* `countBraces_openBrace`: from an opening brace on, the count does not fall below zero
* `exists_stretch_iff`: behind which tokens the count ends
* `patternAt_iff`: what the look ahead finds
-/

namespace NixSyntax

namespace Grammar

variable {depth : Nat} {start : Span} {t : Token} {ts vs rest : List Token}

/-- The tokens behind the closing brace with which the count of open braces comes back to zero, if
there is one. Without a first answer the count would have fallen below zero. -/
def countBraces : Nat → List Token → Option (Option (List Token))
  | _, [] => some none
  | depth, ⟨.symbol .openBrace, _⟩ :: ts => countBraces (depth + 1) ts
  | 0, ⟨.symbol .closeBrace, _⟩ :: _ => none
  | 1, ⟨.symbol .closeBrace, _⟩ :: ts => some (some ts)
  | depth + 2, ⟨.symbol .closeBrace, _⟩ :: ts => countBraces (depth + 1) ts
  | depth, _ :: ts => countBraces depth ts

/-- As many braces close as open. -/
def EvenBraces (ts : List Token) : Prop := countMark .closeBrace ts = countMark .openBrace ts

/-- The tokens `stretch` in front of `rest` are the shortest part of `ts` in which as many braces
close as open, the empty one apart. -/
structure Stretch (ts stretch rest : List Token) : Prop where
  eq_append : ts = stretch ++ rest
  ne_nil : stretch ≠ []
  even : EvenBraces stretch
  shortest : ∀ front, front <+: stretch → front ≠ [] → EvenBraces front → front = stretch

/-- Where `depth + 1` braces are open in front of the tokens `inside`, these are all closed at the
end of `inside`, and not before. -/
structure Closes (depth : Nat) (inside : List Token) : Prop where
  more : countMark .closeBrace inside = countMark .openBrace inside + (depth + 1)
  first : ∀ front, front <+: inside →
    countMark .closeBrace front = countMark .openBrace front + (depth + 1) → front = inside

/-- Whether the token at a place is an opening brace that begins the pattern of a function, by what
stands behind the brace that matches it. -/
def patternAt (named : Bool) (ts : List Token) (i : Nat) : Bool :=
  match ts.drop i with
  | ⟨.symbol .openBrace, _⟩ :: rest => opensPattern named rest
  | _ => false

/-! ### The count

The count from the first brace on, and the look ahead from behind it. -/

/-- Where a brace is open, the count goes on as the look ahead does. -/
theorem countBraces_succ (depth : Nat) (ts : List Token) :
    countBraces (depth + 1) ts = some (behindBraces depth ts) := by
  induction ts generalizing depth with
  | nil => rfl
  | cons t ts ih =>
    obtain ⟨kind, span⟩ := t
    cases kind with
    | symbol mark => cases mark <;> cases depth <;> simp [countBraces, behindBraces, ih]
    | _ => cases depth <;> simp [countBraces, behindBraces, ih]

/-- **From an opening brace on, the count does not fall below zero.** -/
theorem countBraces_openBrace (start : Span) (vs : List Token) :
    countBraces 0 (⟨.symbol .openBrace, start⟩ :: vs) = some (behindBraces 0 vs) :=
  countBraces_succ 0 vs

/-! ### The stretch

By induction along the tokens. A token changes how many braces are open, and the condition on all
prefixes of the tokens turns into the one on all prefixes of those behind it. -/

/-- An open brace is not closed by no tokens. -/
theorem not_closes_nil : ¬Closes depth [] := by
  intro h
  have hmore := h.more
  rw [countMark_nil, countMark_nil] at hmore
  omega

/-- The closing brace that matches ends the stretch. -/
theorem closes_cons_iff_of_none (h : t.kind.braceDepth depth = none) :
    Closes depth (t :: vs) ↔ vs = [] := by
  obtain ⟨hkind, rfl⟩ := TokenKind.braceDepth_eq_none_iff.mp h
  obtain ⟨kind, span⟩ := t
  obtain rfl : kind = .symbol .closeBrace := hkind
  constructor
  · intro h
    have hsingle := h.first [_] (List.cons_prefix_cons.mpr ⟨rfl, List.nil_prefix⟩) rfl
    exact (List.cons.inj hsingle).2.symm
  · rintro rfl
    refine ⟨rfl, fun front hfront heq => ?_⟩
    cases front with
    | nil => cases heq
    | cons u front =>
      obtain ⟨rfl, hnil⟩ := List.cons_prefix_cons.mp hfront
      rw [List.prefix_nil.mp hnil]

/-- Any other token is passed over, with the number of open braces behind it. -/
theorem closes_cons_iff {depth' : Nat} (h : t.kind.braceDepth depth = some depth') :
    Closes depth (t :: vs) ↔ Closes depth' vs := by
  have hstep := depth_of_braceDepth h
  constructor
  · rintro ⟨hmore, hfirst⟩
    rw [countMark_cons, countMark_cons] at hmore
    refine ⟨by omega, fun front hfront heq => ?_⟩
    have hcons := hfirst (t :: front) (List.cons_prefix_cons.mpr ⟨rfl, hfront⟩)
      (by rw [countMark_cons, countMark_cons]; omega)
    exact (List.cons.inj hcons).2
  · rintro ⟨hmore, hfirst⟩
    refine ⟨by rw [countMark_cons, countMark_cons]; omega, fun front hfront heq => ?_⟩
    cases front with
    | nil =>
      rw [countMark_nil, countMark_nil] at heq
      omega
    | cons u front =>
      obtain ⟨rfl, hvs⟩ := List.cons_prefix_cons.mp hfront
      rw [countMark_cons, countMark_cons] at heq
      rw [hfirst front hvs (by omega)]

/-- **The look ahead ends where all braces are closed** for the first time. -/
theorem behindBraces_eq_some_iff :
    behindBraces depth vs = some rest ↔ ∃ inside, vs = inside ++ rest ∧ Closes depth inside := by
  induction vs generalizing depth with
  | nil =>
    refine ⟨nofun, ?_⟩
    rintro ⟨inside, heq, hcloses⟩
    obtain ⟨rfl, -⟩ := List.append_eq_nil_iff.mp heq.symm
    exact absurd hcloses not_closes_nil
  | cons t vs ih =>
    have hcons : (∃ inside, t :: vs = inside ++ rest ∧ Closes depth inside) ↔
        ∃ inside, vs = inside ++ rest ∧ Closes depth (t :: inside) := by
      constructor
      · rintro ⟨inside, heq, hcloses⟩
        cases inside with
        | nil => exact absurd hcloses not_closes_nil
        | cons u inside =>
          obtain ⟨rfl, rfl⟩ := List.cons.inj heq
          exact ⟨inside, rfl, hcloses⟩
      · rintro ⟨inside, rfl, hcloses⟩
        exact ⟨t :: inside, rfl, hcloses⟩
    rw [behindBraces_cons_eq, hcons]
    cases hdepth : t.kind.braceDepth depth with
    | none => simp [closes_cons_iff_of_none hdepth]
    | some depth' =>
      simp only [closes_cons_iff hdepth]
      exact ih

/-- A stretch from an opening brace on. -/
theorem stretch_openBrace_iff {inside : List Token} :
    Stretch (⟨.symbol .openBrace, start⟩ :: vs) (⟨.symbol .openBrace, start⟩ :: inside) rest ↔
      vs = inside ++ rest ∧ Closes 0 inside := by
  have hcount (inside : List Token) : EvenBraces (⟨.symbol .openBrace, start⟩ :: inside) ↔
      countMark .closeBrace inside = countMark .openBrace inside + (0 + 1) := by
    rw [EvenBraces, countMark_cons, countMark_cons]
    rfl
  constructor
  · rintro ⟨heq, -, heven, hshortest⟩
    refine ⟨(List.cons.inj heq).2, (hcount inside).mp heven, fun front hfront hfirst => ?_⟩
    have hcons := hshortest _ (List.cons_prefix_cons.mpr ⟨rfl, hfront⟩) (List.cons_ne_nil _ _)
      ((hcount front).mpr hfirst)
    exact (List.cons.inj hcons).2
  · rintro ⟨rfl, hmore, hfirst⟩
    refine ⟨rfl, List.cons_ne_nil _ _, (hcount inside).mpr hmore, fun front hfront hne heven => ?_⟩
    cases front with
    | nil => exact absurd rfl hne
    | cons t front =>
      obtain ⟨rfl, hinside⟩ := List.cons_prefix_cons.mp hfront
      rw [hfirst front hinside ((hcount front).mp heven)]

/-- **The look ahead ends behind the shortest stretch** in which as many braces close as open. -/
theorem exists_stretch_iff :
    (∃ stretch, Stretch (⟨.symbol .openBrace, start⟩ :: vs) stretch rest) ↔
      behindBraces 0 vs = some rest := by
  rw [behindBraces_eq_some_iff]
  constructor
  · rintro ⟨stretch, hstretch⟩
    cases stretch with
    | nil => exact absurd rfl hstretch.ne_nil
    | cons t inside =>
      obtain ⟨rfl, -⟩ := List.cons.inj hstretch.eq_append
      exact ⟨inside, stretch_openBrace_iff.mp hstretch⟩
  · rintro ⟨inside, hinside⟩
    exact ⟨_ :: inside, stretch_openBrace_iff.mpr hinside⟩

/-! ### The look ahead

Behind the stretch a colon or an `@` is looked for, past line breaks and comments. -/

theorem patternAt_zero (named : Bool) (start : Span) (vs : List Token) :
    patternAt named (⟨.symbol .openBrace, start⟩ :: vs) 0 = opensPattern named vs := rfl

/-- Braces are a pattern by what stands behind them. -/
theorem opensPattern_iff {named : Bool} :
    opensPattern named vs = true ↔ ∃ rest, behindBraces 0 vs = some rest ∧
      (nextIsSymbol .colon rest = true ∨ named = false ∧ nextIsSymbol .atSign rest = true) := by
  rw [opensPattern]
  cases hbraces : behindBraces 0 vs with
  | none => simp
  | some rest => simp [and_comm]

/-- **What the look ahead finds**: an opening brace, and behind the shortest stretch from there in
which as many braces close as open a colon, or an `@` where the pattern has no name yet. Line breaks
and comments in front of these do not matter. -/
theorem patternAt_iff (named : Bool) (ts : List Token) (i : Nat) :
    patternAt named ts i = true ↔
      (∃ start, ts[i]? = some ⟨.symbol .openBrace, start⟩) ∧
      ∃ stretch rest, Stretch (ts.drop i) stretch rest ∧
        (nextIsSymbol .colon rest = true ∨ named = false ∧ nextIsSymbol .atSign rest = true) := by
  rw [patternAt, ← List.head?_drop]
  split
  · rename_i start vs hdrop
    rw [opensPattern_iff, hdrop]
    constructor
    · rintro ⟨rest, hbraces, hnext⟩
      obtain ⟨stretch, hstretch⟩ := exists_stretch_iff.mpr hbraces
      exact ⟨⟨start, rfl⟩, stretch, rest, hstretch, hnext⟩
    · rintro ⟨-, stretch, rest, hstretch, hnext⟩
      exact ⟨rest, exists_stretch_iff.mp ⟨stretch, hstretch⟩, hnext⟩
  · rename_i hdrop
    refine ⟨nofun, ?_⟩
    rintro ⟨⟨start, hhead⟩, -⟩
    cases hts : ts.drop i with
    | nil => simp [hts] at hhead
    | cons t vs =>
      obtain rfl : t = _ := by simpa [hts] using hhead
      exact absurd hts (hdrop start vs)

end Grammar

end NixSyntax
