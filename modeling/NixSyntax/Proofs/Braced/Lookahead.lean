import NixSyntax.Proofs.Braced.Roles
import NixSyntax.Proofs.Braced.Scan
import NixSyntax.Proofs.Composing.Extension

/-!
# The look ahead and the grammar agree

The look ahead knows no grammar. It counts braces, and the rules decide from what it says whether
they read a pattern or a set. What they then read has matching braces all through, so the stretch
that the look ahead has found is what they read: the whole of the set, or the pattern of the
function and no more of it.

## Where the two are independent of each other

What the look ahead finds is said in the module on the scan for braces, which speaks of nothing
else. That braces match in all that a rule reads is shown without the look ahead, from what the
rules take (`behindBraces_of_patternBody`). The two are brought together here: what a rule has read
between two braces is a stretch, and there is only one stretch from a brace on.

Whether a term is a function is decided by the look ahead, but that it is a function can be seen
from the term alone (`Term.isLambda`). So it is a statement about the grammar that both go together.

## Main definitions

* `Term.isLambda`: the functions
* `BracesOf`: the terms that begin with a brace, and where the brace that closes it is

## Main results

* `isLambda_iff_of_readsTerm`: a term that begins with a brace is a function when the look ahead
  says so
* `exists_stretch_of_readsTerm`: the stretch that the look ahead finds is the set or the pattern
* `pattern_lookahead`: what the look ahead finds, and what the opening braces of a program become
-/

namespace NixSyntax

/-- The functions. -/
def Term.isLambda : Term → Bool
  | lambda _ _ _ => true
  | _ => false

namespace Grammar

variable {n : Nat} {ctx : Context} {start : Span} {vs rest : List Token} {t : Term}

/-- What is read as a set is no function. -/
theorem isLambda_of_attrSet {recursive : Bool}
    (h : attrSet (operandUpTo n) recursive start vs = .ok (t, rest)) : t.isLambda = false := by
  obtain ⟨bs, mid, -, stop, -, rfl⟩ := attrSet_eq_ok_iff.mp h
  rfl

theorem isLambda_of_patternLambda {front : Option AttrPath}
    (h : patternLambda (operandUpTo n) front start vs = .ok (t, rest)) : t.isLambda = true := by
  obtain ⟨body, ts₁, -, stop, ts₂, -, whole, span, more, ts₃, -, colon, ts₄, -, result, -, rfl⟩ :=
    patternLambda_eq_ok_iff.mp h
  rfl

/-- A term and the tokens behind it, where an opening brace is in front of the tokens `vs` and the
brace that closes it is in front of `behind`. -/
inductive BracesOf (operand : Context → Rule Operand) (start : Span) (vs behind : List Token) :
    Term → List Token → Prop
  /-- The braces are the whole of a set. -/
  | attrSet {t : Term} (attrSet_eq : attrSet operand false start vs = .ok (t, behind)) :
      BracesOf operand start vs behind t behind
  /-- The braces are the pattern of a function. -/
  | pattern {body : PatternBody} {mid rest : List Token} {stop : Span} {t : Term}
      (body_eq : patternBody operand vs = .ok (body, mid))
      (stop_eq : expectSymbol .closeBrace mid = .ok (stop, behind))
      (lambda_eq : patternLambda operand none start vs = .ok (t, rest)) :
      BracesOf operand start vs behind t rest

/-- **A term that begins with a brace is a function if and only if the look ahead says so.** -/
theorem isLambda_iff_of_readsTerm
    (h : ReadsTerm (operandUpTo n) ctx (⟨.symbol .openBrace, start⟩ :: vs) t rest) :
    t.isLambda = true ↔ patternAt false (⟨.symbol .openBrace, start⟩ :: vs) 0 = true := by
  rw [patternAt_zero]
  cases h with
  | attrSet no_pattern h => simp [isLambda_of_attrSet h, no_pattern]
  | pattern opens h => simp [isLambda_of_patternLambda h, opens]

/-- **The stretch that the look ahead finds is the set, or the pattern of the function.** -/
theorem exists_stretch_of_readsTerm
    (h : ReadsTerm (operandUpTo n) ctx (⟨.symbol .openBrace, start⟩ :: vs) t rest) :
    ∃ stretch behind, Stretch (⟨.symbol .openBrace, start⟩ :: vs) stretch behind ∧
      BracesOf (operandUpTo n) start vs behind t rest := by
  cases h with
  | attrSet _ h =>
    obtain ⟨stretch, hstretch⟩ := exists_stretch_iff.mpr (behindBraces_of_attrSet h)
    exact ⟨stretch, rest, hstretch, .attrSet h⟩
  | pattern _ h =>
    obtain ⟨body, mid, hbody, stop, behind, hstop, -⟩ := patternLambda_eq_ok_iff.mp h
    obtain ⟨stretch, hstretch⟩ := exists_stretch_iff.mpr (behindBraces_of_patternBody hbody hstop)
    exact ⟨stretch, behind, hstretch, .pattern hbody hstop h⟩

/-- **The look ahead for a pattern.** It finds an opening brace, and behind the shortest stretch
from there in which as many braces close as open a colon, or an `@` where the pattern has no name
yet. Its count does not fall below zero. Each opening brace of a program opens a term of it. Where
this term begins with the brace, it is a function if and only if the look ahead finds a pattern
there, and the stretch is the pattern or the set. -/
theorem pattern_lookahead :
    (∀ named ts i, patternAt named ts i = true ↔
      (∃ start, ts[i]? = some ⟨.symbol .openBrace, start⟩) ∧
      ∃ stretch rest, Stretch (ts.drop i) stretch rest ∧
        (nextIsSymbol .colon rest = true ∨ named = false ∧ nextIsSymbol .atSign rest = true)) ∧
    (∀ start vs, countBraces 0 (⟨.symbol .openBrace, start⟩ :: vs) = some (behindBraces 0 vs)) ∧
    (∀ ts p, Program.ofTokens ts = .ok p →
      ∀ start vs, Reached (⟨.symbol .openBrace, start⟩ :: vs) ts →
        ∃ t, .term t ∈ p.body.nodes ∧ Opens ts t start vs) ∧
    ∀ n ctx start vs t rest,
      ReadsTerm (operandUpTo n) ctx (⟨.symbol .openBrace, start⟩ :: vs) t rest →
        (t.isLambda = true ↔ patternAt false (⟨.symbol .openBrace, start⟩ :: vs) 0 = true) ∧
        ∃ stretch behind, Stretch (⟨.symbol .openBrace, start⟩ :: vs) stretch behind ∧
          BracesOf (operandUpTo n) start vs behind t rest :=
  ⟨patternAt_iff, countBraces_openBrace, fun _ _ h _ _ => Program.exists_opens h,
    fun _ _ _ _ _ _ h => ⟨isLambda_iff_of_readsTerm h, exists_stretch_of_readsTerm h⟩⟩

/-- The tokens of `{ f = { x }: x; }`. -/
def setOfFunctionTokens : List Token :=
  [⟨.symbol .openBrace, default⟩, ⟨.identifier "f", default⟩, ⟨.symbol .assign, default⟩,
    ⟨.symbol .openBrace, default⟩, ⟨.identifier "x", default⟩, ⟨.symbol .closeBrace, default⟩,
    ⟨.symbol .colon, default⟩, ⟨.identifier "x", default⟩, ⟨.symbol .semicolon, default⟩,
    ⟨.symbol .closeBrace, default⟩, ⟨.endOfInput, default⟩]

/-- The outer braces open a term of the program. The inner ones are the pattern of a function. -/
theorem pattern_lookahead_setOfFunction :
    (∃ p, Program.ofTokens setOfFunctionTokens = .ok p ∧ ∃ t, .term t ∈ p.body.nodes ∧
      Opens setOfFunctionTokens t default setOfFunctionTokens.tail) ∧
    ∃ t rest, ReadsTerm (operandUpTo 9) .chain (setOfFunctionTokens.drop 3) t rest ∧
      t.isLambda = true ∧
      ∃ stretch behind, Stretch (setOfFunctionTokens.drop 3) stretch behind ∧
        BracesOf (operandUpTo 9) default (setOfFunctionTokens.drop 4) behind t rest := by
  obtain ⟨-, -, hprogram, hread⟩ := pattern_lookahead
  have hterm : ∃ t rest, ReadsTerm (operandUpTo 9) .chain (setOfFunctionTokens.drop 3) t rest :=
    ⟨_, _, .pattern rfl rfl⟩
  obtain ⟨t, rest, hterm⟩ := hterm
  obtain ⟨hlambda, hbraces⟩ := hread _ _ _ _ _ _ hterm
  exact ⟨⟨_, rfl, hprogram _ _ rfl _ _ .refl⟩, t, rest, hterm, hlambda.mpr rfl, hbraces⟩

end Grammar

end NixSyntax
