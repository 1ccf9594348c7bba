import NixSyntax.Proofs.Blind.Rules
import NixSyntax.Proofs.Braced.Tails
import NixSyntax.Proofs.Chain.Tiers
import NixSyntax.Proofs.Composing.Closing

/-!
# The name of a pattern

The argument of a function that takes it apart may have a name as well, and `x@{ … }: e` and
`{ … }@x: e` say the same. They are read in different ways: in front, the name is seen before the
brace and is kept until the pattern has been read, and behind, the pattern goes on with the name.
Whether the braces are a pattern at all is told in each case by what stands behind them.

Inside the braces the two readings cannot differ, since no rule looks past the closing brace
(`blind_patternBody`). Behind it they meet at the colon, with the same name. So the two trees have
all in common but the places of the function and of its parts around the name, and if the reading
fails, then for the same cause at the same token.

## Why the two spellings meet

What is compared are two readings of lists of the same length, with their tokens in another order.
They are compared in three parts. Up to the colon both are in the rule for functions with a pattern,
and there the first list has passed the name and the second has it still in front of it. Behind the
braces the second list takes the name, and from then on both have the same tokens in front of them.
Last, what is around the function, its operand and the operators behind it, is read from the same
tokens too, but the function they are put around is not the same: it begins in another place. So the
answers are compared only as far as a function `v` of them goes (`AgreeUpTo`), and `v` forgets the
places.

Faults do not need to be forgotten in part. Where a reading fails, it does so in front of the place
where the lists differ, or behind it, and either way at a token that is in both of them or at their
end.

## Main definitions

* `IsBraced`: tokens in braces that match
* `AgreeUpTo`: answers that leave the same tokens and the same value, as far as it is compared

## Main results

* `agreeUpTo_patternLambda`: a pattern with the name in front and with the name behind
* `Program.ofTokens_patternName`: a name in front of a pattern and a name behind it say the same
-/

namespace NixSyntax

namespace Grammar

/-- Tokens that begin with an opening brace and end with the closing brace that matches it. -/
def IsBraced (ts : List Token) : Prop :=
  ∃ brace inside, ts = ⟨.symbol .openBrace, brace⟩ :: inside ∧ behindBraces 0 inside = some []

variable {α β γ δ : Type} {v : α → β} {w : γ → δ} {n : Nat} {ts us : List Token}

/-! ### Answers that are compared in part

The values need not be the same, but the tokens that are left have to be, since what follows is read
from them. -/

/-- Answers that leave the same tokens, and values that are the same as far as `v` compares them. -/
inductive AgreeUpTo (v : α → β) :
    Except Stuck (α × List Token) → Except Stuck (α × List Token) → Prop
  | ok {a a' : α} {rest : List Token} (value : v a = v a') :
      AgreeUpTo v (.ok (a, rest)) (.ok (a', rest))
  | error (s : Stuck) : AgreeUpTo v (.error s) (.error s)

/-- Parts that agree are followed by parts that agree where their values are compared to be the
same. -/
theorem AgreeUpTo.bind {r r' : Except Stuck (α × List Token)}
    {k k' : α × List Token → Except Stuck (γ × List Token)} (h : AgreeUpTo v r r')
    (hk : ∀ a a' rest, v a = v a' → AgreeUpTo w (k (a, rest)) (k' (a', rest))) :
    AgreeUpTo w (r >>= k) (r' >>= k') := by
  cases h with
  | ok value => exact hk _ _ _ value
  | error s => exact .error s

/-- A part that answers the same is followed by parts that agree. -/
theorem agreeUpTo_bind {r : Except Stuck (α × List Token)}
    {k k' : α × List Token → Except Stuck (γ × List Token)}
    (hk : ∀ a rest, AgreeUpTo w (k (a, rest)) (k' (a, rest))) :
    AgreeUpTo w (r >>= k) (r >>= k') := by
  cases r with
  | ok r => exact hk _ _
  | error s => exact .error s

theorem Agree.bindUpTo {S : List Token → List Token → Prop}
    {r r' : Except Stuck (α × List Token)}
    {k k' : α × List Token → Except Stuck (γ × List Token)} (h : Agree Eq S r r')
    (hk : ∀ a rest rest', S rest rest' → AgreeUpTo w (k (a, rest)) (k' (a, rest'))) :
    AgreeUpTo w (r >>= k) (r' >>= k') := by
  cases h with
  | ok left => exact hk _ _ _ left
  | error h =>
    obtain rfl := h
    exact .error _

/-! ### From a term to the operand and the expression that begin with it -/

variable {operand : Context → Rule Operand}

/-- Terms that are called alike are called with the same arguments. -/
theorem agreeUpTo_applied {t t' : Term}
    (h : t.relabel erasePosition id = t'.relabel erasePosition id) :
    AgreeUpTo (Term.relabel erasePosition id) (applied operand t ts) (applied operand t' ts) := by
  refine agreeUpTo_bind fun arguments rest => ?_
  simp only
  split
  · exact .ok (by simp [Term.relabel, h])
  · exact .ok h

/-- Operands without clauses whose terms agree. -/
theorem agreeUpTo_operandWith (hts : repeated (clause operand) ts = .ok ([], ts))
    (hus : repeated (clause operand) us = .ok ([], us))
    (hcomments : commentsAhead ts = commentsAhead us)
    (h : AgreeUpTo (Term.relabel erasePosition id) (termIn operand .chain (skipTrivia ts))
      (termIn operand .chain (skipTrivia us))) :
    AgreeUpTo (Operand.relabel erasePosition id) (operandWith operand .chain ts)
      (operandWith operand .chain us) := by
  rw [operandWith, operandWith, hts, hus]
  refine h.bind fun t t' rest ht => ?_
  simp only [Term.isCallable_eq ht, hcomments]
  split
  · refine (agreeUpTo_applied ht).bind fun t t' rest ht => .ok ?_
    simp [Operand.relabel, ht]
  · exact .ok (by simp [Operand.relabel, ht])

/-- Operands that agree are followed by the same operators and operands. -/
theorem agreeUpTo_expression
    (h : AgreeUpTo (Operand.relabel erasePosition id) (operand .chain ts) (operand .chain us)) :
    AgreeUpTo (Expr.relabel erasePosition id) (expression operand ts) (expression operand us) := by
  refine h.bind fun first first' rest hfirst => agreeUpTo_bind fun links rest => .ok ?_
  rw [relabel_assemble, relabel_assemble, hfirst]

/-- Expressions that agree leave the same tokens, so none is left behind both or behind neither. -/
theorem complete_cases (h : AgreeUpTo (Expr.relabel erasePosition id) (expression operand ts)
      (expression operand us)) :
    (∃ e e', complete operand ts = .ok e ∧ complete operand us = .ok e' ∧
      e.relabel erasePosition id = e'.relabel erasePosition id) ∨
    ∃ s, complete operand ts = .error s ∧ complete operand us = .error s := by
  rw [complete, complete]
  generalize expression operand ts = r at h ⊢
  generalize expression operand us = r' at h ⊢
  cases h with
  | @ok e e' rest value =>
    cases hend : atEnd rest with
    | true => exact .inl ⟨e, e', if_pos hend, if_pos hend, value⟩
    | false =>
      have hnot : ¬atEnd rest = true := by simp [hend]
      exact .inr ⟨_, if_neg hnot, if_neg hnot⟩
  | error s => exact .inr ⟨s, rfl, rfl⟩

/-! ### The two spellings

The tokens in the braces, the name and the body are the same in both. All places are free, those of
the name, of the `@` and of the colon included. -/

/-- A name in front of a pattern, and the function of the two. -/
def nameInFront (name : String) (x atSign colon : Span) (pattern body : List Token) :
    List Token :=
  ⟨.identifier name, x⟩ :: ⟨.symbol .atSign, atSign⟩ :: (pattern ++ ⟨.symbol .colon, colon⟩ :: body)

/-- A name behind a pattern, and the function of the two. -/
def nameBehind (name : String) (x atSign colon : Span) (pattern body : List Token) : List Token :=
  pattern ++ ⟨.symbol .atSign, atSign⟩ :: ⟨.identifier name, x⟩ :: ⟨.symbol .colon, colon⟩ :: body

variable (name : String) (x x' atSign atSign' colon colon' : Span) (body : List Token)

/-- **A pattern with the name in front and with the name behind** is read alike, from behind its
opening brace on. -/
theorem agreeUpTo_patternLambda {inside : List Token} (h : behindBraces 0 inside = some [])
    (start : Span) :
    AgreeUpTo (Term.relabel erasePosition id)
      (patternLambda (operandUpTo n) (some ⟨[.name name], [], x⟩) start
        (inside ++ ⟨.symbol .colon, colon⟩ :: body))
      (patternLambda (operandUpTo n) none start
        (inside ++ ⟨.symbol .atSign, atSign'⟩ :: ⟨.identifier name, x'⟩ ::
          ⟨.symbol .colon, colon'⟩ :: body)) := by
  rw [patternLambda, patternLambda]
  let P := Braced.pairing (⟨.symbol .colon, colon⟩ :: body) (⟨.symbol .atSign, atSign'⟩ ::
    ⟨.identifier name, x'⟩ :: ⟨.symbol .colon, colon'⟩ :: body)
  have hinside : P.Paired 0 _ _ := braced_append h _ _
  refine (blind_patternBody (blind_operandUpTo n) hinside).bindUpTo fun pattern ts us hpaired => ?_
  refine (hpaired.expectSymbol Braced.eq_of_close).bindUpTo fun stop ts us hleft => ?_
  obtain ⟨rfl, rfl⟩ := hleft
  have hname : patternEnd (operandUpTo n) none start stop
      (skipTrivia (⟨.symbol .atSign, atSign'⟩ :: ⟨.identifier name, x'⟩ ::
        ⟨.symbol .colon, colon'⟩ :: body)) =
      .ok ((some ⟨[.name name], [], x'⟩, start.join x', []), ⟨.symbol .colon, colon'⟩ :: body) :=
    rfl
  simp only [hname]
  refine agreeUpTo_bind (r := expression (operandUpTo n) body) fun result rest => .ok ?_
  simp [Term.relabel, Parameter.relabel, relabelPath?, AttrPath.relabel, commentsAhead,
    Token.isTrivia]

/-- Both spellings are read as functions, since a colon or an `@` stands behind the braces. -/
theorem agreeUpTo_operandUpTo {pattern : List Token} (h : IsBraced pattern) :
    AgreeUpTo (Operand.relabel erasePosition id)
      (operandUpTo (n + 1) .chain (nameInFront name x atSign colon pattern body))
      (operandUpTo (n + 1) .chain (nameBehind name x' atSign' colon' pattern body)) := by
  obtain ⟨brace, inside, rfl, hinside⟩ := h
  have hfront : opensPattern true (inside ++ ⟨.symbol .colon, colon⟩ :: body) = true := by
    rw [opensPattern, behindBraces_append hinside]
    rfl
  have hbehind : opensPattern false (inside ++ ⟨.symbol .atSign, atSign'⟩ ::
      ⟨.identifier name, x'⟩ :: ⟨.symbol .colon, colon'⟩ :: body) = true := by
    rw [opensPattern, behindBraces_append hinside]
    rfl
  have hlambda :=
    agreeUpTo_patternLambda (n := n) name x x' atSign' colon colon' body hinside brace
  refine agreeUpTo_operandWith rfl rfl rfl ?_
  simpa [nameInFront, nameBehind, skipTrivia, Token.isTrivia, termIn, primary, nameForm, hfront,
    hbehind] using hlambda

end Grammar

namespace Program

open Grammar

/-- **A name in front of a pattern and a name behind it say the same.** For any tokens in braces
and any tokens behind the colon, both spellings are read as the same tree, comments included, but
for the places in it, or both are refused for the same cause at tokens of the same kind. -/
theorem ofTokens_patternName (name : String) (x x' atSign atSign' colon colon' : Span)
    {pattern : List Token} (h : IsBraced pattern) (body : List Token) :
    (∃ p q, ofTokens (nameInFront name x atSign colon pattern body) = .ok p ∧
      ofTokens (nameBehind name x' atSign' colon' pattern body) = .ok q ∧
      p.body.relabel erasePosition id = q.body.relabel erasePosition id) ∨
    ∃ a b, ofTokens (nameInFront name x atSign colon pattern body) = .error a ∧
      ofTokens (nameBehind name x' atSign' colon' pattern body) = .error b ∧
      a.cause = b.cause ∧ a.token.kind = b.token.kind := by
  set ts := nameInFront name x atSign colon pattern body
  set us := nameBehind name x' atSign' colon' pattern body
  obtain ⟨n, hts, hus⟩ : ∃ n, countTokens ts = n + 1 ∧ countTokens us = n + 1 := by
    refine ⟨countTokens pattern + countTokens body + 2, ?_, ?_⟩
    all_goals
      simp [ts, us, nameInFront, nameBehind, countTokens_append, Token.count, TokenKind.innerCount]
      omega
  have hbody : AgreeUpTo _ (expression _ ts) (expression _ us) := agreeUpTo_expression
    (agreeUpTo_operandUpTo (n := n) name x x' atSign atSign' colon colon' body h)
  rw [ofTokens, ofTokens, hts, hus]
  rcases complete_cases hbody with ⟨e, e', he, he', heq⟩ | ⟨s, hs, hs'⟩
  · rw [he, he']
    exact .inl ⟨_, _, rfl, rfl, heq⟩
  · rw [hs, hs']
    refine .inr ⟨_, _, rfl, rfl, rfl, ?_⟩
    -- without a token the fault is at the end, wherever that is
    obtain ⟨cause, token⟩ := s
    cases token <;> rfl

/-- The tokens of `{ a ? {}, /* c */ ... }`: a pattern with braces in it. -/
def nestedPattern : List Token :=
  [⟨.symbol .openBrace, onFirstLine 0 1⟩, ⟨.identifier "a", onFirstLine 2 3⟩,
    ⟨.symbol .question, onFirstLine 4 5⟩, ⟨.symbol .openBrace, onFirstLine 6 7⟩,
    ⟨.symbol .closeBrace, onFirstLine 7 8⟩, ⟨.symbol .comma, onFirstLine 8 9⟩,
    ⟨.comment "c" true, onFirstLine 10 17⟩, ⟨.symbol .ellipsis, onFirstLine 18 21⟩,
    ⟨.symbol .closeBrace, onFirstLine 22 23⟩]

/-- Without an expression behind the colon, both spellings are refused at the end. -/
theorem ofTokens_patternName_nested :
    let pattern := nestedPattern
    let body := [⟨.identifier "a", onFirstLine 27 28⟩]
    IsBraced pattern ∧
    (∃ p q, ofTokens (nameInFront "x" default default default pattern body) = .ok p ∧
      ofTokens (nameBehind "x" (onFirstLine 24 25) (onFirstLine 23 24) (onFirstLine 25 26) pattern
        body) = .ok q ∧
      p.body.relabel erasePosition id = q.body.relabel erasePosition id) ∧
    ∃ a b, ofTokens (nameInFront "x" default default default pattern []) = .error a ∧
      ofTokens (nameBehind "x" (onFirstLine 24 25) (onFirstLine 23 24) (onFirstLine 25 26) pattern
        []) = .error b ∧
      a.cause = b.cause ∧ a.token.kind = b.token.kind := by
  intro pattern body
  have h : IsBraced pattern := ⟨_, _, rfl, rfl⟩
  have hp : ofTokens (nameInFront "x" default default default pattern body) = .ok _ := rfl
  have ha : ofTokens (nameInFront "x" default default default pattern []) = .error _ := rfl
  refine ⟨h, (ofTokens_patternName "x" _ _ _ _ _ _ h body).resolve_right ?_,
    (ofTokens_patternName "x" _ _ _ _ _ _ h []).resolve_left ?_⟩
  · rintro ⟨a, b, ha, -⟩
    cases hp.symm.trans ha
  · rintro ⟨p, q, hp, -⟩
    cases ha.symm.trans hp

end Program

end NixSyntax
