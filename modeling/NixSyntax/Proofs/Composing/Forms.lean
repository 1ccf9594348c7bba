import NixSyntax.Proofs.Composing.Extension

/-!
# Programs put together

Tokens that are a program on their own stay what they are as a part of a larger form. Each form here
is written down with all its places, and its tree has the trees of the parts in it, unchanged: with
their comments and with their places.

## The parts and what is around them

Each part is a list of tokens without an end of input that is a program on its own. Such a list is
the whole of one expression (`expression_of_ofTokens`), and in front of a token that closes it still
is (`expression_append_of_ofTokens`), with the same tree and nothing taken from what follows. So a
form with parts in it is read mark by mark, and each part in one step.

The bound for the depth of operands is one greater for the form than for its parts. All bounds that
suffice give the same tree, so this is not seen in the statements.

Two forms need a look ahead to be told apart, since a set and a pattern begin with the same brace. A
value may have braces of its own, and the look ahead passes them, as the braces of a program match
(`behindBraces_append_of_ofTokens`).

## Main definitions

* `Program.ofTerm`: a program that is one term without comments

## Main results

* `Grammar.expression_append_of_ofTokens`: a program in front of a closing token
* `Program.ofTokens_forms`: parentheses, choices, sets, `let` blocks and functions of programs
-/

namespace NixSyntax

/-- The program that is one term, with no clause and no comment at it. -/
def Program.ofTerm (t : Term) : Program := ⟨.operand ⟨[], [], [], t, t.span⟩, t.span⟩

namespace Grammar

variable {tail ts us rest : List Token} {n : Nat} {p : Program}

/-! ### One term

A term with nothing around it, from the rules for terms up to a program. -/

/-- In front of a term there are no trivia and no clause. -/
theorem ReadsTerm.clause_eq {operand : Context → Rule Operand} {ctx : Context} {t : Term}
    (h : ReadsTerm operand ctx ts t rest) :
    skipTrivia ts = ts ∧ clause operand ts = .ok (none, ts) := by
  cases h <;> exact ⟨rfl, rfl⟩

/-- Where the tokens have ended, nothing goes on. -/
theorem not_ahead_of_atEnd (h : atEnd rest = true) :
    skipTrivia rest = rest ∧ commentsAhead rest = [] ∧ argumentAhead rest = false ∧
      ∀ t us, rest = t :: us → t.binaryOp? = none := by
  rcases rest with _ | ⟨⟨kind, span⟩, us⟩
  · exact ⟨rfl, rfl, rfl, nofun⟩
  · cases kind <;> first | exact ⟨rfl, rfl, rfl, by rintro _ _ ⟨⟩; rfl⟩ | cases h

/-- An operand behind which the tokens end is a program. -/
theorem ofTokens_of_operand {o : Operand} (h : operandUpTo n .chain ts = .ok (o, rest))
    (hend : atEnd rest = true) : Program.ofTokens ts = .ok ⟨.operand o, o.span⟩ := by
  obtain ⟨-, -, -, hlink⟩ := not_ahead_of_atEnd hend
  have hlinks := (repeated_eq_ok_iff (repeatable_link (advances_operandUpTo n))).mpr
    ⟨.nil, link_eq_none_iff.mpr ⟨rfl, hlink⟩⟩
  have hcomplete : complete (operandUpTo n) ts = .ok (.operand o) :=
    complete_eq_ok_iff.mpr ⟨rest, expression_eq_ok_iff.mpr ⟨o, rest, h, [], hlinks, rfl⟩, hend⟩
  exact Program.ofTokens_eq_ok_iff.mpr ⟨_, complete_operandUpTo (Nat.le_refl _) hcomplete, rfl⟩

/-- A term behind which the tokens end is a program. -/
theorem ofTokens_of_readsTerm {t : Term} (h : ReadsTerm (operandUpTo n) .chain ts t rest)
    (hend : atEnd rest = true) : Program.ofTokens ts = .ok (.ofTerm t) := by
  have hadv := advances_operandUpTo n
  obtain ⟨htrivia, hcomments, hargument, -⟩ := not_ahead_of_atEnd hend
  obtain ⟨hts, hclause⟩ := h.clause_eq
  have hclauses := (repeated_eq_ok_iff (repeatable_clause hadv)).mpr ⟨.nil, hclause⟩
  have hoperand : operandUpTo (n + 1) .chain ts = .ok (⟨[], [], [], t, t.span⟩, rest) := by
    refine operandWith_eq_ok_iff.mpr ⟨[], ts, hclauses, t, rest, ?_, t, rest,
      withArguments_of_ahead hadv t hargument, htrivia.symm, ?_⟩
    · rw [hts]
      exact termIn_eq_ok_iff.mpr h
    · rw [hcomments, ← hts, commentsAhead_skipTrivia]
      rfl
  exact ofTokens_of_operand hoperand hend

/-! ### A program as a part

Without an end of input, all tokens of a program are those of its expression. -/

/-- A program that has no end of input in it takes all its tokens. -/
theorem expression_of_ofTokens (h : Program.ofTokens ts = .ok p)
    (hts : ∀ t ∈ ts, t.isEnd = false) (hn : countTokens ts ≤ n) :
    expression (operandUpTo n) ts = .ok (p.body, []) := by
  obtain ⟨rest, he, hend⟩ := complete_eq_ok_iff.mp
    (complete_operandUpTo hn (Program.complete_of_ofTokens h))
  obtain ⟨front, rfl, -, -⟩ := leaves_expression (advances_operandUpTo n) he
  cases rest with
  | nil => exact he
  | cons t us =>
    have ht : t.isEnd = false := hts t (by simp)
    rw [atEnd, ht] at hend
    cases hend

/-- **A program in front of a closing token** is read as the same expression, up to that token. -/
theorem expression_append_of_ofTokens (h : Program.ofTokens ts = .ok p)
    (hts : ∀ t ∈ ts, t.isEnd = false) (hn : countTokens ts ≤ n) (hc : Closing tail) :
    expression (operandUpTo n) (ts ++ tail) = .ok (p.body, tail) :=
  extends_expression hc (extends_operandUpTo hc n) (expression_of_ofTokens h hts hn) rfl

/-- The braces of a program match. -/
theorem behindBraces_append_of_ofTokens (h : Program.ofTokens ts = .ok p)
    (hts : ∀ t ∈ ts, t.isEnd = false) (hc : Closing tail) (depth : Nat) :
    behindBraces depth (ts ++ tail) = behindBraces depth tail :=
  (makes_expression (fun _ _ _ _ => makes_operandUpTo _)
    (expression_append_of_ofTokens h hts (Nat.le_refl _) hc)).level depth

/-! ### A name with its value

The two places in braces where a program stands behind a name: the value of a binding, and the
default of an attribute. -/

section

variable {name : String} {at_ : Span}

/-- A plain name that no dot follows. -/
theorem attrPath_name (h : ∀ dot us, ts ≠ ⟨.symbol .dot, dot⟩ :: us) :
    attrPath (operandUpTo n) (⟨.identifier name, at_⟩ :: ts) = .ok (⟨[.name name], [], at_⟩, ts) :=
  attrPath_eq_ok_iff.mpr ⟨.name name, at_, ts, .name, [],
    (repeated_eq_ok_iff repeatable_dottedSegment).mpr
      ⟨.nil, dottedSegment_eq_none_iff.mpr ⟨rfl, h⟩⟩, rfl⟩

/-- One binding whose value is a program, and no further one. -/
theorem bindings_of_ofTokens {closed : List Token → Bool} {assign semicolon : Span}
    (h : Program.ofTokens ts = .ok p) (hts : ∀ t ∈ ts, t.isEnd = false) (hn : countTokens ts ≤ n)
    (hopen : closed (⟨.identifier name, at_⟩ :: ⟨.symbol .assign, assign⟩ ::
      (ts ++ ⟨.symbol .semicolon, semicolon⟩ :: rest)) = false)
    (hclosed : closed rest = true) :
    repeated (bindingUnless (operandUpTo n) closed) (⟨.identifier name, at_⟩ ::
        ⟨.symbol .assign, assign⟩ :: (ts ++ ⟨.symbol .semicolon, semicolon⟩ :: rest)) =
      .ok ([.assign ⟨[.name name], [], at_⟩ p.body [] (at_.join semicolon)], rest) := by
  have hname : attrPath (operandUpTo n) (⟨.identifier name, at_⟩ :: ⟨.symbol .assign, assign⟩ ::
      (ts ++ ⟨.symbol .semicolon, semicolon⟩ :: rest)) = .ok (⟨[.name name], [], at_⟩, _) :=
    attrPath_name (by simp)
  have hvalue : expression (operandUpTo n) (ts ++ ⟨.symbol .semicolon, semicolon⟩ :: rest) =
      .ok (p.body, ⟨.symbol .semicolon, semicolon⟩ :: rest) :=
    expression_append_of_ofTokens h hts hn ⟨_, _, rfl, rfl⟩
  have hassignment : assignment (operandUpTo n) [] (⟨.identifier name, at_⟩ ::
      ⟨.symbol .assign, assign⟩ :: (ts ++ ⟨.symbol .semicolon, semicolon⟩ :: rest)) =
      .ok (.assign ⟨[.name name], [], at_⟩ p.body [] (at_.join semicolon), rest) :=
    assignment_eq_ok_iff.mpr ⟨_, _, hname, assign, _, expectSymbol_eq_ok_iff.mpr rfl, _, _, hvalue,
      semicolon, expectSymbol_eq_ok_iff.mpr rfl, rfl⟩
  have hbinding := bindingUnless_eq_some_iff.mpr
    ⟨rfl, hopen, binding_eq_ok_iff.mpr (.inr ⟨rfl, hassignment⟩)⟩
  exact (repeated_eq_ok_iff (repeatable_bindingUnless (advances_operandUpTo n))).mpr
    ⟨.cons hbinding .nil, bindingUnless_eq_none_iff.mpr ⟨rfl, .inr hclosed⟩⟩

/-- An attribute of a pattern whose fallback is a program. -/
theorem formal_of_ofTokens {question : Span} (h : Program.ofTokens ts = .ok p)
    (hts : ∀ t ∈ ts, t.isEnd = false) (hn : countTokens ts ≤ n) (hc : Closing tail) :
    formal (operandUpTo n) [] (⟨.identifier name, at_⟩ :: ⟨.symbol .question, question⟩ ::
        (ts ++ tail)) =
      .ok (⟨⟨[.name name], [], at_⟩, some p.body, [], at_.join p.body.span⟩, tail) := by
  have hname : attrPath (operandUpTo n) (⟨.identifier name, at_⟩ ::
      ⟨.symbol .question, question⟩ :: (ts ++ tail)) = .ok (⟨[.name name], [], at_⟩, _) :=
    attrPath_name (by simp)
  exact formal_eq_ok_iff.mpr ⟨_, _, hname, .inl ⟨question, _, _, rfl,
    expression_append_of_ofTokens h hts hn hc, rfl⟩⟩

end

end Grammar

/-! ### Forms

Each with all of its places free. The whole of a form stands from its first token to its last. -/

namespace Program

open Grammar

variable {ts₁ ts₂ ts₃ : List Token} {p₁ p₂ p₃ : Program}

section

variable (h₁ : ofTokens ts₁ = .ok p₁) (hts₁ : ∀ t ∈ ts₁, t.isEnd = false)
include h₁ hts₁

theorem ofTokens_paren (open_ close : Span) :
    ofTokens (⟨.symbol .openParen, open_⟩ :: (ts₁ ++ [⟨.symbol .closeParen, close⟩])) =
      .ok (.ofTerm (.paren p₁.body (open_.join close))) := by
  have hc : Closing [⟨.symbol .closeParen, close⟩] := ⟨_, _, rfl, rfl⟩
  have hbody := expression_append_of_ofTokens h₁ hts₁ (Nat.le_refl _) hc
  exact ofTokens_of_readsTerm (.paren (paren_eq_ok_iff.mpr
    ⟨_, _, hbody, close, expectSymbol_eq_ok_iff.mpr rfl, rfl⟩)) rfl

/-- A set with one binding is no pattern: nothing follows its closing brace. -/
theorem ofTokens_attrSet (name : String) (open_ at_ assign semicolon close : Span) :
    ofTokens (⟨.symbol .openBrace, open_⟩ :: ⟨.identifier name, at_⟩ ::
      ⟨.symbol .assign, assign⟩ :: (ts₁ ++ [⟨.symbol .semicolon, semicolon⟩,
        ⟨.symbol .closeBrace, close⟩])) =
      .ok (.ofTerm (.attrSet false
        [.assign ⟨[.name name], [], at_⟩ p₁.body [] (at_.join semicolon)] []
        (open_.join close))) := by
  have hc : Closing [⟨.symbol .semicolon, semicolon⟩, ⟨.symbol .closeBrace, close⟩] :=
    ⟨_, _, rfl, rfl⟩
  refine ofTokens_of_readsTerm (.attrSet ?_ (attrSet_eq_ok_iff.mpr
    ⟨_, _, bindings_of_ofTokens h₁ hts₁ (Nat.le_refl _) rfl rfl, close,
      expectSymbol_eq_ok_iff.mpr rfl, rfl⟩)) rfl
  rw [opensPattern, behindBraces_cons rfl, behindBraces_cons rfl,
    behindBraces_append_of_ofTokens h₁ hts₁ hc]
  rfl

theorem ofTokens_lambda (name : String) (at_ colon : Span) :
    ofTokens (⟨.identifier name, at_⟩ :: ⟨.symbol .colon, colon⟩ :: ts₁) =
      .ok (.ofTerm (.lambda (.named ⟨[.name name], [], at_⟩) p₁.body
        (at_.join p₁.body.span))) :=
  ofTokens_of_readsTerm (.lambda (lambda_eq_ok_iff.mpr
    ⟨_, expression_of_ofTokens h₁ hts₁ (Nat.le_refl _), rfl⟩)) rfl

variable (h₂ : ofTokens ts₂ = .ok p₂) (hts₂ : ∀ t ∈ ts₂, t.isEnd = false)
include h₂ hts₂

/-- A `let` with one binding. The value ends in front of its semicolon, and the body with the
tokens. -/
theorem ofTokens_letIn (name : String) (let_ at_ assign semicolon in_ : Span) :
    ofTokens (⟨.keyword .let_, let_⟩ :: ⟨.identifier name, at_⟩ :: ⟨.symbol .assign, assign⟩ ::
      (ts₁ ++ ⟨.symbol .semicolon, semicolon⟩ :: ⟨.keyword .in_, in_⟩ :: ts₂)) =
      .ok (.ofTerm (.letIn [.assign ⟨[.name name], [], at_⟩ p₁.body [] (at_.join semicolon)] []
        p₂.body (let_.join p₂.body.span))) := by
  have hbody := expression_of_ofTokens h₂ hts₂ (Nat.le_add_left _ (countTokens ts₁))
  have hn := Nat.le_add_right (countTokens ts₁) (countTokens ts₂)
  exact ofTokens_of_readsTerm (.letIn (letIn_eq_ok_iff.mpr
    ⟨_, _, bindings_of_ofTokens h₁ hts₁ hn rfl rfl, in_, ts₂, expectKeyword_eq_ok_iff.mpr rfl, _,
      hbody, rfl⟩)) rfl

/-- A pattern with one attribute and a comma behind it. The colon behind its closing brace tells it
from a set. -/
theorem ofTokens_patternLambda (name : String) (open_ at_ question comma close colon : Span) :
    ofTokens (⟨.symbol .openBrace, open_⟩ :: ⟨.identifier name, at_⟩ ::
      ⟨.symbol .question, question⟩ :: (ts₁ ++ ⟨.symbol .comma, comma⟩ ::
        ⟨.symbol .closeBrace, close⟩ :: ⟨.symbol .colon, colon⟩ :: ts₂)) =
      .ok (.ofTerm (.lambda (.pattern
        [⟨⟨[.name name], [], at_⟩, some p₁.body, [], at_.join p₁.body.span⟩] false none []
        (open_.join close)) p₂.body ((open_.join close).join p₂.body.span))) := by
  have hc : Closing (⟨.symbol .comma, comma⟩ :: ⟨.symbol .closeBrace, close⟩ ::
    ⟨.symbol .colon, colon⟩ :: ts₂) := ⟨_, _, rfl, rfl⟩
  have hn := Nat.le_add_right (countTokens ts₁) (countTokens ts₂)
  have hbody : ReadsPattern (operandUpTo (countTokens ts₁ + countTokens ts₂))
      (⟨.identifier name, at_⟩ :: ⟨.symbol .question, question⟩ ::
        (ts₁ ++ ⟨.symbol .comma, comma⟩ :: ⟨.symbol .closeBrace, close⟩ ::
          ⟨.symbol .colon, colon⟩ :: ts₂)) _ _ :=
    .comma (formal_of_ofTokens h₁ hts₁ hn hc) (.closed rfl)
  have hresult := expression_of_ofTokens h₂ hts₂ (Nat.le_add_left _ (countTokens ts₁))
  have hlambda : patternLambda (operandUpTo (countTokens ts₁ + countTokens ts₂)) none open_ _ =
      .ok (_, []) := patternLambda_eq_ok_iff.mpr
    ⟨_, _, (patternBody_eq_ok_iff (advances_operandUpTo _)).mpr hbody, close, _,
      expectSymbol_eq_ok_iff.mpr rfl, none, open_.join close, [], ⟨.symbol .colon, colon⟩ :: ts₂,
      rfl, colon, ts₂, expectSymbol_eq_ok_iff.mpr rfl, _, hresult, rfl⟩
  exact ofTokens_of_readsTerm (.pattern (opensPattern_of_patternLambda hlambda) hlambda) rfl

variable (h₃ : ofTokens ts₃ = .ok p₃) (hts₃ : ∀ t ∈ ts₃, t.isEnd = false)
include h₃ hts₃

theorem ofTokens_conditional (if_ then_ else_ : Span) :
    ofTokens (⟨.keyword .if_, if_⟩ :: (ts₁ ++ ⟨.keyword .then_, then_⟩ ::
      (ts₂ ++ ⟨.keyword .else_, else_⟩ :: ts₃))) =
      .ok (.ofTerm (.conditional p₁.body p₂.body p₃.body (if_.join p₃.body.span))) := by
  have hthen : Closing (⟨.keyword .then_, then_⟩ :: (ts₂ ++ ⟨.keyword .else_, else_⟩ :: ts₃)) :=
    ⟨_, _, rfl, rfl⟩
  have helse : Closing (⟨.keyword .else_, else_⟩ :: ts₃) := ⟨_, _, rfl, rfl⟩
  obtain ⟨n, hn₁, hn₂, hn₃⟩ :
      ∃ n, countTokens ts₁ ≤ n ∧ countTokens ts₂ ≤ n ∧ countTokens ts₃ ≤ n :=
    ⟨countTokens ts₁ + countTokens ts₂ + countTokens ts₃, by omega, by omega, by omega⟩
  exact ofTokens_of_readsTerm (.conditional (conditional_eq_ok_iff.mpr
    ⟨_, _, expression_append_of_ofTokens h₁ hts₁ hn₁ hthen, then_, _,
      expectKeyword_eq_ok_iff.mpr rfl, _, _, expression_append_of_ofTokens h₂ hts₂ hn₂ helse, else_,
      ts₃, expectKeyword_eq_ok_iff.mpr rfl, _, expression_of_ofTokens h₃ hts₃ hn₃, rfl⟩)) rfl

/-- **Programs are put together from programs.** Three lists of tokens that are programs on their
own, put between the marks and keywords of a form, are that form, and the three trees are in its
tree as they are. -/
theorem ofTokens_forms (name : String) (x a b c d e : Span) :
    ofTokens (⟨.symbol .openParen, a⟩ :: (ts₁ ++ [⟨.symbol .closeParen, b⟩])) =
      .ok (.ofTerm (.paren p₁.body (a.join b))) ∧
    ofTokens (⟨.keyword .if_, a⟩ :: (ts₁ ++ ⟨.keyword .then_, b⟩ ::
      (ts₂ ++ ⟨.keyword .else_, c⟩ :: ts₃))) =
      .ok (.ofTerm (.conditional p₁.body p₂.body p₃.body (a.join p₃.body.span))) ∧
    ofTokens (⟨.symbol .openBrace, a⟩ :: ⟨.identifier name, x⟩ :: ⟨.symbol .assign, b⟩ ::
      (ts₁ ++ [⟨.symbol .semicolon, c⟩, ⟨.symbol .closeBrace, d⟩])) =
      .ok (.ofTerm (.attrSet false [.assign ⟨[.name name], [], x⟩ p₁.body [] (x.join c)] []
        (a.join d))) ∧
    ofTokens (⟨.keyword .let_, a⟩ :: ⟨.identifier name, x⟩ :: ⟨.symbol .assign, b⟩ ::
      (ts₁ ++ ⟨.symbol .semicolon, c⟩ :: ⟨.keyword .in_, d⟩ :: ts₂)) =
      .ok (.ofTerm (.letIn [.assign ⟨[.name name], [], x⟩ p₁.body [] (x.join c)] [] p₂.body
        (a.join p₂.body.span))) ∧
    ofTokens (⟨.identifier name, x⟩ :: ⟨.symbol .colon, a⟩ :: ts₁) =
      .ok (.ofTerm (.lambda (.named ⟨[.name name], [], x⟩) p₁.body (x.join p₁.body.span))) ∧
    ofTokens (⟨.symbol .openBrace, a⟩ :: ⟨.identifier name, x⟩ :: ⟨.symbol .question, b⟩ ::
      (ts₁ ++ ⟨.symbol .comma, c⟩ :: ⟨.symbol .closeBrace, d⟩ :: ⟨.symbol .colon, e⟩ :: ts₂)) =
      .ok (.ofTerm (.lambda (.pattern
        [⟨⟨[.name name], [], x⟩, some p₁.body, [], x.join p₁.body.span⟩] false none [] (a.join d))
        p₂.body ((a.join d).join p₂.body.span))) :=
  ⟨ofTokens_paren h₁ hts₁ a b, ofTokens_conditional h₁ hts₁ h₂ hts₂ h₃ hts₃ a b c,
    ofTokens_attrSet h₁ hts₁ name a x b c d, ofTokens_letIn h₁ hts₁ h₂ hts₂ name a x b c d,
    ofTokens_lambda h₁ hts₁ name x a, ofTokens_patternLambda h₁ hts₁ h₂ hts₂ name a x b c d e⟩

end

/-- The tokens of `f /* c */ {}`: a call with a comment in it. -/
def callTokens : List Token :=
  [⟨.identifier "f", onFirstLine 0 1⟩, ⟨.comment "c" true, onFirstLine 2 9⟩,
    ⟨.symbol .openBrace, onFirstLine 10 11⟩, ⟨.symbol .closeBrace, onFirstLine 11 12⟩]

/-- The braces of the call do not close the set or the pattern around it. -/
theorem ofTokens_forms_callTokens :
    ∃ p, ofTokens callTokens = .ok p ∧ (∀ t ∈ callTokens, t.isEnd = false) ∧
      ofTokens (⟨.symbol .openBrace, default⟩ :: ⟨.identifier "x", default⟩ ::
        ⟨.symbol .assign, default⟩ :: (callTokens ++
          [⟨.symbol .semicolon, default⟩, ⟨.symbol .closeBrace, default⟩])) =
        .ok (.ofTerm (.attrSet false
          [.assign ⟨[.name "x"], [], default⟩ p.body [] default] [] default)) ∧
      ofTokens (⟨.symbol .openBrace, default⟩ :: ⟨.identifier "x", default⟩ ::
        ⟨.symbol .question, default⟩ :: (callTokens ++ ⟨.symbol .comma, default⟩ ::
          ⟨.symbol .closeBrace, default⟩ :: ⟨.symbol .colon, default⟩ :: callTokens)) =
        .ok (.ofTerm (.lambda (.pattern [⟨⟨[.name "x"], [], default⟩, some p.body, [],
          Span.join default p.body.span⟩] false none [] default) p.body
          (Span.join default p.body.span))) := by
  have hp : ofTokens callTokens = .ok _ := rfl
  have hts : ∀ t ∈ callTokens, t.isEnd = false := by decide
  obtain ⟨-, -, hset, -, -, hpattern⟩ := ofTokens_forms hp hts hp hts hp hts "x" default default
    default default default default
  exact ⟨_, hp, hts, hset, hpattern⟩

end Program

end NixSyntax
