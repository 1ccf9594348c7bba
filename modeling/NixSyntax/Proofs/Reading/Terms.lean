import NixSyntax.Proofs.Reading.Forms
import NixSyntax.Proofs.Tree.Relabel

/-!
# What a rule that succeeds has read: terms and operands

The lemmas of `Proofs.Reading.Forms` for the rules that choose between forms, and for the operand
with all that belongs to it.

## The forms of a term

The rule for a term looks at the first token, and where this is not enough, at the tokens behind it.
`ReadsTerm` has one constructor for each outcome of these looks. Its arguments say what was seen and
which rule was applied, and no constructor mentions the order of the tests: what excludes the other
forms is stated where it is needed. A name may not be followed by a colon or by a pattern, a set may
not be a pattern, and a minus sign may not be followed by a number.

## Operands

An operand is clauses, a term, arguments where the term can have some, and comments on both sides.
In which contexts it has arguments is decided here too, and given a name (`withArguments`), since
many proofs pass through it.

## Main definitions

* `ReadsTerm`: the forms of a term, by the tokens that tell them apart
* `withArguments`: a term with arguments, where it can have some
-/

namespace NixSyntax

namespace Grammar

variable {operand : Context → Rule Operand} {ts rest : List Token}

/-! ### Forms of a term

Each form is read from behind its first token, whose place is handed on. -/

/-- An expression up to the closing parenthesis. -/
theorem paren_eq_ok_iff {start : Span} {t : Term} :
    paren operand start ts = .ok (t, rest) ↔
      ∃ body mid, expression operand ts = .ok (body, mid) ∧
      ∃ stop, expectSymbol .closeParen mid = .ok (stop, rest) ∧
        .paren body (start.join stop) = t := by
  simp only [paren, bind_eq_ok_iff, pure_eq_ok_iff, Prod.exists, Prod.mk.injEq,
    exists_eq_right_right]

/-- An operand, unless the bracket or the end is ahead. -/
theorem item_eq_some_iff {o : Operand} :
    item operand ts = .ok (some o, rest) ↔
      atEnd (skipTrivia ts) = false ∧ nextIsSymbol .closeBracket ts = false ∧
        operand .single ts = .ok (o, rest) := by
  simp only [item, roundUnless_eq_some_iff, bind_eq_ok_iff, pure_eq_ok_iff, Prod.exists,
    Prod.mk.injEq, Option.some.injEq, exists_eq_right_right, exists_eq_right]

theorem item_eq_none_iff :
    item operand ts = .ok (none, rest) ↔
      rest = ts ∧ (atEnd (skipTrivia ts) = true ∨ nextIsSymbol .closeBracket ts = true) := by
  rw [item]
  exact roundUnless_eq_none_iff (by simp [bind_eq_ok_iff, pure_eq_ok_iff, -bind_pure_comp])

theorem stop_item (h : item operand ts = .ok (none, rest)) : rest = ts :=
  (item_eq_none_iff.mp h).1

/-- Items up to the closing bracket. Comments are passed on between them. -/
theorem list_eq_ok_iff {start : Span} {t : Term} :
    list operand start ts = .ok (t, rest) ↔
      ∃ items mid, repeated (item operand) ts = .ok (items, mid) ∧
      ∃ stop, expectSymbol .closeBracket (skipTrivia mid) = .ok (stop, rest) ∧
        .list ((passOnComments [] items).map .operand) (commentsAhead mid)
          (start.join stop) = t := by
  simp only [list, bind_eq_ok_iff, pure_eq_ok_iff, Prod.exists, Prod.mk.injEq,
    exists_eq_right_right]

/-- Three expressions, with a keyword behind each of the first two. -/
theorem conditional_eq_ok_iff {start : Span} {t : Term} :
    conditional operand start ts = .ok (t, rest) ↔
      ∃ condition ts₁, expression operand ts = .ok (condition, ts₁) ∧
      ∃ s₁ ts₂, expectKeyword .then_ ts₁ = .ok (s₁, ts₂) ∧
      ∃ consequence ts₃, expression operand ts₂ = .ok (consequence, ts₃) ∧
      ∃ s₂ ts₄, expectKeyword .else_ ts₃ = .ok (s₂, ts₄) ∧
      ∃ alternative, expression operand ts₄ = .ok (alternative, rest) ∧
        .conditional condition consequence alternative (start.join alternative.span) = t := by
  simp only [conditional, bind_eq_ok_iff, pure_eq_ok_iff, Prod.exists, Prod.mk.injEq,
    exists_eq_right_right]

/-- An operand that takes no arguments. -/
theorem importOf_eq_ok_iff {start : Span} {t : Term} :
    importOf operand start ts = .ok (t, rest) ↔
      ∃ source, operand .single ts = .ok (source, rest) ∧
        .import_ (.operand source) (start.join source.span) = t := by
  simp only [importOf, bind_eq_ok_iff, pure_eq_ok_iff, Prod.exists, Prod.mk.injEq,
    exists_eq_right_right]

/-- An operand in the same context. -/
theorem unary_eq_ok_iff {ctx : Context} {op : UnaryOp} {start : Span} {t : Term} :
    unary operand ctx op start ts = .ok (t, rest) ↔
      ∃ o, operand ctx ts = .ok (o, rest) ∧
        .unary op (.operand o) (start.join o.span) = t := by
  simp only [unary, bind_eq_ok_iff, pure_eq_ok_iff, Prod.exists, Prod.mk.injEq,
    exists_eq_right_right]

/-- A term, by the tokens that tell its form. -/
inductive ReadsTerm (operand : Context → Rule Operand) (ctx : Context) :
    List Token → Term → List Token → Prop
  | null {span : Span} {ts : List Token} :
      ReadsTerm operand ctx (⟨.null, span⟩ :: ts) (.null span) ts
  | bool {value : Bool} {span : Span} {ts : List Token} :
      ReadsTerm operand ctx (⟨.bool value, span⟩ :: ts) (.bool value span) ts
  | int {value : Int64} {span : Span} {ts : List Token} :
      ReadsTerm operand ctx (⟨.int value, span⟩ :: ts) (.int value span) ts
  | float {value : Float} {span : Span} {ts : List Token} :
      ReadsTerm operand ctx (⟨.float value, span⟩ :: ts) (.float value span) ts
  /-- A minus sign directly in front of a whole number. -/
  | negativeInt {value : Int64} {start stop : Span} {ts : List Token} :
      ReadsTerm operand ctx (⟨.symbol .minus, start⟩ :: ⟨.int value, stop⟩ :: ts)
        (.int (-value) (start.join stop)) ts
  /-- A minus sign directly in front of a number with a fraction. -/
  | negativeFloat {value : Float} {start stop : Span} {ts : List Token} :
      ReadsTerm operand ctx (⟨.symbol .minus, start⟩ :: ⟨.float value, stop⟩ :: ts)
        (.float (-value) (start.join stop)) ts
  | path {value : String} {span : Span} {ts : List Token} :
      ReadsTerm operand ctx (⟨.path value, span⟩ :: ts) (.path value span) ts
  | string {fragments : List StringFragment} {multiline : Bool} {span : Span} {ts : List Token}
      {literal : StringLiteral}
      (literal_eq : stringOf operand fragments multiline span = .ok literal) :
      ReadsTerm operand ctx (⟨.string fragments multiline, span⟩ :: ts) (.string literal) ts
  | interpolation {tokens : List Token} {span : Span} {ts : List Token}
      {content : Interpolation} (content_eq : interpolationOf operand tokens span = .ok content) :
      ReadsTerm operand ctx (⟨.interpolation tokens, span⟩ :: ts) (.interpolation content) ts
  /-- A name that no colon and no pattern makes the argument of a function. -/
  | name {name : String} {span : Span} {ts rest : List Token} {p : AttrPath}
      (no_colon : ∀ colon us, ts ≠ ⟨.symbol .colon, colon⟩ :: us)
      (no_pattern : ∀ atSign start us,
        ts = ⟨.symbol .atSign, atSign⟩ :: ⟨.symbol .openBrace, start⟩ :: us →
          opensPattern true us = false)
      (path_eq : attrPath operand (⟨.identifier name, span⟩ :: ts) = .ok (p, rest)) :
      ReadsTerm operand ctx (⟨.identifier name, span⟩ :: ts) (.name p) rest
  | list {start : Span} {ts rest : List Token} {t : Term}
      (list_eq : list operand start ts = .ok (t, rest)) :
      ReadsTerm operand ctx (⟨.symbol .openBracket, start⟩ :: ts) t rest
  | attrSet {start : Span} {ts rest : List Token} {t : Term}
      (no_pattern : opensPattern false ts = false)
      (attrSet_eq : attrSet operand false start ts = .ok (t, rest)) :
      ReadsTerm operand ctx (⟨.symbol .openBrace, start⟩ :: ts) t rest
  | recursive {start brace : Span} {ts us rest : List Token} {t : Term}
      (brace_eq : expectSymbol .openBrace ts = .ok (brace, us))
      (attrSet_eq : attrSet operand true start us = .ok (t, rest)) :
      ReadsTerm operand ctx (⟨.keyword .rec_, start⟩ :: ts) t rest
  | lambda {name : String} {span colon : Span} {ts rest : List Token} {t : Term}
      (lambda_eq : lambda operand ⟨[.name name], [], span⟩ ts = .ok (t, rest)) :
      ReadsTerm operand ctx (⟨.identifier name, span⟩ :: ⟨.symbol .colon, colon⟩ :: ts) t rest
  | pattern {start : Span} {ts rest : List Token} {t : Term}
      (opens : opensPattern false ts = true)
      (lambda_eq : patternLambda operand none start ts = .ok (t, rest)) :
      ReadsTerm operand ctx (⟨.symbol .openBrace, start⟩ :: ts) t rest
  /-- A pattern with a name in front of it. -/
  | namedPattern {name : String} {span atSign start : Span} {ts rest : List Token} {t : Term}
      (opens : opensPattern true ts = true)
      (lambda_eq : patternLambda operand (some ⟨[.name name], [], span⟩) start ts =
        .ok (t, rest)) :
      ReadsTerm operand ctx (⟨.identifier name, span⟩ :: ⟨.symbol .atSign, atSign⟩ ::
        ⟨.symbol .openBrace, start⟩ :: ts) t rest
  | letIn {start : Span} {ts rest : List Token} {t : Term}
      (letIn_eq : letIn operand start ts = .ok (t, rest)) :
      ReadsTerm operand ctx (⟨.keyword .let_, start⟩ :: ts) t rest
  | import_ {start : Span} {ts rest : List Token} {t : Term}
      (import_eq : importOf operand start ts = .ok (t, rest)) :
      ReadsTerm operand ctx (⟨.keyword .import_, start⟩ :: ts) t rest
  | conditional {start : Span} {ts rest : List Token} {t : Term}
      (conditional_eq : conditional operand start ts = .ok (t, rest)) :
      ReadsTerm operand ctx (⟨.keyword .if_, start⟩ :: ts) t rest
  | not {start : Span} {ts rest : List Token} {t : Term}
      (unary_eq : unary operand ctx .not start ts = .ok (t, rest)) :
      ReadsTerm operand ctx (⟨.symbol .bang, start⟩ :: ts) t rest
  /-- A minus sign that no number follows directly. -/
  | negate {start : Span} {ts rest : List Token} {t : Term}
      (no_int : ∀ value stop us, ts ≠ ⟨.int value, stop⟩ :: us)
      (no_float : ∀ value stop us, ts ≠ ⟨.float value, stop⟩ :: us)
      (unary_eq : unary operand ctx .negate start ts = .ok (t, rest)) :
      ReadsTerm operand ctx (⟨.symbol .minus, start⟩ :: ts) t rest
  | paren {start : Span} {ts rest : List Token} {t : Term}
      (paren_eq : paren operand start ts = .ok (t, rest)) :
      ReadsTerm operand ctx (⟨.symbol .openParen, start⟩ :: ts) t rest

/-- Behind a name: a colon, a pattern, or what goes on with the name. -/
theorem readsTerm_of_nameForm {ctx : Context} {name : String} {span : Span} {t : Term}
    (h : nameForm operand name span ts = .ok (t, rest)) :
    ReadsTerm operand ctx (⟨.identifier name, span⟩ :: ts) t rest := by
  unfold nameForm at h
  split at h
  · exact .lambda h
  · next atSign start us =>
    split at h
    · next hopens => exact .namedPattern hopens h
    · next hopens =>
      simp only [bind_eq_ok_iff, pure_eq_ok_iff, Prod.exists, Prod.mk.injEq] at h
      obtain ⟨p, _, hp, rfl, rfl⟩ := h
      refine .name (by simp) (fun _ _ us' hus => ?_) hp
      simp only [List.cons.injEq] at hus
      rw [← hus.2.2]
      simpa using hopens
  · next hcolon hat =>
    simp only [bind_eq_ok_iff, pure_eq_ok_iff, Prod.exists, Prod.mk.injEq] at h
    obtain ⟨p, _, hp, rfl, rfl⟩ := h
    exact .name hcolon (fun _ _ _ hus => absurd hus (hat _ _ _)) hp

/-- Of the keywords, those that begin a form. -/
theorem readsTerm_of_keywordForm {ctx : Context} {k : Keyword} {span : Span} {t : Term}
    (h : keywordForm operand k span ts = .ok (t, rest)) :
    ReadsTerm operand ctx (⟨.keyword k, span⟩ :: ts) t rest := by
  cases k with
  | let_ => exact .letIn h
  | import_ => exact .import_ h
  | if_ => exact .conditional h
  | rec_ =>
    simp only [keywordForm, bind_eq_ok_iff, Prod.exists] at h
    obtain ⟨brace, us, hbrace, hset⟩ := h
    exact .recursive hbrace hset
  | _ => simp [keywordForm] at h

/-- Everything but a sign. -/
theorem readsTerm_of_primary {ctx : Context} {t : Term}
    (h : primary operand ts = .ok (t, rest)) : ReadsTerm operand ctx ts t rest := by
  unfold primary at h
  split at h
  · obtain ⟨rfl, rfl⟩ := by simpa using h
    exact .null
  · obtain ⟨rfl, rfl⟩ := by simpa using h
    exact .bool
  · obtain ⟨rfl, rfl⟩ := by simpa using h
    exact .int
  · obtain ⟨rfl, rfl⟩ := by simpa using h
    exact .float
  · obtain ⟨rfl, rfl⟩ := by simpa using h
    exact .path
  · simp only [bind_eq_ok_iff, pure_eq_ok_iff, Prod.mk.injEq] at h
    obtain ⟨literal, hl, rfl, rfl⟩ := h
    exact .string hl
  · simp only [bind_eq_ok_iff, pure_eq_ok_iff, Prod.mk.injEq] at h
    obtain ⟨content, hc, rfl, rfl⟩ := h
    exact .interpolation hc
  · exact .list h
  · split at h
    · next hopens => exact .pattern hopens h
    · next hopens => exact .attrSet (by simpa using hopens) h
  · exact .paren h
  · exact readsTerm_of_nameForm h
  · exact readsTerm_of_keywordForm h
  · simp at h

/-- **The forms of a term.** -/
theorem termIn_eq_ok_iff {ctx : Context} {t : Term} :
    termIn operand ctx ts = .ok (t, rest) ↔ ReadsTerm operand ctx ts t rest := by
  constructor
  · intro h
    unfold termIn at h
    split at h
    · exact .not h
    · split at h
      · obtain ⟨rfl, rfl⟩ := by simpa using h
        exact .negativeInt
      · obtain ⟨rfl, rfl⟩ := by simpa using h
        exact .negativeFloat
      · next hint hfloat => exact .negate hint hfloat h
    · exact readsTerm_of_primary h
  · intro h
    cases h with
    | null => rfl
    | bool => rfl
    | int => rfl
    | float => rfl
    | negativeInt => rfl
    | negativeFloat => rfl
    | path => rfl
    | string hl => simp only [termIn, primary, hl]; rfl
    | interpolation hc => simp only [termIn, primary, hc]; rfl
    | name no_colon no_pattern hp =>
      simp only [termIn, primary, nameForm]
      split
      · exact absurd rfl (no_colon _ _)
      · rw [if_neg (by simp [no_pattern _ _ _ rfl]), hp]
        rfl
      · rw [hp]
        rfl
    | list h => exact h
    | attrSet no_pattern h => simpa [termIn, primary, no_pattern] using h
    | recursive hbrace h =>
      simp only [termIn, primary, keywordForm, hbrace]
      exact h
    | lambda h => exact h
    | pattern opens h => simpa [termIn, primary, opens] using h
    | namedPattern opens h => simpa [termIn, primary, nameForm, opens] using h
    | letIn h => exact h
    | import_ h => exact h
    | conditional h => exact h
    | not h => exact h
    | negate no_int no_float h => simpa only [termIn] using h
    | paren h => exact h

/-! ### Operands

A clause is told by a keyword, an argument by the kind of the token that begins it. -/

/-- An operand in no chain, if one can begin here. -/
theorem argument_eq_some_iff {o : Operand} :
    argument operand ts = .ok (some o, rest) ↔
      ∃ t us, skipTrivia ts = t :: us ∧ startsArgument t.kind = true ∧
        operand .single ts = .ok (o, rest) := by
  rw [argument]
  split
  · next t us h =>
    split
    · next hstart =>
      simp only [bind_eq_ok_iff, pure_eq_ok_iff, Prod.exists, Prod.mk.injEq, Option.some.injEq,
        exists_eq_right_right, exists_eq_right]
      constructor
      · intro ho
        exact ⟨t, us, h, hstart, ho⟩
      · rintro ⟨-, -, -, -, ho⟩
        exact ho
    · next hstart =>
      simp only [Except.ok.injEq, Prod.mk.injEq, reduceCtorEq, false_and, false_iff]
      rintro ⟨t', us', h', hstart', -⟩
      obtain ⟨rfl, -⟩ := List.cons.inj (h.symm.trans h')
      exact hstart hstart'
  · next h => simp [h]

theorem argument_eq_none_iff :
    argument operand ts = .ok (none, rest) ↔
      rest = ts ∧ ∀ t us, skipTrivia ts = t :: us → startsArgument t.kind = false := by
  rw [argument]
  split
  · next t us h =>
    split
    · next hstart => simp [h, hstart, bind_eq_ok_iff, pure_eq_ok_iff, -bind_pure_comp]
    · next hstart =>
      simp only [Except.ok.injEq, Prod.mk.injEq, true_and, h, List.cons.injEq, @eq_comm _ ts]
      refine (and_iff_left ?_).symm
      rintro t' us' ⟨rfl, -⟩
      simpa using hstart
  · next h => simp [h, @eq_comm _ ts]

theorem stop_argument (h : argument operand ts = .ok (none, rest)) : rest = ts :=
  (argument_eq_none_iff.mp h).1

/-- A term without arguments is itself, and a term with arguments is a call. -/
theorem applied_eq_ok_iff {callee t : Term} :
    applied operand callee ts = .ok (t, rest) ↔
      ∃ arguments, repeated (argument operand) ts = .ok (arguments, rest) ∧
        ((arguments = [] ∧ t = callee) ∨
          ∃ last, arguments.getLast? = some last ∧
            t = .call callee (arguments.map .operand) (callee.span.join last.span)) := by
  simp only [applied, bind_eq_ok_iff, Prod.exists]
  constructor
  · rintro ⟨arguments, mid, h, ht⟩
    split at ht
    · next last hlast =>
      obtain ⟨rfl, rfl⟩ := by simpa [pure_eq_ok_iff] using ht
      exact ⟨arguments, h, .inr ⟨last, hlast, rfl⟩⟩
    · next hnone =>
      obtain ⟨rfl, rfl⟩ := by simpa [pure_eq_ok_iff] using ht
      exact ⟨arguments, h, .inl ⟨List.getLast?_eq_none_iff.mp hnone, rfl⟩⟩
  · rintro ⟨arguments, h, ⟨rfl, rfl⟩ | ⟨last, hlast, rfl⟩⟩
    · exact ⟨[], rest, h, rfl⟩
    · exact ⟨arguments, rest, h, by simp only [hlast]; rfl⟩

/-- Terms that look alike, with arguments that look alike, make calls that look alike. -/
theorem exists_applied_of_map_eq {operand' : Context → Rule Operand} {f f' : Position → Position}
    {c c' : List Comment → List Comment} {us mid : List Token} {callee callee' t : Term}
    {arguments arguments' : List Operand} (h : applied operand callee ts = .ok (t, rest))
    (harguments : repeated (argument operand) ts = .ok (arguments, rest))
    (harguments' : repeated (argument operand') us = .ok (arguments', mid))
    (hcallee : callee.relabel f c = callee'.relabel f' c')
    (hk : arguments.map (Operand.relabel f c) = arguments'.map (Operand.relabel f' c')) :
    ∃ t', applied operand' callee' us = .ok (t', mid) ∧ t.relabel f c = t'.relabel f' c' := by
  obtain ⟨_, hread, hshape⟩ := applied_eq_ok_iff.mp h
  obtain ⟨rfl, -⟩ := Prod.mk.inj (Except.ok.inj (hread.symm.trans harguments))
  rcases hshape with ⟨rfl, rfl⟩ | ⟨last, hlast, rfl⟩
  · obtain rfl : arguments' = [] := by simpa using hk.symm
    exact ⟨callee', applied_eq_ok_iff.mpr ⟨[], harguments', .inl ⟨rfl, rfl⟩⟩, hcallee⟩
  · have hlasts := congrArg List.getLast? hk
    rw [List.getLast?_map, List.getLast?_map, hlast] at hlasts
    obtain ⟨last', hlast', hklast⟩ := Option.map_eq_some_iff.mp hlasts.symm
    refine ⟨_, applied_eq_ok_iff.mpr ⟨arguments', harguments', .inr ⟨last', hlast', rfl⟩⟩, ?_⟩
    have hstart := Term.map_span_eq hcallee
    have hstop := Operand.map_span_eq hklast.symm
    simp only [Term.relabel, relabelExprs_map_operand, Span.map_join]
    rw [hk, hcallee, hstart, hstop]

/-- A keyword, an expression and a semicolon. -/
theorem clause_eq_some_iff {cs : List Comment} {m : Modifier} :
    clause operand ts = .ok (some (cs, m), rest) ↔
      ∃ k start us kind, skipTrivia ts = ⟨.keyword k, start⟩ :: us ∧ clauseKind? k = some kind ∧
      ∃ subject mid, expression operand us = .ok (subject, mid) ∧
      ∃ stop, expectSymbol .semicolon mid = .ok (stop, rest) ∧
        commentsAhead ts = cs ∧ ⟨kind, subject, start.join stop⟩ = m := by
  rw [clause]
  split
  · next k start us h =>
    cases hkind : clauseKind? k with
    | none =>
      simp only [Except.ok.injEq, Prod.mk.injEq, reduceCtorEq, false_and, false_iff]
      rintro ⟨k', start', us', kind, h', hkind', -⟩
      simp only [h, List.cons.injEq, Token.mk.injEq, TokenKind.keyword.injEq] at h'
      rw [← h'.1.1, hkind] at hkind'
      cases hkind'
    | some kind =>
      simp only [bind_eq_ok_iff, pure_eq_ok_iff, Prod.exists, Prod.mk.injEq, Option.some.injEq,
        exists_eq_right_right]
      constructor
      · rintro ⟨subject, mid, he, stop, hs, hcs, hm⟩
        exact ⟨k, start, us, kind, h, hkind, subject, mid, he, stop, hs, hcs, hm⟩
      · rintro ⟨k', start', us', kind', h', hkind', subject, mid, he, stop, hs, hcs, hm⟩
        simp only [h, List.cons.injEq, Token.mk.injEq, TokenKind.keyword.injEq] at h'
        obtain ⟨⟨rfl, rfl⟩, rfl⟩ := h'
        obtain rfl := Option.some.inj (hkind.symm.trans hkind')
        exact ⟨subject, mid, he, stop, hs, hcs, hm⟩
  · next h =>
    simp only [Except.ok.injEq, Prod.mk.injEq, reduceCtorEq, false_and, false_iff]
    rintro ⟨k, start, us, kind, h', -⟩
    exact h _ _ _ h'

theorem clause_eq_none_iff :
    clause operand ts = .ok (none, rest) ↔
      rest = ts ∧
        ∀ k start us, skipTrivia ts = ⟨.keyword k, start⟩ :: us → clauseKind? k = none := by
  rw [clause]
  split
  · next k start us h =>
    cases hkind : clauseKind? k with
    | none =>
      simp only [Except.ok.injEq, Prod.mk.injEq, true_and, h, List.cons.injEq, Token.mk.injEq,
        TokenKind.keyword.injEq, @eq_comm _ ts]
      refine (and_iff_left ?_).symm
      rintro k' start' us' ⟨⟨rfl, -⟩, -⟩
      exact hkind
    | some kind => simp [h, hkind, bind_eq_ok_iff, pure_eq_ok_iff, -bind_pure_comp]
  · next h =>
    simp only [Except.ok.injEq, Prod.mk.injEq, true_and, @eq_comm _ ts]
    exact (and_iff_left fun k start us h' => absurd h' (h k start us)).symm

theorem stop_clause (h : clause operand ts = .ok (none, rest)) : rest = ts :=
  (clause_eq_none_iff.mp h).1

/-- The term of an operand, with arguments where it can have some. -/
def withArguments (operand : Context → Rule Operand) (ctx : Context) (t : Term) : Rule Term :=
  fun ts => if ctx = .chain && t.isCallable then applied operand t ts else .ok (t, ts)

/-- What has been read behind a term: nothing, or arguments that make it a call. -/
theorem withArguments_cases {ctx : Context} {head t : Term}
    (h : withArguments operand ctx head ts = .ok (t, rest)) :
    (t = head ∧ rest = ts) ∨ ∃ arguments span, Rounds (argument operand) ts arguments rest ∧
      t = .call head (arguments.map .operand) span := by
  rw [withArguments] at h
  split at h
  · obtain ⟨arguments, hargs, hshape⟩ := applied_eq_ok_iff.mp h
    have hrounds := rounds_of_repeated stop_argument hargs
    rcases hshape with ⟨rfl, rfl⟩ | ⟨last, -, rfl⟩
    · cases hrounds
      exact .inl ⟨rfl, rfl⟩
    · exact .inr ⟨arguments, _, hrounds, rfl⟩
  · obtain ⟨rfl, rfl⟩ := by simpa using h
    exact .inl ⟨rfl, rfl⟩

/-- An operand from its parts, with the place that they give it and the comments around it. -/
theorem operandWith_eq_ok_iff {ctx : Context} {o : Operand} :
    operandWith operand ctx ts = .ok (o, rest) ↔
      ∃ clauses ts₁, repeated (clause operand) ts = .ok (clauses, ts₁) ∧
      ∃ head ts₂, termIn operand ctx (skipTrivia ts₁) = .ok (head, ts₂) ∧
      ∃ t ts₃, withArguments operand ctx head ts₂ = .ok (t, ts₃) ∧ rest = skipTrivia ts₃ ∧
        o = ⟨clauses.map (·.2), clauses.flatMap (·.1) ++ commentsAhead ts₁, commentsAhead ts₃, t,
          operandSpan (clauses.map (·.2)) t⟩ := by
  simp only [operandWith, bind_eq_ok_iff, Prod.exists]
  refine exists_congr fun clauses => exists_congr fun ts₁ => and_congr_right fun _ =>
    exists_congr fun head => exists_congr fun ts₂ => and_congr_right fun _ => ?_
  rw [withArguments]
  split
  · simp only [bind_eq_ok_iff, pure_eq_ok_iff, Prod.exists, Prod.mk.injEq]
    grind
  · simp only [bind_eq_ok_iff, pure_eq_ok_iff, Prod.exists, Prod.mk.injEq, Except.ok.injEq]
    grind

end Grammar

end NixSyntax
