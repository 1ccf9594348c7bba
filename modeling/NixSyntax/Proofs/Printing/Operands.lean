import NixSyntax.Proofs.Printing.Reread

/-!
# What is printed is read again: terms, operands and programs

The remaining rules, and the operand with its clauses and arguments. With them what the rule for
operands satisfies at one bound it satisfies at the next, and the bound plays no part in what a list
of tokens is read as. So a program can be printed and read again, and nothing is lost but where
things stood and what was said about them.

## From one bound to the next

`Rereads` is about the rule for operands at a given bound. The rules for terms call that rule for
what is inside of a term, and the rule for operands at the next bound calls the rules for terms. So
`rereads_operandWith` is a step from a bound to the next, and by induction it holds at every bound
(`rereads_operandUpTo`). Both readings have the same bound, and the tree that was read is no deeper
in print, so the bound that was enough is enough again.

## What tells the forms apart

The rule for a term looks at one token, at two for a negative number and for a function, or at a
closing brace and the token behind it. For every form there are two things to show. In print, the
first tokens lead to the same form. And no other form that begins in the same way is led to: no
number stands behind a printed minus sign, nothing makes a function of a printed name, and nothing
makes a pattern of a printed set.

## Main results

* `ReadsTerm.reread`, `rereads_operandWith`: terms and operands are read again from what is printed
* `rereads_operandUpTo`: the same at every bound on nesting
* `Program.ofTokens_print`: printing is undone by reading
-/

namespace NixSyntax

/-! ### Operands that stand as expressions

In lists and calls operands are kept as expressions, and they are printed without a line break
between them. -/

theorem printExprs_operands (os : List Operand) :
    printExprs (os.map .operand) = os.flatMap Operand.print := by
  rw [printExprs_eq, List.flatMap_map]
  simp [Expr.print]

namespace Grammar

variable {operand : Context → Rule Operand} {ctx : Context} {ts us mid rest rest' : List Token}

/-- What is printed of an operand begins with a token that an operand can begin with. -/
theorem Rereads.ahead {o : Operand} (h : Rereads operand ctx ts o rest) (next : List Token) :
    ∃ t us, skipTrivia (o.print ++ next) = t :: us ∧ beginsOperand t.kind = true := by
  obtain ⟨_, _, t, us, -, hprint, hfits⟩ := h.begins
  rw [hprint]
  exact ⟨t, us ++ next, skipTrivia_of_begins hfits.begins, hfits.begins⟩

/-- Where an operand begins, its first printed token may be put behind what stood there. -/
theorem Rereads.admits {o : Operand} (h : Rereads operand ctx ts o rest) (next : List Token) :
    Admits .single ts (o.print ++ next) := by
  obtain ⟨t, us, t', us', hskip, hprint, hfits⟩ := h.begins
  rw [hprint]
  exact hfits.admits hskip

variable (hadv : Advances operand)
  (hop : ∀ ⦃ctx ts o rest⦄, operand ctx ts = .ok (o, rest) → Rereads operand ctx ts o rest)
include hadv hop

/-! ### Forms

Each from behind its first token, which decides the form. A form that ends with a closing token is
read again whatever follows. One that ends with an operand needs to know what follows (`Admits`). -/

/-- A function of one name, from behind its colon. -/
theorem reread_lambda {parameter : AttrPath} (parameter' : AttrPath) {t : Term}
    (hparameter : parameter'.erase = parameter.erase)
    (h : lambda operand parameter ts = .ok (t, rest)) (hrest : Admits ctx rest rest') :
    ∃ us, t.print = parameter.print ++ Symbol.colon.token :: us ∧ ∃ t',
      lambda operand parameter' (us ++ rest') = .ok (t', skipTrivia rest') ∧
        t'.erase = t.erase := by
  obtain ⟨body, hbody, rfl⟩ := lambda_eq_ok_iff.mp h
  obtain ⟨body', hbody', heq⟩ := reread_expression hadv hop hbody hrest rfl
  refine ⟨_, by rw [Term.print, Parameter.print], _,
    lambda_eq_ok_iff.mpr ⟨body', hbody', rfl⟩, ?_⟩
  simp [Term.erase, Term.relabel, Parameter.relabel, hparameter, heq]

/-- An expression in parentheses, from behind the opening one. -/
theorem reread_paren {start : Span} {t : Term} (rest' : List Token)
    (h : paren operand start ts = .ok (t, rest)) :
    ∃ us, t.print = Symbol.openParen.token :: us ∧ ∃ t',
      paren operand default (us ++ rest') = .ok (t', rest') ∧ t'.erase = t.erase := by
  obtain ⟨body, mid, hbody, stop, hstop, rfl⟩ := paren_eq_ok_iff.mp h
  obtain ⟨body', hbody', heq⟩ := reread_closed hadv hop Symbol.closeParen.token rest' rfl hbody
  have hread : paren operand default (body.print ++ Symbol.closeParen.token :: rest') =
      .ok (_, rest') :=
    paren_eq_ok_iff.mpr ⟨body', _, hbody', default, expectSymbol_token _, rfl⟩
  refine ⟨_, by rw [Term.print], _, by simpa using hread, ?_⟩
  simp [Term.erase, Term.relabel, heq]

omit hadv in
/-- An item of a list, with the next item or the closing bracket behind it. -/
theorem reread_item {o : Operand} {next : List Token}
    (h : item operand ts = .ok (some o, mid)) (hnext : Admits .single mid next)
    (hus : skipTrivia us = skipTrivia (o.print ++ next)) :
    ∃ o', item operand us = .ok (some o', skipTrivia next) ∧ o'.erase = o.erase := by
  have ho := hop (item_eq_some_iff.mp h).2.2
  obtain ⟨o', ho', heq⟩ := ho.reads hnext hus
  obtain ⟨t, us', hahead, hbegins⟩ := ho.ahead next
  rw [← hus] at hahead
  refine ⟨o', item_eq_some_iff.mpr ⟨?_, nextIsSymbol_of_eq hahead ?_, ho'⟩, heq⟩
  · rw [hahead]
    exact (not_trivia_of_begins hbegins).2
  · intro hkind
    rw [hkind] at hbegins
    cases hbegins

/-- A list, from behind its opening bracket. Its items need no separation. -/
theorem reread_list {start : Span} {t : Term} (rest' : List Token)
    (h : list operand start ts = .ok (t, rest)) :
    ∃ us, t.print = Symbol.openBracket.token :: us ∧ ∃ t',
      list operand default (us ++ rest') = .ok (t', rest') ∧ t'.erase = t.erase := by
  obtain ⟨items, mid, hitems, stop, hstop, rfl⟩ := list_eq_ok_iff.mp h
  have hrounds := rounds_of_repeated stop_item hitems
  have hclose : Admits .single mid (Symbol.closeBracket.token :: rest') := .of_closes rfl
  -- behind an item comes the beginning of another one, or the bracket
  obtain ⟨-, hread⟩ := hrounds.reread (g := Operand.print) (k := Operand.erase)
    (R := fun us next => skipTrivia us = skipTrivia next) (F := Admits .single)
    (fun ho _ next hnext hus => by
      obtain ⟨o', ho', heq⟩ := reread_item hop ho hnext hus
      exact ⟨o', _, ho', skipTrivia_skipTrivia next, heq⟩)
    (fun ho => (hop (item_eq_some_iff.mp ho).2.2).admits _)
    hclose
  obtain ⟨items', r, hitems', hr, heq⟩ := hread rfl
  rw [skipTrivia_symbol] at hr
  have hlist : list operand default (items.flatMap Operand.print ++
      Symbol.closeBracket.token :: rest') = .ok (_, rest') :=
    list_eq_ok_iff.mpr ⟨items', r, (repeated_eq_ok_iff (repeatable_item hadv)).mpr ⟨hitems',
      item_eq_none_iff.mpr ⟨rfl, .inr (nextIsSymbol_iff.mpr ⟨_, _, hr⟩)⟩⟩, default,
      by rw [hr, expectSymbol_token], rfl⟩
  -- comments were passed on between the items, and are not printed
  have hprint : printExprs ((passOnComments [] items).map .operand) =
      items.flatMap Operand.print := by
    rw [printExprs_operands, List.flatMap_def, map_passOnComments Operand.print_comments,
      ← List.flatMap_def]
  refine ⟨_, by rw [Term.print, hprint], _, by simpa using hlist, ?_⟩
  simp only [Term.erase, Term.relabel, relabelExprs_map_operand,
    map_passOnComments Operand.erase_comments, heq, Span.map_erasePosition, eraseComments_apply]

/-- A choice, from behind its `if`. -/
theorem reread_conditional {start : Span} {t : Term}
    (h : conditional operand start ts = .ok (t, rest)) (hrest : Admits ctx rest rest') :
    ∃ us, t.print = Keyword.if_.token :: us ∧ ∃ t',
      conditional operand default (us ++ rest') = .ok (t', skipTrivia rest') ∧
        t'.erase = t.erase := by
  obtain ⟨condition, ts₁, hcondition, s₁, ts₂, -, consequence, ts₃, hconsequence, s₂, ts₄, -,
    alternative, halternative, rfl⟩ := conditional_eq_ok_iff.mp h
  obtain ⟨alternative', halternative', haeq⟩ := reread_expression hadv hop halternative hrest rfl
  obtain ⟨consequence', hconsequence', hqeq⟩ := reread_closed hadv hop Keyword.else_.token
    (alternative.print ++ rest') rfl hconsequence
  obtain ⟨condition', hcondition', hceq⟩ := reread_closed hadv hop Keyword.then_.token
    (consequence.print ++ Keyword.else_.token :: (alternative.print ++ rest')) rfl hcondition
  have hread : conditional operand default (condition.print ++ Keyword.then_.token ::
      (consequence.print ++ Keyword.else_.token :: (alternative.print ++ rest'))) =
        .ok (_, skipTrivia rest') :=
    conditional_eq_ok_iff.mpr ⟨condition', _, hcondition', default, _, expectKeyword_token _,
      consequence', _, hconsequence', default, _, expectKeyword_token _, alternative',
      halternative', rfl⟩
  refine ⟨_, by rw [Term.print], _, by simpa using hread, ?_⟩
  simp [Term.erase, Term.relabel, hceq, hqeq, haeq]

omit hadv in
/-- An import, from behind its keyword. -/
theorem reread_importOf {start : Span} {t : Term}
    (h : importOf operand start ts = .ok (t, rest)) (hrest : Admits ctx rest rest') :
    ∃ us, t.print = Keyword.import_.token :: us ∧ ∃ t',
      importOf operand default (us ++ rest') = .ok (t', skipTrivia rest') ∧
        t'.erase = t.erase := by
  obtain ⟨source, hsource, rfl⟩ := importOf_eq_ok_iff.mp h
  obtain ⟨source', hsource', heq⟩ := (hop hsource).reads hrest.single rfl
  refine ⟨_, by rw [Term.print, Expr.print], _,
    importOf_eq_ok_iff.mpr ⟨source', hsource', rfl⟩, ?_⟩
  simp [Term.erase, Term.relabel, heq]

omit hadv in
/-- An operator in front of an operand, which is printed behind a line break. -/
theorem reread_unary {op : UnaryOp} {start : Span} {t : Term}
    (h : unary operand ctx op start ts = .ok (t, rest)) (hrest : Admits ctx rest rest') :
    ∃ us, t.print = op.mark.token :: lineBreak :: us ∧ ∃ t',
      unary operand ctx op default (lineBreak :: (us ++ rest')) = .ok (t', skipTrivia rest') ∧
        t'.erase = t.erase := by
  obtain ⟨o, ho, rfl⟩ := unary_eq_ok_iff.mp h
  have hskip : skipTrivia (lineBreak :: (o.print ++ rest')) = skipTrivia (o.print ++ rest') :=
    skipTrivia_cons_of_isTrivia _ rfl
  obtain ⟨o', ho', heq⟩ := (hop ho).reads hrest hskip
  refine ⟨_, by rw [Term.print, Expr.print], _, unary_eq_ok_iff.mpr ⟨o', ho', rfl⟩, ?_⟩
  simp [Term.erase, Term.relabel, heq]

/-! ### Terms

All forms together. The cases are those of the relation between a term and its tokens. -/

omit hadv hop in
/-- A path that begins with a name is printed with this name first. -/
theorem print_of_attrPath_name {name : String} {span : Span} {p : AttrPath}
    (h : attrPath operand (⟨.identifier name, span⟩ :: ts) = .ok (p, rest)) :
    ∃ ss, p.print = (TokenKind.identifier name).token :: printDotted ss := by
  obtain ⟨first, start, mid, hfirst, more, -, rfl⟩ := attrPath_eq_ok_iff.mp h
  cases hfirst
  exact ⟨_, by rw [AttrPath.print, Segment.print]⟩

omit hadv hop in
/-- Behind the first name of a path comes a dot or what follows the path, and no other mark. -/
theorem printDotted_ne {s : Symbol} (hs : s ≠ .dot) (h : nextIsSymbol s rest' = false)
    (ss : List Segment) (span : Span) (us : List Token) :
    printDotted ss ++ rest' ≠ ⟨.symbol s, span⟩ :: us := by
  cases ss with
  | nil =>
    rw [printDotted, List.nil_append]
    rintro rfl
    have hnext : nextIsSymbol s (⟨.symbol s, span⟩ :: us) = true :=
      nextIsSymbol_iff.mpr ⟨span, us, skipTrivia_cons_of_not_isTrivia us rfl⟩
    rw [h] at hnext
    cases hnext
  | cons segment ss =>
    rw [printDotted]
    rintro heq
    injection heq with hdot
    injection hdot with hkind
    injection hkind with hsymbol
    exact hs hsymbol.symm

omit hadv hop in
/-- A term begins in print as it did before, but for a sign or a name that is gone from its
beginning, and never as a clause. -/
theorem ReadsTerm.begins {t : Term} (h : ReadsTerm operand ctx ts t rest) :
    ∃ first us first' us', ts = first :: us ∧ t.print = first' :: us' ∧ Fits first first' ∧
      ∀ k, first'.kind = .keyword k → clauseKind? k = none := by
  cases h with
  | null | bool | int | float | path | interpolation =>
    rw [Term.print]
    exact ⟨_, _, _, _, rfl, rfl, .of_startsArgument rfl rfl, nofun⟩
  -- the sign is a part of the number in print, so the minus sign is gone
  | negativeInt | negativeFloat =>
    rw [Term.print]
    exact ⟨_, _, _, _, rfl, rfl, .of_minus rfl rfl, nofun⟩
  | @string _ _ _ _ literal =>
    cases literal
    rw [Term.print, StringLiteral.print]
    exact ⟨_, _, _, _, rfl, rfl, .of_startsArgument rfl rfl, nofun⟩
  | name _ _ hp =>
    obtain ⟨ss, hprint⟩ := print_of_attrPath_name hp
    rw [Term.print, hprint]
    exact ⟨_, _, _, _, rfl, rfl, .of_startsArgument rfl rfl, nofun⟩
  | list h =>
    obtain ⟨items, mid, -, stop, -, rfl⟩ := list_eq_ok_iff.mp h
    rw [Term.print]
    exact ⟨_, _, _, _, rfl, rfl, .of_startsArgument rfl rfl, nofun⟩
  | attrSet _ h =>
    obtain ⟨bs, mid, -, stop, -, rfl⟩ := attrSet_eq_ok_iff.mp h
    rw [Term.print]
    exact ⟨_, _, _, _, rfl, rfl, .of_startsArgument rfl rfl, nofun⟩
  | recursive _ h =>
    obtain ⟨bs, mid, -, stop, -, rfl⟩ := attrSet_eq_ok_iff.mp h
    rw [Term.print]
    exact ⟨_, _, _, _, rfl, rfl, .of_startsArgument rfl rfl, by rintro k ⟨⟩; rfl⟩
  | lambda h =>
    obtain ⟨body, -, rfl⟩ := lambda_eq_ok_iff.mp h
    rw [Term.print, Parameter.print, AttrPath.print, Segment.print]
    exact ⟨_, _, _, _, rfl, rfl, .of_startsArgument rfl rfl, nofun⟩
  -- the name is printed behind the pattern, so the brace is first in either case
  | pattern _ h | namedPattern _ h =>
    obtain ⟨body, _, -, _, _, -, whole, _, more, _, -, _, _, -, result, -, rfl⟩ :=
      patternLambda_eq_ok_iff.mp h
    rw [Term.print, Parameter.print]
    exact ⟨_, _, _, _, rfl, rfl, .of_startsArgument rfl rfl, nofun⟩
  | letIn h =>
    obtain ⟨bs, _, -, _, _, -, body, -, rfl⟩ := letIn_eq_ok_iff.mp h
    rw [Term.print]
    exact ⟨_, _, _, _, rfl, rfl, .of_keyword rfl rfl rfl, by rintro k ⟨⟩; rfl⟩
  | import_ h =>
    obtain ⟨source, -, rfl⟩ := importOf_eq_ok_iff.mp h
    rw [Term.print]
    exact ⟨_, _, _, _, rfl, rfl, .of_keyword rfl rfl rfl, by rintro k ⟨⟩; rfl⟩
  | conditional h =>
    obtain ⟨condition, _, -, _, _, -, consequence, _, -, _, _, -, alternative, -, rfl⟩ :=
      conditional_eq_ok_iff.mp h
    rw [Term.print]
    exact ⟨_, _, _, _, rfl, rfl, .of_keyword rfl rfl rfl, by rintro k ⟨⟩; rfl⟩
  | not h =>
    obtain ⟨o, -, rfl⟩ := unary_eq_ok_iff.mp h
    rw [Term.print]
    exact ⟨_, _, _, _, rfl, rfl, .of_startsArgument rfl rfl, nofun⟩
  | negate _ _ h =>
    obtain ⟨o, -, rfl⟩ := unary_eq_ok_iff.mp h
    rw [Term.print]
    exact ⟨_, _, _, _, rfl, rfl, .of_minus rfl rfl, nofun⟩
  | paren h =>
    obtain ⟨body, mid, -, stop, -, rfl⟩ := paren_eq_ok_iff.mp h
    rw [Term.print]
    exact ⟨_, _, _, _, rfl, rfl, .of_startsArgument rfl rfl, nofun⟩

/-- **A term is read again from what is printed of it.** The form is told by the first tokens, and
these are told by the term. -/
theorem ReadsTerm.reread {t : Term} (h : ReadsTerm operand ctx ts t rest)
    (hrest : Admits ctx rest rest') :
    ∃ t' r, ReadsTerm operand ctx (t.print ++ rest') t' r ∧ skipTrivia r = skipTrivia rest' ∧
      t'.erase = t.erase := by
  cases h with
  | null =>
    rw [Term.print]
    exact ⟨_, rest', .null, rfl, by simp [Term.erase, Term.relabel]⟩
  | bool =>
    rw [Term.print]
    exact ⟨_, rest', .bool, rfl, by simp [Term.erase, Term.relabel]⟩
  | int =>
    rw [Term.print]
    exact ⟨_, rest', .int, rfl, by simp [Term.erase, Term.relabel]⟩
  | float =>
    rw [Term.print]
    exact ⟨_, rest', .float, rfl, by simp [Term.erase, Term.relabel]⟩
  | negativeInt =>
    -- the sign has become a part of the number
    rw [Term.print]
    exact ⟨_, rest', .int, rfl, by simp [Term.erase, Term.relabel]⟩
  | negativeFloat =>
    rw [Term.print]
    exact ⟨_, rest', .float, rfl, by simp [Term.erase, Term.relabel]⟩
  | path =>
    rw [Term.print]
    exact ⟨_, rest', .path, rfl, by simp [Term.erase, Term.relabel]⟩
  | string hl =>
    obtain ⟨fragments', literal', hprint, hl', heq⟩ := reread_stringOf hadv hop hl
    rw [Term.print, hprint]
    exact ⟨_, rest', .string hl', rfl, by simp [Term.erase, Term.relabel, heq]⟩
  | interpolation hc =>
    obtain ⟨content', hc', heq⟩ := reread_interpolationOf hadv hop hc
    rw [Term.print]
    exact ⟨_, rest', .interpolation hc', rfl, by simp [Term.erase, Term.relabel, heq]⟩
  | name _ _ hp =>
    obtain ⟨-, p', hp', heq⟩ := reread_attrPath hadv hop hp hrest.dot
    obtain ⟨ss, hprint⟩ := print_of_attrPath_name hp
    rw [hprint] at hp'
    rw [Term.print, hprint]
    refine ⟨_, rest', .name (printDotted_ne (by decide) hrest.colon ss) ?_ hp', rfl, ?_⟩
    · intro atSign start us hus
      exact absurd hus (printDotted_ne (by decide) hrest.atSign ss _ _)
    · simp [Term.erase, Term.relabel, heq]
  | list h =>
    obtain ⟨us, hprint, t', hread, heq⟩ := reread_list hadv hop rest' h
    rw [hprint]
    exact ⟨t', rest', .list hread, rfl, heq⟩
  | attrSet _ h =>
    obtain ⟨inner, hbalanced, hprint, t', hread, heq⟩ := reread_attrSet hadv hop rest' h
    have hopens : opensPattern false (inner ++ Symbol.closeBrace.token :: rest') = false := by
      rw [opensPattern_print false hbalanced, hrest.colon, hrest.atSign]
      rfl
    have hterm : ReadsTerm operand ctx (Symbol.openBrace.token ::
        (inner ++ Symbol.closeBrace.token :: rest')) t' rest' := .attrSet hopens hread
    exact ⟨t', rest', by simpa [hprint] using hterm, rfl, heq⟩
  | recursive _ h =>
    obtain ⟨inner, -, hprint, t', hread, heq⟩ := reread_attrSet hadv hop rest' h
    have hterm : ReadsTerm operand ctx (Keyword.rec_.token :: Symbol.openBrace.token ::
        (inner ++ Symbol.closeBrace.token :: rest')) t' rest' :=
      .recursive (expectSymbol_token .openBrace) hread
    exact ⟨t', rest', by simpa [hprint] using hterm, rfl, heq⟩
  | @lambda name _ _ _ _ _ h =>
    obtain ⟨us, hprint, t', hread, heq⟩ :=
      reread_lambda hadv hop ⟨[.name name], [], default⟩ (by simp [AttrPath.relabel]) h hrest
    rw [hprint, AttrPath.print, Segment.print]
    exact ⟨t', _, .lambda hread, skipTrivia_skipTrivia rest', heq⟩
  | pattern _ h =>
    obtain ⟨us, hprint, hopens, t', hread, heq⟩ :=
      reread_patternLambda hadv hop (by simp) h hrest
    rw [hprint]
    exact ⟨t', _, .pattern hopens hread, skipTrivia_skipTrivia rest', heq⟩
  | @namedPattern name span _ _ _ _ _ _ h =>
    -- the name has moved behind the pattern
    have hfront : ∀ p ∈ some (⟨[.name name], [], span⟩ : AttrPath), PathRereads operand p := by
      rintro p ⟨⟩
      exact pathRereads_name name span
    obtain ⟨us, hprint, hopens, t', hread, heq⟩ := reread_patternLambda hadv hop hfront h hrest
    rw [hprint]
    exact ⟨t', _, .pattern hopens hread, skipTrivia_skipTrivia rest', heq⟩
  | letIn h =>
    obtain ⟨us, hprint, t', hread, heq⟩ := reread_letIn hadv hop h hrest
    rw [hprint]
    exact ⟨t', _, .letIn hread, skipTrivia_skipTrivia rest', heq⟩
  | import_ h =>
    obtain ⟨us, hprint, t', hread, heq⟩ := reread_importOf hop h hrest
    rw [hprint]
    exact ⟨t', _, .import_ hread, skipTrivia_skipTrivia rest', heq⟩
  | conditional h =>
    obtain ⟨us, hprint, t', hread, heq⟩ := reread_conditional hadv hop h hrest
    rw [hprint]
    exact ⟨t', _, .conditional hread, skipTrivia_skipTrivia rest', heq⟩
  | not h =>
    obtain ⟨us, hprint, t', hread, heq⟩ := reread_unary hop h hrest
    rw [hprint]
    exact ⟨t', _, .not hread, skipTrivia_skipTrivia rest', heq⟩
  | negate _ _ h =>
    obtain ⟨us, hprint, t', hread, heq⟩ := reread_unary hop h hrest
    rw [hprint]
    exact ⟨t', _, .negate nofun nofun hread, skipTrivia_skipTrivia rest', heq⟩
  | paren h =>
    obtain ⟨us, hprint, t', hread, heq⟩ := reread_paren hadv hop rest' h
    rw [hprint]
    exact ⟨t', rest', .paren hread, rfl, heq⟩

/-! ### Operands

A term gets its arguments, clauses in front, and comments, which are not printed. -/

omit hadv in
/-- An argument is read again in front of another one, or where none follows. -/
theorem reread_argument {o : Operand} {next : List Token}
    (h : argument operand ts = .ok (some o, mid)) (hnext : Admits .chain mid next)
    (hus : skipTrivia us = skipTrivia (o.print ++ next)) :
    ∃ o', argument operand us = .ok (some o', skipTrivia next) ∧ o'.erase = o.erase := by
  obtain ⟨t, us₀, hskip, hstarts, ho⟩ := argument_eq_some_iff.mp h
  obtain ⟨o', ho', heq⟩ := (hop ho).reads hnext.single hus
  obtain ⟨t₁, us₁, t', us', hskip', hprint, hfits⟩ := (hop ho).begins
  obtain ⟨rfl, -⟩ := List.cons.inj (hskip.symm.trans hskip')
  rw [hprint, List.cons_append, skipTrivia_of_begins hfits.begins] at hus
  exact ⟨o', argument_eq_some_iff.mpr ⟨t', _, hus, hfits.argument hstarts, ho'⟩, heq⟩

omit hadv in
/-- In front of an argument no operator is ahead, neither now nor in print. -/
theorem admits_argument {o : Operand} (next : List Token)
    (h : argument operand ts = .ok (some o, mid)) : Admits ctx ts (o.print ++ next) := by
  obtain ⟨t, us, hskip, hstarts, ho⟩ := argument_eq_some_iff.mp h
  refine ((hop ho).admits next).of_ended (operatorAhead_of_argumentAhead ?_)
  rw [argumentAhead_of_eq hskip, hstarts]

/-- Arguments are read again where no argument follows them, now or in print. -/
theorem reread_arguments {arguments : List Operand}
    (h : repeated (argument operand) ts = .ok (arguments, rest))
    (hrest : Admits .chain rest rest') :
    Admits .chain ts (arguments.flatMap Operand.print ++ rest') ∧
      ∀ ⦃us⦄, skipTrivia us = skipTrivia (arguments.flatMap Operand.print ++ rest') →
        ∃ arguments' r, repeated (argument operand) us = .ok (arguments', r) ∧
          skipTrivia r = skipTrivia rest' ∧
          arguments'.map Operand.erase = arguments.map Operand.erase := by
  obtain ⟨hrounds, hend⟩ := (repeated_eq_ok_iff (repeatable_argument hadv)).mp h
  obtain ⟨hfollow, hread⟩ := hrounds.reread (g := Operand.print) (k := Operand.erase)
    (R := fun us next => skipTrivia us = skipTrivia next) (F := Admits .chain)
    (fun ho _ next hnext hus => by
      obtain ⟨o', ho', heq⟩ := reread_argument hop ho hnext hus
      exact ⟨o', _, ho', skipTrivia_skipTrivia next, heq⟩)
    (fun ho => admits_argument hop _ ho)
    hrest
  refine ⟨hfollow, fun us hus => ?_⟩
  obtain ⟨arguments', r, harguments', hr, heq⟩ := hread hus
  -- behind the last argument there was none, so none is ahead in print
  have hahead : argumentAhead rest' = false :=
    hrest.argument (.inl rfl) (argument_eq_none_iff_ahead.mp hend).2
  refine ⟨arguments', r, (repeated_eq_ok_iff (repeatable_argument hadv)).mpr ⟨harguments',
    argument_eq_none_iff_ahead.mpr ⟨rfl, ?_⟩⟩, hr, heq⟩
  rw [argumentAhead, hr]
  exact hahead

/-- The arguments behind a term are printed behind it, and whatever term is read there again gets
them again. -/
theorem reread_applied {head t : Term} (h : applied operand head ts = .ok (t, rest))
    (hrest : Admits .chain rest rest') :
    ∃ printed, t.print = head.print ++ printed ∧ Admits .chain ts (printed ++ rest') ∧
      ∀ ⦃head' us⦄, head'.erase = head.erase → skipTrivia us = skipTrivia (printed ++ rest') →
        ∃ t' r, applied operand head' us = .ok (t', r) ∧ skipTrivia r = skipTrivia rest' ∧
          t'.erase = t.erase := by
  obtain ⟨arguments, harguments, hshape⟩ := applied_eq_ok_iff.mp h
  obtain ⟨hfollow, hread⟩ := reread_arguments hadv hop harguments hrest
  refine ⟨arguments.flatMap Operand.print, ?_, hfollow, fun head' us hhead hus => ?_⟩
  · rcases hshape with ⟨rfl, rfl⟩ | ⟨last, -, rfl⟩
    · simp
    · rw [Term.print, printExprs_operands]
  · obtain ⟨arguments', r, harguments', hr, heq⟩ := hread hus
    obtain ⟨t', h', ht⟩ := exists_applied_of_map_eq h harguments harguments' hhead.symm heq.symm
    exact ⟨t', r, h', hr, ht.symm⟩

/-- The same where a term need not have arguments. Whether it may have some shows in print. -/
theorem reread_withArguments {head t : Term}
    (h : withArguments operand ctx head ts = .ok (t, rest)) (hrest : Admits ctx rest rest') :
    ∃ printed, t.print = head.print ++ printed ∧ Admits ctx ts (printed ++ rest') ∧
      ∀ ⦃head' us⦄, head'.erase = head.erase → skipTrivia us = skipTrivia (printed ++ rest') →
        ∃ t' r, withArguments operand ctx head' us = .ok (t', r) ∧
          skipTrivia r = skipTrivia rest' ∧ t'.erase = t.erase := by
  rw [withArguments] at h
  by_cases hcall : (ctx = .chain && head.isCallable) = true
  · rw [if_pos hcall] at h
    obtain ⟨rfl, -⟩ : ctx = .chain ∧ head.isCallable = true := by simpa using hcall
    obtain ⟨printed, hprint, hfollow, hread⟩ := reread_applied hadv hop h hrest
    refine ⟨printed, hprint, hfollow, fun head' us hhead hus => ?_⟩
    rw [withArguments, if_pos (by rwa [Term.isCallable_eq hhead])]
    exact hread hhead hus
  · rw [if_neg hcall] at h
    obtain ⟨rfl, rfl⟩ := by simpa using h
    refine ⟨[], by simp, hrest, fun head' us hhead hus => ⟨head', us, ?_, hus, hhead⟩⟩
    rw [withArguments, if_neg (by rwa [Term.isCallable_eq hhead])]

/-- A clause is read again from what is printed of it. -/
theorem reread_clause {c : List Comment × Modifier} {next : List Token}
    (h : clause operand ts = .ok (some c, mid))
    (hus : skipTrivia us = skipTrivia (c.2.print ++ next)) :
    ∃ c', clause operand us = .ok (some c', next) ∧ c'.2.erase = c.2.erase := by
  obtain ⟨cs, m⟩ := c
  obtain ⟨k, start, us', kind, -, -, subject, mid', hsubject, stop, -, -, rfl⟩ :=
    clause_eq_some_iff.mp h
  obtain ⟨subject', hsubject', heq⟩ := reread_closed hadv hop Symbol.semicolon.token next rfl
    hsubject
  have hskip : skipTrivia us =
      kind.word.token :: (subject.print ++ Symbol.semicolon.token :: next) := by
    rw [hus, Modifier.print, List.cons_append, skipTrivia_keyword, List.append_assoc,
      List.singleton_append]
  refine ⟨_, clause_eq_some_iff.mpr ⟨kind.word, default, _, kind, hskip,
    clauseKind?_eq_some_iff.mpr rfl, subject', _, hsubject', default, expectSymbol_token _, rfl,
    rfl⟩, ?_⟩
  simp [Modifier.erase, Modifier.relabel, heq]

/-- Clauses are read again in front of a term that does not begin as a clause. -/
theorem reread_clauses {clauses : List (List Comment × Modifier)} {t : Token}
    (ht : ∀ k, t.kind = .keyword k → clauseKind? k = none)
    (h : repeated (clause operand) ts = .ok (clauses, rest))
    (hus : skipTrivia us =
      skipTrivia (clauses.flatMap (fun c => c.2.print) ++ rest'))
    (hrest : skipTrivia rest' = t :: mid) :
    ∃ clauses' r, repeated (clause operand) us = .ok (clauses', r) ∧
      skipTrivia r = skipTrivia rest' ∧
      clauses'.map (fun c => c.2.erase) = clauses.map (fun c => c.2.erase) := by
  have hrounds := rounds_of_repeated stop_clause h
  obtain ⟨-, hread⟩ := hrounds.reread (g := fun c => c.2.print) (k := fun c => c.2.erase)
    (R := fun us next => skipTrivia us = skipTrivia next) (F := fun _ _ => True)
    (fun hc _ _ _ hus => by
      obtain ⟨c', hc', heq⟩ := reread_clause hadv hop hc hus
      exact ⟨c', _, hc', rfl, heq⟩)
    (fun _ => trivial) trivial
  obtain ⟨clauses', r, hclauses', hr, heq⟩ := hread hus
  refine ⟨clauses', r, (repeated_eq_ok_iff (repeatable_clause hadv)).mpr ⟨hclauses',
    clause_eq_none_iff.mpr ⟨rfl, fun k start us' hskip => ht k ?_⟩⟩, hr, heq⟩
  obtain ⟨rfl, -⟩ := List.cons.inj ((hr.trans hrest).symm.trans hskip)
  rfl

/-- **An operand is read again from what is printed of it**, if the operands inside it are. -/
theorem rereads_operandWith {o : Operand} (h : operandWith operand ctx ts = .ok (o, rest)) :
    Rereads (operandWith operand) ctx ts o rest := by
  obtain ⟨clauses, ts₁, hclauses, head, ts₂, hhead, t, ts₃, ht, rfl, rfl⟩ :=
    operandWith_eq_ok_iff.mp h
  have hterm := termIn_eq_ok_iff.mp hhead
  obtain ⟨first, us₁, first', us₁', hfirst, hhprint, hfits, hclause⟩ := hterm.begins
  have hnil : Admits ctx ts₃ [] := .nil
  have hprint : ∀ before after span,
      Operand.print ⟨clauses.map (·.2), before, after, t, span⟩ =
        clauses.flatMap (fun c => c.2.print) ++ t.print := by
    intro before after span
    rw [Operand.print, printModifiers_eq, List.flatMap_map]
  refine ⟨skipTrivia_skipTrivia ts₃, ?_, fun us rest' hrest hus => ?_⟩
  · rw [hprint]
    -- an operand begins with its first clause, or with its term if there is none
    cases rounds_of_repeated stop_clause hclauses with
    | nil =>
      obtain ⟨printed, htprint, -, -⟩ := reread_withArguments hadv hop ht hnil
      rw [htprint, hhprint]
      exact ⟨first, us₁, first', _, hfirst, rfl, hfits⟩
    | @cons _ _ _ c _ hc =>
      obtain ⟨k, start, us₂, kind, hskip, hkind, subject, mid, -, stop, -, -, hm⟩ :=
        clause_eq_some_iff.mp (show clause operand ts = .ok (some (c.1, c.2), _) from hc)
      obtain rfl := clauseKind?_eq_some_iff.mp hkind
      rw [List.flatMap_cons, ← hm, Modifier.print]
      exact ⟨_, us₂, _, _, hskip, rfl, .of_keyword rfl rfl (by cases kind <;> rfl)⟩
  · obtain ⟨printed, htprint, hfollow, hread⟩ :=
      reread_withArguments hadv hop ht hrest.of_skipTrivia
    rw [hprint, htprint, List.append_assoc, List.append_assoc] at hus
    have hskip : skipTrivia (head.print ++ (printed ++ rest')) =
        head.print ++ (printed ++ rest') := by
      rw [hhprint]
      exact skipTrivia_of_begins hfits.begins
    obtain ⟨clauses', r₁, hclauses', hr₁, hceq⟩ :=
      reread_clauses hadv hop hclause hclauses hus (by rw [hskip, hhprint]; rfl)
    obtain ⟨head', r₂, hhead', hr₂, hheq⟩ := hterm.reread hadv hop hfollow
    obtain ⟨t', r₃, ht', hr₃, hteq⟩ := hread hheq hr₂
    rw [← hr₃]
    refine ⟨_, operandWith_eq_ok_iff.mpr ⟨clauses', r₁, hclauses', head', r₂,
      termIn_eq_ok_iff.mpr (by rwa [hr₁, hskip]), t', r₃, ht', rfl, rfl⟩, ?_⟩
    simp only [Operand.erase, Operand.relabel, relabelModifiers_eq, List.map_map,
      Function.comp_def, Span.map_erasePosition, eraseComments_apply, Operand.mk.injEq, and_true,
      true_and]
    exact ⟨hceq, hteq⟩

omit hadv hop in
/-- By induction on the bound. At the lowest one nothing is read. -/
theorem rereads_operandUpTo (n : Nat) ⦃ctx : Context⦄ ⦃ts : List Token⦄ ⦃o : Operand⦄
    ⦃rest : List Token⦄ (h : operandUpTo n ctx ts = .ok (o, rest)) :
    Rereads (operandUpTo n) ctx ts o rest := by
  induction n generalizing ctx ts o rest with
  | zero => simp [operandUpTo] at h
  | succ n ih => exact rereads_operandWith (advances_operandUpTo n) ih h

end Grammar

/-! ### Programs

A program has nothing behind it, so there is no condition left. The program was read at the bound
that its own tokens give, and its print is read at that of the printed tokens. Either is large
enough, so the difference does not show. -/

namespace Program

/-- **Printing is undone by reading.** What a program prints as is read as the same program, up to
where things stand and what is said about them. -/
theorem ofTokens_print {ts : List Token} {p : Program} (h : ofTokens ts = .ok p) :
    ∃ p', ofTokens p.body.print = .ok p' ∧ p'.erase = p.erase := by
  obtain ⟨e, he, rfl⟩ := ofTokens_eq_ok_iff.mp h
  obtain ⟨e', he', heq⟩ := Grammar.reread_complete (Grammar.advances_operandUpTo _)
    (Grammar.rereads_operandUpTo _) he
  have hread := Grammar.complete_operandUpTo (Nat.le_refl (countTokens e.print)) he'
  refine ⟨_, ofTokens_eq_ok_iff.mpr ⟨e', hread, rfl⟩, ?_⟩
  simp [Program.erase, heq]

/-- The tokens of `x @ { a, } : a - -1`. In print the name stands behind the pattern, the comma is
gone, and the number has taken its sign. -/
def differenceTokens : List Token :=
  [⟨.identifier "x", default⟩, ⟨.symbol .atSign, default⟩, ⟨.symbol .openBrace, default⟩,
    ⟨.identifier "a", default⟩, ⟨.symbol .comma, default⟩, ⟨.symbol .closeBrace, default⟩,
    ⟨.symbol .colon, default⟩, ⟨.comment "less" true, default⟩, ⟨.identifier "a", default⟩,
    ⟨.symbol .minus, default⟩, ⟨.symbol .minus, default⟩, ⟨.int 1, default⟩]

/-- All three freedoms of the printer are made use of, and the tree is the same. -/
theorem ofTokens_print_differenceTokens :
    ∃ p, ofTokens differenceTokens = .ok p ∧
      p.body.print.map Token.kind = [.symbol .openBrace, .identifier "a", .symbol .closeBrace,
        .symbol .atSign, .identifier "x", .symbol .colon, .identifier "a", .newline,
        .symbol .minus, .int (-1)] ∧
      ∃ p', ofTokens p.body.print = .ok p' ∧ p'.erase = p.erase :=
  ⟨_, rfl, rfl, @ofTokens_print differenceTokens _ rfl⟩

end Program

end NixSyntax
