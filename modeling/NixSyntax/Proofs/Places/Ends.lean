import NixSyntax.Proofs.Cutting.Expressions
import NixSyntax.Proofs.Tree.Normal

/-!
# Where an operand ends

There are two kinds of terms. One ends with a token of its own: a value, a name, a form in brackets.
The tokens that are left stand directly behind that token, and the operand has the comments among
them. The other ends with another operand, as a function does with its body, a call with its last
argument and a negation with what is negated (`Term.isOpen`). Then it is that operand inside which
has the comments, and it ends at the same place.

So of the operands that end at one place only the innermost has seen the tokens behind.

## How comments are attached

An operand takes the trivia behind it and keeps the comments that are there. Where operands end at
one place, each of them has asked for comments, but the innermost was first, and there was nothing
left for the others. So a comment behind a function is one behind the last operand of its body. A
form in brackets ends with its closing bracket, and what is behind that was not behind anything
inside.

Two lemmas for the two kinds of terms are all that is needed for this. For a term of the first kind,
the tokens that are left stand behind a token that is no trivia, and the rule for operands looks at
exactly these. For one of the second kind there is an operand inside that ends where it does, and
the argument starts again with that one.

## Main definitions

* `Operand.inside`: the nodes inside an operand
* `Grammar.Abuts`: what was read ends directly in front of what is left

## Main results

* `Grammar.exists_behind`: where an operand ends that has a last token of its own
* `Grammar.exists_inside_of_isOpen`: any other ends where an operand inside of it does
-/

namespace NixSyntax

/-- The nodes inside an operand: those of its clauses and of its term. -/
def Operand.inside (o : Operand) : List Node := modifiersNodes o.modifiers ++ o.term.nodes

/-- The last operand of an expression ends where the expression does. -/
theorem Expr.Joined.exists_operand {e : Expr} (h : e.Joined) :
    ∃ o, .expr (.operand o) ∈ e.nodes ∧ o.span.stop = e.span.stop := by
  induction e using Expr.sides.induct with
  | case1 operator left right span _ ih =>
    obtain ⟨rfl, -, hright⟩ := h
    obtain ⟨o, ho, hstop⟩ := ih hright
    exact ⟨o, by simp [Expr.nodes, ho], hstop⟩
  | case2 o => exact ⟨o, by simp [Expr.nodes], rfl⟩

namespace Grammar

variable {ctx : Context} {n : Nat} {ts mid rest : List Token}

/-- What was read ends with a significant token, directly in front of what is left. -/
def Abuts (ts rest : List Token) : Prop :=
  ∃ t : Token, t.isEnd = false ∧ t.isTrivia = false ∧ Leaves 0 ts (t :: rest)

/-! ### Terms that end with a token of their own

A rule whose last step takes a token leaves what is behind this token. Steps before the last do not
matter (`Leaves.abuts`). -/

/-- A token that is taken is directly in front of what is left. -/
theorem abuts_token {t : Token} (hend : t.isEnd = false) (htrivia : t.isTrivia = false)
    (rest : List Token) : Abuts (t :: rest) rest :=
  ⟨t, hend, htrivia, .refl _⟩

/-- What was read before takes nothing from behind. -/
theorem Leaves.abuts (h : Leaves n ts mid) (h' : Abuts mid rest) : Abuts ts rest := by
  obtain ⟨t, hend, htrivia, hleaves⟩ := h'
  exact ⟨t, hend, htrivia, (h.trans hleaves).mono (Nat.zero_le _)⟩

theorem abuts_expectSymbol {s : Symbol} {span : Span} (h : expectSymbol s ts = .ok (span, rest)) :
    Abuts ts rest := by
  have hskip : Leaves 0 ts _ := leaves_skipNewlines
  rw [expectSymbol_eq_ok_iff.mp h] at hskip
  exact hskip.abuts (abuts_token rfl rfl rest)

theorem ReadsSegment.abuts {operand : Context → Rule Operand} {s : Segment} {span : Span}
    (h : ReadsSegment operand ts s span rest) : Abuts ts rest := by
  cases h <;> exact abuts_token rfl rfl _

section

variable {operand : Context → Rule Operand}

/-- A path of names ends with its last name. -/
theorem abuts_attrPath {p : AttrPath} (h : attrPath operand ts = .ok (p, rest)) :
    Abuts ts rest := by
  obtain ⟨first, start, mid, hfirst, more, hmore, -⟩ := attrPath_eq_ok_iff.mp h
  -- the invariant is carried from the first name over each of the others
  have hrounds := rounds_of_repeated stop_dottedSegment hmore
  replace hfirst := hfirst.abuts
  clear hmore h
  induction hrounds generalizing ts with
  | nil => exact hfirst
  | cons head _ ih =>
    obtain ⟨dot, us, rfl, hsegment⟩ := dottedSegment_eq_some_iff.mp head
    obtain ⟨t, hend, -, hleaves⟩ := hfirst
    have hdot : Leaves 1 (⟨.symbol .dot, dot⟩ :: us) us := (Leaves.refl us).cons rfl
    exact ih (hleaves.abuts ((hdot.cons hend).abuts hsegment.abuts))

variable (hop : Advances operand)
include hop

theorem abuts_list {start : Span} {t : Term} (h : list operand start ts = .ok (t, rest)) :
    Abuts ts rest := by
  obtain ⟨items, mid, hitems, stop, hstop, -⟩ := list_eq_ok_iff.mp h
  have hrounds := (rounds_of_repeated stop_item hitems).leaves (leaves_item hop)
  exact (hrounds.trans leaves_skipTrivia).abuts (abuts_expectSymbol hstop)

theorem abuts_attrSet {recursive : Bool} {start : Span} {t : Term}
    (h : attrSet operand recursive start ts = .ok (t, rest)) : Abuts ts rest := by
  obtain ⟨bs, mid, hbs, stop, hstop, -⟩ := attrSet_eq_ok_iff.mp h
  have hrounds := (rounds_of_repeated stop_bindingUnless hbs).leaves_bindings hop
  exact (hrounds.trans leaves_skipTrivia).abuts (abuts_expectSymbol hstop)

theorem abuts_paren {start : Span} {t : Term} (h : paren operand start ts = .ok (t, rest)) :
    Abuts ts rest := by
  obtain ⟨body, mid, hbody, stop, hstop, -⟩ := paren_eq_ok_iff.mp h
  exact (leaves_expression hop hbody).abuts (abuts_expectSymbol hstop)

/-- **A term that does not end with an operand ends with a token of its own.** -/
theorem ReadsTerm.abuts {t : Term} (h : ReadsTerm operand ctx ts t rest)
    (ht : t.isOpen = false) : Abuts ts rest := by
  have hone (t : Token) (hend : t.isEnd = false) (ts : List Token) : Leaves 1 (t :: ts) ts :=
    (Leaves.refl ts).cons hend
  cases h with
  | null | bool | int | float | path | string | interpolation => exact abuts_token rfl rfl _
  | negativeInt | negativeFloat => exact (hone _ rfl _).abuts (abuts_token rfl rfl _)
  | name _ _ h => exact abuts_attrPath h
  | list h => exact (hone _ rfl _).abuts (abuts_list hop h)
  | attrSet _ h => exact (hone _ rfl _).abuts (abuts_attrSet hop h)
  | recursive hbrace h =>
    exact ((hone _ rfl _).trans (leaves_expectSymbol hbrace)).abuts (abuts_attrSet hop h)
  | paren h => exact (hone _ rfl _).abuts (abuts_paren hop h)
  | lambda h => exact absurd (isOpen_of_lambda h) (by simp [ht])
  | pattern _ h | namedPattern _ h => exact absurd (isOpen_of_patternLambda h) (by simp [ht])
  | letIn h => exact absurd (isOpen_of_letIn h) (by simp [ht])
  | import_ h => exact absurd (isOpen_of_importOf h) (by simp [ht])
  | conditional h => exact absurd (isOpen_of_conditional h) (by simp [ht])
  | not h | negate _ _ h => exact absurd (isOpen_of_unary h) (by simp [ht])

end

/-- The last token that was read ends where the operand does. -/
theorem stop_of_leaves {o : Operand} {t : Token} (h : operandUpTo n ctx ts = .ok (o, rest))
    (hend : t.isEnd = false) (htrivia : t.isTrivia = false) (hleaves : Leaves 0 ts (t :: mid))
    (hrest : rest = skipTrivia mid) : o.span.stop = t.span.stop := by
  obtain ⟨w, -, hw, hts⟩ := locates_operandUpTo n h
  obtain ⟨front, rfl, -, hfront⟩ := hleaves
  rw [hrest, significant_skipTrivia, significant_append hfront, significant_cons mid hend htrivia,
    List.append_cons] at hts
  obtain rfl := List.append_cancel_right hts
  simpa using hw.stop.symm

/-- **Where an operand ends that has a last token of its own.** It has the comments behind it. -/
theorem exists_behind {o : Operand} (h : operandUpTo n ctx ts = .ok (o, rest))
    (ho : o.term.isOpen = false) :
    ∃ t us, t.isEnd = false ∧ Leaves 0 ts (t :: us) ∧ o.span.stop = t.span.stop ∧
      o.after = commentsAhead us := by
  cases n with
  | zero => simp [operandUpTo] at h
  | succ n =>
    have hadv := advances_operandUpTo n
    obtain ⟨clauses, ts₁, hclauses, head, ts₂, hhead, t, ts₃, ht, hrest, rfl⟩ :=
      operandWith_eq_ok_iff.mp h
    have hfront := (rounds_of_repeated stop_clause hclauses).leaves
      fun hc => (leaves_clause hadv hc).mono (by omega)
    rcases withArguments_cases ht with ⟨rfl, rfl⟩ | ⟨arguments, span, -, rfl⟩
    · have hterm := (termIn_eq_ok_iff.mp hhead).abuts hadv ho
      obtain ⟨t, hend, htrivia, hleaves⟩ := (hfront.trans leaves_skipTrivia).abuts hterm
      exact ⟨t, ts₃, hend, hleaves, stop_of_leaves h hend htrivia hleaves hrest, rfl⟩
    · cases ho

/-! ### Terms that end with an operand

The operand with which the term ends is inside of it, so it is among its nodes, and it ends at the
same place because places are joined from their ends. -/

/-- An expression ends with the last operand of its chain. -/
theorem exists_operand_of_expression {e : Expr}
    (h : expression (operandUpTo n) ts = .ok (e, rest)) :
    ∃ o, .expr (.operand o) ∈ e.nodes ∧ o.span.stop = e.span.stop := by
  obtain ⟨first, mid, -, links, -, rfl⟩ := expression_eq_ok_iff.mp h
  exact (joined_assemble first links).exists_operand

/-- One case for each form that is open. -/
theorem ReadsTerm.exists_operand {t : Term} (h : ReadsTerm (operandUpTo n) ctx ts t rest)
    (ht : t.isOpen = true) : ∃ o, .expr (.operand o) ∈ t.nodes ∧ o.span.stop = t.span.stop := by
  cases h with
  | lambda h =>
    obtain ⟨body, hbody, rfl⟩ := lambda_eq_ok_iff.mp h
    obtain ⟨o, ho, hstop⟩ := exists_operand_of_expression hbody
    exact ⟨o, by simp [Term.nodes, ho], hstop⟩
  | pattern _ h | namedPattern _ h =>
    obtain ⟨body, ts₁, -, stop, ts₂, -, whole, span, more, ts₃, -, colon, ts₄, -, result, hresult,
      rfl⟩ := patternLambda_eq_ok_iff.mp h
    obtain ⟨o, ho, hstop⟩ := exists_operand_of_expression hresult
    exact ⟨o, by simp [Term.nodes, ho], hstop⟩
  | letIn h =>
    obtain ⟨bs, ts₁, -, stop, ts₂, -, body, hbody, rfl⟩ := letIn_eq_ok_iff.mp h
    obtain ⟨o, ho, hstop⟩ := exists_operand_of_expression hbody
    exact ⟨o, by simp [Term.nodes, ho], hstop⟩
  | import_ h =>
    obtain ⟨source, -, rfl⟩ := importOf_eq_ok_iff.mp h
    exact ⟨source, by simp [Term.nodes, Expr.nodes], rfl⟩
  | conditional h =>
    obtain ⟨c, ts₁, -, s₁, ts₂, -, a, ts₃, -, s₂, ts₄, -, b, hb, rfl⟩ := conditional_eq_ok_iff.mp h
    obtain ⟨o, ho, hstop⟩ := exists_operand_of_expression hb
    exact ⟨o, by simp [Term.nodes, ho], hstop⟩
  | not h | negate _ _ h =>
    obtain ⟨o, -, rfl⟩ := unary_eq_ok_iff.mp h
    exact ⟨o, by simp [Term.nodes, Expr.nodes], rfl⟩
  | attrSet _ h | recursive _ h =>
    obtain ⟨bs, mid, -, stop, -, rfl⟩ := attrSet_eq_ok_iff.mp h
    cases ht
  | list h =>
    obtain ⟨items, mid, -, stop, -, rfl⟩ := list_eq_ok_iff.mp h
    cases ht
  | paren h =>
    obtain ⟨body, mid, -, stop, -, rfl⟩ := paren_eq_ok_iff.mp h
    cases ht
  | _ => cases ht

/-- **Where an operand ends that has no last token of its own.** An operand inside of it ends at the
same place. -/
theorem exists_inside_of_isOpen {o : Operand} (h : operandUpTo n ctx ts = .ok (o, rest))
    (ho : o.term.isOpen = true) :
    ∃ i, .expr (.operand i) ∈ o.inside ∧ i.span.stop = o.span.stop := by
  cases n with
  | zero => simp [operandUpTo] at h
  | succ n =>
    obtain ⟨clauses, ts₁, -, head, ts₂, hhead, t, ts₃, ht, -, rfl⟩ := operandWith_eq_ok_iff.mp h
    obtain ⟨i, hi, hstop⟩ : ∃ i, .expr (.operand i) ∈ t.nodes ∧ i.span.stop = t.span.stop := by
      rw [withArguments] at ht
      split at ht
      · obtain ⟨arguments, -, ⟨rfl, rfl⟩ | ⟨last, hlast, rfl⟩⟩ := applied_eq_ok_iff.mp ht
        · exact (termIn_eq_ok_iff.mp hhead).exists_operand ho
        · refine ⟨last, ?_, rfl⟩
          have hmem := List.mem_of_getLast? hlast
          simp only [Term.nodes, exprsNodes_eq, List.flatMap_map, List.mem_cons, List.mem_append,
            List.mem_flatMap]
          exact .inr (.inr ⟨last, hmem, by simp [Expr.nodes]⟩)
      · obtain ⟨rfl, -⟩ := by simpa using ht
        exact (termIn_eq_ok_iff.mp hhead).exists_operand ho
    refine ⟨i, List.mem_append_right _ hi, hstop.trans ?_⟩
    cases clauses <;> rfl

end Grammar

end NixSyntax
