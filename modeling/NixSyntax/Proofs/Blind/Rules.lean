import NixSyntax.Proofs.Blind.Pairs
import NixSyntax.Proofs.Reading.Progress

/-!
# Rules on tokens that are not told apart

No rule of the grammar tells the lists of a pairing apart, one lemma for each rule. A rule begins
and ends with as many braces to be closed. The forms in braces are the only ones that begin with one
more, since they begin behind their opening brace.

## What has to be shown for a rule

A rule is a chain of smaller rules, so by `Agree.bind` it is enough that none of them tells the
lists apart. What is left are the places where a rule looks at the tokens in front of it and
decides.

Where a form asks for a mark or a keyword, it is there on both sides or on none
(`Pairing.Paired.front_kind`). Where a form is told by its first token, the tokens on the two sides
resemble each other, so they are of one kind. A string or an interpolation may have other tokens
inside on the other side, but what is read from them is the same. And where braces may be a pattern,
the look ahead gives the same answer, as it looks no further than the brace that matches
(`Pairing.Paired.opensPattern_eq`).

Comments and trees are the same on both sides all along. So nothing has to be said about what the
rules make of them.

## Main results

* `blind_expression`, `blind_patternBody`, …: one lemma for each rule
* `blind_attrSet`, `blind_patternLambda`: the forms in braces, which end one brace further out
* `blind_operandUpTo`: operands, and so all rules
-/

namespace NixSyntax

namespace Grammar

variable {P : Pairing} {depth n : Nat}

/-! ### Names

A segment of a path of names needs nothing to be known of operands. If it is a string or an
interpolation, what is read from it is a part of how the two tokens resemble each other. -/

/-- A name, a string, or an interpolation: the two tokens are of one kind, and the same is read from
them. -/
theorem blind_segment : Blind P depth depth (segment (operandUpTo n)) := by
  intro ts ts' h
  cases h.front with
  | nil => exact h.refuse _
  | cons resembles =>
    cases resembles with
    | string parts => exact (parts n).stringOf.agree_bind fun literal => .ok (h.behind rfl)
    | interpolation content => exact (content n).agree_bind fun content => .ok (h.behind rfl)
    | @same kind span hkind =>
      cases kind with
      | string | interpolation => cases hkind
      | identifier name => exact .ok (h.behind rfl)
      | _ => exact h.refuse _

theorem blind_dottedSegment : Blind P depth depth (dottedSegment (operandUpTo n)) := by
  intro ts ts' h
  rcases h.front_symbol .dot with ⟨span, us, us', rfl, rfl⟩ | ⟨hne, hne'⟩
  · exact (blind_segment (h.behind rfl)).bind fun s rest rest' left => .ok left
  · rw [dottedSegment.eq_2 (operandUpTo n) ts hne, dottedSegment.eq_2 (operandUpTo n) ts' hne']
    exact .ok h

/-- Segments and dots, one behind the other. -/
theorem blind_attrPath : Blind P depth depth (attrPath (operandUpTo n)) := by
  intro ts ts' h
  refine (blind_segment h).bind fun (first, start) ts ts' h => ?_
  refine (blind_dottedSegment.repeated repeatable_dottedSegment h).bind fun more ts ts' h => ?_
  exact .ok h

variable (hop : ∀ ctx depth, Blind P depth depth (operandUpTo n ctx))
include hop

/-! ### Expressions

Operators hold no tokens, so they are the same on both sides. -/

/-- An operator is there on both sides, or on none. -/
theorem blind_link : Blind P depth depth (link (operandUpTo n)) := by
  intro ts ts' h
  cases h.front with
  | nil => exact .ok h
  | @cons t t' us us' resembles =>
    rw [link, link, ← resembles.binaryOp?_eq, ← resembles.span_eq]
    cases hop' : t.binaryOp? with
    | none => exact .ok h
    | some op =>
      have ht : t.isBrace = false := by
        obtain ⟨kind, span⟩ := t
        cases kind with
        | symbol s => cases s <;> first | rfl | cases hop'
        | _ => rfl
      exact (hop .chain depth (h.behind ht)).bind fun o ts ts' h => .ok h

theorem blind_expression : Blind P depth depth (expression (operandUpTo n)) := by
  intro ts ts' h
  have hr := repeatable_link (advances_operandUpTo n)
  refine (hop .chain depth h).bind fun first ts ts' h => ?_
  refine ((blind_link hop).repeated hr h).bind fun links ts ts' h => ?_
  exact .ok h

/-! ### Bindings

The bindings of a set and those of a `let` end at different tokens. What ends them is a parameter,
of which only has to be known that it ends both sides. -/

/-- The parenthesis in front of the source of an `inherit` is there on both sides, or on none. -/
theorem blind_inheritSource : Blind P depth depth (inheritSource (operandUpTo n)) := by
  intro ts ts' h
  rw [inheritSource, inheritSource, h.commentsAhead_eq]
  rcases h.skipTrivia.front_symbol .openParen with
    ⟨span, us, us', heq, heq'⟩ | ⟨hne, hne'⟩
  · have hskip := h.skipTrivia
    rw [heq, heq'] at hskip ⊢
    refine (blind_expression hop (hskip.behind rfl)).bind fun source ts ts' h => ?_
    exact (blind_expectSymbol (fun _ => rfl) h).bind fun stop ts ts' h => .ok h
  · split
    · exact absurd ‹_› (hne _ _)
    · exact .ok h

omit hop in
theorem blind_inheritedName : Blind P depth depth (inheritedName (operandUpTo n)) := by
  intro ts ts' h
  rw [inheritedName, inheritedName, h.commentsAhead_eq, h.skipTrivia.atEnd_eq, h.nextIsSymbol_eq]
  split
  · exact .ok h
  · exact (blind_attrPath h.skipTrivia).bind fun name ts ts' h => .ok h

theorem blind_inheritance (comments : List Comment) (start : Span) :
    Blind P depth depth (inheritance (operandUpTo n) comments start) := by
  intro ts ts' h
  refine (blind_inheritSource hop h).bind fun (source, more) ts ts' h => ?_
  refine (blind_inheritedName.repeated repeatable_inheritedName h).bind fun names ts ts' h => ?_
  simp only [h.commentsAhead_eq]
  exact (blind_expectSymbol (fun _ => rfl) h.skipTrivia).bind fun stop ts ts' h => .ok h

theorem blind_assignment (comments : List Comment) :
    Blind P depth depth (assignment (operandUpTo n) comments) := by
  intro ts ts' h
  refine (blind_attrPath h).bind fun name ts ts' h => ?_
  simp only [h.commentsAhead_eq]
  refine (blind_expectSymbol (fun _ => rfl) h.skipTrivia).bind fun eq ts ts' h => ?_
  refine (blind_expression hop h).bind fun value ts ts' h => ?_
  exact (blind_expectSymbol (fun _ => rfl) h).bind fun stop ts ts' h => .ok h

theorem blind_binding : Blind P depth depth (binding (operandUpTo n)) := by
  intro ts ts' h
  rw [binding, binding, h.commentsAhead_eq]
  have hskip := h.skipTrivia
  rcases hskip.front_keyword .inherit with ⟨start, us, us', heq, heq'⟩ | ⟨hne, hne'⟩
  · rw [heq, heq'] at hskip ⊢
    exact blind_inheritance hop _ _ (hskip.behind rfl)
  · split
    · exact absurd ‹_› (hne _ _)
    · exact blind_assignment hop _ hskip

/-- A block of bindings ends on both sides at once. -/
theorem blind_bindingUnless {closed : List Token → Bool}
    (hclosed : ∀ {ts ts'}, P.Paired depth ts ts' → closed ts = closed ts') :
    Blind P depth depth (bindingUnless (operandUpTo n) closed) := by
  intro ts ts' h
  rw [bindingUnless, bindingUnless, h.skipTrivia.atEnd_eq, hclosed h]
  split
  · exact .ok h
  · exact (blind_binding hop h).bind fun b ts ts' h => .ok h

theorem blind_bindings {closed : List Token → Bool}
    (hclosed : ∀ {ts ts'}, P.Paired depth ts ts' → closed ts = closed ts') :
    Blind P depth depth (repeated (bindingUnless (operandUpTo n) closed)) := by
  intro ts ts' h
  exact (blind_bindingUnless hop hclosed).repeated
    (repeatable_bindingUnless (advances_operandUpTo n)) h

/-- An attribute set ends one brace further out than it begins. -/
theorem blind_attrSet (recursive : Bool) (start : Span) :
    Blind P (depth + 1) depth (attrSet (operandUpTo n) recursive start) := by
  intro ts ts' h
  have hbindings := blind_bindings hop (fun h => h.nextIsSymbol_eq .closeBrace) h
  refine hbindings.bind fun bindings ts ts' h => ?_
  simp only [h.commentsAhead_eq]
  exact (blind_closeBrace h.skipTrivia).bind fun stop ts ts' h => .ok h

/-- A `let` has no braces of its own, and ends as far in as it begins. -/
theorem blind_letIn (start : Span) : Blind P depth depth (letIn (operandUpTo n) start) := by
  intro ts ts' h
  have hbindings := blind_bindings hop (fun h => h.nextIsKeyword_eq .in_) h
  refine hbindings.bind fun bindings ts ts' h => ?_
  simp only [h.commentsAhead_eq]
  refine (blind_expectKeyword _ h.skipTrivia).bind fun _ ts ts' h => ?_
  exact (blind_expression hop h).bind fun body ts ts' h => .ok h

/-! ### Functions

A pattern is read up to its closing brace and no further. The name behind it, the colon and the body
stand outside the braces. -/

theorem blind_lambda (parameter : AttrPath) :
    Blind P depth depth (lambda (operandUpTo n) parameter) := by
  intro ts ts' h
  exact (blind_expression hop h).bind fun body ts ts' h => .ok h

/-- The default of an attribute is there on both sides, or on none. -/
theorem blind_formal (comments : List Comment) :
    Blind P depth depth (formal (operandUpTo n) comments) := by
  intro ts ts' h
  refine (blind_attrPath h).bind fun name ts ts' h => ?_
  simp only [h.commentsAhead_eq]
  have hskip := h.skipTrivia
  rcases hskip.front_symbol .question with ⟨start, us, us', heq, heq'⟩ | ⟨hne, hne'⟩
  · rw [heq, heq'] at hskip ⊢
    exact (blind_expression hop (hskip.behind rfl)).bind fun fallback ts ts' h => .ok h
  · split
    · exact absurd ‹_› (hne _ _)
    · exact .ok hskip

/-- Everything between the braces of a pattern is as far in as they are. -/
theorem blind_patternBody : Blind P depth depth (patternBody (operandUpTo n)) := by
  -- the number of tokens bounds the attributes, and it may not be the same on both sides
  suffices ∀ k k' ts ts', P.Paired depth ts ts' → ts.length ≤ k → ts'.length ≤ k' →
      Agree P.fault (P.Paired depth) (patternBodyUpTo (operandUpTo n) k ts)
        (patternBodyUpTo (operandUpTo n) k' ts') from
    fun ts ts' h => this _ _ ts ts' h (Nat.le_refl _) (Nat.le_refl _)
  intro k
  induction k with
  | zero =>
    intro k' ts ts' h hk _
    obtain rfl := List.length_eq_zero_iff.mp (Nat.le_zero.mp hk)
    cases h.front with
    | nil =>
      rw [patternBodyUpTo_nil, patternBodyUpTo_nil]
      exact h.refuse _
  | succ k ih =>
    intro k' ts ts' h hk hk'
    cases k' with
    | zero =>
      obtain rfl := List.length_eq_zero_iff.mp (Nat.le_zero.mp hk')
      cases h.front with
      | nil =>
        rw [patternBodyUpTo_nil, patternBodyUpTo_nil]
        exact h.refuse _
    | succ k' =>
      rw [patternBodyUpTo, patternBodyUpTo, h.commentsAhead_eq]
      have hskip := h.skipTrivia
      rcases hskip.front_symbol .closeBrace with
        ⟨span, us, us', heq, heq'⟩ | ⟨hclose, hclose'⟩
      · rw [heq, heq'] at hskip ⊢
        exact .ok hskip
      rcases hskip.front_symbol .ellipsis with
        ⟨span, us, us', heq, heq'⟩ | ⟨hellipsis, hellipsis'⟩
      · rw [heq, heq'] at hskip ⊢
        have hbehind := hskip.behind rfl
        simp only [hbehind.commentsAhead_eq]
        exact .ok hbehind.skipTrivia
      split
      · exact absurd ‹_› (hclose _ _)
      · exact absurd ‹_› (hellipsis _ _)
      · refine (blind_formal hop _ hskip).bind_of_eq fun f rest rest' hf hf' h => ?_
        have hadv := advances_operandUpTo n
        have hlt := (leaves_skipTrivia.trans (leaves_formal hadv hf)).length_le
        have hlt' := (leaves_skipTrivia.trans (leaves_formal hadv hf')).length_le
        rcases h.front_symbol .comma with ⟨span, us, us', rfl, rfl⟩ | ⟨hcomma, hcomma'⟩
        · rw [List.length_cons] at hlt hlt'
          refine (ih k' us us' (h.behind rfl) (by omega) (by omega)).bind
            fun body ts ts' h => .ok h
        rcases h.front_symbol .closeBrace with ⟨span, us, us', rfl, rfl⟩ | ⟨hclose, hclose'⟩
        · exact .ok h
        · simp only
          exact h.refuse _

omit hop in
theorem blind_patternName : Blind P depth depth (patternName (operandUpTo n)) := by
  intro ts ts' h
  rcases h.front_symbol .atSign with ⟨span, us, us', rfl, rfl⟩ | ⟨hne, hne'⟩
  · have hbehind := h.behind rfl
    rw [patternName, patternName, hbehind.commentsAhead_eq]
    refine (blind_attrPath hbehind.skipTrivia).bind fun name ts ts' h => ?_
    simp only [h.commentsAhead_eq]
    exact .ok h.skipTrivia
  · rw [patternName.eq_2 (operandUpTo n) ts hne, patternName.eq_2 (operandUpTo n) ts' hne']
    exact .ok h

omit hop in
/-- A name in front of a pattern is no part of the tokens behind it, so no name is asked for
then. -/
theorem blind_patternEnd (front : Option AttrPath) (start stop : Span) :
    Blind P depth depth (patternEnd (operandUpTo n) front start stop) := by
  intro ts ts' h
  cases front with
  | some name => exact .ok h
  | none => exact (blind_patternName h).bind fun (name, comments) ts ts' h => .ok h

/-- A pattern ends one brace further out than it begins, and the function goes on there. -/
theorem blind_patternLambda (front : Option AttrPath) (start : Span) :
    Blind P (depth + 1) depth (patternLambda (operandUpTo n) front start) := by
  intro ts ts' h
  refine (blind_patternBody hop h).bind fun body ts ts' h => ?_
  refine (blind_closeBrace h).bind fun stop ts ts' h => ?_
  refine (blind_patternEnd front start stop h.skipTrivia).bind
    fun (name, span, more) us us' h' => ?_
  refine (blind_expectSymbol (fun _ => rfl) h').bind fun _ us us' h' => ?_
  refine (blind_expression hop h').bind fun result us us' h' => ?_
  simp only [h.commentsAhead_eq]
  exact .ok h'

/-! ### Terms

The term is chosen by its first token, and behind a brace or a name also by the look ahead. -/

theorem blind_paren (start : Span) : Blind P depth depth (paren (operandUpTo n) start) := by
  intro ts ts' h
  refine (blind_expression hop h).bind fun body ts ts' h => ?_
  exact (blind_expectSymbol (fun _ => rfl) h).bind fun stop ts ts' h => .ok h

theorem blind_item : Blind P depth depth (item (operandUpTo n)) := by
  intro ts ts' h
  rw [item, item, h.skipTrivia.atEnd_eq, h.nextIsSymbol_eq]
  split
  · exact .ok h
  · exact (hop .single depth h).bind fun o ts ts' h => .ok h

theorem blind_list (start : Span) : Blind P depth depth (list (operandUpTo n) start) := by
  intro ts ts' h
  have hr := repeatable_item (advances_operandUpTo n)
  refine ((blind_item hop).repeated hr h).bind fun items ts ts' h => ?_
  simp only [h.commentsAhead_eq]
  exact (blind_expectSymbol (fun _ => rfl) h.skipTrivia).bind fun stop ts ts' h => .ok h

theorem blind_conditional (start : Span) :
    Blind P depth depth (conditional (operandUpTo n) start) := by
  intro ts ts' h
  refine (blind_expression hop h).bind fun condition ts ts' h => ?_
  refine (blind_expectKeyword _ h).bind fun _ ts ts' h => ?_
  refine (blind_expression hop h).bind fun consequence ts ts' h => ?_
  refine (blind_expectKeyword _ h).bind fun _ ts ts' h => ?_
  exact (blind_expression hop h).bind fun alternative ts ts' h => .ok h

theorem blind_importOf (start : Span) : Blind P depth depth (importOf (operandUpTo n) start) := by
  intro ts ts' h
  exact (hop .single depth h).bind fun source ts ts' h => .ok h

/-- Each form that begins with a keyword goes on behind it, and `rec` goes on one brace further
in. -/
theorem blind_keywordForm {ts ts' : List Token} (k : Keyword) (span : Span)
    (h : P.Paired depth ts ts') :
    Agree P.fault (P.Paired depth) (keywordForm (operandUpTo n) k span ts)
      (keywordForm (operandUpTo n) k span ts') := by
  cases k with
  | let_ => exact blind_letIn hop span h
  | import_ => exact blind_importOf hop span h
  | if_ => exact blind_conditional hop span h
  | rec_ => exact (blind_openBrace h).bind fun _ ts ts' h => blind_attrSet hop true span h
  | _ => exact .error (P.fault_refl _)

/-- A name is the parameter of a function, the name of a pattern, or a path of names, and it is the
same of these on both sides. -/
theorem blind_nameForm {ts ts' : List Token} {name : String} {span : Span}
    (h : P.Paired depth (⟨.identifier name, span⟩ :: ts) (⟨.identifier name, span⟩ :: ts')) :
    Agree P.fault (P.Paired depth) (nameForm (operandUpTo n) name span ts)
      (nameForm (operandUpTo n) name span ts') := by
  have hpath : Agree P.fault (P.Paired depth)
      (do
        let r ← attrPath (operandUpTo n) (⟨.identifier name, span⟩ :: ts)
        return (Term.name r.1, r.2))
      (do
        let r ← attrPath (operandUpTo n) (⟨.identifier name, span⟩ :: ts')
        return (Term.name r.1, r.2)) :=
    (blind_attrPath h).bind fun p ts ts' h => .ok h
  replace h := h.behind rfl
  rcases h.front_symbol .colon with ⟨colon, us, us', rfl, rfl⟩ | ⟨hcolon, hcolon'⟩
  · exact blind_lambda hop _ (h.behind rfl)
  -- only an `@` with a pattern behind it goes on with the name
  rcases h.front_symbol .atSign with ⟨atSign, us, us', rfl, rfl⟩ | ⟨hat, hat'⟩
  · have hbehind := h.behind rfl
    rcases hbehind.front_symbol .openBrace with
      ⟨brace, vs, vs', rfl, rfl⟩ | ⟨hbrace, hbrace'⟩
    · rw [nameForm, nameForm, hbehind.inside.opensPattern_eq]
      split
      · exact blind_patternLambda hop _ brace hbehind.inside
      · exact hpath
    · rw [nameForm, nameForm]
      · exact hpath
      all_goals simp [hbrace, hbrace']
  · rw [nameForm, nameForm]
    · exact hpath
    all_goals simp [hcolon, hcolon', hat, hat']

/-- The first tokens resemble each other, so the same form is read. -/
theorem blind_primary : Blind P depth depth (primary (operandUpTo n)) := by
  intro ts ts' h
  cases h.front with
  | nil => exact h.refuse _
  | cons resembles =>
    cases resembles with
    | string parts => exact (parts n).stringOf.agree_bind fun literal => .ok (h.behind rfl)
    | interpolation content => exact (content n).agree_bind fun content => .ok (h.behind rfl)
    | @same kind span hkind =>
      cases kind with
      | string | interpolation => cases hkind
      | null => exact .ok (h.behind rfl)
      | bool value => exact .ok (h.behind rfl)
      | int value => exact .ok (h.behind rfl)
      | float value => exact .ok (h.behind rfl)
      | path value => exact .ok (h.behind rfl)
      | identifier name => exact blind_nameForm hop h
      | keyword k => exact blind_keywordForm hop k span (h.behind rfl)
      | symbol s =>
        cases s with
        | openBracket => exact blind_list hop span (h.behind rfl)
        | openParen => exact blind_paren hop span (h.behind rfl)
        -- the same braces open a pattern on both sides, or on neither
        | openBrace =>
          rw [primary, primary, h.inside.opensPattern_eq]
          split
          · exact blind_patternLambda hop none span h.inside
          · exact blind_attrSet hop false span h.inside
        | _ => exact h.refuse _
      | _ => exact h.refuse _

theorem blind_unary (ctx : Context) (op : UnaryOp) (start : Span) :
    Blind P depth depth (unary (operandUpTo n) ctx op start) := by
  intro ts ts' h
  exact (hop ctx depth h).bind fun o ts ts' h => .ok h

/-- A sign is told from a negative number by the token behind it, which is the same on both sides if
it is a number. -/
theorem blind_termIn (ctx : Context) : Blind P depth depth (termIn (operandUpTo n) ctx) := by
  intro ts ts' h
  have hprimary := blind_primary hop h
  rcases h.front_symbol .bang with ⟨span, us, us', rfl, rfl⟩ | ⟨hbang, hbang'⟩
  · exact blind_unary hop ctx .not span (h.behind rfl)
  rcases h.front_symbol .minus with ⟨span, us, us', rfl, rfl⟩ | ⟨hminus, hminus'⟩
  · replace h := h.behind rfl
    have hunary := blind_unary hop ctx .negate span h
    cases h.front with
    | nil => exact hunary
    | cons resembles =>
      cases resembles with
      | string | interpolation => exact hunary
      | @same kind stop =>
        cases kind with
        | int value => exact .ok (h.behind rfl)
        | float value => exact .ok (h.behind rfl)
        | _ => exact hunary
  · rw [termIn, termIn]
    · exact hprimary
    all_goals simp [hbang, hbang', hminus, hminus']

/-! ### Operands

Arguments are read as long as one can begin, and this is asked of the first token behind the
trivia. -/

theorem blind_argument : Blind P depth depth (argument (operandUpTo n)) := by
  intro ts ts' h
  rw [argument, argument]
  have hskip := h.skipTrivia
  generalize skipTrivia ts = us, skipTrivia ts' = us' at hskip ⊢
  cases hskip.front with
  | nil => exact .ok h
  | cons resembles =>
    simp only [resembles.startsArgument_eq]
    split
    · exact (hop .single depth h).bind fun o ts ts' h => .ok h
    · exact .ok h

/-- As many arguments on either side, each the same. -/
theorem blind_applied (callee : Term) : Blind P depth depth (applied (operandUpTo n) callee) := by
  intro ts ts' h
  have hr := repeatable_argument (advances_operandUpTo n)
  refine ((blind_argument hop).repeated hr h).bind fun arguments ts ts' h => ?_
  simp only
  split <;> exact .ok h

theorem blind_clause : Blind P depth depth (clause (operandUpTo n)) := by
  intro ts ts' h
  rw [clause, clause, h.commentsAhead_eq]
  have hskip := h.skipTrivia
  generalize skipTrivia ts = us, skipTrivia ts' = us' at hskip ⊢
  cases hskip.front with
  | nil => exact .ok h
  | cons resembles =>
    cases resembles with
    | string | interpolation => exact .ok h
    | @same kind start =>
      cases kind with
      | keyword k =>
        simp only
        cases clauseKind? k with
        | none => exact .ok h
        | some kind =>
          refine (blind_expression hop (hskip.behind rfl)).bind fun subject ts ts' h => ?_
          exact (blind_expectSymbol (fun _ => rfl) h).bind fun stop ts ts' h => .ok h
      | _ => exact .ok h

/-- From the operands inside to the operand around them: clauses, a term, arguments and trivia, none
of which tells the lists apart. -/
theorem blind_operandWith (ctx : Context) :
    Blind P depth depth (operandWith (operandUpTo n) ctx) := by
  intro ts ts' h
  have hr := repeatable_clause (advances_operandUpTo n)
  refine ((blind_clause hop).repeated hr h).bind fun clauses ts ts' h => ?_
  simp only [h.commentsAhead_eq]
  refine (blind_termIn hop ctx h.skipTrivia).bind fun term us us' h' => ?_
  split
  · refine (blind_applied hop term h').bind fun term us us' h' => ?_
    simp only [h'.commentsAhead_eq]
    exact .ok h'.skipTrivia
  · simp only [pure_bind, h'.commentsAhead_eq]
    exact .ok h'.skipTrivia

omit hop in
/-- **No operand tells the lists of a pairing apart.** -/
theorem blind_operandUpTo (n : Nat) (ctx : Context) (depth : Nat) :
    Blind P depth depth (operandUpTo n ctx) := by
  induction n generalizing ctx depth with
  | zero => exact fun ts ts' h => h.refuse _
  | succ n ih => exact blind_operandWith ih ctx

end Grammar

end NixSyntax
