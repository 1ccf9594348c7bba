import NixSyntax.Proofs.Reading.Repetition

/-!
# What a rule that succeeds has read: expressions, names, bindings and functions

One lemma for each rule of the grammar. It says exactly when the rule succeeds and with which
result, in terms of the rules it is made of, so no later proof looks into a rule's definition.

A rule that is a sequence is opened into an existential for each of its parts. A rule that is a
choice between many forms is opened into an inductive relation with one constructor for each form.
A round has two lemmas, one for a round that reads something and one for the round that ends a
repetition.

## Where the definitions are looked into

The rules are written in a monad, with matches on the next tokens. A proof that opened them where
they are used would depend on how they are written. So it is done here once for each rule, as far as
the rule succeeds. Only those proofs that are about faults as well follow the definitions
themselves. Each lemma is an equivalence, so it serves to find out what has been read as well as to
show that something can be read.

The result stands at the end of each statement as an equation, so `obtain ⟨…, rfl⟩` replaces it by
what the rule has built.

## Main definitions

* `ReadsParts`: the parts of a string
* `ReadsSegment`: the three ways to write one name of a path
* `ReadsPattern`: the inside of a pattern, without the bound on its length
-/

namespace NixSyntax

namespace Grammar

variable {operand : Context → Rule Operand} {ts rest : List Token}

/-! ### Expressions

A link needs an operator in front, and there are as many links as there are operators. -/

/-- An operator in front, and an operand behind it. -/
theorem link_eq_some_iff {operator : Operator} {o : Operand} :
    link operand ts = .ok (some (operator, o), rest) ↔
      ∃ t us op, ts = t :: us ∧ t.binaryOp? = some op ∧ operator = ⟨op, t.span⟩ ∧
        operand .chain us = .ok (o, rest) := by
  cases ts with
  | nil => simp [link]
  | cons t us =>
    cases hop : t.binaryOp? with
    | none =>
      simp only [link, hop, Except.ok.injEq, Prod.mk.injEq, reduceCtorEq, false_and, false_iff]
      rintro ⟨t', us', op, h, hop', -⟩
      obtain ⟨rfl, rfl⟩ := List.cons.inj h
      rw [hop] at hop'
      cases hop'
    | some op =>
      simp only [link, hop, bind_eq_ok_iff, pure_eq_ok_iff, Prod.exists, Prod.mk.injEq,
        Option.some.injEq]
      constructor
      · rintro ⟨o', rest', h, ⟨rfl, rfl⟩, rfl⟩
        exact ⟨t, us, op, rfl, hop, rfl, h⟩
      · rintro ⟨t', us', op', h, hop', rfl, ho⟩
        obtain ⟨rfl, rfl⟩ := List.cons.inj h
        obtain rfl := Option.some.inj (hop.symm.trans hop')
        exact ⟨o, rest, ho, ⟨rfl, rfl⟩, rfl⟩

/-- No operator in front. Nothing is taken then. -/
theorem link_eq_none_iff :
    link operand ts = .ok (none, rest) ↔
      rest = ts ∧ ∀ t us, ts = t :: us → t.binaryOp? = none := by
  cases ts with
  | nil => simp [link, eq_comm]
  | cons t us =>
    cases hop : t.binaryOp? with
    | none => simp [link, hop, eq_comm]
    | some op => simp [link, hop, bind_eq_ok_iff, pure_eq_ok_iff, -bind_pure_comp]

theorem stop_link (h : link operand ts = .ok (none, rest)) : rest = ts :=
  (link_eq_none_iff.mp h).1

/-- An operand, and all links behind it. The tree is assembled from these. -/
theorem expression_eq_ok_iff {e : Expr} :
    expression operand ts = .ok (e, rest) ↔
      ∃ first mid, operand .chain ts = .ok (first, mid) ∧
      ∃ links, repeated (link operand) mid = .ok (links, rest) ∧ assemble first links = e := by
  simp only [expression, bind_eq_ok_iff, pure_eq_ok_iff, Prod.exists, Prod.mk.injEq,
    exists_eq_right_right]

/-- An expression behind which the input has ended. -/
theorem complete_eq_ok_iff {e : Expr} :
    complete operand ts = .ok e ↔
      ∃ rest, expression operand ts = .ok (e, rest) ∧ atEnd rest = true := by
  simp only [complete, bind_eq_ok_iff, Prod.exists]
  constructor
  · rintro ⟨body, rest, h, hend⟩
    split at hend
    · next he =>
      obtain rfl := pure_eq_ok_iff.mp hend
      exact ⟨rest, h, he⟩
    · simp at hend
  · rintro ⟨rest, h, he⟩
    exact ⟨e, rest, h, by rw [if_pos he]; rfl⟩

theorem interpolationOf_eq_ok_iff {tokens : List Token} {span : Span} {c : Interpolation} :
    interpolationOf operand tokens span = .ok c ↔
      ∃ body, complete operand tokens = .ok body ∧ ⟨body, span⟩ = c := by
  rw [interpolationOf]
  split
  · next body h => simp [h]
  · next s h => simp [h]

/-! ### Strings and names

Texts are taken as they are, and interpolations are read from their own tokens. -/

/-- The parts of a string, one for each of its fragments. -/
inductive ReadsParts (operand : Context → Rule Operand) :
    List StringFragment → List StringPart → Prop
  | nil : ReadsParts operand [] []
  | text {content : String} {fragments : List StringFragment} {parts : List StringPart}
      (behind : ReadsParts operand fragments parts) :
      ReadsParts operand (.text content :: fragments) (.text content :: parts)
  | interpolation {tokens : List Token} {span : Span} {content : Interpolation}
      {fragments : List StringFragment} {parts : List StringPart}
      (content_eq : interpolationOf operand tokens span = .ok content)
      (behind : ReadsParts operand fragments parts) :
      ReadsParts operand (.interpolation tokens span :: fragments) (.interpolation content :: parts)

theorem partsOf_eq_ok_iff {fragments : List StringFragment} {parts : List StringPart} :
    partsOf operand fragments = .ok parts ↔ ReadsParts operand fragments parts := by
  constructor
  · intro h
    induction fragments generalizing parts with
    | nil =>
      obtain rfl : [] = parts := by simpa [partsOf] using h
      exact .nil
    | cons fragment fragments ih =>
      cases fragment with
      | text content =>
        simp only [partsOf, bind_eq_ok_iff, pure_eq_ok_iff] at h
        obtain ⟨more, hmore, rfl⟩ := h
        exact .text (ih hmore)
      | interpolation tokens span =>
        simp only [partsOf, bind_eq_ok_iff, pure_eq_ok_iff] at h
        obtain ⟨content, hcontent, more, hmore, rfl⟩ := h
        exact .interpolation hcontent (ih hmore)
  · intro h
    induction h with
    | nil => rfl
    | text behind ih => simp only [partsOf, ih]; rfl
    | interpolation hcontent behind ih => simp only [partsOf, hcontent, ih]; rfl

/-- A string, from its parts. -/
theorem stringOf_eq_ok_iff {fragments : List StringFragment} {multiline : Bool} {span : Span}
    {s : StringLiteral} :
    stringOf operand fragments multiline span = .ok s ↔
      ∃ parts, ReadsParts operand fragments parts ∧ ⟨parts, multiline, span⟩ = s := by
  simp only [stringOf, bind_eq_ok_iff, pure_eq_ok_iff, partsOf_eq_ok_iff]

/-- One name of a path, by the token it is read from. -/
inductive ReadsSegment (operand : Context → Rule Operand) :
    List Token → Segment → Span → List Token → Prop
  | name {name : String} {span : Span} {ts : List Token} :
      ReadsSegment operand (⟨.identifier name, span⟩ :: ts) (.name name) span ts
  | string {fragments : List StringFragment} {multiline : Bool} {span : Span} {ts : List Token}
      {literal : StringLiteral}
      (literal_eq : stringOf operand fragments multiline span = .ok literal) :
      ReadsSegment operand (⟨.string fragments multiline, span⟩ :: ts) (.string literal) span ts
  | interpolation {tokens : List Token} {span : Span} {ts : List Token}
      {content : Interpolation} (content_eq : interpolationOf operand tokens span = .ok content) :
      ReadsSegment operand (⟨.interpolation tokens, span⟩ :: ts) (.interpolation content) span ts

theorem segment_eq_ok_iff {s : Segment} {span : Span} :
    segment operand ts = .ok ((s, span), rest) ↔ ReadsSegment operand ts s span rest := by
  constructor
  · intro h
    unfold segment at h
    split at h
    · obtain ⟨⟨rfl, rfl⟩, rfl⟩ := by simpa using h
      exact .name
    · simp only [bind_eq_ok_iff, pure_eq_ok_iff, Prod.mk.injEq] at h
      obtain ⟨literal, hl, ⟨rfl, rfl⟩, rfl⟩ := h
      exact .string hl
    · simp only [bind_eq_ok_iff, pure_eq_ok_iff, Prod.mk.injEq] at h
      obtain ⟨content, hc, ⟨rfl, rfl⟩, rfl⟩ := h
      exact .interpolation hc
    · simp at h
  · intro h
    cases h with
    | name => rfl
    | string hl => simp only [segment, hl]; rfl
    | interpolation hc => simp only [segment, hc]; rfl

/-- A dot and a name directly behind it. -/
theorem dottedSegment_eq_some_iff {s : Segment} {span : Span} :
    dottedSegment operand ts = .ok (some (s, span), rest) ↔
      ∃ dot us, ts = ⟨.symbol .dot, dot⟩ :: us ∧ ReadsSegment operand us s span rest := by
  unfold dottedSegment
  split
  · next dot us =>
    simp only [bind_eq_ok_iff, pure_eq_ok_iff, Prod.exists, Prod.mk.injEq, Option.some.injEq,
      exists_eq_right_right, exists_eq_right, segment_eq_ok_iff]
    constructor
    · intro h
      exact ⟨dot, us, rfl, h⟩
    · rintro ⟨dot', us', h, hs⟩
      simp only [List.cons.injEq] at h
      rwa [h.2]
  · next hdot =>
    simp only [Except.ok.injEq, Prod.mk.injEq, reduceCtorEq, false_and, false_iff]
    rintro ⟨dot, us, h, -⟩
    exact hdot dot us h

theorem dottedSegment_eq_none_iff :
    dottedSegment operand ts = .ok (none, rest) ↔
      rest = ts ∧ ∀ dot us, ts ≠ ⟨.symbol .dot, dot⟩ :: us := by
  unfold dottedSegment
  split
  · next dot us => simp [bind_eq_ok_iff, pure_eq_ok_iff, -bind_pure_comp]
  · next hdot => simpa [eq_comm] using fun _ => hdot

theorem stop_dottedSegment (h : dottedSegment operand ts = .ok (none, rest)) : rest = ts :=
  (dottedSegment_eq_none_iff.mp h).1

/-- A name, and all names behind dots that follow it directly. -/
theorem attrPath_eq_ok_iff {p : AttrPath} :
    attrPath operand ts = .ok (p, rest) ↔
      ∃ first start mid, ReadsSegment operand ts first start mid ∧
      ∃ more, repeated (dottedSegment operand) mid = .ok (more, rest) ∧
        ⟨first :: more.map (·.1), [], more.foldl (fun s m => s.join m.2) start⟩ = p := by
  simp only [attrPath, bind_eq_ok_iff, pure_eq_ok_iff, Prod.exists, Prod.mk.injEq,
    exists_eq_right_right, segment_eq_ok_iff]

/-! ### Rounds that stop at a mark

Names, bindings and items are read up to a mark or the end, and these three rounds have the same
shape. It is opened once. -/

section

variable {α : Type} {ended closed : Bool} {read : Except Stuck (Option α × List Token)}

/-- A round that stops at the end or at a mark reads something in front of them. -/
theorem roundUnless_eq_some_iff {a : α} :
    (if ended || closed then .ok (none, ts) else read) = .ok (some a, rest) ↔
      ended = false ∧ closed = false ∧ read = .ok (some a, rest) := by
  cases ended <;> cases closed <;> simp

theorem roundUnless_eq_none_iff (hread : ∀ us, read ≠ .ok (none, us)) :
    (if ended || closed then .ok (none, ts) else read) = .ok (none, rest) ↔
      rest = ts ∧ (ended = true ∨ closed = true) := by
  cases ended <;> cases closed <;> simp [hread, eq_comm (a := rest)]

end

/-! ### Bindings

A set is its bindings and what closes them. Comments in front of that go to the last binding if
there is one. -/

/-- An `inherit` names its source in parentheses, or does not name it. -/
theorem inheritSource_eq_ok_iff {source : Option Expr} {cs : List Comment} :
    inheritSource operand ts = .ok ((source, cs), rest) ↔
      (∃ start us e mid stop, skipTrivia ts = ⟨.symbol .openParen, start⟩ :: us ∧
        expression operand us = .ok (e, mid) ∧ expectSymbol .closeParen mid = .ok (stop, rest) ∧
        source = some e ∧ cs = commentsAhead ts) ∨
      (nextIsSymbol .openParen ts = false ∧ source = none ∧ cs = [] ∧ rest = ts) := by
  rw [inheritSource]
  split
  · next start us h =>
    have hnext : nextIsSymbol .openParen ts = true := nextIsSymbol_iff.mpr ⟨_, _, h⟩
    simp only [bind_eq_ok_iff, pure_eq_ok_iff, Prod.exists, Prod.mk.injEq, hnext]
    constructor
    · rintro ⟨e, mid, he, stop, _, hs, ⟨rfl, rfl⟩, rfl⟩
      exact .inl ⟨start, us, e, mid, stop, h, he, hs, rfl, rfl⟩
    · rintro (⟨start', us', e, mid, stop, h', he, hs, rfl, rfl⟩ | ⟨h', -⟩)
      · obtain ⟨-, rfl⟩ := List.cons.inj (h.symm.trans h')
        exact ⟨e, mid, he, stop, rest, hs, ⟨rfl, rfl⟩, rfl⟩
      · cases h'
  · next h =>
    have hnext : nextIsSymbol .openParen ts = false := nextIsSymbol_eq_false_iff.mpr h
    simp only [Except.ok.injEq, Prod.mk.injEq, hnext, true_and]
    constructor
    · rintro ⟨⟨rfl, rfl⟩, rfl⟩
      exact .inr ⟨rfl, rfl, rfl⟩
    · rintro (⟨start, us, e, mid, stop, h', -⟩ | ⟨rfl, rfl, rfl⟩)
      · exact absurd h' (h _ _)
      · exact ⟨⟨rfl, rfl⟩, rfl⟩

/-- A name, unless the semicolon or the end is ahead. It gets the comments in front of it. -/
theorem inheritedName_eq_some_iff {p : AttrPath} :
    inheritedName operand ts = .ok (some p, rest) ↔
      atEnd (skipTrivia ts) = false ∧ nextIsSymbol .semicolon ts = false ∧
      ∃ name, attrPath operand (skipTrivia ts) = .ok (name, rest) ∧
        { name with comments := commentsAhead ts } = p := by
  simp only [inheritedName, roundUnless_eq_some_iff, bind_eq_ok_iff, pure_eq_ok_iff, Prod.exists,
    Prod.mk.injEq, Option.some.injEq, exists_eq_right_right]

theorem inheritedName_eq_none_iff :
    inheritedName operand ts = .ok (none, rest) ↔
      rest = ts ∧ (atEnd (skipTrivia ts) = true ∨ nextIsSymbol .semicolon ts = true) := by
  rw [inheritedName]
  exact roundUnless_eq_none_iff (by simp [bind_eq_ok_iff, pure_eq_ok_iff, -bind_pure_comp])

theorem stop_inheritedName (h : inheritedName operand ts = .ok (none, rest)) : rest = ts :=
  (inheritedName_eq_none_iff.mp h).1

/-- The source, the names, and a semicolon. -/
theorem inheritance_eq_ok_iff {comments : List Comment} {start : Span} {b : Binding} :
    inheritance operand comments start ts = .ok (b, rest) ↔
      ∃ source more ts₁, inheritSource operand ts = .ok ((source, more), ts₁) ∧
      ∃ names ts₂, repeated (inheritedName operand) ts₁ = .ok (names, ts₂) ∧
      ∃ stop, expectSymbol .semicolon (skipTrivia ts₂) = .ok (stop, rest) ∧
        .inherit source names (comments ++ more ++ commentsAhead ts₂) (start.join stop) = b := by
  simp only [inheritance, bind_eq_ok_iff, pure_eq_ok_iff, Prod.exists, Prod.mk.injEq,
    exists_eq_right_right]

/-- A name, the mark of an assignment, a value and a semicolon. -/
theorem assignment_eq_ok_iff {comments : List Comment} {b : Binding} :
    assignment operand comments ts = .ok (b, rest) ↔
      ∃ name ts₁, attrPath operand ts = .ok (name, ts₁) ∧
      ∃ eq ts₂, expectSymbol .assign (skipTrivia ts₁) = .ok (eq, ts₂) ∧
      ∃ value ts₃, expression operand ts₂ = .ok (value, ts₃) ∧
      ∃ stop, expectSymbol .semicolon ts₃ = .ok (stop, rest) ∧
        .assign name value (comments ++ commentsAhead ts₁) (name.span.join stop) = b := by
  simp only [assignment, bind_eq_ok_iff, pure_eq_ok_iff, Prod.exists, Prod.mk.injEq,
    exists_eq_right_right]

/-- A binding is an `inherit` when the keyword is there, and an assignment when it is not. -/
theorem binding_eq_ok_iff {b : Binding} :
    binding operand ts = .ok (b, rest) ↔
      (∃ start us, skipTrivia ts = ⟨.keyword .inherit, start⟩ :: us ∧
        inheritance operand (commentsAhead ts) start us = .ok (b, rest)) ∨
      (nextIsKeyword .inherit ts = false ∧
        assignment operand (commentsAhead ts) (skipTrivia ts) = .ok (b, rest)) := by
  rw [binding]
  split
  · next start us h =>
    have hnext : nextIsKeyword .inherit ts = true := nextIsKeyword_iff.mpr ⟨_, _, h⟩
    simp only [hnext, h, Bool.true_eq_false, false_and, or_false]
    constructor
    · intro hb
      exact ⟨start, us, rfl, hb⟩
    · rintro ⟨start', us', h', hb⟩
      obtain ⟨ht, rfl⟩ := List.cons.inj h'
      obtain rfl : start = start' := by simpa using ht
      exact hb
  · next h =>
    have hnext : nextIsKeyword .inherit ts = false := nextIsKeyword_eq_false_iff.mpr h
    simp only [hnext, true_and]
    constructor
    · exact .inr
    · rintro (⟨start, us, h', -⟩ | h')
      · exact absurd h' (h _ _)
      · exact h'

theorem bindingUnless_eq_some_iff {closed : List Token → Bool} {b : Binding} :
    bindingUnless operand closed ts = .ok (some b, rest) ↔
      atEnd (skipTrivia ts) = false ∧ closed ts = false ∧
        binding operand ts = .ok (b, rest) := by
  simp only [bindingUnless, roundUnless_eq_some_iff, bind_eq_ok_iff, pure_eq_ok_iff, Prod.exists,
    Prod.mk.injEq, Option.some.injEq, exists_eq_right_right, exists_eq_right]

theorem bindingUnless_eq_none_iff {closed : List Token → Bool} :
    bindingUnless operand closed ts = .ok (none, rest) ↔
      rest = ts ∧ (atEnd (skipTrivia ts) = true ∨ closed ts = true) := by
  rw [bindingUnless]
  exact roundUnless_eq_none_iff (by simp [bind_eq_ok_iff, pure_eq_ok_iff, -bind_pure_comp])

theorem stop_bindingUnless {closed : List Token → Bool}
    (h : bindingUnless operand closed ts = .ok (none, rest)) : rest = ts :=
  (bindingUnless_eq_none_iff.mp h).1

/-- Bindings up to the closing brace. -/
theorem attrSet_eq_ok_iff {recursive : Bool} {start : Span} {t : Term} :
    attrSet operand recursive start ts = .ok (t, rest) ↔
      ∃ bs mid, repeated (bindingUnless operand (nextIsSymbol .closeBrace)) ts = .ok (bs, mid) ∧
      ∃ stop, expectSymbol .closeBrace (skipTrivia mid) = .ok (stop, rest) ∧
        .attrSet recursive (attachToLast (commentsAhead mid) bs).1
          (attachToLast (commentsAhead mid) bs).2 (start.join stop) = t := by
  simp only [attrSet, bind_eq_ok_iff, pure_eq_ok_iff, Prod.exists, Prod.mk.injEq,
    exists_eq_right_right]

/-- Bindings up to the keyword, and an expression behind it. -/
theorem letIn_eq_ok_iff {start : Span} {t : Term} :
    letIn operand start ts = .ok (t, rest) ↔
      ∃ bs ts₁, repeated (bindingUnless operand (nextIsKeyword .in_)) ts = .ok (bs, ts₁) ∧
      ∃ stop ts₂, expectKeyword .in_ (skipTrivia ts₁) = .ok (stop, ts₂) ∧
      ∃ body, expression operand ts₂ = .ok (body, rest) ∧
        .letIn (attachToLast (commentsAhead ts₁) bs).1 (attachToLast (commentsAhead ts₁) bs).2 body
          (start.join body.span) = t := by
  simp only [letIn, bind_eq_ok_iff, pure_eq_ok_iff, Prod.exists, Prod.mk.injEq,
    exists_eq_right_right]

/-! ### Functions

The rule for the inside of a pattern counts its attributes down. `ReadsPattern` is the same without
the count. That the count is always large enough is shown where the rules are known to move
forward. -/

theorem lambda_eq_ok_iff {parameter : AttrPath} {t : Term} :
    lambda operand parameter ts = .ok (t, rest) ↔
      ∃ body, expression operand ts = .ok (body, rest) ∧
        .lambda (.named parameter) body (parameter.span.join body.span) = t := by
  simp only [lambda, bind_eq_ok_iff, pure_eq_ok_iff, Prod.exists, Prod.mk.injEq,
    exists_eq_right_right]

/-- An attribute of a pattern has a fallback behind a question mark, or has none. -/
theorem formal_eq_ok_iff {comments : List Comment} {f : Formal} :
    formal operand comments ts = .ok (f, rest) ↔
      ∃ name mid, attrPath operand ts = .ok (name, mid) ∧
        ((∃ start us e, skipTrivia mid = ⟨.symbol .question, start⟩ :: us ∧
            expression operand us = .ok (e, rest) ∧
            f = ⟨name, some e, comments ++ commentsAhead mid, name.span.join e.span⟩) ∨
          (nextIsSymbol .question mid = false ∧ rest = skipTrivia mid ∧
            f = ⟨name, none, comments ++ commentsAhead mid, name.span⟩)) := by
  simp only [formal, bind_eq_ok_iff, Prod.exists]
  refine exists_congr fun name => exists_congr fun mid => and_congr_right fun _ => ?_
  split
  · next start us h =>
    have hnext : nextIsSymbol .question mid = true := nextIsSymbol_iff.mpr ⟨_, _, h⟩
    simp only [bind_eq_ok_iff, pure_eq_ok_iff, Prod.exists, Prod.mk.injEq, hnext,
      Bool.true_eq_false, false_and, or_false, exists_eq_right_right]
    constructor
    · rintro ⟨e, he, rfl⟩
      exact ⟨start, us, e, h, he, rfl⟩
    · rintro ⟨start', us', e, h', he, rfl⟩
      obtain ⟨-, rfl⟩ := List.cons.inj (h.symm.trans h')
      exact ⟨e, he, rfl⟩
  · next h =>
    have hnext : nextIsSymbol .question mid = false := nextIsSymbol_eq_false_iff.mpr h
    simp only [pure_eq_ok_iff, Prod.mk.injEq, hnext, true_and]
    constructor
    · rintro ⟨rfl, rfl⟩
      exact .inr ⟨rfl, rfl⟩
    · rintro (⟨start, us, e, h', -⟩ | ⟨rfl, rfl⟩)
      · exact absurd h' (h _ _)
      · exact ⟨rfl, rfl⟩

/-- The inside of a pattern, by what its first token is and by what stands behind its first
attribute. -/
inductive ReadsPattern (operand : Context → Rule Operand) :
    List Token → PatternBody → List Token → Prop
  /-- Nothing, or nothing more behind a comma. -/
  | closed {ts rest : List Token} {span : Span}
      (next : skipTrivia ts = ⟨.symbol .closeBrace, span⟩ :: rest) :
      ReadsPattern operand ts ⟨[], false, commentsAhead ts⟩ (skipTrivia ts)
  /-- The mark for other attributes. -/
  | variadic {ts rest : List Token} {span : Span}
      (next : skipTrivia ts = ⟨.symbol .ellipsis, span⟩ :: rest) :
      ReadsPattern operand ts ⟨[], true, commentsAhead ts ++ commentsAhead rest⟩ (skipTrivia rest)
  /-- An attribute, a comma, and what follows the comma. -/
  | comma {ts mid rest : List Token} {span : Span} {f : Formal} {body : PatternBody}
      (head : formal operand (commentsAhead ts) (skipTrivia ts) =
        .ok (f, ⟨.symbol .comma, span⟩ :: mid))
      (tail : ReadsPattern operand mid body rest) :
      ReadsPattern operand ts { body with formals := f :: body.formals } rest
  /-- An attribute directly in front of the closing brace. -/
  | last {ts rest : List Token} {span : Span} {f : Formal}
      (head : formal operand (commentsAhead ts) (skipTrivia ts) =
        .ok (f, ⟨.symbol .closeBrace, span⟩ :: rest)) :
      ReadsPattern operand ts ⟨[f], false, []⟩ (⟨.symbol .closeBrace, span⟩ :: rest)

/-- The inside of a pattern that was read within a bound. -/
theorem readsPattern_of_patternBodyUpTo {n : Nat} {body : PatternBody}
    (h : patternBodyUpTo operand n ts = .ok (body, rest)) : ReadsPattern operand ts body rest := by
  induction n generalizing ts body with
  | zero => simp [patternBodyUpTo] at h
  | succ n ih =>
    rw [patternBodyUpTo] at h
    split at h
    · next span us hnext =>
      obtain ⟨rfl, rfl⟩ := by simpa using h
      rw [← hnext]
      exact .closed hnext
    · next span us hnext =>
      obtain ⟨rfl, rfl⟩ := by simpa using h
      exact .variadic hnext
    · simp only [bind_eq_ok_iff, Prod.exists] at h
      obtain ⟨f, mid, hf, h⟩ := h
      split at h
      · simp only [bind_eq_ok_iff, pure_eq_ok_iff, Prod.exists, Prod.mk.injEq] at h
        obtain ⟨body', rest', htail, rfl, rfl⟩ := h
        exact .comma hf (ih htail)
      · obtain ⟨rfl, rfl⟩ := by simpa [pure_eq_ok_iff] using h
        exact .last hf
      · simp at h

/-- A name behind a pattern stands behind an `@`. -/
theorem patternName_eq_ok_iff {whole : Option AttrPath} {cs : List Comment} :
    patternName operand ts = .ok ((whole, cs), rest) ↔
      (∃ start us name mid, ts = ⟨.symbol .atSign, start⟩ :: us ∧
        attrPath operand (skipTrivia us) = .ok (name, mid) ∧ whole = some name ∧
        cs = commentsAhead us ++ commentsAhead mid ∧ rest = skipTrivia mid) ∨
      ((∀ start us, ts ≠ ⟨.symbol .atSign, start⟩ :: us) ∧ whole = none ∧ cs = [] ∧ rest = ts) := by
  unfold patternName
  split
  · next start us =>
    simp only [bind_eq_ok_iff, pure_eq_ok_iff, Prod.exists, Prod.mk.injEq]
    constructor
    · rintro ⟨name, mid, hname, ⟨rfl, rfl⟩, rfl⟩
      exact .inl ⟨start, us, name, mid, rfl, hname, rfl, rfl, rfl⟩
    · rintro (⟨start', us', name, mid, h, hname, rfl, rfl, rfl⟩ | ⟨h, -⟩)
      · obtain ⟨-, rfl⟩ := List.cons.inj h
        exact ⟨name, mid, hname, ⟨rfl, rfl⟩, rfl⟩
      · exact absurd rfl (h start us)
  · next h =>
    simp only [Except.ok.injEq, Prod.mk.injEq]
    constructor
    · rintro ⟨⟨rfl, rfl⟩, rfl⟩
      exact .inr ⟨h, rfl, rfl, rfl⟩
    · rintro (⟨start, us, name, mid, h', -⟩ | ⟨-, rfl, rfl, rfl⟩)
      · exact absurd h' (h start us)
      · exact ⟨⟨rfl, rfl⟩, rfl⟩

theorem patternEnd_none_eq_ok_iff {start stop span : Span} {whole : Option AttrPath}
    {cs : List Comment} :
    patternEnd operand none start stop ts = .ok ((whole, span, cs), rest) ↔
      patternName operand ts = .ok ((whole, cs), rest) ∧
        span = start.join ((whole.map AttrPath.span).getD stop) := by
  simp only [patternEnd, bind_eq_ok_iff, pure_eq_ok_iff, Prod.exists, Prod.mk.injEq]
  constructor
  · rintro ⟨_ | name, cs', rest', h, ⟨rfl, rfl, rfl⟩, rfl⟩
    · exact ⟨h, rfl⟩
    · exact ⟨h, rfl⟩
  · rintro ⟨h, rfl⟩
    cases whole with
    | none => exact ⟨_, _, _, h, ⟨rfl, rfl, rfl⟩, rfl⟩
    | some name => exact ⟨_, _, _, h, ⟨rfl, rfl, rfl⟩, rfl⟩

/-- The name of a pattern's argument stood in front of the pattern, or is read behind it. -/
theorem forall_mem_of_patternEnd {P : AttrPath → Prop} {front whole : Option AttrPath}
    {start stop span : Span} {cs : List Comment}
    (h : patternEnd operand front start stop ts = .ok ((whole, span, cs), rest))
    (hfront : ∀ p ∈ front, P p)
    (hread : ∀ {us name mid}, attrPath operand us = .ok (name, mid) → P name) :
    ∀ p ∈ whole, P p := by
  cases front with
  | some name =>
    obtain ⟨⟨rfl, -⟩, -⟩ := by simpa using h
    exact hfront
  | none =>
    rcases patternName_eq_ok_iff.mp (patternEnd_none_eq_ok_iff.mp h).1 with
      ⟨-, us, name, mid, -, hname, rfl, -⟩ | ⟨-, rfl, -⟩
    · rintro p ⟨⟩
      exact hread hname
    · simp

/-- The inside of the pattern and its closing brace, the name behind it, a colon, and the result. -/
theorem patternLambda_eq_ok_iff {front : Option AttrPath} {start : Span} {t : Term} :
    patternLambda operand front start ts = .ok (t, rest) ↔
      ∃ body ts₁, patternBody operand ts = .ok (body, ts₁) ∧
      ∃ stop ts₂, expectSymbol .closeBrace ts₁ = .ok (stop, ts₂) ∧
      ∃ whole span more ts₃,
        patternEnd operand front start stop (skipTrivia ts₂) = .ok ((whole, span, more), ts₃) ∧
      ∃ colon ts₄, expectSymbol .colon ts₃ = .ok (colon, ts₄) ∧
      ∃ result, expression operand ts₄ = .ok (result, rest) ∧
        .lambda (.pattern body.formals body.variadic whole
            (body.comments ++ commentsAhead ts₂ ++ more) span)
          result (span.join result.span) = t := by
  simp only [patternLambda, bind_eq_ok_iff, pure_eq_ok_iff, Prod.exists, Prod.mk.injEq,
    exists_eq_right_right]

end Grammar

end NixSyntax
