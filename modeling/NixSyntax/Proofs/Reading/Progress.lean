import NixSyntax.Proofs.Reading.Terms
import Mathlib.Data.List.TakeWhile

/-!
# A rule that succeeds moves forward

A rule returns the tokens behind those it has read. Here it is shown that these are a part of the
tokens it was given, that a rule for a piece of tree has taken at least one token, and that it has
not read past the end of the input.

## What a rule takes

The tokens that a rule takes are at the front of those it is given, and none of them ends the input.
How many they are is said by a lower bound. With it two things follow: a repetition cannot go on for
more rounds than there are tokens, so its bound is never what ends it, and what is left for the
operands inside of a form is less than what the form was given.

That `rest` is at the end of `ts` is used much more often than how long it is. It is what relates
the places of several rules to each other, and `Leaves.trans` composes it.

## Main definitions

* `Leaves n`: what is left behind at least `n` tokens
* `Advances`: every operand takes at least one token

## Main results

* `Advances.operandWith`: from the operands inside to the operand around them
* `advances_operandUpTo`: the rule for operands advances
* `repeatable_link`, …: so the bound of no repetition is ever felt
-/

namespace NixSyntax

theorem Token.isEnd_of_isTrivia {t : Token} (h : t.isTrivia = true) : t.isEnd = false := by
  unfold Token.isTrivia at h
  split at h
  · rfl
  · rfl
  · cases h

theorem Token.isEnd_of_binaryOp? {t : Token} {op : BinaryOp} (h : t.binaryOp? = some op) :
    t.isEnd = false := by
  unfold Token.binaryOp? at h
  split at h
  · rfl
  · rfl
  · cases h

namespace Grammar

/-- `rest` is what is left of `ts` behind at least `n` tokens, none of which ends the input. -/
def Leaves (n : Nat) (ts rest : List Token) : Prop :=
  ∃ front, ts = front ++ rest ∧ n ≤ front.length ∧ ∀ t ∈ front, t.isEnd = false

variable {ts mid rest : List Token} {m n : Nat}

namespace Leaves

theorem refl (ts : List Token) : Leaves 0 ts ts := ⟨[], rfl, Nat.le_refl 0, by simp⟩

/-- What two rules take, one behind the other. -/
theorem trans (h : Leaves m ts mid) (h' : Leaves n mid rest) : Leaves (m + n) ts rest := by
  obtain ⟨front, rfl, hm, hend⟩ := h
  obtain ⟨front', rfl, hn, hend'⟩ := h'
  refine ⟨front ++ front', by simp, by simp; omega, fun t ht => ?_⟩
  rcases List.mem_append.mp ht with ht | ht
  · exact hend t ht
  · exact hend' t ht

/-- More than asked for was taken. -/
theorem mono (h : Leaves n ts rest) (hmn : m ≤ n) : Leaves m ts rest := by
  obtain ⟨front, hts, hn, hend⟩ := h
  exact ⟨front, hts, by omega, hend⟩

/-- A token in front. -/
theorem cons {t : Token} (ht : t.isEnd = false) (h : Leaves n ts rest) :
    Leaves (n + 1) (t :: ts) rest := by
  obtain ⟨front, rfl, hn, hend⟩ := h
  exact ⟨t :: front, rfl, by simpa using hn, by simpa [ht] using hend⟩

/-- Behind the first token of the list one token less is taken. -/
theorem tail {t : Token} (h : Leaves (n + 1) (t :: ts) rest) : Leaves n ts rest := by
  obtain ⟨front, hts, hn, hend⟩ := h
  cases front with
  | nil => cases hn
  | cons u front =>
    obtain ⟨-, rfl⟩ := List.cons.inj hts
    exact ⟨front, rfl, Nat.le_of_succ_le_succ hn, (List.forall_mem_cons.mp hend).2⟩

/-- The list gets shorter by what was taken. -/
theorem length_le (h : Leaves n ts rest) : rest.length + n ≤ ts.length := by
  obtain ⟨front, rfl, hn, -⟩ := h
  simp
  omega

/-- And so does the number of tokens at all depths. -/
theorem countTokens_le (h : Leaves n ts rest) : countTokens rest + n ≤ countTokens ts := by
  obtain ⟨front, rfl, hn, -⟩ := h
  have := length_le_countTokens front
  rw [countTokens_append]
  omega

end Leaves

theorem leaves_dropWhile {p : Token → Bool} (hp : ∀ t, p t = true → t.isTrivia = true) :
    Leaves 0 ts (ts.dropWhile p) :=
  ⟨ts.takeWhile p, List.takeWhile_append_dropWhile.symm, Nat.zero_le _, fun t ht =>
    Token.isEnd_of_isTrivia (hp t (List.mem_takeWhile_imp ht))⟩

/-- Trivia is not the end. -/
theorem leaves_skipTrivia : Leaves 0 ts (skipTrivia ts) := leaves_dropWhile fun _ h => h

theorem leaves_skipNewlines : Leaves 0 ts (skipNewlines ts) :=
  leaves_dropWhile fun _ => Token.isTrivia_of_isNewline

/-- A mark is taken, and the line breaks in front of it. -/
theorem leaves_expectSymbol {s : Symbol} {span : Span}
    (h : expectSymbol s ts = .ok (span, rest)) : Leaves 1 ts rest := by
  have hskip : Leaves 0 ts _ := leaves_skipNewlines
  rw [expectSymbol_eq_ok_iff.mp h] at hskip
  exact hskip.trans ((Leaves.refl rest).cons rfl)

theorem leaves_expectKeyword {k : Keyword} {span : Span}
    (h : expectKeyword k ts = .ok (span, rest)) : Leaves 1 ts rest := by
  have hskip : Leaves 0 ts _ := leaves_skipNewlines
  rw [expectKeyword_eq_ok_iff.mp h] at hskip
  exact hskip.trans ((Leaves.refl rest).cons rfl)

/-- The tokens behind the first one that is no trivia. -/
theorem leaves_of_skipTrivia {t : Token} (ht : t.isEnd = false) (h : skipTrivia ts = t :: mid)
    (h' : Leaves n mid rest) : Leaves (n + 1) ts rest := by
  have hskip : Leaves 0 ts _ := leaves_skipTrivia
  rw [h] at hskip
  exact (hskip.trans (h'.cons ht)).mono (by omega)

/-- Rounds take at least as many tokens as each of them does. -/
theorem Rounds.leaves {α : Type} {round : Rule (Option α)} {as : List α}
    (hround : ∀ {ts a rest}, round ts = .ok (some a, rest) → Leaves 1 ts rest)
    (h : Rounds round ts as rest) : Leaves as.length ts rest := by
  induction h with
  | nil => exact .refl _
  -- each round takes a token, so as many are taken as there are rounds
  | cons head tail ih => exact ((hround head).trans ih).mono (by rw [List.length_cons]; omega)

theorem leaves_repeated {α : Type} {round : Rule (Option α)} {as : List α}
    (hstop : ∀ {ts rest}, round ts = .ok (none, rest) → rest = ts)
    (hleaves : ∀ {ts a rest}, round ts = .ok (some a, rest) → Leaves 1 ts rest)
    (h : repeated round ts = .ok (as, rest)) : Leaves 0 ts rest :=
  ((rounds_of_repeated hstop h).leaves hleaves).mono (Nat.zero_le _)

/-- Every operand takes at least one token. -/
def Advances (operand : Context → Rule Operand) : Prop :=
  ∀ ⦃ctx ts o rest⦄, operand ctx ts = .ok (o, rest) → Leaves 1 ts rest

variable {operand : Context → Rule Operand} (hop : Advances operand)
include hop

/-! ### Expressions and names

A rule for a piece of tree takes at least one token. A rule that may find nothing there takes none
in that case. -/

/-- An operator is taken, and an operand behind it. -/
theorem leaves_link {l : Operator × Operand} (h : link operand ts = .ok (some l, rest)) :
    Leaves 1 ts rest := by
  obtain ⟨t, us, op, rfl, hop', -, ho⟩ := link_eq_some_iff.mp h
  exact ((hop ho).cons (Token.isEnd_of_binaryOp? hop')).mono (by omega)

/-- So links are read until there is no operator. -/
theorem repeatable_link : Repeatable (link operand) where
  stop := stop_link
  nil := rfl
  shrinks h := by
    have := (leaves_link hop h).length_le
    omega

theorem leaves_expression {e : Expr} (h : expression operand ts = .ok (e, rest)) :
    Leaves 1 ts rest := by
  obtain ⟨first, mid, hfirst, links, hlinks, -⟩ := expression_eq_ok_iff.mp h
  have hrounds := ((repeated_eq_ok_iff (repeatable_link hop)).mp hlinks).1
  exact ((hop hfirst).trans (hrounds.leaves (leaves_link hop))).mono (by omega)

omit hop in
/-- A name is a token. -/
theorem ReadsSegment.leaves {s : Segment} {span : Span} (h : ReadsSegment operand ts s span rest) :
    Leaves 1 ts rest := by
  cases h with
  | name => exact (Leaves.refl _).cons rfl
  | string => exact (Leaves.refl _).cons rfl
  | interpolation => exact (Leaves.refl _).cons rfl

omit hop in
theorem leaves_dottedSegment {s : Segment × Span}
    (h : dottedSegment operand ts = .ok (some s, rest)) : Leaves 1 ts rest := by
  obtain ⟨dot, us, rfl, hs⟩ := dottedSegment_eq_some_iff.mp h
  exact (hs.leaves.cons rfl).mono (by omega)

omit hop in
theorem repeatable_dottedSegment : Repeatable (dottedSegment operand) where
  stop := stop_dottedSegment
  nil := rfl
  shrinks h := by
    have := (leaves_dottedSegment h).length_le
    omega

omit hop in
theorem leaves_attrPath {p : AttrPath} (h : attrPath operand ts = .ok (p, rest)) :
    Leaves 1 ts rest := by
  obtain ⟨first, start, mid, hfirst, more, hmore, -⟩ := attrPath_eq_ok_iff.mp h
  have hrounds := ((repeated_eq_ok_iff repeatable_dottedSegment).mp hmore).1
  exact (hfirst.leaves.trans (hrounds.leaves leaves_dottedSegment)).mono (by omega)

/-! ### Bindings

An inheritance takes its keyword and a semicolon, an assignment its name and the rest. -/

/-- There may be no source, and then nothing is taken. -/
theorem leaves_inheritSource {source : Option Expr × List Comment}
    (h : inheritSource operand ts = .ok (source, rest)) : Leaves 0 ts rest := by
  rcases inheritSource_eq_ok_iff.mp h with
    ⟨start, us, e, mid, stop, hskip, he, hstop, -⟩ | ⟨-, -, -, rfl⟩
  · have := (leaves_expression hop he).trans (leaves_expectSymbol hstop)
    exact (leaves_of_skipTrivia rfl hskip this).mono (by omega)
  · exact .refl _

omit hop in
theorem leaves_inheritedName {p : AttrPath} (h : inheritedName operand ts = .ok (some p, rest)) :
    Leaves 1 ts rest := by
  obtain ⟨-, -, name, hname, -⟩ := inheritedName_eq_some_iff.mp h
  exact (leaves_skipTrivia.trans (leaves_attrPath hname)).mono (by omega)

omit hop in
theorem repeatable_inheritedName : Repeatable (inheritedName operand) where
  stop := stop_inheritedName
  nil := rfl
  shrinks h := by
    have := (leaves_inheritedName h).length_le
    omega

theorem leaves_inheritance {comments : List Comment} {start : Span} {b : Binding}
    (h : inheritance operand comments start ts = .ok (b, rest)) : Leaves 1 ts rest := by
  obtain ⟨source, more, ts₁, hsource, names, ts₂, hnames, stop, hstop, -⟩ :=
    inheritance_eq_ok_iff.mp h
  have hrounds := ((repeated_eq_ok_iff repeatable_inheritedName).mp hnames).1
  exact ((leaves_inheritSource hop hsource).trans ((hrounds.leaves leaves_inheritedName).trans
    (leaves_skipTrivia.trans (leaves_expectSymbol hstop)))).mono (by omega)

theorem leaves_assignment {comments : List Comment} {b : Binding}
    (h : assignment operand comments ts = .ok (b, rest)) : Leaves 1 ts rest := by
  obtain ⟨name, ts₁, hname, eq, ts₂, heq, value, ts₃, hvalue, stop, hstop, -⟩ :=
    assignment_eq_ok_iff.mp h
  exact ((leaves_attrPath hname).trans (leaves_skipTrivia.trans ((leaves_expectSymbol heq).trans
    ((leaves_expression hop hvalue).trans (leaves_expectSymbol hstop))))).mono (by omega)

/-- A binding, of either form. -/
theorem leaves_binding {b : Binding} (h : binding operand ts = .ok (b, rest)) :
    Leaves 1 ts rest := by
  rcases binding_eq_ok_iff.mp h with ⟨start, us, hskip, hb⟩ | ⟨-, hb⟩
  · exact (leaves_of_skipTrivia rfl hskip (leaves_inheritance hop hb)).mono (by omega)
  · exact (leaves_skipTrivia.trans (leaves_assignment hop hb)).mono (by omega)

theorem repeatable_bindingUnless {closed : List Token → Bool} :
    Repeatable (bindingUnless operand closed) where
  stop := stop_bindingUnless
  nil := rfl
  shrinks h := by
    have := (leaves_binding hop (bindingUnless_eq_some_iff.mp h).2.2).length_le
    omega

/-- There may be no bindings in a set. -/
theorem Rounds.leaves_bindings {closed : List Token → Bool} {bs : List Binding}
    (h : Rounds (bindingUnless operand closed) ts bs rest) : Leaves 0 ts rest :=
  (h.leaves fun h => leaves_binding hop (bindingUnless_eq_some_iff.mp h).2.2).mono (Nat.zero_le _)

theorem leaves_bindings {closed : List Token → Bool} {bs : List Binding}
    (h : repeated (bindingUnless operand closed) ts = .ok (bs, rest)) : Leaves 0 ts rest :=
  (rounds_of_repeated stop_bindingUnless h).leaves_bindings hop

theorem leaves_attrSet {recursive : Bool} {start : Span} {t : Term}
    (h : attrSet operand recursive start ts = .ok (t, rest)) : Leaves 1 ts rest := by
  obtain ⟨bs, mid, hbs, stop, hstop, -⟩ := attrSet_eq_ok_iff.mp h
  have hrounds := ((repeated_eq_ok_iff (repeatable_bindingUnless hop)).mp hbs).1
  exact (hrounds.leaves_bindings hop).trans (leaves_skipTrivia.trans (leaves_expectSymbol hstop))

theorem leaves_letIn {start : Span} {t : Term} (h : letIn operand start ts = .ok (t, rest)) :
    Leaves 1 ts rest := by
  obtain ⟨bs, ts₁, hbs, stop, ts₂, hin, body, hbody, -⟩ := letIn_eq_ok_iff.mp h
  have hrounds := ((repeated_eq_ok_iff (repeatable_bindingUnless hop)).mp hbs).1
  exact ((hrounds.leaves_bindings hop).trans (leaves_skipTrivia.trans
    ((leaves_expectKeyword hin).trans (leaves_expression hop hbody)))).mono (by omega)

/-! ### Functions

The count of attributes is compared with the tokens. Each attribute takes one at least, so it is not
used up before the tokens are. -/

theorem leaves_lambda {parameter : AttrPath} {t : Term}
    (h : lambda operand parameter ts = .ok (t, rest)) : Leaves 1 ts rest := by
  obtain ⟨body, hbody, -⟩ := lambda_eq_ok_iff.mp h
  exact leaves_expression hop hbody

theorem leaves_formal {comments : List Comment} {f : Formal}
    (h : formal operand comments ts = .ok (f, rest)) : Leaves 1 ts rest := by
  obtain ⟨name, mid, hname, ⟨start, us, e, hskip, he, -⟩ | ⟨-, rfl, -⟩⟩ := formal_eq_ok_iff.mp h
  · exact ((leaves_attrPath hname).trans
      (leaves_of_skipTrivia rfl hskip (leaves_expression hop he))).mono (by omega)
  · exact (leaves_attrPath hname).trans leaves_skipTrivia

/-- A pattern may have nothing between its braces. -/
theorem ReadsPattern.leaves {body : PatternBody} (h : ReadsPattern operand ts body rest) :
    Leaves 0 ts rest := by
  induction h with
  | closed => exact leaves_skipTrivia
  | variadic next => exact (leaves_of_skipTrivia rfl next leaves_skipTrivia).mono (by omega)
  | comma head _ ih =>
    exact (leaves_skipTrivia.trans ((leaves_formal hop head).trans (ih.cons rfl))).mono (by omega)
  | last head => exact (leaves_skipTrivia.trans (leaves_formal hop head)).mono (by omega)

omit hop in
/-- No name begins with a mark. -/
theorem attrPath_symbol_ne_ok {s : Symbol} {span : Span} {p : AttrPath} :
    attrPath operand (⟨.symbol s, span⟩ :: ts) ≠ .ok (p, rest) := by
  intro h
  obtain ⟨first, start, mid, hfirst, -⟩ := attrPath_eq_ok_iff.mp h
  cases hfirst

omit hop in
/-- An attribute of a pattern does not begin with a mark, so the marks that end a pattern are never
taken for one. -/
theorem formal_symbol_ne_ok {comments : List Comment} {s : Symbol} {span : Span} {f : Formal} :
    formal operand comments (⟨.symbol s, span⟩ :: ts) ≠ .ok (f, rest) := by
  intro h
  obtain ⟨name, mid, hname, -⟩ := formal_eq_ok_iff.mp h
  exact attrPath_symbol_ne_ok hname

omit hop in
theorem patternBodyUpTo_nil (operand : Context → Rule Operand) (k : Nat) :
    patternBodyUpTo operand k [] = refuse .expectedName [] := by
  cases k <;> rfl

/-- **The inside of a pattern, without its bound.** -/
theorem patternBody_eq_ok_iff {body : PatternBody} :
    patternBody operand ts = .ok (body, rest) ↔ ReadsPattern operand ts body rest := by
  refine ⟨readsPattern_of_patternBodyUpTo, fun h => ?_⟩
  suffices ∀ n, ts.length ≤ n → patternBodyUpTo operand n ts = .ok (body, rest) from
    this _ (Nat.le_refl _)
  induction h with
  | @closed ts rest span next | @variadic ts rest span next =>
    intro n hn
    have := (leaves_of_skipTrivia rfl next (Leaves.refl rest)).length_le
    obtain ⟨n, rfl⟩ : ∃ m, n = m + 1 := ⟨n - 1, by omega⟩
    simp only [patternBodyUpTo, next]
  | @comma ts mid rest span f body head tail ih =>
    intro n hn
    have hlen := (leaves_skipTrivia.trans ((leaves_formal hop head).trans
      ((Leaves.refl mid).cons rfl))).length_le
    obtain ⟨n, rfl⟩ : ∃ m, n = m + 1 := ⟨n - 1, by omega⟩
    simp only [patternBodyUpTo]
    split
    · next hnext => exact absurd (hnext ▸ head) formal_symbol_ne_ok
    · next hnext => exact absurd (hnext ▸ head) formal_symbol_ne_ok
    · exact bind_eq_ok_iff.mpr ⟨_, head, bind_eq_ok_iff.mpr ⟨_, ih n (by omega), rfl⟩⟩
  | @last ts rest span f head =>
    intro n hn
    have hlen := (leaves_skipTrivia.trans (leaves_formal hop head)).length_le
    obtain ⟨n, rfl⟩ : ∃ m, n = m + 1 := ⟨n - 1, by omega⟩
    simp only [patternBodyUpTo]
    split
    · next hnext => exact absurd (hnext ▸ head) formal_symbol_ne_ok
    · next hnext => exact absurd (hnext ▸ head) formal_symbol_ne_ok
    · exact bind_eq_ok_iff.mpr ⟨_, head, rfl⟩

omit hop in
theorem leaves_patternName {whole : Option AttrPath} {cs : List Comment}
    (h : patternName operand ts = .ok ((whole, cs), rest)) : Leaves 0 ts rest := by
  rcases patternName_eq_ok_iff.mp h with
    ⟨start, us, name, mid, rfl, hname, -, -, rfl⟩ | ⟨-, -, -, rfl⟩
  · have := (leaves_skipTrivia.trans (leaves_attrPath hname)).trans leaves_skipTrivia
    exact (this.cons rfl).mono (by omega)
  · exact .refl _

omit hop in
theorem leaves_patternEnd {front whole : Option AttrPath} {start stop span : Span}
    {cs : List Comment}
    (h : patternEnd operand front start stop ts = .ok ((whole, span, cs), rest)) :
    Leaves 0 ts rest := by
  cases front with
  | none => exact leaves_patternName (patternEnd_none_eq_ok_iff.mp h).1
  | some name =>
    obtain ⟨-, rfl⟩ := by simpa using h
    exact .refl _

theorem leaves_patternLambda {front : Option AttrPath} {start : Span} {t : Term}
    (h : patternLambda operand front start ts = .ok (t, rest)) : Leaves 1 ts rest := by
  obtain ⟨body, ts₁, hbody, stop, ts₂, hstop, whole, span, more, ts₃, hend, colon, ts₄, hcolon,
    result, hresult, -⟩ := patternLambda_eq_ok_iff.mp h
  have hinside := ((patternBody_eq_ok_iff hop).mp hbody).leaves hop
  have hafter := leaves_skipTrivia.trans (leaves_patternEnd hend)
  exact (hinside.trans ((leaves_expectSymbol hstop).trans (hafter.trans
    ((leaves_expectSymbol hcolon).trans (leaves_expression hop hresult))))).mono (by omega)

/-! ### Terms

A term begins with a token that it takes, and it may end right behind it. -/

theorem leaves_paren {start : Span} {t : Term} (h : paren operand start ts = .ok (t, rest)) :
    Leaves 1 ts rest := by
  obtain ⟨body, mid, hbody, stop, hstop, -⟩ := paren_eq_ok_iff.mp h
  exact ((leaves_expression hop hbody).trans (leaves_expectSymbol hstop)).mono (by omega)

theorem leaves_item {o : Operand} (h : item operand ts = .ok (some o, rest)) : Leaves 1 ts rest :=
  hop (item_eq_some_iff.mp h).2.2

/-- Items are read up to the bracket. -/
theorem repeatable_item : Repeatable (item operand) where
  stop := stop_item
  nil := rfl
  shrinks h := by
    have := (leaves_item hop h).length_le
    omega

theorem leaves_list {start : Span} {t : Term} (h : list operand start ts = .ok (t, rest)) :
    Leaves 1 ts rest := by
  obtain ⟨items, mid, hitems, stop, hstop, -⟩ := list_eq_ok_iff.mp h
  have hrounds := ((repeated_eq_ok_iff (repeatable_item hop)).mp hitems).1
  exact ((hrounds.leaves (leaves_item hop)).trans
    (leaves_skipTrivia.trans (leaves_expectSymbol hstop))).mono (by omega)

theorem leaves_conditional {start : Span} {t : Term}
    (h : conditional operand start ts = .ok (t, rest)) : Leaves 1 ts rest := by
  obtain ⟨c, ts₁, hc, s₁, ts₂, hthen, a, ts₃, ha, s₂, ts₄, helse, b, hb, -⟩ :=
    conditional_eq_ok_iff.mp h
  exact ((leaves_expression hop hc).trans ((leaves_expectKeyword hthen).trans
    ((leaves_expression hop ha).trans ((leaves_expectKeyword helse).trans
      (leaves_expression hop hb))))).mono (by omega)

theorem leaves_importOf {start : Span} {t : Term} (h : importOf operand start ts = .ok (t, rest)) :
    Leaves 1 ts rest := by
  obtain ⟨source, hsource, -⟩ := importOf_eq_ok_iff.mp h
  exact hop hsource

theorem leaves_unary {ctx : Context} {op : UnaryOp} {start : Span} {t : Term}
    (h : unary operand ctx op start ts = .ok (t, rest)) : Leaves 1 ts rest := by
  obtain ⟨o, ho, -⟩ := unary_eq_ok_iff.mp h
  exact hop ho

/-- A term takes its first token, and perhaps others behind it. -/
theorem ReadsTerm.leaves_tail {ctx : Context} {t : Term} (h : ReadsTerm operand ctx ts t rest) :
    ∃ first us, ts = first :: us ∧ first.isEnd = false ∧ Leaves 0 us rest := by
  cases h with
  | null => exact ⟨_, _, rfl, rfl, .refl _⟩
  | bool => exact ⟨_, _, rfl, rfl, .refl _⟩
  | int => exact ⟨_, _, rfl, rfl, .refl _⟩
  | float => exact ⟨_, _, rfl, rfl, .refl _⟩
  | negativeInt => exact ⟨_, _, rfl, rfl, ((Leaves.refl _).cons rfl).mono (by omega)⟩
  | negativeFloat => exact ⟨_, _, rfl, rfl, ((Leaves.refl _).cons rfl).mono (by omega)⟩
  | path => exact ⟨_, _, rfl, rfl, .refl _⟩
  | string => exact ⟨_, _, rfl, rfl, .refl _⟩
  | interpolation => exact ⟨_, _, rfl, rfl, .refl _⟩
  | name no_colon no_pattern path_eq =>
    refine ⟨_, _, rfl, rfl, ?_⟩
    obtain ⟨first, start, mid, hfirst, more, hmore, -⟩ := attrPath_eq_ok_iff.mp path_eq
    cases hfirst
    have hrounds := ((repeated_eq_ok_iff repeatable_dottedSegment).mp hmore).1
    exact (hrounds.leaves leaves_dottedSegment).mono (Nat.zero_le _)
  | list h => exact ⟨_, _, rfl, rfl, (leaves_list hop h).mono (by omega)⟩
  | attrSet _ h => exact ⟨_, _, rfl, rfl, (leaves_attrSet hop h).mono (by omega)⟩
  | recursive hbrace h =>
    exact ⟨_, _, rfl, rfl, ((leaves_expectSymbol hbrace).trans (leaves_attrSet hop h)).mono
      (by omega)⟩
  | lambda h => exact ⟨_, _, rfl, rfl, ((leaves_lambda hop h).cons rfl).mono (by omega)⟩
  | pattern _ h => exact ⟨_, _, rfl, rfl, (leaves_patternLambda hop h).mono (by omega)⟩
  | namedPattern _ h =>
    exact ⟨_, _, rfl, rfl, (((leaves_patternLambda hop h).cons rfl).cons rfl).mono (by omega)⟩
  | letIn h => exact ⟨_, _, rfl, rfl, (leaves_letIn hop h).mono (by omega)⟩
  | import_ h => exact ⟨_, _, rfl, rfl, (leaves_importOf hop h).mono (by omega)⟩
  | conditional h => exact ⟨_, _, rfl, rfl, (leaves_conditional hop h).mono (by omega)⟩
  | not h => exact ⟨_, _, rfl, rfl, (leaves_unary hop h).mono (by omega)⟩
  | negate _ _ h => exact ⟨_, _, rfl, rfl, (leaves_unary hop h).mono (by omega)⟩
  | paren h => exact ⟨_, _, rfl, rfl, (leaves_paren hop h).mono (by omega)⟩

theorem ReadsTerm.leaves {ctx : Context} {t : Term} (h : ReadsTerm operand ctx ts t rest) :
    Leaves 1 ts rest := by
  obtain ⟨first, us, rfl, hfirst, htail⟩ := h.leaves_tail hop
  exact htail.cons hfirst

/-! ### Operands

Clauses and arguments are optional, and a term is not. So an operand takes a token. -/

theorem leaves_argument {o : Operand} (h : argument operand ts = .ok (some o, rest)) :
    Leaves 1 ts rest := by
  obtain ⟨t, us, -, -, ho⟩ := argument_eq_some_iff.mp h
  exact hop ho

theorem repeatable_argument : Repeatable (argument operand) where
  stop := stop_argument
  nil := rfl
  shrinks h := by
    have := (leaves_argument hop h).length_le
    omega

/-- Arguments take tokens if there are any. -/
theorem leaves_withArguments {ctx : Context} {head t : Term}
    (h : withArguments operand ctx head ts = .ok (t, rest)) : Leaves 0 ts rest := by
  rcases withArguments_cases h with ⟨-, rfl⟩ | ⟨arguments, span, hrounds, -⟩
  · exact .refl _
  · exact (hrounds.leaves (leaves_argument hop)).mono (Nat.zero_le _)

theorem leaves_clause {c : List Comment × Modifier}
    (h : clause operand ts = .ok (some c, rest)) : Leaves 1 ts rest := by
  obtain ⟨k, start, us, kind, hskip, -, subject, mid, he, stop, hstop, -⟩ :=
    clause_eq_some_iff.mp h
  have := (leaves_expression hop he).trans (leaves_expectSymbol hstop)
  exact (leaves_of_skipTrivia rfl hskip this).mono (by omega)

theorem repeatable_clause : Repeatable (clause operand) where
  stop := stop_clause
  nil := rfl
  shrinks h := by
    have := (leaves_clause hop h).length_le
    omega

/-- If the operands inside advance, so does the operand around them. -/
theorem Advances.operandWith : Advances (operandWith operand) := by
  intro ctx ts o rest h
  obtain ⟨clauses, ts₁, hclauses, head, ts₂, hhead, t, ts₃, ht, rfl, -⟩ :=
    operandWith_eq_ok_iff.mp h
  have hrounds := ((repeated_eq_ok_iff (repeatable_clause hop)).mp hclauses).1
  have hterm := leaves_skipTrivia.trans ((termIn_eq_ok_iff.mp hhead).leaves hop)
  exact ((hrounds.leaves (leaves_clause hop)).trans (hterm.trans
    ((leaves_withArguments hop ht).trans leaves_skipTrivia))).mono (by omega)

omit hop in
/-- **Every operand takes at least one token**, and none behind the end of the input. -/
theorem advances_operandUpTo (n : Nat) : Advances (operandUpTo n) := by
  induction n with
  | zero =>
    intro ctx ts o rest h
    simp [operandUpTo] at h
  | succ n ih => exact ih.operandWith

end Grammar

end NixSyntax
