import NixSyntax.Proofs.Printing.Follow
import NixSyntax.Proofs.Reading.Depth
import NixSyntax.Proofs.Tree.Moves
import NixSyntax.Proofs.Tree.Relabel

/-!
# What is printed is read again: expressions, names, bindings and functions

Every rule that has read a piece of tree reads the same piece, up to positions and comments, from
what is printed of it. The two readings stand side by side: the rule was given some tokens and left
some, and it is given the printed tokens with others behind them and leaves those.

`Rereads` says this of an operand, for all tokens that may follow it in print. The rule for the
operands inside is the same in both readings, so the bound on nesting plays no part here.

## The statement

A rule was given `ts` and left `rest`. In print, the piece that it read is given with `rest'` behind
it, and the same piece is read, up to `rest'`. What is asked of `rest'` depends on `rest`, by
`Admits`: if no operator was ahead then, none is ahead now, and so on. The piece may have trivia in
front, which is passed. Of `rest'` the trivia is passed as well, since an operand takes what is
behind it.

`Rereads` packs three facts together, because a rule that reads several operands needs to know of
each how it begins in print (to know what follows the one before), that no trivia was left behind
it, and that it is read again.

## Repetitions

A repetition prints its rounds one behind the other. Each has to be read again in front of the next,
and the last one in front of what closes the repetition. `Rounds.reread` runs once through the
rounds from behind, collecting what follows each of them, and gives back a function that reads them
again from the front.

## Main definitions

* `Rereads`: an operand that was read is read again from what is printed of it

## Main results

* `Rounds.reread`: a repetition is read again if its rounds are
* `reread_expression`, `reread_attrSet`, …: one lemma for each rule
-/

namespace NixSyntax

namespace Grammar

variable {operand : Context → Rule Operand} {ctx : Context} {ts us mid rest rest' : List Token}

/-- An operand that was read is read again from what is printed of it. -/
structure Rereads (operand : Context → Rule Operand) (ctx : Context) (ts : List Token)
    (o : Operand) (rest : List Token) : Prop where
  /-- No trivia is left behind an operand. -/
  skip : skipTrivia rest = rest
  /-- The operand begins as before, or in a way that makes no difference. -/
  begins : ∃ t us t' us', skipTrivia ts = t :: us ∧ o.print = t' :: us' ∧ Fits t t'
  /-- With the right tokens behind it, the operand is read from what is printed. -/
  reads : ∀ ⦃us rest'⦄, Admits ctx rest rest' → skipTrivia us = skipTrivia (o.print ++ rest') →
    ∃ o', operand ctx us = .ok (o', skipTrivia rest') ∧ o'.erase = o.erase

/-! ### Repetitions

One lemma for links, arguments, items, names, bindings and clauses. What follows and what is left
are related by parameters, since some rounds leave trivia and others do not. -/

/-- A repetition is read again if its rounds are. A round is printed by `g`, and `k` is what has to
be the same. `R` relates the tokens that are left to those that are still printed, and `F` those
that followed to those that follow in print. -/
theorem Rounds.reread {α β : Type} {round : Rule (Option α)} {as : List α} {g : α → List Token}
    {k : α → β} {R F : List Token → List Token → Prop}
    (hround : ∀ {ts a mid}, round ts = .ok (some a, mid) → ∀ {us next}, F mid next →
      R us (g a ++ next) → ∃ a' r, round us = .ok (some a', r) ∧ R r next ∧ k a' = k a)
    (hnext : ∀ {ts a mid next}, round ts = .ok (some a, mid) → F ts (g a ++ next))
    (h : Rounds round ts as rest) (hrest : F rest rest') :
    F ts (as.flatMap g ++ rest') ∧ ∀ {us}, R us (as.flatMap g ++ rest') →
      ∃ as' r, Rounds round us as' r ∧ R r rest' ∧ as'.map k = as.map k := by
  induction h with
  | nil => exact ⟨hrest, fun hus => ⟨[], _, .nil, hus, rfl⟩⟩
  | cons head tail ih =>
    -- what follows the first round in print is known before it is read
    obtain ⟨hfollow, hread⟩ := ih hrest
    rw [List.flatMap_cons, List.append_assoc]
    refine ⟨hnext head, fun hus => ?_⟩
    obtain ⟨a', r, ha', hr, hka⟩ := hround head hfollow hus
    obtain ⟨as', r', has', hr', hkas⟩ := hread hr
    exact ⟨a' :: as', r', .cons ha' has', hr', by rw [List.map_cons, List.map_cons, hka, hkas]⟩

/-- No operand begins with trivia. -/
theorem skipTrivia_of_begins {t : Token} (h : beginsOperand t.kind = true) :
    skipTrivia (t :: ts) = t :: ts :=
  skipTrivia_cons_of_not_isTrivia ts (not_trivia_of_begins h).1

/-! ### Single tokens

Printed marks and keywords have no trivia in front and are found at once. -/

/-- A printed mark is found where it is asked for. -/
@[simp] theorem expectSymbol_token (s : Symbol) :
    expectSymbol s (s.token :: ts) = .ok (default, ts) :=
  expectSymbol_eq_ok_iff.mpr rfl

@[simp] theorem expectKeyword_token (k : Keyword) :
    expectKeyword k (k.token :: ts) = .ok (default, ts) :=
  expectKeyword_eq_ok_iff.mpr rfl

@[simp] theorem skipTrivia_symbol (s : Symbol) : skipTrivia (s.token :: ts) = s.token :: ts :=
  skipTrivia_cons_of_not_isTrivia ts rfl

@[simp] theorem skipTrivia_keyword (k : Keyword) : skipTrivia (k.token :: ts) = k.token :: ts :=
  skipTrivia_cons_of_not_isTrivia ts rfl

/-- A link begins with its operator. -/
theorem operatorAhead_of_link {l : Operator × Operand}
    (h : link operand ts = .ok (some l, rest)) : operatorAhead ts = true := by
  obtain ⟨operator, o⟩ := l
  obtain ⟨⟨kind, span⟩, us, op, rfl, hop, -, -⟩ := link_eq_some_iff.mp h
  obtain rfl : kind = op.kind := Token.binaryOp?_eq_some_iff.mp hop
  cases op <;> rfl

/-- The tokens that a name can begin with. -/
def beginsName : TokenKind → Bool
  | .identifier _ => true
  | .string _ _ => true
  | .interpolation _ => true
  | _ => false

/-- A name begins with no trivia, and is not the end. -/
theorem not_trivia_of_beginsName {t : Token} (h : beginsName t.kind = true) :
    t.isTrivia = false ∧ t.isEnd = false := by
  obtain ⟨kind, span⟩ := t
  cases kind <;> first | exact ⟨rfl, rfl⟩ | cases h

/-- A token that a name begins with, or one of another kind, is of no third kind. -/
theorem ne_of_beginsName_or {kind kind₁ kind₂ : TokenKind}
    (h : beginsName kind = true ∨ kind = kind₁) (hbegins : beginsName kind₂ = false)
    (hne : kind₁ ≠ kind₂) : kind ≠ kind₂ := by
  rintro rfl
  rcases h with h | rfl
  · rw [hbegins] at h
    cases h
  · exact hne rfl

/-- In front of a printed name nothing is passed. -/
theorem skipTrivia_of_beginsName {t : Token} (hts : ts = t :: us)
    (h : beginsName t.kind = true) : skipTrivia (ts ++ rest) = ts ++ rest := by
  rw [hts, List.cons_append]
  exact skipTrivia_cons_of_not_isTrivia _ (not_trivia_of_beginsName h).1

variable (hadv : Advances operand)
  (hop : ∀ ⦃ctx ts o rest⦄, operand ctx ts = .ok (o, rest) → Rereads operand ctx ts o rest)
include hadv hop

/-! ### Expressions

An expression takes its operators as long as there are any, so behind it there is none, in both
readings. -/

/-- Behind an expression there is no trivia and no operator. -/
theorem expression_ended {e : Expr} (h : expression operand ts = .ok (e, rest)) :
    skipTrivia rest = rest ∧ operatorAhead rest = false := by
  obtain ⟨first, mid, hfirst, links, hlinks, rfl⟩ := expression_eq_ok_iff.mp h
  obtain ⟨hrounds, hend⟩ := (repeated_eq_ok_iff (repeatable_link hadv)).mp hlinks
  have hskip : skipTrivia rest = rest := by
    refine hrounds.behind (P := fun ts => skipTrivia ts = ts) (fun {_ l _} hl => ?_)
      (hop hfirst).skip
    obtain ⟨operator, o⟩ := l
    obtain ⟨t, us, op, _, _, _, ho⟩ := link_eq_some_iff.mp hl
    exact (hop ho).skip
  refine ⟨hskip, ?_⟩
  cases rest with
  | nil => rfl
  | cons t us =>
    rw [operatorAhead_of_eq hskip, (link_eq_none_iff.mp hend).2 t us rfl]
    rfl

omit hadv in
/-- An operator is printed behind a line break, and read again with its operand. -/
theorem reread_link {l : Operator × Operand} {next : List Token}
    (h : link operand ts = .ok (some l, mid)) (hnext : Admits .chain mid next)
    (hus : us = skipTrivia (printLink l ++ next)) :
    ∃ l', link operand us = .ok (some l', skipTrivia next) ∧
      (l'.1.erase, l'.2.erase) = (l.1.erase, l.2.erase) := by
  obtain ⟨operator, o⟩ := l
  obtain ⟨t, us', op, rfl, hop', rfl, ho⟩ := link_eq_some_iff.mp h
  obtain ⟨o', ho', heq⟩ := (hop ho).reads hnext rfl
  have hskip : us = op.kind.token :: (o.print ++ next) := by
    rw [hus, printLink, List.cons_append, skipTrivia_cons_of_isTrivia _ rfl]
    cases op <;> rfl
  refine ⟨(⟨op, default⟩, o'), ?_, by rw [heq]; rfl⟩
  exact link_eq_some_iff.mpr
    ⟨_, _, op, hskip, Token.binaryOp?_eq_some_iff.mpr rfl, rfl, ho'⟩

/-- An expression is read again from what is printed. -/
theorem reread_expression {e : Expr} (h : expression operand ts = .ok (e, rest))
    (hrest : Admits ctx rest rest') (hus : skipTrivia us = skipTrivia (e.print ++ rest')) :
    ∃ e', expression operand us = .ok (e', skipTrivia rest') ∧ e'.erase = e.erase := by
  have hended := (expression_ended hadv hop h).2
  have hchain : Admits .chain rest rest' := hrest.of_ended hended
  obtain ⟨first, mid, hfirst, links, hlinks, rfl⟩ := expression_eq_ok_iff.mp h
  have hrounds := rounds_of_repeated stop_link hlinks
  obtain ⟨hfollow, hread⟩ := hrounds.reread (g := printLink)
    (k := fun l => (l.1.erase, l.2.erase)) (R := fun us next => us = skipTrivia next)
    (fun hl _ _ hnext hus => by
      obtain ⟨l', hl', heq⟩ := reread_link hop hl hnext hus
      exact ⟨l', _, hl', rfl, heq⟩)
    (fun hl => .of_operator (operatorAhead_of_link hl)) hchain
  rw [Expr.print_eq_chain, first_assemble, links_assemble, List.append_assoc] at hus
  -- the first operand is followed by the printed links, which begin with an operator if there are
  -- any
  obtain ⟨first', hfirst', hferase⟩ := (hop hfirst).reads hfollow hus
  obtain ⟨links', r, hlinks', rfl, hlerase⟩ := hread rfl
  -- no further link is read, as no operator follows in print where none did
  have hend : link operand (skipTrivia rest') = .ok (none, skipTrivia rest') := by
    refine link_eq_none_iff.mpr ⟨rfl, fun t us' heq => ?_⟩
    have hnone := hrest.operator hended
    rw [operatorAhead_of_eq heq] at hnone
    simpa using hnone
  refine ⟨assemble first' links', expression_eq_ok_iff.mpr ⟨first', _, hfirst', links',
    (repeated_eq_ok_iff (repeatable_link hadv)).mpr ⟨hlinks', hend⟩, rfl⟩, ?_⟩
  rw [Expr.erase, relabel_assemble, relabel_assemble]
  exact congrArg₂ assemble hferase hlerase

/-- An expression that something closes is read up to there. -/
theorem reread_closed {e : Expr} (t : Token) (us : List Token) (ht : closes t.kind = true)
    (h : expression operand ts = .ok (e, rest)) :
    ∃ e', expression operand (e.print ++ t :: us) = .ok (e', t :: us) ∧ e'.erase = e.erase := by
  have hcloses : Admits .chain rest (t :: us) := .of_closes ht
  obtain ⟨e', he', heq⟩ := reread_expression hadv hop h hcloses rfl
  rw [skipTrivia_cons_of_not_isTrivia us (not_ahead_of_closes ht).1] at he'
  exact ⟨e', he', heq⟩

/-- With nothing behind it, an expression is complete again. -/
theorem reread_complete {e : Expr} (h : complete operand ts = .ok e) :
    ∃ e', complete operand e.print = .ok e' ∧ e'.erase = e.erase := by
  obtain ⟨rest, he, -⟩ := complete_eq_ok_iff.mp h
  have hnil : Admits .chain rest [] := .nil
  obtain ⟨e', he', heq⟩ := reread_expression hadv hop he hnil rfl
  rw [List.append_nil] at he'
  exact ⟨e', complete_eq_ok_iff.mpr ⟨[], he', rfl⟩, heq⟩

theorem reread_interpolationOf {span : Span} {c : Interpolation}
    (h : interpolationOf operand ts span = .ok c) :
    ∃ c', interpolationOf operand c.print default = .ok c' ∧ c'.erase = c.erase := by
  obtain ⟨body, hbody, rfl⟩ := interpolationOf_eq_ok_iff.mp h
  obtain ⟨body', hbody', heq⟩ := reread_complete hadv hop hbody
  rw [Interpolation.print]
  refine ⟨_, interpolationOf_eq_ok_iff.mpr ⟨body', hbody', rfl⟩, ?_⟩
  simp [Interpolation.erase, Interpolation.relabel, heq]

/-! ### Strings and names

A string keeps the shape of its token. Its interpolations are printed inside of it, each on its
own. -/

/-- The parts of a string, by induction on how they were read. -/
theorem ReadsParts.reread {fragments : List StringFragment} {parts : List StringPart}
    (h : ReadsParts operand fragments parts) :
    ∃ parts', ReadsParts operand (printParts parts) parts' ∧
      parts'.map StringPart.erase = parts.map StringPart.erase := by
  induction h with
  | nil => exact ⟨[], by simpa [printParts] using ReadsParts.nil, rfl⟩
  | text _ ih =>
    obtain ⟨more', hmore', heq⟩ := ih
    rw [printParts, StringPart.print]
    exact ⟨_, .text hmore', by simp [heq]⟩
  | interpolation hc _ ih =>
    obtain ⟨content', hc', hceq⟩ := reread_interpolationOf hadv hop hc
    obtain ⟨more', hmore', heq⟩ := ih
    rw [printParts, StringPart.print]
    exact ⟨_, .interpolation hc' hmore', by simp [StringPart.erase, StringPart.relabel, hceq, heq]⟩

/-- A string is printed as one token, and read again from what is inside it. -/
theorem reread_stringOf {fragments : List StringFragment} {multiline : Bool} {span : Span}
    {s : StringLiteral} (h : stringOf operand fragments multiline span = .ok s) :
    ∃ fragments' s', s.print = (TokenKind.string fragments' multiline).token ∧
      stringOf operand fragments' multiline default = .ok s' ∧ s'.erase = s.erase := by
  obtain ⟨parts, hparts, rfl⟩ := stringOf_eq_ok_iff.mp h
  obtain ⟨parts', hparts', heq⟩ := hparts.reread hadv hop
  refine ⟨printParts parts, _, by rw [StringLiteral.print],
    stringOf_eq_ok_iff.mpr ⟨parts', hparts', rfl⟩, ?_⟩
  simp [StringLiteral.erase, StringLiteral.relabel, relabelParts_eq, heq]

/-- A name is printed as one token, of the same kind as before. -/
theorem ReadsSegment.reread {s : Segment} {span : Span}
    (h : ReadsSegment operand ts s span rest) :
    beginsName s.print.kind = true ∧ ∀ us,
      ∃ s', ReadsSegment operand (s.print :: us) s' default us ∧ s'.erase = s.erase := by
  cases h with
  | @name name => exact ⟨rfl, fun us => ⟨.name name, .name, rfl⟩⟩
  | string hl =>
    obtain ⟨fragments', literal', hprint, hl', heq⟩ := reread_stringOf hadv hop hl
    rw [Segment.print, hprint]
    exact ⟨rfl, fun us => ⟨.string literal', .string hl',
      by simp [Segment.erase, Segment.relabel, heq]⟩⟩
  | interpolation hc =>
    obtain ⟨content', hc', heq⟩ := reread_interpolationOf hadv hop hc
    rw [Segment.print]
    exact ⟨rfl, fun us => ⟨.interpolation content', .interpolation hc',
      by simp [Segment.erase, Segment.relabel, heq]⟩⟩

/-- A dot and a name are printed without anything between. -/
theorem reread_dottedSegment {m : Segment × Span} {next : List Token}
    (h : dottedSegment operand ts = .ok (some m, mid))
    (hus : us = [Symbol.dot.token, m.1.print] ++ next) :
    ∃ m', dottedSegment operand us = .ok (some m', next) ∧ m'.1.erase = m.1.erase := by
  obtain ⟨s, span⟩ := m
  obtain ⟨dot, ts', rfl, hs⟩ := dottedSegment_eq_some_iff.mp h
  obtain ⟨s', hs', heq⟩ := (hs.reread hadv hop).2 next
  exact ⟨(s', default), dottedSegment_eq_some_iff.mpr ⟨default, _, hus, hs'⟩, heq⟩

/-- A path of names is read again if no dot follows it directly. -/
theorem reread_attrPath {p : AttrPath} (h : attrPath operand ts = .ok (p, rest))
    (hdot : ∀ span us, rest' ≠ ⟨.symbol .dot, span⟩ :: us) :
    (∃ t us, p.print = t :: us ∧ beginsName t.kind = true) ∧
      ∃ p', attrPath operand (p.print ++ rest') = .ok (p', rest') ∧ p'.erase = p.erase := by
  obtain ⟨first, start, mid, hfirst, more, hmore, rfl⟩ := attrPath_eq_ok_iff.mp h
  have hrounds := rounds_of_repeated stop_dottedSegment hmore
  obtain ⟨-, hread⟩ := hrounds.reread (g := fun m => [Symbol.dot.token, m.1.print])
    (k := fun m => m.1.erase) (R := Eq) (F := fun _ _ => True)
    (fun hm _ _ _ hus => by
      obtain ⟨m', hm', heq⟩ := reread_dottedSegment hadv hop hm hus
      exact ⟨m', _, hm', rfl, heq⟩)
    (fun _ => trivial) trivial
  -- nothing stands between the parts, so the rests are compared as lists and not only behind trivia
  obtain ⟨more', r, hmore', rfl, heq⟩ := hread rfl
  obtain ⟨hbegins, hread⟩ := hfirst.reread hadv hop
  obtain ⟨first', hfirst', hferase⟩ := hread _
  refine ⟨⟨_, _, by rw [AttrPath.print], hbegins⟩, _, attrPath_eq_ok_iff.mpr ⟨first', default, _,
    ?_, more', (repeated_eq_ok_iff repeatable_dottedSegment).mpr
      ⟨hmore', dottedSegment_eq_none_iff.mpr ⟨rfl, hdot⟩⟩, rfl⟩, ?_⟩
  · rw [AttrPath.print, printDotted_eq, List.flatMap_map]
    exact hfirst'
  · simp only [AttrPath.erase, AttrPath.relabel, relabelSegments_eq, List.map_cons, List.map_map,
      Function.comp_def, Span.map_erasePosition, eraseComments_apply, AttrPath.mk.injEq,
      List.cons.injEq, and_true]
    exact ⟨hferase, heq⟩

/-! ### Bindings

Bindings are closed by a mark or a keyword, and each of them ends with a semicolon. So they are read
again whatever follows. -/

/-- The source is printed in parentheses again. Without one, no parenthesis is ahead. -/
theorem reread_inheritSource {source : Option Expr} {cs : List Comment}
    (h : inheritSource operand ts = .ok ((source, cs), rest))
    (hrest : nextIsSymbol .openParen rest' = false) :
    ∃ source' cs', inheritSource operand (printSource source ++ rest') =
        .ok ((source', cs'), rest') ∧ source'.map Expr.erase = source.map Expr.erase := by
  rcases inheritSource_eq_ok_iff.mp h with
    ⟨start, us, e, mid, stop, -, he, -, rfl, -⟩ | ⟨-, rfl, -, -⟩
  · obtain ⟨e', he', heq⟩ := reread_closed hadv hop Symbol.closeParen.token rest' rfl he
    refine ⟨some e', _, inheritSource_eq_ok_iff.mpr (.inl ⟨default, _, e', _, default, ?_, he',
      expectSymbol_token _, rfl, rfl⟩), by simp [heq]⟩
    rw [printSource]
    simp only [List.cons_append, List.append_assoc, List.nil_append]
    exact skipTrivia_symbol _
  · refine ⟨none, [], inheritSource_eq_ok_iff.mpr (.inr ⟨?_, rfl, rfl, ?_⟩), rfl⟩
    · rwa [printSource]
    · rw [printSource]
      rfl

/-- An inherited name is followed by another or by the semicolon. -/
theorem reread_inheritedName {p : AttrPath} {next : List Token}
    (h : inheritedName operand ts = .ok (some p, mid))
    (hdot : ∀ span us, next ≠ ⟨.symbol .dot, span⟩ :: us)
    (hus : skipTrivia us = skipTrivia (p.print ++ next)) :
    ∃ p', inheritedName operand us = .ok (some p', next) ∧ p'.erase = p.erase := by
  obtain ⟨-, -, name, hname, rfl⟩ := inheritedName_eq_some_iff.mp h
  rw [AttrPath.print_comments] at hus
  obtain ⟨⟨t, us', hprint, hbegins⟩, name', hname', heq⟩ := reread_attrPath hadv hop hname hdot
  obtain ⟨htrivia, hend⟩ := not_trivia_of_beginsName hbegins
  have hskip : skipTrivia us = t :: (us' ++ next) := by
    rw [hus, hprint, List.cons_append, skipTrivia_cons_of_not_isTrivia _ htrivia]
  refine ⟨{ name' with comments := commentsAhead us },
    inheritedName_eq_some_iff.mpr ⟨?_, nextIsSymbol_of_eq hskip ?_, name', ?_, rfl⟩, ?_⟩
  · rw [hskip]
    exact hend
  · intro hkind
    rw [hkind] at hbegins
    cases hbegins
  · rw [hskip, ← List.cons_append, ← hprint]
    exact hname'
  · rw [AttrPath.erase_comments, AttrPath.erase_comments, heq]

/-- It begins as a name does. -/
theorem beginsName_of_inheritedName {p : AttrPath}
    (h : inheritedName operand ts = .ok (some p, mid)) :
    ∃ t us, p.print = t :: us ∧ beginsName t.kind = true := by
  obtain ⟨-, -, name, hname, rfl⟩ := inheritedName_eq_some_iff.mp h
  have hnil : ∀ span us, [] ≠ (⟨.symbol .dot, span⟩ :: us : List Token) := by simp
  rw [AttrPath.print_comments]
  exact (reread_attrPath hadv hop hname hnil).1

omit hadv hop in
/-- A name or a semicolon follows directly. -/
def NameAhead (ts : List Token) : Prop :=
  ∃ t us, ts = t :: us ∧ (beginsName t.kind = true ∨ t.kind = .symbol .semicolon)

omit hadv hop in
theorem NameAhead.ne_dot (h : NameAhead ts) (span : Span) (us : List Token) :
    ts ≠ ⟨.symbol .dot, span⟩ :: us := by
  rintro rfl
  obtain ⟨t, us', heq, hkind⟩ := h
  obtain ⟨rfl, -⟩ := List.cons.inj heq
  exact ne_of_beginsName_or hkind rfl (by simp) rfl

omit hadv hop in
theorem NameAhead.not_openParen (h : NameAhead ts) : nextIsSymbol .openParen ts = false := by
  obtain ⟨t, us, rfl, hkind⟩ := h
  have htrivia : t.isTrivia = false := by
    rcases hkind with hkind | hkind
    · exact (not_trivia_of_beginsName hkind).1
    · obtain ⟨kind, span⟩ := t
      obtain rfl : kind = _ := hkind
      rfl
  exact nextIsSymbol_of_eq (skipTrivia_cons_of_not_isTrivia us htrivia)
    (ne_of_beginsName_or hkind rfl (by simp))

/-- Inherited names are read again in front of their semicolon. -/
theorem reread_names {names : List AttrPath} (rest' : List Token)
    (h : Rounds (inheritedName operand) ts names rest) :
    NameAhead (printPaths names ++ Symbol.semicolon.token :: rest') ∧
      ∃ names', repeated (inheritedName operand)
          (printPaths names ++ Symbol.semicolon.token :: rest') =
            .ok (names', Symbol.semicolon.token :: rest') ∧
        names'.map AttrPath.erase = names.map AttrPath.erase := by
  have hsemicolon : NameAhead (Symbol.semicolon.token :: rest') := ⟨_, _, rfl, .inr rfl⟩
  obtain ⟨hahead, hread⟩ := h.reread (g := AttrPath.print) (k := AttrPath.erase)
    (R := fun us next => us = next) (F := fun _ next => NameAhead next)
    (fun hp _ _ hnext hus => by
      obtain ⟨p', hp', heq⟩ := reread_inheritedName hadv hop hp hnext.ne_dot (congrArg _ hus)
      exact ⟨p', _, hp', rfl, heq⟩)
    (fun hp => by
      obtain ⟨t, us', hprint, hbegins⟩ := beginsName_of_inheritedName hadv hop hp
      exact ⟨t, _, by rw [hprint]; rfl, .inl hbegins⟩)
    hsemicolon
  rw [printPaths_eq]
  obtain ⟨names', r, hnames', rfl, heq⟩ := hread rfl
  refine ⟨hahead, names', (repeated_eq_ok_iff repeatable_inheritedName).mpr ⟨hnames',
    inheritedName_eq_none_iff.mpr ⟨rfl, .inr ?_⟩⟩, heq⟩
  exact nextIsSymbol_iff.mpr ⟨_, _, skipTrivia_symbol _⟩

/-- An inheritance, whatever comments it is given. -/
theorem reread_inheritance {comments : List Comment} {start : Span} {b : Binding}
    (comments' : List Comment) (rest' : List Token)
    (h : inheritance operand comments start ts = .ok (b, rest)) :
    ∃ us, b.print = Keyword.inherit.token :: us ∧ ∃ b',
      inheritance operand comments' default (us ++ rest') = .ok (b', rest') ∧
        b'.erase = b.erase := by
  obtain ⟨source, more, ts₁, hsource, names, ts₂, hnames, stop, hstop, rfl⟩ :=
    inheritance_eq_ok_iff.mp h
  have hrounds := rounds_of_repeated stop_inheritedName hnames
  obtain ⟨hahead, names', hnames', hneq⟩ := reread_names hadv hop rest' hrounds
  obtain ⟨source', cs', hsource', hseq⟩ :=
    reread_inheritSource hadv hop hsource hahead.not_openParen
  refine ⟨_, by rw [Binding.print], _, inheritance_eq_ok_iff.mpr ⟨source', cs', _, ?_, names', _,
    hnames', default, ?_, rfl⟩, ?_⟩
  · simpa using hsource'
  · rw [skipTrivia_symbol, expectSymbol_token]
  · simp only [Binding.erase, Binding.relabel, relabelExpr?_eq, relabelPaths_eq,
      Span.map_erasePosition, eraseComments_apply, Binding.inherit.injEq, and_true]
    exact ⟨hseq, hneq⟩

/-- An assignment, whatever comments it is given. -/
theorem reread_assignment {comments : List Comment} {b : Binding} (comments' : List Comment)
    (rest' : List Token) (h : assignment operand comments ts = .ok (b, rest)) :
    (∃ t us, b.print = t :: us ∧ beginsName t.kind = true) ∧ ∃ b',
      assignment operand comments' (b.print ++ rest') = .ok (b', rest') ∧ b'.erase = b.erase := by
  obtain ⟨name, ts₁, hname, eq, ts₂, heq, value, ts₃, hvalue, stop, hstop, rfl⟩ :=
    assignment_eq_ok_iff.mp h
  obtain ⟨value', hvalue', hveq⟩ :=
    reread_closed hadv hop Symbol.semicolon.token rest' rfl hvalue
  have hdot : ∀ span us, Symbol.assign.token :: (value.print ++ Symbol.semicolon.token :: rest') ≠
      ⟨.symbol .dot, span⟩ :: us := by simp [TokenKind.token]
  obtain ⟨⟨t, us, hprint, hbegins⟩, name', hname', hneq⟩ := reread_attrPath hadv hop hname hdot
  have hread : assignment operand comments' (name.print ++ Symbol.assign.token ::
      (value.print ++ Symbol.semicolon.token :: rest')) = .ok (_, rest') :=
    assignment_eq_ok_iff.mpr ⟨name', _, hname', default, _,
      by rw [skipTrivia_symbol, expectSymbol_token], value', _, hvalue', default,
      expectSymbol_token _, rfl⟩
  rw [Binding.print]
  refine ⟨⟨t, _, by rw [hprint]; rfl, hbegins⟩, _, by simpa using hread, ?_⟩
  simp only [Binding.erase, Binding.relabel, Span.map_erasePosition, eraseComments_apply,
    Binding.assign.injEq, and_true]
  exact ⟨hneq, hveq⟩

omit hadv hop in
/-- The bindings have not ended at a token that a binding can begin with. -/
def OpenAtBindings (closed : List Token → Bool) : Prop :=
  ∀ ⦃us t us'⦄, skipTrivia us = t :: us' →
    beginsName t.kind = true ∨ t.kind = .keyword .inherit → closed us = false

omit hadv hop in
/-- A set ends at a brace, and no binding begins with one. -/
theorem openAtBindings_closeBrace : OpenAtBindings (nextIsSymbol .closeBrace) := by
  intro us t us' hskip hkind
  exact nextIsSymbol_of_eq hskip (ne_of_beginsName_or hkind rfl (by simp))

omit hadv hop in
theorem openAtBindings_in : OpenAtBindings (nextIsKeyword .in_) := by
  intro us t us' hskip hkind
  exact nextIsKeyword_of_eq hskip (ne_of_beginsName_or hkind rfl (by simp))

/-- A binding is read again where the set has not ended. -/
theorem reread_bindingUnless {closed : List Token → Bool} {b : Binding} {next : List Token}
    (hclosed : OpenAtBindings closed)
    (h : bindingUnless operand closed ts = .ok (some b, mid))
    (hus : skipTrivia us = skipTrivia (b.print ++ next)) :
    ∃ b', bindingUnless operand closed us = .ok (some b', next) ∧ b'.erase = b.erase := by
  -- an `inherit` is printed with its word, and an assignment begins with a name
  rcases binding_eq_ok_iff.mp (bindingUnless_eq_some_iff.mp h).2.2 with
    ⟨start, ts', -, hb⟩ | ⟨-, hb⟩
  · obtain ⟨us', hprint, b', hb', heq⟩ := reread_inheritance hadv hop (commentsAhead us) next hb
    have hskip : skipTrivia us = Keyword.inherit.token :: (us' ++ next) := by
      rw [hus, hprint, List.cons_append, skipTrivia_keyword]
    refine ⟨b', bindingUnless_eq_some_iff.mpr ⟨?_, hclosed hskip (.inr rfl),
      binding_eq_ok_iff.mpr (.inl ⟨_, _, hskip, hb'⟩)⟩, heq⟩
    rw [hskip]
    rfl
  · obtain ⟨⟨t, us', hprint, hbegins⟩, b', hb', heq⟩ :=
      reread_assignment hadv hop (commentsAhead us) next hb
    obtain ⟨htrivia, hend⟩ := not_trivia_of_beginsName hbegins
    have hskip : skipTrivia us = t :: (us' ++ next) := by
      rw [hus, hprint, List.cons_append, skipTrivia_cons_of_not_isTrivia _ htrivia]
    refine ⟨b', bindingUnless_eq_some_iff.mpr ⟨?_, hclosed hskip (.inl hbegins),
      binding_eq_ok_iff.mpr (.inr ⟨nextIsKeyword_of_eq hskip ?_, ?_⟩)⟩, heq⟩
    · rw [hskip]
      exact hend
    · intro hkind
      rw [hkind] at hbegins
      cases hbegins
    · rw [hskip, ← List.cons_append, ← hprint]
      exact hb'

/-- Bindings are read again in front of what closes them. That comments were given to the last of
them makes no difference, before or now. -/
theorem reread_bindings {closed : List Token → Bool} {bs : List Binding}
    (hclosed : OpenAtBindings closed) (more more' : List Comment)
    (hrest : closed rest' = true)
    (h : repeated (bindingUnless operand closed) ts = .ok (bs, rest)) :
    ∃ bs', repeated (bindingUnless operand closed)
        (printBindings (attachToLast more bs).1 ++ rest') = .ok (bs', rest') ∧
      (attachToLast more' bs').1.map Binding.erase =
        (attachToLast more bs).1.map Binding.erase := by
  have hrounds := rounds_of_repeated stop_bindingUnless h
  obtain ⟨-, hread⟩ := hrounds.reread (g := Binding.print) (k := Binding.erase)
    (R := fun us next => us = next) (F := fun _ _ => True)
    (fun hb _ _ _ hus => by
      obtain ⟨b', hb', heq⟩ := reread_bindingUnless hadv hop hclosed hb (congrArg _ hus)
      exact ⟨b', _, hb', rfl, heq⟩)
    (fun _ => trivial) trivial
  have hprint : printBindings (attachToLast more bs).1 = bs.flatMap Binding.print := by
    rw [printBindings_eq, List.flatMap_def, map_attachToLast Binding.print_addComments,
      ← List.flatMap_def]
  obtain ⟨bs', r, hbs', rfl, heq⟩ := hread rfl
  refine ⟨bs', (repeated_eq_ok_iff (repeatable_bindingUnless hadv)).mpr ⟨by rwa [hprint],
    bindingUnless_eq_none_iff.mpr ⟨rfl, .inr hrest⟩⟩, ?_⟩
  rw [map_attachToLast Binding.erase_addComments, map_attachToLast Binding.erase_addComments, heq]

/-- An attribute set, from behind its opening brace. -/
theorem reread_attrSet {recursive : Bool} {start : Span} {t : Term} (rest' : List Token)
    (h : attrSet operand recursive start ts = .ok (t, rest)) :
    ∃ inner, Balanced inner ∧
      t.print = (if recursive then [Keyword.rec_.token] else []) ++
        Symbol.openBrace.token :: (inner ++ [Symbol.closeBrace.token]) ∧
      ∃ t', attrSet operand recursive default (inner ++ Symbol.closeBrace.token :: rest') =
        .ok (t', rest') ∧ t'.erase = t.erase := by
  obtain ⟨bs, mid, hbs, stop, hstop, rfl⟩ := attrSet_eq_ok_iff.mp h
  have hcloses : nextIsSymbol .closeBrace (Symbol.closeBrace.token :: rest') = true :=
    nextIsSymbol_iff.mpr ⟨_, _, skipTrivia_symbol _⟩
  obtain ⟨bs', hbs', heq⟩ := reread_bindings hadv hop openAtBindings_closeBrace
    (commentsAhead mid) (commentsAhead (Symbol.closeBrace.token :: rest')) hcloses hbs
  refine ⟨_, balanced_printBindings _, by rw [Term.print], _, attrSet_eq_ok_iff.mpr ⟨bs', _, hbs',
    default, ?_, rfl⟩, ?_⟩
  · rw [skipTrivia_symbol, expectSymbol_token]
  · simp only [Term.erase, Term.relabel, relabelBindings_eq, Span.map_erasePosition,
      eraseComments_apply, Term.attrSet.injEq, and_true, true_and]
    exact heq

/-- A `let` block, from behind its keyword. -/
theorem reread_letIn {start : Span} {t : Term} (h : letIn operand start ts = .ok (t, rest))
    (hrest : Admits ctx rest rest') :
    ∃ us, t.print = Keyword.let_.token :: us ∧ ∃ t',
      letIn operand default (us ++ rest') = .ok (t', skipTrivia rest') ∧ t'.erase = t.erase := by
  obtain ⟨bs, ts₁, hbs, stop, ts₂, hstop, body, hbody, rfl⟩ := letIn_eq_ok_iff.mp h
  obtain ⟨body', hbody', hbeq⟩ := reread_expression hadv hop hbody hrest rfl
  have hcloses : nextIsKeyword .in_ (Keyword.in_.token :: (body.print ++ rest')) = true :=
    nextIsKeyword_iff.mpr ⟨_, _, skipTrivia_keyword _⟩
  obtain ⟨bs', hbs', heq⟩ := reread_bindings hadv hop openAtBindings_in (commentsAhead ts₁)
    (commentsAhead (Keyword.in_.token :: (body.print ++ rest'))) hcloses hbs
  have hread : letIn operand default (printBindings (attachToLast (commentsAhead ts₁) bs).1 ++
      Keyword.in_.token :: (body.print ++ rest')) = .ok (_, skipTrivia rest') :=
    letIn_eq_ok_iff.mpr ⟨bs', _, hbs', default, _,
      by rw [skipTrivia_keyword, expectKeyword_token], body', hbody', rfl⟩
  refine ⟨_, by rw [Term.print], _, by simpa using hread, ?_⟩
  simp only [Term.erase, Term.relabel, relabelBindings_eq, Span.map_erasePosition,
    eraseComments_apply, Term.letIn.injEq, and_true, true_and]
  exact ⟨heq, hbeq⟩

/-! ### Functions

A pattern prints its name behind it, even if it stood in front. The rule for what is behind the
braces reads it there, and the trees agree, since a tree does not say where the name stood. -/

omit hadv hop in
theorem ne_dot_of_closes {t : Token} (ht : closes t.kind = true) (span : Span) (us' : List Token) :
    t :: us ≠ ⟨.symbol .dot, span⟩ :: us' := by
  rintro heq
  obtain ⟨rfl, -⟩ := List.cons.inj heq
  cases ht

/-- An attribute of a pattern is read again in front of a comma or a brace. -/
theorem reread_formal {comments : List Comment} {a : Formal} (comments' : List Comment)
    (t : Token) (us : List Token) (ht : closes t.kind = true)
    (h : formal operand comments ts = .ok (a, rest)) :
    ∃ a', formal operand comments' (skipTrivia (a.print ++ t :: us)) = .ok (a', t :: us) ∧
      a'.erase = a.erase := by
  have hskip := skipTrivia_cons_of_not_isTrivia us (not_ahead_of_closes ht).1
  obtain ⟨name, mid, hname, ⟨start, ts', e, -, he, rfl⟩ | ⟨-, -, rfl⟩⟩ := formal_eq_ok_iff.mp h
  · have hdot : ∀ span us', Symbol.question.token :: (e.print ++ t :: us) ≠
        ⟨.symbol .dot, span⟩ :: us' := by simp [TokenKind.token]
    obtain ⟨⟨t', us', hprint, hbegins⟩, name', hname', hneq⟩ := reread_attrPath hadv hop hname hdot
    obtain ⟨e', he', heq⟩ := reread_closed hadv hop t us ht he
    have hread : formal operand comments' (name.print ++ Symbol.question.token ::
        (e.print ++ t :: us)) = .ok (_, t :: us) :=
      formal_eq_ok_iff.mpr ⟨name', _, hname', .inl ⟨default, _, e', skipTrivia_symbol _, he', rfl⟩⟩
    rw [← skipTrivia_of_beginsName hprint hbegins] at hread
    refine ⟨_, by simpa [Formal.print, printFallback] using hread, ?_⟩
    simp [Formal.erase, Formal.relabel, relabelExpr?, hneq, heq]
  · have hdot : ∀ span us', t :: us ≠ ⟨.symbol .dot, span⟩ :: us' := ne_dot_of_closes ht
    obtain ⟨⟨t', us', hprint, hbegins⟩, name', hname', hneq⟩ := reread_attrPath hadv hop hname hdot
    have hquestion : nextIsSymbol .question (t :: us) = false := by
      refine nextIsSymbol_of_eq hskip fun hkind => ?_
      rw [hkind] at ht
      cases ht
    have hread : formal operand comments' (name.print ++ t :: us) = .ok (_, t :: us) :=
      formal_eq_ok_iff.mpr ⟨name', _, hname', .inr ⟨hquestion, hskip.symm, rfl⟩⟩
    rw [← skipTrivia_of_beginsName hprint hbegins] at hread
    refine ⟨_, by simpa [Formal.print, printFallback] using hread, ?_⟩
    simp [Formal.erase, Formal.relabel, relabelExpr?, hneq]

/-- The inside of a pattern is read again, without a comma in front of its closing brace. -/
theorem ReadsPattern.reread {body : PatternBody} (us : List Token)
    (h : ReadsPattern operand ts body rest) :
    ∃ body', ReadsPattern operand
        (printFormals body.variadic body.formals ++ Symbol.closeBrace.token :: us) body'
        (Symbol.closeBrace.token :: us) ∧
      body'.variadic = body.variadic ∧
      body'.formals.map Formal.erase = body.formals.map Formal.erase := by
  induction h with
  | closed =>
    have hread : ReadsPattern operand (Symbol.closeBrace.token :: us) _ _ :=
      .closed (skipTrivia_symbol _)
    rw [skipTrivia_symbol] at hread
    rw [printFormals, if_neg Bool.false_ne_true, List.nil_append]
    exact ⟨_, hread, rfl, rfl⟩
  | variadic =>
    have hread : ReadsPattern operand
        (Symbol.ellipsis.token :: Symbol.closeBrace.token :: us) _ _ :=
      .variadic (skipTrivia_symbol _)
    rw [skipTrivia_symbol] at hread
    rw [printFormals, if_pos rfl]
    exact ⟨_, hread, rfl, rfl⟩
  | @comma ts mid rest span a body head tail ih =>
    rw [printFormals]
    by_cases hlast : (body.formals.isEmpty && !body.variadic) = true
    · -- the comma was the one that is not printed
      obtain ⟨hempty, hvariadic⟩ : body.formals = [] ∧ body.variadic = false := by
        simpa using hlast
      obtain ⟨a', ha', heq⟩ := reread_formal hadv hop _ Symbol.closeBrace.token us rfl head
      rw [if_pos hlast, List.append_nil]
      exact ⟨_, .last ha', hvariadic.symm, by simp [hempty, heq]⟩
    · obtain ⟨body', htail, hvariadic, hformals⟩ := ih
      obtain ⟨a', ha', heq⟩ := reread_formal hadv hop _ Symbol.comma.token _ rfl head
      rw [if_neg hlast, List.append_assoc]
      exact ⟨_, .comma ha' htail, hvariadic, by simp [hformals, heq]⟩
  | @last ts rest span a head =>
    obtain ⟨a', ha', heq⟩ := reread_formal hadv hop _ Symbol.closeBrace.token us rfl head
    rw [printFormals, if_pos (by simp), List.append_nil]
    exact ⟨_, .last ha', rfl, by simp [heq]⟩

omit hadv hop in
/-- The name of a pattern's argument, from behind the `@`. -/
def PathRereads (operand : Context → Rule Operand) (p : AttrPath) : Prop :=
  ∀ ⦃us⦄, (∀ span us', us ≠ ⟨.symbol .dot, span⟩ :: us') →
    ∃ p', attrPath operand (skipTrivia (p.print ++ us)) = .ok (p', us) ∧ p'.erase = p.erase

/-- A name that was read behind a pattern. -/
theorem pathRereads_of_attrPath {p : AttrPath} (h : attrPath operand ts = .ok (p, rest)) :
    PathRereads operand p := by
  intro us hdot
  obtain ⟨⟨t, us', hprint, hbegins⟩, hread⟩ := reread_attrPath hadv hop h hdot
  rwa [skipTrivia_of_beginsName hprint hbegins]

omit hadv hop in
/-- A name that stood in front of a pattern. -/
theorem pathRereads_name (name : String) (span : Span) :
    PathRereads operand ⟨[.name name], [], span⟩ := by
  intro us hdot
  refine ⟨_, attrPath_eq_ok_iff.mpr ⟨.name name, default, us, .name, [],
    (repeated_eq_ok_iff repeatable_dottedSegment).mpr
      ⟨.nil, dottedSegment_eq_none_iff.mpr ⟨rfl, hdot⟩⟩, rfl⟩, ?_⟩
  simp [AttrPath.erase, AttrPath.relabel]

omit hadv hop in
/-- The name behind a pattern is read again in front of the colon. -/
theorem reread_patternName {whole : Option AttrPath} (us : List Token)
    (hwhole : ∀ p ∈ whole, PathRereads operand p) :
    ∃ whole' cs', patternName operand (printWhole whole ++ Symbol.colon.token :: us) =
        .ok ((whole', cs'), Symbol.colon.token :: us) ∧
      whole'.map AttrPath.erase = whole.map AttrPath.erase := by
  cases whole with
  | none =>
    rw [printWhole]
    exact ⟨none, [], patternName_eq_ok_iff.mpr (.inr ⟨by simp [TokenKind.token], rfl, rfl, rfl⟩),
      rfl⟩
  | some p =>
    have hdot : ∀ span us', Symbol.colon.token :: us ≠ ⟨.symbol .dot, span⟩ :: us' := by
      simp [TokenKind.token]
    obtain ⟨p', hp', heq⟩ := hwhole p rfl hdot
    rw [printWhole]
    exact ⟨some p', _, patternName_eq_ok_iff.mpr (.inl ⟨default, _, p', _, rfl, hp', rfl, rfl,
      (skipTrivia_symbol _).symm⟩), by simp [heq]⟩

/-- A pattern is told by the colon or the `@` behind it, and is read again with its name behind
it. -/
theorem reread_patternLambda {front : Option AttrPath} {start : Span} {t : Term}
    (hfront : ∀ p ∈ front, PathRereads operand p)
    (h : patternLambda operand front start ts = .ok (t, rest)) (hrest : Admits ctx rest rest') :
    ∃ us, t.print = Symbol.openBrace.token :: us ∧ opensPattern false (us ++ rest') = true ∧
      ∃ t', patternLambda operand none default (us ++ rest') = .ok (t', skipTrivia rest') ∧
        t'.erase = t.erase := by
  obtain ⟨body, ts₁, hbody, stop, ts₂, hstop, whole, span, more, ts₃, hend, colon, ts₄, hcolon,
    result, hresult, rfl⟩ := patternLambda_eq_ok_iff.mp h
  have hwhole : ∀ p ∈ whole, PathRereads operand p :=
    forall_mem_of_patternEnd hend hfront (pathRereads_of_attrPath hadv hop)
  obtain ⟨result', hresult', hreq⟩ := reread_expression hadv hop hresult hrest rfl
  obtain ⟨whole', cs', hwhole', hweq⟩ := reread_patternName (result.print ++ rest') hwhole
  obtain ⟨body', hbody', hvariadic, hformals⟩ :=
    (readsPattern_of_patternBodyUpTo hbody).reread hadv hop
      (printWhole whole ++ Symbol.colon.token :: (result.print ++ rest'))
  -- what is printed behind the closing brace begins with a mark
  have hskip : skipTrivia (printWhole whole ++ Symbol.colon.token :: (result.print ++ rest')) =
      printWhole whole ++ Symbol.colon.token :: (result.print ++ rest') := by
    cases whole <;> (rw [printWhole]; exact skipTrivia_symbol _)
  have hread : patternLambda operand none default (printFormals body.variadic body.formals ++
      Symbol.closeBrace.token :: (printWhole whole ++ Symbol.colon.token ::
        (result.print ++ rest'))) = .ok (_, skipTrivia rest') :=
    patternLambda_eq_ok_iff.mpr ⟨body', _, (patternBody_eq_ok_iff hadv).mpr hbody', default, _,
      expectSymbol_token _, whole', _, cs', _,
      patternEnd_none_eq_ok_iff.mpr ⟨by rw [hskip]; exact hwhole', rfl⟩, default, _,
      expectSymbol_token _, result', hresult', rfl⟩
  -- the braces are matched in print, and the mark behind them makes a pattern of them
  have hopens : opensPattern false (printFormals body.variadic body.formals ++
      Symbol.closeBrace.token :: (printWhole whole ++ Symbol.colon.token ::
        (result.print ++ rest'))) = true := by
    rw [opensPattern_print false (balanced_printFormals _ _)]
    cases whole with
    | none =>
      have hcolon : nextIsSymbol .colon (Symbol.colon.token :: (result.print ++ rest')) = true :=
        nextIsSymbol_iff.mpr ⟨_, _, skipTrivia_symbol _⟩
      simp [printWhole, hcolon]
    | some p =>
      have hatSign : nextIsSymbol .atSign (Symbol.atSign.token :: (p.print ++
          Symbol.colon.token :: (result.print ++ rest'))) = true :=
        nextIsSymbol_iff.mpr ⟨_, _, skipTrivia_symbol _⟩
      simp [printWhole, hatSign]
  refine ⟨_, by rw [Term.print, Parameter.print]; rfl, by simpa using hopens, _,
    by simpa using hread, ?_⟩
  simp only [Term.erase, Term.relabel, Parameter.relabel, relabelFormals_eq, relabelPath?_eq,
    Span.map_erasePosition, eraseComments_apply, Term.lambda.injEq, Parameter.pattern.injEq,
    and_true]
  exact ⟨⟨hformals, hvariadic, hweq⟩, hreq⟩

end Grammar

end NixSyntax
