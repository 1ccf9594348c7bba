import NixSyntax.Proofs.Cutting.Seam

/-!
# Tokens with other gaps between them

Line breaks and comments stand between the other tokens, and most rules pass over them. Two lists
of tokens that differ only there are read alike, with three reservations.

* Behind some tokens the next one is looked at directly (`Token.mindsGap`): a name may go on with a
  dot, or be the argument of a function, and a minus sign may belong to a number. Behind these, a gap
  on one side has to be a gap on the other.
* Behind `rec`, line breaks are passed over and comments are not. So the brace that has to follow is
  found on both sides only if comments are in front of it on both sides or on none.
* Comments are kept in the tree. If the trees are compared with their comments, the comments of a
  gap have to be the same.

All three are about what stands in front of a gap, so the relation of the two lists goes from one
significant token to the next (`Spacing.Same`). Many rules begin behind a token and in front of a gap,
where the lists are `Spacing.Near`. A rule for names begins there too but looks at the next token
directly, and asks for `Spacing.Touch`.

## Main definitions

* `Token.mindsGap`: the tokens behind which a line break matters
* `Spacing.Same`, `Spacing.Near`, `Spacing.Touch`: lists of tokens that differ in their gaps
* `Spacing.Alike`: a rule reads the same on two such lists

## Main results

* `Spacing.Near.opensPattern`: braces are a pattern on both sides or on none
* `Spacing.Alike.repeated`: a repetition reads the same if its rounds do
-/

namespace NixSyntax

/-- The tokens behind which the next token is looked at directly. -/
def Token.mindsGap : Token → Bool
  | ⟨.identifier _, _⟩ => true
  | ⟨.string _ _, _⟩ => true
  | ⟨.interpolation _, _⟩ => true
  | ⟨.symbol .minus, _⟩ => true
  | ⟨.symbol .dot, _⟩ => true
  | ⟨.symbol .atSign, _⟩ => true
  | _ => false

namespace Grammar

variable {ts us rest : List Token} {t : Token}

/-- A token that is no trivia is the first one behind the line breaks if it is the first one behind
all trivia, and no comment is in front of it. -/
theorem skipNewlines_eq_cons_iff (ht : t.isTrivia = false) :
    skipNewlines ts = t :: rest ↔ commentsAhead ts = [] ∧ skipTrivia ts = t :: rest := by
  induction ts with
  | nil => simp [skipNewlines]
  | cons a ts ih =>
    obtain ⟨kind, span⟩ := a
    cases kind with
    | newline =>
      rw [skipTrivia_cons_of_isTrivia ts rfl, commentsAhead_cons_of_isTrivia ts rfl]
      exact ih
    | comment text block =>
      rw [commentsAhead_cons_of_isTrivia ts rfl]
      refine iff_of_false (fun h => ?_) (fun h => List.cons_ne_nil _ _ h.1)
      obtain ⟨rfl, -⟩ := List.cons.inj h
      cases ht
    | _ =>
      rw [commentsAhead_cons_of_not_isTrivia ts rfl, skipTrivia_cons_of_not_isTrivia ts rfl]
      exact (and_iff_right rfl).symm

/-- Line breaks and comments are no braces. -/
theorem behindBraces_skipTrivia (depth : Nat) (ts : List Token) :
    behindBraces depth (skipTrivia ts) = behindBraces depth ts := by
  induction ts with
  | nil => rfl
  | cons t ts ih =>
    cases ht : t.isTrivia with
    | false => rw [skipTrivia_cons_of_not_isTrivia ts ht]
    | true =>
      rw [skipTrivia_cons_of_isTrivia ts ht, behindBraces_cons (Token.isBrace_of_isTrivia ht), ih]

namespace Spacing

variable (keep : Bool)

/-- Lists that begin with the same significant token and differ in the gaps behind it. Each gap is
compared with the one at its place, as far as a rule can tell them apart: whether there is one at
all behind a token that minds it (`gap`), whether there are comments in it behind `rec` (`brace`),
and what its comments are if these are compared (`comments`). -/
inductive Same : List Token → List Token → Prop
  | nil : Same [] []
  | cons {t : Token} {us us' : List Token} (significant : t.isTrivia = false)
      (gap : t.mindsGap = true → (skipTrivia us = us ↔ skipTrivia us' = us'))
      (brace : t.keyword? = some .rec_ → (commentsAhead us = [] ↔ commentsAhead us' = []))
      (comments : viewComments keep id (commentsAhead us) =
        viewComments keep id (commentsAhead us'))
      (behind : Same (skipTrivia us) (skipTrivia us')) :
      Same (t :: us) (t :: us')

/-- Lists that begin with two gaps, and behind them with the same token. Either gap may be empty,
and one may be where the other is not. -/
structure Near (ts ts' : List Token) : Prop where
  /-- The comments of the gaps are the same, if they are compared. -/
  comments : viewComments keep id (commentsAhead ts) = viewComments keep id (commentsAhead ts')
  /-- Behind the gaps the lists begin with the same token. -/
  behind : Same keep (skipTrivia ts) (skipTrivia ts')

/-- Lists that begin with two gaps or with none. That is what is left behind a token that minds. -/
structure Touch (ts ts' : List Token) : Prop extends Near keep ts ts' where
  /-- A gap on one side is a gap on the other. -/
  gap : skipTrivia ts = ts ↔ skipTrivia ts' = ts'

variable {keep} {ts' : List Token}

/-- Nothing distinguishes the two sides. -/
theorem Same.symm (h : Same keep ts ts') : Same keep ts' ts := by
  induction h with
  | nil => exact .nil
  | cons significant gap brace comments behind ih =>
    exact .cons significant (fun ht => (gap ht).symm) (fun ht => (brace ht).symm) comments.symm ih

theorem Near.symm (h : Near keep ts ts') : Near keep ts' ts := ⟨h.comments.symm, h.behind.symm⟩

theorem Touch.symm (h : Touch keep ts ts') : Touch keep ts' ts := ⟨h.toNear.symm, h.gap.symm⟩

/-! ### In front of a significant token

There is no gap to speak of, so the lists are also `Touch` and `Near`. Behind the token there is one
again, and which of the relations holds there depends on the token. -/

namespace Same

theorem skipTrivia_eq (h : Same keep ts ts') : skipTrivia ts = ts := by
  cases h with
  | nil => rfl
  | cons significant => exact skipTrivia_cons_of_not_isTrivia _ significant

theorem commentsAhead_eq (h : Same keep ts ts') : commentsAhead ts = [] := by
  rw [← h.skipTrivia_eq, commentsAhead_skipTrivia]

/-- Two lists without a gap in front touch. -/
theorem touch (h : Same keep ts ts') : Touch keep ts ts' where
  comments := by rw [h.commentsAhead_eq, h.symm.commentsAhead_eq]
  behind := by rwa [h.skipTrivia_eq, h.symm.skipTrivia_eq]
  gap := iff_of_true h.skipTrivia_eq h.symm.skipTrivia_eq

theorem near (h : Same keep ts ts') : Near keep ts ts' := h.touch.toNear

/-- Behind a token there are two gaps. -/
theorem take (h : Same keep (t :: us) ts') : ∃ us', ts' = t :: us' ∧ Near keep us us' := by
  cases h with
  | cons _ _ _ comments behind => exact ⟨_, rfl, comments, behind⟩

/-- Behind a token that minds it, there are two gaps or none. -/
theorem takeTouch (h : Same keep (t :: us) ts') (ht : t.mindsGap = true) :
    ∃ us', ts' = t :: us' ∧ Touch keep us us' := by
  cases h with
  | cons _ gap _ comments behind => exact ⟨_, rfl, ⟨comments, behind⟩, gap ht⟩

/-- Behind `rec` there are comments on both sides or on none. -/
theorem takeRec {span : Span} (h : Same keep (⟨.keyword .rec_, span⟩ :: us) ts') :
    ∃ us', ts' = ⟨.keyword .rec_, span⟩ :: us' ∧ Near keep us us' ∧
      (commentsAhead us = [] ↔ commentsAhead us' = []) := by
  cases h with
  | cons _ _ brace comments behind => exact ⟨_, rfl, ⟨comments, behind⟩, brace rfl⟩

/-- What does not begin with a token of some kind on one side does not on the other. -/
theorem ne_kind {kind : TokenKind} (h : Same keep ts ts')
    (hts : ∀ span us, ts ≠ ⟨kind, span⟩ :: us) (span : Span) (us : List Token) :
    ts' ≠ ⟨kind, span⟩ :: us := by
  rintro rfl
  obtain ⟨us', rfl, -⟩ := h.symm.take
  exact hts _ _ rfl

/-- Both are at the end, or neither is. -/
theorem atEnd_eq (h : Same keep ts ts') : atEnd ts' = atEnd ts := by
  cases h <;> rfl

end Same

/-- Where there is no gap on one side there is none on the other. -/
theorem Touch.same (h : Touch keep ts ts') (hts : skipTrivia ts = ts) : Same keep ts ts' := by
  have hsame := h.behind
  rwa [hts, h.gap.mp hts] at hsame

/-- In front of a token that is no trivia there is no gap on either side. -/
theorem Touch.same_cons (h : Touch keep (t :: us) ts') (ht : t.isTrivia = false) :
    Same keep (t :: us) ts' :=
  h.same (skipTrivia_cons_of_not_isTrivia us ht)

theorem Touch.ne_kind {kind : TokenKind} (h : Touch keep ts ts')
    (hkind : ∀ span, Token.isTrivia ⟨kind, span⟩ = false)
    (hts : ∀ span us, ts ≠ ⟨kind, span⟩ :: us) (span : Span) (us : List Token) :
    ts' ≠ ⟨kind, span⟩ :: us := by
  rintro rfl
  exact (h.symm.same_cons (hkind span)).symm.ne_kind hts span us rfl

/-! ### In front of a gap

The next token that is no trivia is the same on both sides. So what is asked of that token has the
same answer. -/

namespace Near

/-- The token behind the gap is the same, and two gaps follow it. -/
theorem next (h : Near keep ts ts') (hts : skipTrivia ts = t :: us) :
    ∃ us', skipTrivia ts' = t :: us' ∧ Near keep us us' := by
  have hsame := h.behind
  rw [hts] at hsame
  exact hsame.take

theorem nextIsSymbol (h : Near keep ts ts') {s : Symbol} (hts : nextIsSymbol s ts = true) :
    Grammar.nextIsSymbol s ts' = true := by
  obtain ⟨span, us, hskip⟩ := nextIsSymbol_iff.mp hts
  obtain ⟨us', hskip', -⟩ := h.next hskip
  exact nextIsSymbol_iff.mpr ⟨span, us', hskip'⟩

theorem nextIsKeyword (h : Near keep ts ts') {k : Keyword} (hts : nextIsKeyword k ts = true) :
    Grammar.nextIsKeyword k ts' = true := by
  obtain ⟨span, us, hskip⟩ := nextIsKeyword_iff.mp hts
  obtain ⟨us', hskip', -⟩ := h.next hskip
  exact nextIsKeyword_iff.mpr ⟨span, us', hskip'⟩

theorem nextIsSymbol_eq (h : Near keep ts ts') (s : Symbol) :
    Grammar.nextIsSymbol s ts' = Grammar.nextIsSymbol s ts :=
  Bool.eq_iff_iff.mpr ⟨h.symm.nextIsSymbol, h.nextIsSymbol⟩

theorem nextIsKeyword_eq (h : Near keep ts ts') (k : Keyword) :
    Grammar.nextIsKeyword k ts' = Grammar.nextIsKeyword k ts :=
  Bool.eq_iff_iff.mpr ⟨h.symm.nextIsKeyword, h.nextIsKeyword⟩

/-- A mark that is required is found on both sides, if comments are in front of it on both or on
none. -/
theorem expectSymbol {s : Symbol} {span : Span} (h : Near keep ts ts')
    (hgap : commentsAhead ts = [] ↔ commentsAhead ts' = [])
    (hs : expectSymbol s ts = .ok (span, rest)) :
    ∃ rest', Grammar.expectSymbol s ts' = .ok (span, rest') ∧ Near keep rest rest' := by
  obtain ⟨hnone, hnext⟩ := (skipNewlines_eq_cons_iff rfl).mp (expectSymbol_eq_ok_iff.mp hs)
  obtain ⟨rest', hnext', hrest⟩ := h.next hnext
  exact ⟨rest', expectSymbol_eq_ok_iff.mpr
    ((skipNewlines_eq_cons_iff rfl).mpr ⟨hgap.mp hnone, hnext'⟩), hrest⟩

end Near

/-- In front of a significant token there are no comments, so the mark is found on both sides or on
none. -/
theorem Same.expectSymbol {s : Symbol} {span : Span} (h : Same keep ts ts')
    (hs : expectSymbol s ts = .ok (span, rest)) :
    ∃ rest', Grammar.expectSymbol s ts' = .ok (span, rest') ∧ Near keep rest rest' :=
  h.near.expectSymbol (iff_of_true h.commentsAhead_eq h.symm.commentsAhead_eq) hs

theorem Same.expectKeyword {k : Keyword} {span : Span} (h : Same keep ts ts')
    (hk : expectKeyword k ts = .ok (span, rest)) :
    ∃ rest', Grammar.expectKeyword k ts' = .ok (span, rest') ∧ Near keep rest rest' := by
  obtain ⟨-, hnext⟩ := (skipNewlines_eq_cons_iff rfl).mp (expectKeyword_eq_ok_iff.mp hk)
  obtain ⟨rest', hnext', hrest⟩ := h.near.next hnext
  exact ⟨rest', expectKeyword_eq_ok_iff.mpr
    ((skipNewlines_eq_cons_iff rfl).mpr ⟨h.symm.commentsAhead_eq, hnext'⟩), hrest⟩

/-! ### Braces

The search for a closing brace goes over many tokens and counts braces only, so the gaps between
them are of no account. -/

/-- Braces that close on one side close on the other. -/
theorem Same.behindBraces (h : Same keep ts ts') {depth : Nat}
    (hts : behindBraces depth ts = some rest) :
    ∃ rest', Grammar.behindBraces depth ts' = some rest' ∧ Near keep rest rest' := by
  induction h generalizing depth with
  | nil => cases hts
  | @cons t us us' _ _ _ comments behind ih =>
    -- a gap is passed without counting, on either side
    have hinside (depth : Nat) (h : Grammar.behindBraces depth us = some rest) :
        ∃ rest', Grammar.behindBraces depth us' = some rest' ∧ Near keep rest rest' := by
      rw [← behindBraces_skipTrivia] at h ⊢
      exact ih h
    cases hbrace : t.isBrace with
    | false =>
      rw [behindBraces_cons hbrace] at hts ⊢
      exact hinside depth hts
    | true =>
      obtain ⟨kind, span⟩ := t
      rcases Token.isBrace_iff.mp hbrace with rfl | rfl
      · exact hinside (depth + 1) hts
      · cases depth with
        | zero =>
          obtain rfl := Option.some.inj hts
          exact ⟨us', rfl, comments, behind⟩
        | succ depth => exact hinside depth hts

theorem Near.opensPattern (h : Near keep ts ts') {named : Bool}
    (hts : opensPattern named ts = true) : Grammar.opensPattern named ts' = true := by
  rw [Grammar.opensPattern, ← behindBraces_skipTrivia] at hts ⊢
  cases hrest : behindBraces 0 (skipTrivia ts) with
  | none => simp [hrest] at hts
  | some rest =>
    obtain ⟨rest', hrest', hnear⟩ := h.behind.behindBraces hrest
    rw [hrest] at hts
    rw [hrest']
    simpa only [hnear.nextIsSymbol_eq] using hts

/-- Braces are a pattern on both sides or on none. -/
theorem Near.opensPattern_eq (h : Near keep ts ts') (named : Bool) :
    Grammar.opensPattern named ts' = Grammar.opensPattern named ts :=
  Bool.eq_iff_iff.mpr ⟨h.symm.opensPattern, h.opensPattern⟩

/-! ### Rules

A rule has to read on the second list what it reads on the first. The converse is not asked for: it
is the same statement with the lists exchanged, since the relations are symmetric. -/

/-- On lists that correspond by `R`, the rule `r'` does what `r` does: it reads the same, as far as
`k` compares it, and the lists it leaves correspond by `S`. -/
def Alike {α β : Type} (R S : List Token → List Token → Prop) (r r' : Rule α) (k : α → β) : Prop :=
  ∀ ⦃ts ts' a rest⦄, R ts ts' → r ts = .ok (a, rest) →
    ∃ a' rest', r' ts' = .ok (a', rest') ∧ S rest rest' ∧ k a = k a'

variable {α β : Type} {R : List Token → List Token → Prop} {round : Rule (Option α)} {k : α → β}

/-- The rounds of a repetition, by induction on them. -/
theorem Alike.rounds {as : List α} (hround : Alike R R round round (Option.map k))
    (hts : R ts ts') (h : Rounds round ts as rest) :
    ∃ as' rest', Rounds round ts' as' rest' ∧ R rest rest' ∧ as.map k = as'.map k := by
  induction h generalizing ts' with
  | nil => exact ⟨[], ts', .nil, hts, rfl⟩
  | cons head tail ih =>
    obtain ⟨a', mid', hhead, hmid, hk⟩ := hround hts head
    obtain ⟨as', rest', htail, hrest, hks⟩ := ih hmid
    cases a' with
    | none => cases hk
    | some a' =>
      exact ⟨a' :: as', rest', .cons hhead htail, hrest,
        by rw [List.map_cons, List.map_cons, hks, Option.some.inj hk]⟩

/-- **A repetition reads the same if its rounds do.** -/
theorem Alike.repeated (hround : Alike R R round round (Option.map k)) (hr : Repeatable round) :
    Alike R R (repeated round) (repeated round) (List.map k) := by
  intro ts ts' as rest hts h
  obtain ⟨hrounds, hend⟩ := (repeated_eq_ok_iff hr).mp h
  obtain ⟨as', rest', hrounds', hrest, hk⟩ := hround.rounds hts hrounds
  -- the round that ends the repetition reads nothing on one side, so it does on the other
  obtain ⟨a', us, hend', -, hnone⟩ := hround hrest hend
  obtain rfl : a' = none := by simpa using hnone.symm
  obtain rfl := hr.stop hend'
  exact ⟨as', us, (repeated_eq_ok_iff hr).mpr ⟨hrounds', hend'⟩, hrest, hk⟩

end Spacing

end Grammar

end NixSyntax
