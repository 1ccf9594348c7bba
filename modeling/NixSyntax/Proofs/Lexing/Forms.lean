import NixSyntax.Proofs.Reading.Repetition
import NixSyntax.Token.Stream

/-!
# When a reader of tokens succeeds

One lemma for each reader with a choice says exactly when the reader succeeds and what it has found
then. What follows about the tokens of a text takes its cases from these lemmas.

The tokens up to the closing brace of an interpolation are read in rounds, and a round is told from
how the token it reads changes the depth (`TokenKind.braceDepth`).

## Why the lemmas are equivalences

The readers are written with binds and branches, and their results are pairs of a token and a place.
What one wants to know of them is of the form: this token was found, so these steps were made. The
way back is wanted as well, where a text is given and the answer is to be found. So each lemma is an
equivalence, between an equation on the reader and what it has done, and no other module unfolds a
reader.

The bound is in none of the statements but as a parameter, and a loop is unfolded by one round only.
What it did before and does afterwards is by induction where it is used.

## Main results

* `Lexical.untilBrace_succ_eq_ok_iff`: a round up to a closing brace
* `Lexical.stringFragments_succ_eq_ok_iff`: a round up to a closing delimiter
* `Lexical.tokenAt_eq_ok_iff`: the sorts of tokens
-/

namespace NixSyntax

open Grammar (bind_eq_ok_iff pure_eq_ok_iff)

/-- The depth behind a token at the given depth inside an interpolation. There is none behind the
brace that closes it. -/
def TokenKind.braceDepth : Nat → TokenKind → Option Nat
  | depth, .symbol .openBrace => some (depth + 1)
  | 0, .symbol .closeBrace => none
  | depth + 1, .symbol .closeBrace => some depth
  | depth, _ => some depth

/-- Only a closing brace closes, and only where no other is open. -/
theorem TokenKind.braceDepth_eq_none_iff {depth : Nat} {kind : TokenKind} :
    kind.braceDepth depth = none ↔ kind = .symbol .closeBrace ∧ depth = 0 := by
  fun_cases TokenKind.braceDepth depth kind with
  | case1 => simp
  | case2 => simp
  | case3 => simp
  | case4 depth kind hopen hzero hsucc =>
    simp only [reduceCtorEq, false_iff, not_and]
    exact fun h hdepth => hzero hdepth h

namespace Lexical

variable {inner : TokenReader} {bound k depth : Nat} {start : Position} {c d : Cursor} {t : Token}
  {ts : List Token}

/-! ### Up to a closing brace

In each round a token is read and the depth is changed. With no depth left to change to, the round
is the last one. -/

/-- A round that reads the token `t`, in front of `e`. -/
theorem untilBrace_succ {e : Cursor} (h : inner c = .ok (t, e)) (hend : t.isEnd = false) :
    untilBrace inner start (k + 1) depth c = match t.kind.braceDepth depth with
      | none => .ok ([], e)
      | some depth' => do
        let (ts, d) ← untilBrace inner start k depth' e
        return (t :: ts, d) := by
  rw [untilBrace, h]
  obtain ⟨kind, span⟩ := t
  cases kind with
  | endOfInput => cases hend
  | symbol mark =>
    cases mark with
    | closeBrace => cases depth <;> rfl
    | _ => rfl
  | _ => rfl

/-- No closing brace is found behind the end of the text. -/
theorem untilBrace_succ_of_isEnd {e : Cursor} (h : inner c = .ok (t, e)) (hend : t.isEnd = true) :
    untilBrace inner start (k + 1) depth c =
      .error ⟨.unterminatedInterpolation, e.spanFrom start⟩ := by
  rw [untilBrace, h]
  obtain ⟨kind, span⟩ := t
  cases kind with
  | endOfInput => rfl
  | _ => cases hend

/-- A round succeeds if its token is the closing brace, or if there is a depth behind the token and
the rounds behind it succeed. -/
theorem untilBrace_succ_eq_ok_iff :
    untilBrace inner start (k + 1) depth c = .ok (ts, d) ↔
      ∃ t e, inner c = .ok (t, e) ∧ t.isEnd = false ∧
        (t.kind.braceDepth depth = none ∧ ts = [] ∧ d = e ∨
          ∃ depth' us, t.kind.braceDepth depth = some depth' ∧
            untilBrace inner start k depth' e = .ok (us, d) ∧ ts = t :: us) := by
  constructor
  · intro h
    obtain ⟨⟨t, e⟩, ht, -⟩ := bind_eq_ok_iff.mp h
    cases hend : t.isEnd with
    | true =>
      rw [untilBrace_succ_of_isEnd ht hend] at h
      cases h
    | false =>
      rw [untilBrace_succ ht hend] at h
      refine ⟨t, e, ht, hend, ?_⟩
      cases hdepth : t.kind.braceDepth depth with
      | none =>
        rw [hdepth] at h
        obtain ⟨rfl, rfl⟩ := Prod.mk.inj (Except.ok.inj h)
        exact .inl ⟨rfl, rfl, rfl⟩
      | some depth' =>
        rw [hdepth] at h
        obtain ⟨⟨us, d'⟩, hus, h⟩ := bind_eq_ok_iff.mp h
        obtain ⟨rfl, rfl⟩ := Prod.mk.inj (pure_eq_ok_iff.mp h)
        exact .inr ⟨depth', us, rfl, hus, rfl⟩
  · rintro ⟨t, e, ht, hend, ⟨hdepth, rfl, rfl⟩ | ⟨depth', us, hdepth, hus, rfl⟩⟩
    · rw [untilBrace_succ ht hend, hdepth]
    · rw [untilBrace_succ ht hend, hdepth]
      exact bind_eq_ok_iff.mpr ⟨_, hus, rfl⟩

/-- An interpolation is what is between its opening and the closing brace. Its span is taken from
the place in front of the opening. -/
theorem interpolation_eq_ok_iff {span : Span} :
    interpolation bound inner c = .ok (ts, span, d) ↔
      untilBrace inner c.pos bound 0 (c.skip 2) = .ok (ts, d) ∧ span = d.spanFrom c.pos := by
  rw [interpolation, bind_eq_ok_iff, Prod.exists]
  constructor
  · rintro ⟨us, e, hus, h⟩
    obtain ⟨rfl, rfl, rfl⟩ : us = ts ∧ e.spanFrom c.pos = span ∧ e = d := by
      simpa using pure_eq_ok_iff.mp h
    exact ⟨hus, rfl⟩
  · rintro ⟨hts, rfl⟩
    exact ⟨ts, d, hts, rfl⟩

/-! ### Strings

A round takes text, and then an interpolation or the delimiter. The interpolation is tried first,
which makes no difference, as no delimiter begins like one. -/

theorem length_delimiter_pos (multiline : Bool) : 0 < (delimiter multiline).length := by
  cases multiline <;> decide

/-- A round succeeds at an interpolation with more parts behind it, or at the delimiter. -/
theorem stringFragments_succ_eq_ok_iff {multiline : Bool} {parts : List StringFragment} :
    stringFragments bound inner multiline start (k + 1) c = .ok (parts, d) ↔
      (['$', '{'] <+: (c.past (stringText multiline c.rest)).rest ∧
        ∃ us span e more,
          interpolation bound inner (c.past (stringText multiline c.rest)) = .ok (us, span, e) ∧
          stringFragments bound inner multiline start k e = .ok (more, d) ∧
          parts = .text (String.ofList (stringText multiline c.rest).value) ::
            .interpolation us span :: more) ∨
      (¬ ['$', '{'] <+: (c.past (stringText multiline c.rest)).rest ∧
        delimiter multiline <+: (c.past (stringText multiline c.rest)).rest ∧
        parts = [.text (String.ofList (stringText multiline c.rest).value)] ∧
        d = (c.past (stringText multiline c.rest)).skip (delimiter multiline).length) := by
  rw [stringFragments]
  dsimp only
  simp only [← List.isPrefixOf_iff_prefix]
  by_cases hopen : ['$', '{'].isPrefixOf (c.past (stringText multiline c.rest)).rest = true
  · rw [if_pos hopen]
    simp only [hopen, true_and, not_true, false_and, or_false, bind_eq_ok_iff, pure_eq_ok_iff,
      Prod.exists, Prod.mk.injEq]
    constructor
    · rintro ⟨us, span, e, hus, more, d', hmore, rfl, rfl⟩
      exact ⟨us, span, e, more, hus, hmore, rfl⟩
    · rintro ⟨us, span, e, more, hus, hmore, rfl⟩
      exact ⟨us, span, e, hus, more, d, hmore, rfl, rfl⟩
  · rw [if_neg hopen]
    by_cases hclose : (delimiter multiline).isPrefixOf
        (c.past (stringText multiline c.rest)).rest = true
    · rw [if_pos hclose, pure_eq_ok_iff]
      simp [hopen, hclose, eq_comm]
    · simp [hopen, hclose]

/-- A string is what is between its delimiters. -/
theorem stringToken_eq_ok_iff {multiline : Bool} :
    stringToken bound inner multiline c = .ok (t, d) ↔
      ∃ parts, stringFragments bound inner multiline c.pos bound
          (c.skip (delimiter multiline).length) = .ok (parts, d) ∧
        t = ⟨.string parts multiline, d.spanFrom c.pos⟩ := by
  rw [stringToken, bind_eq_ok_iff, Prod.exists]
  constructor
  · rintro ⟨parts, e, hparts, h⟩
    obtain ⟨rfl, rfl⟩ := Prod.mk.inj (pure_eq_ok_iff.mp h)
    exact ⟨parts, hparts, rfl⟩
  · rintro ⟨parts, hparts, rfl⟩
    exact ⟨parts, d, hparts, rfl⟩

/-! ### Tokens

The forms of a token exclude one another, so the case of each says that those in front of it did not
apply. -/

/-- A flat token is found if its scanner succeeds, and has the text of the scanner under its
span. -/
theorem plainTokenAt_eq_ok_iff {ch : Char} {cs : List Char} :
    plainTokenAt ch cs c = .ok (t, d) ↔
      ∃ kind, (plainToken ch cs).value = .ok kind ∧ t = ⟨kind, d.spanFrom c.pos⟩ ∧
        d = c.past (plainToken ch cs) := by
  unfold plainTokenAt
  dsimp only
  cases (plainToken ch cs).value with
  | error cause => simp
  | ok kind =>
    constructor
    · intro h
      obtain ⟨rfl, rfl⟩ := Prod.mk.inj (Except.ok.inj h)
      exact ⟨kind, rfl, rfl, rfl⟩
    · rintro ⟨_, ⟨⟩, rfl, rfl⟩
      rfl

/-- No text begins with both delimiters. -/
theorem eq_of_delimiter_isPrefixOf {cs : List Char} {multiline multiline' : Bool}
    (h : (delimiter multiline).isPrefixOf cs = true)
    (h' : (delimiter multiline').isPrefixOf cs = true) : multiline = multiline' := by
  obtain ⟨ds, rfl⟩ := List.isPrefixOf_iff_prefix.mp h
  cases multiline <;> cases multiline' <;> simp_all [delimiter]

/-- Where something is left, a token is an interpolation, a string with one of the delimiters, or
flat. -/
theorem tokenAt_eq_ok_iff {ch : Char} {cs : List Char} (hcs : c.rest = ch :: cs) :
    tokenAt bound inner c = .ok (t, d) ↔
      (['$', '{'] <+: c.rest ∧
        ∃ us span, interpolation bound inner c = .ok (us, span, d) ∧
          t = ⟨.interpolation us, span⟩) ∨
      (¬ ['$', '{'] <+: c.rest ∧
        ∃ multiline, delimiter multiline <+: c.rest ∧
          stringToken bound inner multiline c = .ok (t, d)) ∨
      (¬ ['$', '{'] <+: c.rest ∧ (∀ multiline, ¬ delimiter multiline <+: c.rest) ∧
        plainTokenAt ch cs c = .ok (t, d)) := by
  unfold tokenAt
  rw [hcs]
  dsimp only
  simp only [← List.isPrefixOf_iff_prefix]
  -- the three openings are tried one after the other, and no text begins with two of them
  by_cases hopen : ['$', '{'].isPrefixOf (ch :: cs) = true
  · rw [if_pos hopen]
    simp only [hopen, true_and, not_true, false_and, or_false, bind_eq_ok_iff, pure_eq_ok_iff,
      Prod.exists, Prod.mk.injEq]
    constructor
    · rintro ⟨us, span, e, hus, rfl, rfl⟩
      exact ⟨us, span, hus, rfl⟩
    · rintro ⟨us, span, hus, rfl⟩
      exact ⟨us, span, d, hus, rfl, rfl⟩
  · rw [if_neg hopen]
    simp only [hopen, Bool.false_eq_true, false_and, not_false_iff, true_and, false_or]
    by_cases hsingle : (delimiter false).isPrefixOf (ch :: cs) = true
    · rw [if_pos hsingle]
      constructor
      · exact fun h => .inl ⟨false, hsingle, h⟩
      · rintro (⟨multiline, hquote, h⟩ | ⟨hnone, -⟩)
        · obtain rfl := eq_of_delimiter_isPrefixOf hsingle hquote
          exact h
        · exact absurd hsingle (hnone false)
    rw [if_neg hsingle]
    by_cases hdouble : (delimiter true).isPrefixOf (ch :: cs) = true
    · rw [if_pos hdouble]
      constructor
      · exact fun h => .inl ⟨true, hdouble, h⟩
      · rintro (⟨multiline, hquote, h⟩ | ⟨hnone, -⟩)
        · obtain rfl := eq_of_delimiter_isPrefixOf hdouble hquote
          exact h
        · exact absurd hdouble (hnone true)
    rw [if_neg hdouble]
    have hnone (multiline : Bool) : ¬ (delimiter multiline).isPrefixOf (ch :: cs) = true := by
      cases multiline
      · exact hsingle
      · exact hdouble
    constructor
    · exact fun h => .inr ⟨hnone, h⟩
    · rintro (⟨multiline, hquote, -⟩ | ⟨-, h⟩)
      · exact absurd hquote (hnone multiline)
      · exact h

end Lexical

end NixSyntax
