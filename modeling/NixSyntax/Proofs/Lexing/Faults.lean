import NixSyntax.Proofs.Cutting.Pieces
import Mathlib.Data.List.Infix

/-!
# What a lexical fault blames

A fault names a cause and a span. The text under the span is what the cause is about: the character
with which no token begins, the operator that is in no table, the literal that is too large. What
does not end is reported from its opening on, and the text is over where the report stops.

Only two operators can be begun and not be in the table. Every entry of it has its beginnings in
the table too, but for `||`, `&&` and the ellipsis, and the dots of an ellipsis are not read as an
operator unless all three are there.

A literal with a fraction is never too large. So the digits of an invalid number are a whole
literal, and neither a digit nor a point in front of a digit goes on with them.

## How the readers fail

A flat token fails by what it is, and `spelledBy_plainToken_error` goes through the forms that can.
What holds tokens fails in one of two ways. Either a token in it fails, and the fault is handed on
as it is, so it is about a text further inside. Or the text is over, and the fault is about all that
there is from the opening on. `Blamed` covers both: it speaks of some stretch behind a given place,
and a stretch behind a later place is behind an earlier one too (`Blamed.of_reaches`).

No bound of a reader ever runs out before the text does, so the faults that stand at a used up bound
are those of a text that is over.

## Main definitions

* `LexCause.SpelledBy`: the texts that a cause is about
* `LexFault.Blames`: a fault is about the text under its span

## Main results

* `Lexical.spelledBy_plainToken_error`: what is no flat token and what its cause says
* `blames_of_tokenize`: the fault of a text is about the text under its span
-/

namespace NixSyntax

open String (utf8Len)
open Grammar (bind_eq_error_iff)

/-- The texts that a cause is about, with `behind` behind them. -/
def LexCause.SpelledBy (text behind : List Char) : LexCause → Prop
  | .unknownOperator op => text = op.toList ∧ (op = "|" ∨ op = "&")
  | .unexpectedCharacter c => text = [c]
  | .unterminatedString => behind = [] ∧ ∃ multiline, Lexical.delimiter multiline <+: text
  | .unterminatedInterpolation => behind = [] ∧ ['$', '{'] <+: text
  | .unterminatedComment =>
    behind = [] ∧ ∃ body, text = '/' :: '*' :: body ∧ ¬ ['*', '/'] <:+: body
  | .invalidNumber digits =>
    text = digits.toList ∧ text ≠ [] ∧ (∀ c ∈ text, c.isDigit = true) ∧
      Int64.maxValue.toInt < decimalValue text ∧ (∀ c ∈ behind.head?, c.isDigit = false) ∧
      ∀ c cs, behind = '.' :: c :: cs → c.isDigit = false

/-- The fault `f` is about a stretch of `source` that has a character at least and is what the cause
of the fault says. -/
def LexFault.Blames (source : String) (f : LexFault) : Prop :=
  ∃ front text behind, source.toList = front ++ (text ++ behind) ∧
    utf8Len front = f.span.start.offset ∧ utf8Len (front ++ text) = f.span.stop.offset ∧
    f.span.start.offset < f.span.stop.offset ∧ f.cause.SpelledBy text behind

/-- No cause is about nothing. -/
theorem LexCause.SpelledBy.ne_nil {text behind : List Char} {cause : LexCause}
    (h : cause.SpelledBy text behind) : text ≠ [] := by
  rintro rfl
  cases cause with
  | unknownOperator op =>
    obtain ⟨htext, rfl | rfl⟩ := h
    all_goals exact absurd htext (by decide)
  | unexpectedCharacter => cases h
  | unterminatedString =>
    obtain ⟨-, multiline, hopen⟩ := h
    cases multiline <;> simp [Lexical.delimiter] at hopen
  | unterminatedInterpolation => simp [LexCause.SpelledBy] at h
  | unterminatedComment =>
    obtain ⟨-, body, htext, -⟩ := h
    cases htext
  | invalidNumber => exact h.2.1 rfl

namespace Lexical

variable {c : Char} {cs : List Char} {cause : LexCause}

/-! ### Flat tokens

The scanners that can fail are those of operators, comments and numbers. -/

/-- Growing keeps to what an operator begins with. -/
theorem beginsOperator_growOperator {taken : List Char} (h : beginsOperator taken = true)
    (cs : List Char) : beginsOperator (taken ++ (growOperator taken cs).text) = true := by
  fun_induction growOperator taken cs with
  | case1 => simpa using h
  | case2 taken c cs hgrow ih => simpa [Lexeme.before] using ih hgrow
  | case3 => simpa using h

/-- What an operator begins with is an operator, but for these. -/
theorem mem_of_beginsOperator {taken : List Char} (h : beginsOperator taken = true)
    (hnone : Symbol.ofSpelling? taken = none) :
    taken ∈ [[], ['.'], ['.', '.'], ['|'], ['&']] := by
  have htable : ∀ s ∈ Symbol.operators, ∀ ds ∈ s.spelling.inits,
      Symbol.ofSpelling? ds = none → ds ∈ [[], ['.'], ['.', '.'], ['|'], ['&']] := by
    decide
  obtain ⟨s, hs, hprefix⟩ := List.any_eq_true.mp h
  exact htable s hs taken ((List.mem_inits _ _).mpr (List.isPrefixOf_iff_prefix.mp hprefix)) hnone

/-- The characters with which operators are tried begin some operator. -/
theorem beginsOperator_of_isOperatorStart (h : isOperatorStart c = true) :
    beginsOperator [c] = true := by
  have hstarts : ['=', '!', '+', '-', '*', '/', '<', '>', ':', '@', '.', ',', '?', '|', '&'].all
      (fun d => beginsOperator [d]) = true := by
    decide
  exact List.all_eq_true.mp hstarts c (List.contains_iff_mem.mp h)

/-- An unknown operator is one or two dots, or half of a mark of two characters. -/
theorem operator_error (hc : isOperatorStart c = true) (h : (operator c cs).value = .error cause) :
    cause = .unknownOperator (String.ofList (operator c cs).text) ∧
      (operator c cs).text ∈ [['.'], ['.', '.'], ['|'], ['&']] := by
  unfold operator at h ⊢
  dsimp only at h ⊢
  split at h
  · cases h
  · rename_i hnone
    cases h
    have hmem := mem_of_beginsOperator
      (beginsOperator_growOperator (beginsOperator_of_isOperatorStart hc) cs)
      (by simpa [Lexeme.before, value_growOperator] using hnone)
    simpa [Lexeme.before, value_growOperator] using hmem

/-- Some token begins wherever a dot stands. -/
theorem value_plainToken_dot (cs : List Char) (cause : LexCause) :
    (plainToken '.' cs).value ≠ .error cause := by
  have hbracket : bracket? '.' = none := rfl
  have hbreak : startsLineBreak ('.' :: cs) = false := rfl
  have hname : isNameStart '.' = false := by decide
  have hslash : ('.' : Char) ≠ '/' := by decide
  unfold plainToken
  simp only [hbracket, hbreak, hname, Bool.false_eq_true, if_false, decide_true, Bool.true_and]
  split
  · exact nofun
  rename_i hlone
  split
  · rename_i hdots
    obtain ⟨ds, rfl⟩ := List.isPrefixOf_iff_prefix.mp hdots
    intro h
    have hlength := three_le_length_text_operator ds
    obtain ⟨-, hmem⟩ := operator_error (by decide) h
    simp only [List.cons_append, List.nil_append, List.mem_cons, List.not_mem_nil,
      or_false] at hmem hlength
    rcases hmem with hmem | hmem | hmem | hmem
    all_goals
      rw [hmem] at hlength
      exact absurd hlength (by decide)
  · simp [hslash, startsPath_of_not_isLoneDot (Bool.eq_false_iff.mpr hlone)]

/-- A comment that does not end has no end in it. -/
theorem not_infix_of_blockTail_eq_none (h : blockTail cs = none) : ¬ ['*', '/'] <:+: cs := by
  fun_induction blockTail cs with
  | case1 => cases h
  | case2 c cs hclose ih =>
    rw [List.infix_cons_iff]
    rintro (⟨ds, hds⟩ | hinside)
    · obtain ⟨rfl, rfl⟩ : '*' = c ∧ '/' :: ds = cs := by simpa using hds
      exact hclose ds rfl rfl
    · exact ih (Option.map_eq_none_iff.mp h) hinside
  | case3 => simp

theorem spelledBy_blockComment_error (h : (blockComment cs).value = .error cause) :
    cause.SpelledBy (blockComment cs).text (blockComment cs).rest := by
  unfold blockComment at h ⊢
  split at h
  · cases h
  · rename_i hnone
    cases h
    exact ⟨rfl, cs, rfl, not_infix_of_blockTail_eq_none hnone⟩

/-- A literal is refused for its value alone. -/
theorem intKind_error {digits : List Char} (h : intKind digits = .error cause) :
    cause = .invalidNumber (String.ofList digits) ∧
      Int64.maxValue.toInt < decimalValue digits := by
  have hmax : Int64.maxValue.toInt = maxInt := by decide
  unfold intKind at h
  split at h
  · cases h
  · rename_i hlarge
    cases h
    exact ⟨rfl, by omega⟩

/-- Only a literal without a fraction can be too large. -/
theorem spelledBy_number_error (hc : c.isDigit = true)
    (h : (number (c :: cs)).value = .error cause) :
    cause.SpelledBy (number (c :: cs)).text (number (c :: cs)).rest := by
  have hwhole : ∀ d rest, (Lexeme.run Char.isDigit (c :: cs)).rest = '.' :: d :: rest →
      d.isDigit = false := by
    intro d rest hrest
    by_contra hd
    rw [number_of_fraction hrest (by simpa using hd)] at h
    cases h
  rw [number_of_whole hwhole] at h ⊢
  obtain ⟨rfl, hlarge⟩ := intKind_error h
  refine ⟨by simp, by simp [Lexeme.run, hc], fun d hd => List.mem_takeWhile_imp hd, hlarge, ?_,
    hwhole⟩
  intro d hd
  have hhead := List.head?_dropWhile_not Char.isDigit (c :: cs)
  rwa [show ((c :: cs).dropWhile Char.isDigit).head? = some d from hd] at hhead

/-- **What is no flat token is what its cause says.** -/
theorem spelledBy_plainToken_error (h : (plainToken c cs).value = .error cause) :
    cause.SpelledBy (plainToken c cs).text (plainToken c cs).rest := by
  have hdot : c ≠ '.' := by
    rintro rfl
    exact value_plainToken_dot cs cause h
  have hform := plainForm_plainToken c cs
  generalize plainToken c cs = l at hform h
  cases hform with
  | bracket | lineBreak | word | dot | path | lineComment => cases h
  | operator hc =>
    obtain ⟨rfl, hmem⟩ := operator_error hc h
    obtain ⟨ds, hds⟩ : ∃ ds, (operator c cs).text = c :: ds := by
      unfold operator
      dsimp only
      split <;> exact ⟨_, rfl⟩
    simp only [hds, List.mem_cons, List.cons.injEq, hdot, false_and, List.not_mem_nil, or_false,
      false_or] at hmem
    rcases hmem with ⟨rfl, rfl⟩ | ⟨rfl, rfl⟩
    · rw [hds]
      exact ⟨rfl, .inl rfl⟩
    · rw [hds]
      exact ⟨rfl, .inr rfl⟩
  | blockComment => exact spelledBy_blockComment_error h
  | number hc => exact spelledBy_number_error hc h
  | unexpected =>
    cases h
    rfl

/-! ### Tokens that hold tokens

One lemma for each reader, in the order in which they call one another. All of them assume that the
reader of tokens inside blames rightly, and `blamed_token` discharges that by induction on the
bound. -/

/-- The fault `f` is about a text behind `base` and is what the cause of the fault says. -/
def Blamed (base : Cursor) (f : LexFault) : Prop :=
  ∃ a b text, base.Reaches a ∧ a.Passes text b ∧ f.span = ⟨a.pos, b.pos⟩ ∧
    f.cause.SpelledBy text b.rest

section

variable {base s c d : Cursor} {f : LexFault} {n k depth : Nat} {multiline : Bool}

/-- What is behind a place is behind every place in front of it. -/
theorem Blamed.of_reaches (h : base.Reaches c) (hf : Blamed c f) : Blamed base f := by
  obtain ⟨a, b, text, ha, htext, hspan, hcause⟩ := hf
  exact ⟨a, b, text, h.trans ha, htext, hspan, hcause⟩

/-- An interpolation is blamed from its opening on when the text is over. -/
theorem blamed_interpolation (hopen : ['$', '{'] <+: s.rest) (hreach : (s.skip 2).Reaches c)
    (hover : c.rest = []) : Blamed s ⟨.unterminatedInterpolation, c.spanFrom s.pos⟩ := by
  obtain ⟨text, htext⟩ := hreach
  exact ⟨s, c, _, .refl s, (passes_opening hopen).trans htext, rfl, hover, List.prefix_append _ _⟩

/-- A string is blamed from its opening on when the text is over. -/
theorem blamed_string (hopen : delimiter multiline <+: s.rest)
    (hreach : (s.skip (delimiter multiline).length).Reaches c) (hover : c.rest = []) :
    Blamed s ⟨.unterminatedString, c.spanFrom s.pos⟩ := by
  obtain ⟨text, htext⟩ := hreach
  exact ⟨s, c, _, .refl s, (passes_delimiter hopen).trans htext, rfl, hover, multiline,
    List.prefix_append _ _⟩

section

variable (hinner : ∀ c f, c.rest.length ≤ n → token n c = .error f → Blamed c f)
include hinner

/-- The tokens of an interpolation: one of them fails, or the text is over before the closing
brace. -/
theorem blamed_untilBrace (hopen : ['$', '{'] <+: s.rest) (hreach : (s.skip 2).Reaches c)
    (hn : c.rest.length ≤ n) (hk : c.rest.length ≤ k)
    (h : untilBrace (token n) s.pos k depth c = .error f) : Blamed s f := by
  have hc : s.Reaches c := (passes_opening hopen).reaches.trans hreach
  induction k generalizing depth c with
  | zero =>
    cases h
    -- the bound is used up where the text is
    exact blamed_interpolation hopen hreach (List.eq_nil_of_length_eq_zero (Nat.le_zero.mp hk))
  | succ k ih =>
    cases ht : token n c with
    | error g =>
      rw [untilBrace, ht] at h
      cases h
      exact (hinner c _ hn ht).of_reaches hc
    | ok found =>
      obtain ⟨t, d⟩ := found
      have hread : Reads c t d := ⟨n, hn, ht⟩
      have hd := hreach.trans hread.reaches
      cases hend : t.isEnd with
      | true =>
        rw [untilBrace_succ_of_isEnd ht hend] at h
        cases h
        exact blamed_interpolation hopen hd (hread.stands.rest_eq_nil hend).2
      | false =>
        have hshorter := hread.length_lt hend
        rw [untilBrace_succ ht hend] at h
        split at h
        · cases h
        · obtain h | ⟨_, -, h⟩ := bind_eq_error_iff.mp h
          · exact ih hd (by omega) (by omega) h (hc.trans hread.reaches)
          · cases h

theorem blamed_of_interpolation (hopen : ['$', '{'] <+: c.rest) (hn : c.rest.length ≤ n + 1)
    (hk : c.rest.length ≤ k + 1) (h : interpolation k (token n) c = .error f) : Blamed c f := by
  have hlength := (passes_opening hopen).length_rest
  simp only [List.length_cons, List.length_nil] at hlength
  obtain h | ⟨_, -, h⟩ := bind_eq_error_iff.mp h
  · exact blamed_untilBrace hinner hopen (.refl _) (by omega) (by omega) h
  · cases h

/-- The parts of a string: an interpolation fails, or the text is over before the delimiter. -/
theorem blamed_stringFragments (hopen : delimiter multiline <+: s.rest)
    (hreach : (s.skip (delimiter multiline).length).Reaches c) (hn : c.rest.length ≤ n)
    (hk : c.rest.length ≤ k)
    (h : stringFragments n (token n) multiline s.pos k c = .error f) : Blamed s f := by
  induction k generalizing c with
  | zero =>
    cases h
    exact blamed_string hopen hreach (List.eq_nil_of_length_eq_zero (Nat.le_zero.mp hk))
  | succ k ih =>
    have htext := (passes_stringText multiline c).reaches
    have hmid := hreach.trans htext
    have hlength := htext.length_rest_le
    rw [stringFragments] at h
    dsimp only at h
    split at h
    · rename_i hdollar
      have hdollar := List.isPrefixOf_iff_prefix.mp hdollar
      obtain h | ⟨⟨ts, span, e⟩, hts, h⟩ := bind_eq_error_iff.mp h
      · exact (blamed_of_interpolation hinner hdollar (by omega) (by omega) h).of_reaches
          ((passes_delimiter hopen).reaches.trans hmid)
      · obtain ⟨henc, -⟩ := encloses_of_interpolation hdollar (by omega) hts
        have hshorter := (passes_opening hdollar).length_rest
        have hinside := henc.reaches_inside.length_rest_le
        simp only [List.length_cons, List.length_nil] at hshorter
        obtain h | ⟨_, -, h⟩ := bind_eq_error_iff.mp h
        · exact ih (hmid.trans henc.reaches) (by omega) (by omega) h
        · cases h
    · rename_i hdollar
      split at h
      · cases h
      · rename_i hclose
        cases h
        refine blamed_string hopen hmid ?_
        -- neither mark stands here, and nothing else but the end of the text stops a string
        obtain hover | hclose' | hdollar' := rest_stringText multiline c.rest
        · exact hover
        · exact absurd (List.isPrefixOf_iff_prefix.mpr hclose') hclose
        · exact absurd (List.isPrefixOf_iff_prefix.mpr hdollar') hdollar

theorem blamed_stringToken (hopen : delimiter multiline <+: c.rest) (hn : c.rest.length ≤ n + 1)
    (h : stringToken n (token n) multiline c = .error f) : Blamed c f := by
  have hlength := (passes_delimiter hopen).length_rest
  have hpos := length_delimiter_pos multiline
  obtain h | ⟨_, -, h⟩ := bind_eq_error_iff.mp h
  · exact blamed_stringFragments hinner hopen (.refl _) (by omega) (by omega) h
  · cases h

theorem blamed_tokenAt (hn : c.rest.length ≤ n + 1) (h : tokenAt n (token n) c = .error f) :
    Blamed c f := by
  unfold tokenAt at h
  split at h
  · cases h
  · rename_i ch cs hcs
    rw [← hcs] at h
    split at h
    · rename_i hopen
      have hopen := List.isPrefixOf_iff_prefix.mp hopen
      obtain h | ⟨_, -, h⟩ := bind_eq_error_iff.mp h
      · exact blamed_of_interpolation hinner hopen hn hn h
      · cases h
    split at h
    · rename_i hquote
      exact blamed_stringToken hinner (List.isPrefixOf_iff_prefix.mp hquote) hn h
    split at h
    · rename_i hquote
      exact blamed_stringToken hinner (List.isPrefixOf_iff_prefix.mp hquote) hn h
    · unfold plainTokenAt at h
      dsimp only at h
      split at h
      · cases h
      · rename_i hcause
        cases h
        exact ⟨c, _, _, .refl c, passes_plainToken hcs, rfl, spelledBy_plainToken_error hcause⟩

end

/-- The reader of tokens. Each bound relies on the one below. -/
theorem blamed_token (hn : c.rest.length ≤ n) (h : token n c = .error f) : Blamed c f := by
  induction n generalizing c f with
  | zero => cases h
  | succ n ih =>
    have hblanks := (passes_skipBlanks c).reaches
    exact (blamed_tokenAt (fun _ _ => ih) (hblanks.length_rest_le.trans hn) h).of_reaches hblanks

theorem blamed_tokensFrom (hn : c.rest.length ≤ n) (h : tokensFrom (token n) k c = .error f) :
    Blamed c f := by
  induction k generalizing c with
  | zero => cases h
  | succ k ih =>
    obtain h | ⟨⟨t, d⟩, ht, h⟩ := bind_eq_error_iff.mp h
    · exact blamed_token hn h
    · have hd := reaches_of_token ht
      dsimp only at h
      split at h
      · cases h
      · obtain h | ⟨_, -, h⟩ := bind_eq_error_iff.mp h
        · exact (ih (hd.length_rest_le.trans hn) h).of_reaches hd
        · cases h

end

end Lexical

/-- **The fault of a text is about the text under its span.** That text is not empty, it is the
operator, the character or the literal that the cause names, and what does not end is blamed from
its opening up to the end of the source. -/
theorem blames_of_tokenize {source : String} {f : LexFault} (h : tokenize source = .error f) :
    f.Blames source := by
  obtain ⟨a, b, text, ha, htext, hspan, hcause⟩ := Lexical.blamed_tokensFrom le_rfl h
  have hin : a.IsIn source := ha
  obtain ⟨front, hfront, hat⟩ := hin.exists_at
  have hoffset := htext.offset
  have hpos : utf8Len text ≠ 0 := mt String.utf8Len_eq_zero.mp hcause.ne_nil
  refine ⟨front, text, b.rest, by rw [hfront, htext.rest], ?_, ?_, ?_, hcause⟩
  · rw [hspan, hat.offset]
  · rw [hspan, hoffset, hat.offset, String.utf8Len_append]
  · rw [hspan]
    dsimp only
    omega

/-- The operator stands in an interpolation of a string, behind a line break. -/
theorem blames_of_tokenize_nested :
    ∃ f, tokenize "\n\"$\x7ba | b\x7d\"" = .error f ∧ f.cause = .unknownOperator "|" ∧
      f.Blames "\n\"$\x7ba | b\x7d\"" :=
  ⟨⟨.unknownOperator "|", ⟨⟨2, 6, 6⟩, ⟨2, 7, 7⟩⟩⟩, rfl, rfl, blames_of_tokenize rfl⟩

end NixSyntax
