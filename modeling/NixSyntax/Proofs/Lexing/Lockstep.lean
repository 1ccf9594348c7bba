import NixSyntax.Proofs.Cutting.Pieces
import NixSyntax.Proofs.Tree.Recast

/-!
# Two texts read side by side

Two texts may be read in the same way although they are not the same, or do not begin at the same
place. A relation between the places of one and the places of the other says how far the two
readings have come. If every scanner takes related places to related places and finds the same there
(`Lockstep`), so does every reader of tokens, and in the end the two texts have the same tokens, or
the same fault.

What is the same is up to the holder of the relation: positions are compared behind two functions,
one for each side, and texts behind one. The bounds on what is left play no part. Each is only
required to be large enough on its own side, and the texts may be of different length.

## Two instances

The lemmas are used twice. The same text at another place is one: both sides have the same
characters, and the positions differ by a translation. A text and the text with carriage returns is
the other: there the positions differ in their offsets and the values in their texts. In both it is
only the scanners that have to be followed character by character. The readers, which call one
another and carry bounds, are followed here for both.

## Failure

Two readings agree in failing if they fail for one cause at places that are alike. A reader that has
used up its bound answers as it does at the end of the text, and by the requirement on bounds it is
at that end. So the end of a text is dealt with first, and everywhere else there is a bound left on
both sides (`exists_bounds`).

## Main definitions

* `Agree`: two outcomes that are the same but for positions and texts
* `Lockstep`: a relation of places that every scanner keeps

## Main results

* `Lockstep.agree_token`: the readers of tokens agree
* `Lockstep.agree_tokensFrom`: so do all tokens from related places on
-/

namespace NixSyntax

namespace Lexical

/-! ### At the end of a text

Where nothing is left, every reader has an answer that does not depend on its bound. -/

section

variable {c : Cursor} {start : Position} {n k depth : Nat}

/-- There is no other token at the end. -/
theorem token_of_nil (h : c.rest = []) (n : Nat) :
    token n c = .ok (⟨.endOfInput, .point c.pos⟩, c) := by
  have hblanks := skipBlanks_of_rest_eq_nil h
  have htoken := token_of_rest_eq_nil (n := n) (hblanks.symm ▸ h) (by simp [h])
  rwa [hblanks] at htoken

theorem untilBrace_of_nil (h : c.rest = []) (n k : Nat) :
    untilBrace (token n) start k depth c =
      .error ⟨.unterminatedInterpolation, c.spanFrom start⟩ := by
  cases k with
  | zero => rfl
  | succ k => exact untilBrace_succ_of_isEnd (token_of_nil h n) rfl

theorem stringFragments_of_nil {multiline : Bool} {inner : TokenReader} (h : c.rest = [])
    (n k : Nat) : stringFragments n inner multiline start k c =
      .error ⟨.unterminatedString, c.spanFrom start⟩ := by
  cases k with
  | zero => rfl
  | succ k =>
    obtain ⟨rest, pos⟩ := c
    obtain rfl : rest = [] := h
    cases multiline <;> rfl

theorem tokensFrom_of_nil (h : c.rest = []) (n k : Nat) :
    tokensFrom (token n) k c = .ok [⟨.endOfInput, .point c.pos⟩] := by
  cases k with
  | zero => rfl
  | succ k =>
    rw [tokensFrom, token_of_nil h]
    rfl

/-- An interpolation takes at least its opening. -/
theorem length_lt_of_interpolation {d : Cursor} {ts : List Token} {span : Span}
    (hopen : ['$', '{'] <+: c.rest) (hn : c.rest.length ≤ n + 1)
    (h : interpolation k (token n) c = .ok (ts, span, d)) : d.rest.length + 2 ≤ c.rest.length := by
  obtain ⟨henc, -⟩ := encloses_of_interpolation hopen hn h
  have hlength := (passes_opening hopen).length_rest
  have hinside := henc.reaches_inside.length_rest_le
  simp only [List.length_cons, List.length_nil] at hlength
  omega

end

/-! ### Outcomes that agree

Readers are put together with binds, so agreement has to be preserved by them. The continuation is
compared only for values that were found. -/

section

variable {f f' : Position → Position} {g : String → String} {α β γ δ : Type}

variable (f f') in
/-- Two readings have found what `R` relates, or have failed for one cause at the same place. -/
inductive Agree (R : α → β → Prop) : Except LexFault α → Except LexFault β → Prop
  | ok {a : α} {b : β} (h : R a b) : Agree R (.ok a) (.ok b)
  | error {cause : LexCause} {span span' : Span} (h : span.map f = span'.map f') :
    Agree R (.error ⟨cause, span⟩) (.error ⟨cause, span'⟩)

/-- What agrees, followed by what agrees on related values, agrees. -/
theorem Agree.bind {R : α → β → Prop} {S : γ → δ → Prop} {x : Except LexFault α}
    {y : Except LexFault β} {k : α → Except LexFault γ} {k' : β → Except LexFault δ}
    (h : Agree f f' R x y)
    (hk : ∀ a b, x = .ok a → y = .ok b → R a b → Agree f f' S (k a) (k' b)) :
    Agree f f' S (x >>= k) (y >>= k') := by
  cases h with
  | ok h => exact hk _ _ rfl rfl h
  | error h => exact .error h

/-- A relation of places. Related places have the same position, behind `f` on one side and `f'` on
the other, and are at the end of their texts together. Every scanner finds the same at both, but for
texts that `g` makes equal, and ends at related places. -/
structure Lockstep (f f' : Position → Position) (g : String → String)
    (At : Cursor → Cursor → Prop) : Prop where
  /-- The positions are the same. -/
  pos : ∀ {c c'}, At c c' → f c.pos = f' c'.pos
  /-- Both texts are over, or none. -/
  ended : ∀ {c c'}, At c c' → (c.rest = [] ↔ c'.rest = [])
  /-- Behind the blanks. -/
  blanks : ∀ {c c'}, At c c' → At c.skipBlanks c'.skipBlanks
  /-- An interpolation is opened at both places or at none. -/
  opens : ∀ {c c'}, At c c' → (['$', '{'] <+: c.rest ↔ ['$', '{'] <+: c'.rest)
  /-- Behind the opening of an interpolation. -/
  opening : ∀ {c c'}, At c c' → ['$', '{'] <+: c.rest → At (c.skip 2) (c'.skip 2)
  /-- A string is delimited at both places or at none. -/
  delimits : ∀ {c c'}, At c c' → ∀ multiline,
    (delimiter multiline <+: c.rest ↔ delimiter multiline <+: c'.rest)
  /-- Behind a delimiter. -/
  delimiter : ∀ {c c'}, At c c' → ∀ multiline, delimiter multiline <+: c.rest →
    At (c.skip (delimiter multiline).length) (c'.skip (Lexical.delimiter multiline).length)
  /-- The text of a string. -/
  text : ∀ {c c'}, At c c' → ∀ multiline,
    g (String.ofList (stringText multiline c.rest).value) =
        g (String.ofList (stringText multiline c'.rest).value) ∧
      At (c.past (stringText multiline c.rest)) (c'.past (stringText multiline c'.rest))
  /-- A token that holds no tokens. -/
  plain : ∀ {c c'}, At c c' → ∀ {ch cs ch' cs'}, c.rest = ch :: cs → c'.rest = ch' :: cs' →
    (plainToken ch cs).value.map (TokenKind.reword g) =
        (plainToken ch' cs').value.map (TokenKind.reword g) ∧
      At (c.past (plainToken ch cs)) (c'.past (plainToken ch' cs'))

namespace Lockstep

variable {At : Cursor → Cursor → Prop} (hstep : Lockstep f f' g At) {c c' s s' : Cursor}
  {n n' k k' depth : Nat}
include hstep

/-- Spans between related places are alike. -/
theorem span (hs : At s s') (hc : At c c') :
    (c.spanFrom s.pos).map f = (c'.spanFrom s'.pos).map f' := by
  rw [Cursor.spanFrom, Cursor.spanFrom, Span.map, Span.map, hstep.pos hs, hstep.pos hc]

/-- At the end of one text the other is at its end too, so there is a bound left on both sides. -/
theorem exists_bounds (hc : At c c') (hne : c.rest ≠ []) (hk : c.rest.length ≤ k)
    (hk' : c'.rest.length ≤ k') : ∃ m m', k = m + 1 ∧ k' = m' + 1 := by
  have hpos := List.length_pos_of_ne_nil hne
  have hpos' := List.length_pos_of_ne_nil (mt (hstep.ended hc).mpr hne)
  exact ⟨k - 1, k' - 1, by omega, by omega⟩

section

variable (hinner : ∀ {c c'}, At c c' → c.rest.length ≤ n → c'.rest.length ≤ n' →
  Agree f f' (fun a b => a.1.recast f g = b.1.recast f' g ∧ At a.2 b.2) (token n c) (token n' c'))
include hinner

/-- Up to a closing brace, by induction on the bound of one side. The rounds of the other side are
as many. -/
theorem agree_untilBrace (hs : At s s') (hc : At c c') (hn : c.rest.length ≤ n)
    (hn' : c'.rest.length ≤ n') (hk : c.rest.length ≤ k) (hk' : c'.rest.length ≤ k') :
    Agree f f' (fun a b => recastTokens f g a.1 = recastTokens f' g b.1 ∧ At a.2 b.2)
      (untilBrace (token n) s.pos k depth c) (untilBrace (token n') s'.pos k' depth c') := by
  induction k generalizing k' depth c c' with
  | zero =>
    have hnil := List.eq_nil_of_length_eq_zero (Nat.le_zero.mp hk)
    rw [untilBrace_of_nil hnil, untilBrace_of_nil ((hstep.ended hc).mp hnil)]
    exact .error (hstep.span hs hc)
  | succ k ih =>
    by_cases hnil : c.rest = []
    · rw [untilBrace_of_nil hnil, untilBrace_of_nil ((hstep.ended hc).mp hnil)]
      exact .error (hstep.span hs hc)
    obtain ⟨-, k', -, rfl⟩ := hstep.exists_bounds hc hnil hk hk'
    have htoken := hinner hc hn hn'
    generalize ht : token n c = x, ht' : token n' c' = y at htoken
    cases htoken with
    | error h =>
      rw [untilBrace, untilBrace, ht, ht']
      exact .error h
    | @ok a b h =>
      obtain ⟨t, d⟩ := a
      obtain ⟨t', d'⟩ := b
      obtain ⟨hsame, hd⟩ : t.recast f g = t'.recast f' g ∧ At d d' := h
      have hends : t.isEnd = t'.isEnd := by simpa using congrArg Token.isEnd hsame
      have hdepths (depth : Nat) : t.kind.braceDepth depth = t'.kind.braceDepth depth := by
        simpa using congrArg (fun u : Token => u.kind.braceDepth depth) hsame
      have hread : Reads c t d := ⟨n, hn, ht⟩
      have hread' : Reads c' t' d' := ⟨n', hn', ht'⟩
      -- the two tokens end the scan together and leave the same depth
      cases hend : t.isEnd with
      | true =>
        rw [untilBrace_succ_of_isEnd ht hend, untilBrace_succ_of_isEnd ht' (hends ▸ hend)]
        exact .error (hstep.span hs hd)
      | false =>
        have hend' : t'.isEnd = false := hends ▸ hend
        have hlength := hread.length_lt hend
        have hlength' := hread'.length_lt hend'
        rw [untilBrace_succ ht hend, untilBrace_succ ht' hend', hdepths]
        cases t'.kind.braceDepth depth with
        | none => exact .ok ⟨rfl, hd⟩
        | some depth' =>
          refine (ih hd (by omega) (by omega) (by omega) (by omega)).bind ?_
          rintro ⟨ts, e⟩ ⟨ts', e'⟩ - - ⟨hts, he⟩
          refine .ok ⟨?_, he⟩
          dsimp only at hts
          rw [recastTokens_cons, recastTokens_cons, hsame, hts]

theorem agree_interpolation (hc : At c c') (hopen : ['$', '{'] <+: c.rest)
    (hn : c.rest.length ≤ n + 1) (hn' : c'.rest.length ≤ n' + 1) :
    Agree f f' (fun a b => recastTokens f g a.1 = recastTokens f' g b.1 ∧
        a.2.1.map f = b.2.1.map f' ∧ At a.2.2 b.2.2)
      (interpolation n (token n) c) (interpolation n' (token n') c') := by
  have hlength := (passes_opening hopen).length_rest
  have hlength' := (passes_opening ((hstep.opens hc).mp hopen)).length_rest
  simp only [List.length_cons, List.length_nil] at hlength hlength'
  refine (hstep.agree_untilBrace hinner hc (hstep.opening hc hopen) (by omega) (by omega)
    (by omega) (by omega)).bind ?_
  rintro ⟨ts, d⟩ ⟨ts', d'⟩ - - ⟨hts, hd⟩
  exact .ok ⟨hts, hstep.span hc hd, hd⟩

/-- The parts of a string: the same text, and an interpolation on both sides or on none. -/
theorem agree_stringFragments (multiline : Bool) (hs : At s s') (hc : At c c')
    (hn : c.rest.length ≤ n) (hn' : c'.rest.length ≤ n') (hk : c.rest.length ≤ k)
    (hk' : c'.rest.length ≤ k') :
    Agree f f' (fun a b => recastFragments f g a.1 = recastFragments f' g b.1 ∧ At a.2 b.2)
      (stringFragments n (token n) multiline s.pos k c)
      (stringFragments n' (token n') multiline s'.pos k' c') := by
  induction k generalizing k' c c' with
  | zero =>
    have hnil := List.eq_nil_of_length_eq_zero (Nat.le_zero.mp hk)
    rw [stringFragments_of_nil hnil, stringFragments_of_nil ((hstep.ended hc).mp hnil)]
    exact .error (hstep.span hs hc)
  | succ k ih =>
    by_cases hnil : c.rest = []
    · rw [stringFragments_of_nil hnil, stringFragments_of_nil ((hstep.ended hc).mp hnil)]
      exact .error (hstep.span hs hc)
    obtain ⟨-, k', -, rfl⟩ := hstep.exists_bounds hc hnil hk hk'
    obtain ⟨hvalue, htext⟩ := hstep.text hc multiline
    have hlength := (passes_stringText multiline c).reaches.length_rest_le
    have hlength' := (passes_stringText multiline c').reaches.length_rest_le
    rw [stringFragments, stringFragments]
    dsimp only
    have hopens := hstep.opens htext
    have hdelimits := hstep.delimits htext multiline
    simp only [← List.isPrefixOf_iff_prefix] at hopens hdelimits
    -- the texts stop at the same mark, so both strings go on in the same way
    by_cases hopen : ['$', '{'].isPrefixOf (c.past (stringText multiline c.rest)).rest = true
    · have hopen' := List.isPrefixOf_iff_prefix.mp hopen
      rw [if_pos hopen, if_pos (hopens.mp hopen)]
      refine (hstep.agree_interpolation hinner htext hopen' (by omega) (by omega)).bind ?_
      rintro ⟨ts, span, d⟩ ⟨ts', span', d'⟩ hd hd' ⟨hts, hspan, hat⟩
      dsimp only at hts hspan hat
      have hshorter := length_lt_of_interpolation hopen' (by omega) hd
      have hshorter' := length_lt_of_interpolation ((hstep.opens htext).mp hopen') (by omega) hd'
      refine (ih hat (by omega) (by omega) (by omega) (by omega)).bind ?_
      rintro ⟨parts, e⟩ ⟨parts', e'⟩ - - ⟨hparts, he⟩
      refine .ok ⟨?_, he⟩
      dsimp only at hparts
      rw [recastFragments_text, recastFragments_interpolation, hvalue, hts, hspan, hparts,
        recastFragments_text, recastFragments_interpolation]
    rw [if_neg hopen, if_neg (mt hopens.mpr hopen)]
    by_cases hclose : (Lexical.delimiter multiline).isPrefixOf
        (c.past (stringText multiline c.rest)).rest = true
    · rw [if_pos hclose, if_pos (hdelimits.mp hclose)]
      refine .ok ⟨?_, hstep.delimiter htext multiline (List.isPrefixOf_iff_prefix.mp hclose)⟩
      simp [hvalue]
    · rw [if_neg hclose, if_neg (mt hdelimits.mpr hclose)]
      exact .error (hstep.span hs htext)

theorem agree_stringToken {multiline : Bool} (hc : At c c')
    (hquote : Lexical.delimiter multiline <+: c.rest) (hn : c.rest.length ≤ n + 1)
    (hn' : c'.rest.length ≤ n' + 1) :
    Agree f f' (fun a b => a.1.recast f g = b.1.recast f' g ∧ At a.2 b.2)
      (stringToken n (token n) multiline c) (stringToken n' (token n') multiline c') := by
  have hlength := (passes_delimiter hquote).length_rest
  have hlength' := (passes_delimiter ((hstep.delimits hc multiline).mp hquote)).length_rest
  have hpos := length_delimiter_pos multiline
  refine (hstep.agree_stringFragments hinner multiline hc (hstep.delimiter hc multiline hquote)
    (by omega) (by omega) (by omega) (by omega)).bind ?_
  rintro ⟨parts, d⟩ ⟨parts', d'⟩ - - ⟨hparts, hd⟩
  refine .ok ⟨?_, hd⟩
  dsimp only at hparts
  rw [Token.recast_mk, Token.recast_mk, TokenKind.recast_string, TokenKind.recast_string, hparts,
    hstep.span hc hd]

omit hinner in
theorem agree_plainTokenAt (hc : At c c') {ch ch' : Char} {cs cs' : List Char}
    (hcs : c.rest = ch :: cs) (hcs' : c'.rest = ch' :: cs') :
    Agree f f' (fun a b => a.1.recast f g = b.1.recast f' g ∧ At a.2 b.2)
      (plainTokenAt ch cs c) (plainTokenAt ch' cs' c') := by
  obtain ⟨hvalue, hpast⟩ := hstep.plain hc hcs hcs'
  have hspan := hstep.span hc hpast
  unfold plainTokenAt
  dsimp only
  cases hkind : (plainToken ch cs).value with
  | error cause =>
    cases hkind' : (plainToken ch' cs').value with
    | error cause' =>
      rw [hkind, hkind'] at hvalue
      obtain rfl : cause = cause' := Except.error.inj hvalue
      exact .error hspan
    | ok kind' =>
      rw [hkind, hkind'] at hvalue
      cases hvalue
  | ok kind =>
    cases hkind' : (plainToken ch' cs').value with
    | error cause' =>
      rw [hkind, hkind'] at hvalue
      cases hvalue
    | ok kind' =>
      rw [hkind, hkind'] at hvalue
      have hsame : kind.reword g = kind'.reword g := Except.ok.inj hvalue
      refine .ok ⟨?_, hpast⟩
      rw [Token.recast_mk, Token.recast_mk,
        TokenKind.recast_of_isFlat f g (isFlat_plainToken hkind),
        TokenKind.recast_of_isFlat f' g (isFlat_plainToken hkind'), hsame, hspan]

/-- The first characters decide alike on both sides. -/
theorem agree_tokenAt (hc : At c c') (hn : c.rest.length ≤ n + 1)
    (hn' : c'.rest.length ≤ n' + 1) :
    Agree f f' (fun a b => a.1.recast f g = b.1.recast f' g ∧ At a.2 b.2)
      (tokenAt n (token n) c) (tokenAt n' (token n') c') := by
  have hopens := hstep.opens hc
  have hdelimits := hstep.delimits hc
  simp only [← List.isPrefixOf_iff_prefix] at hopens hdelimits
  unfold tokenAt
  rcases hcs : c.rest with _ | ⟨ch, cs⟩
  · rw [(hstep.ended hc).mp hcs]
    refine .ok ⟨?_, hc⟩
    simp [Span.map, hstep.pos hc]
  obtain ⟨ch', cs', hcs'⟩ := List.exists_cons_of_ne_nil
    (mt (hstep.ended hc).mpr (hcs ▸ List.cons_ne_nil ch cs))
  rw [hcs']
  dsimp only
  rw [← hcs, ← hcs']
  by_cases hopen : ['$', '{'].isPrefixOf c.rest = true
  · rw [if_pos hopen, if_pos (hopens.mp hopen)]
    refine (hstep.agree_interpolation hinner hc
      (List.isPrefixOf_iff_prefix.mp hopen) hn hn').bind ?_
    rintro ⟨ts, span, d⟩ ⟨ts', span', d'⟩ - - ⟨hts, hspan, hd⟩
    refine .ok ⟨?_, hd⟩
    dsimp only at hts hspan
    rw [Token.recast_mk, Token.recast_mk, TokenKind.recast_interpolation,
      TokenKind.recast_interpolation, hts, hspan]
  rw [if_neg hopen, if_neg (mt hopens.mpr hopen)]
  by_cases hsingle : (Lexical.delimiter false).isPrefixOf c.rest = true
  · rw [if_pos hsingle, if_pos ((hdelimits false).mp hsingle)]
    exact hstep.agree_stringToken hinner hc (List.isPrefixOf_iff_prefix.mp hsingle) hn hn'
  rw [if_neg hsingle, if_neg (mt (hdelimits false).mpr hsingle)]
  by_cases hdouble : (Lexical.delimiter true).isPrefixOf c.rest = true
  · rw [if_pos hdouble, if_pos ((hdelimits true).mp hdouble)]
    exact hstep.agree_stringToken hinner hc (List.isPrefixOf_iff_prefix.mp hdouble) hn hn'
  rw [if_neg hdouble, if_neg (mt (hdelimits true).mpr hdouble)]
  exact hstep.agree_plainTokenAt hc hcs hcs'

end

/-- **The readers of tokens agree.** -/
theorem agree_token (hc : At c c') (hn : c.rest.length ≤ n) (hn' : c'.rest.length ≤ n') :
    Agree f f' (fun a b => a.1.recast f g = b.1.recast f' g ∧ At a.2 b.2)
      (token n c) (token n' c') := by
  induction n generalizing n' c c' with
  | zero =>
    have hnil := List.eq_nil_of_length_eq_zero (Nat.le_zero.mp hn)
    rw [token_of_nil hnil, token_of_nil ((hstep.ended hc).mp hnil)]
    refine .ok ⟨?_, hc⟩
    simp [Span.map, hstep.pos hc]
  | succ n ih =>
    by_cases hnil : c.rest = []
    · rw [token_of_nil hnil, token_of_nil ((hstep.ended hc).mp hnil)]
      refine .ok ⟨?_, hc⟩
      simp [Span.map, hstep.pos hc]
    obtain ⟨-, n', -, rfl⟩ := hstep.exists_bounds hc hnil hn hn'
    have hlength := (passes_skipBlanks c).reaches.length_rest_le
    have hlength' := (passes_skipBlanks c').reaches.length_rest_le
    exact hstep.agree_tokenAt (fun hc hn hn' => ih hc hn hn') (hstep.blanks hc) (by omega)
      (by omega)

/-- **All tokens from related places on agree.** -/
theorem agree_tokensFrom (hc : At c c') (hn : c.rest.length ≤ n) (hn' : c'.rest.length ≤ n')
    (hk : c.rest.length ≤ k) (hk' : c'.rest.length ≤ k') :
    Agree f f' (fun ts ts' => recastTokens f g ts = recastTokens f' g ts')
      (tokensFrom (token n) k c) (tokensFrom (token n') k' c') := by
  induction k generalizing k' c c' with
  | zero =>
    have hnil := List.eq_nil_of_length_eq_zero (Nat.le_zero.mp hk)
    rw [tokensFrom_of_nil hnil, tokensFrom_of_nil ((hstep.ended hc).mp hnil)]
    refine .ok ?_
    simp [Span.map, hstep.pos hc]
  | succ k ih =>
    -- at the end of one text the other has ended as well
    by_cases hnil : c.rest = []
    · rw [tokensFrom_of_nil hnil, tokensFrom_of_nil ((hstep.ended hc).mp hnil)]
      refine .ok ?_
      simp [Span.map, hstep.pos hc]
    obtain ⟨-, k', -, rfl⟩ := hstep.exists_bounds hc hnil hk hk'
    refine (hstep.agree_token hc hn hn').bind ?_
    rintro ⟨t, d⟩ ⟨t', d'⟩ ht ht' ⟨hsame, hd⟩
    dsimp only at hsame hd ⊢
    have hends : t.isEnd = t'.isEnd := by simpa using congrArg Token.isEnd hsame
    rw [hends]
    split
    · refine .ok ?_
      simp [hsame]
    · rename_i hend
      have hlength := Reads.length_lt ⟨n, hn, ht⟩ (by simpa [hends] using hend)
      have hlength' := Reads.length_lt ⟨n', hn', ht'⟩ (by simpa using hend)
      refine (ih hd (by omega) (by omega) (by omega) (by omega)).bind
        fun ts ts' _ _ hts => .ok ?_
      rw [recastTokens_cons, recastTokens_cons, hsame, hts]

end Lockstep

end

end Lexical

end NixSyntax
