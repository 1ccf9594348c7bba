import NixSyntax.Proofs.Cutting.Relabel
import NixSyntax.Proofs.Lexing.Locality
import NixSyntax.Proofs.Lexing.Places

/-!
# The tokens of a piece of text

A piece of a text is read on its own. Its tokens are those that stand there in the whole text, at
other positions. The two readings go on side by side: `Cursor.Cut` relates a place of the whole text
to the same place of the piece, and every reader that stays inside the piece keeps to it. One lemma
for each reader says so, in the order in which the readers call one another.

The bounds of the two readings differ, since the piece is shorter. A bound only has to be as large
as what is left, and that is so on both sides. With the whole text as the piece of itself the lemmas
say that a larger bound changes nothing, which is `Reads.token_eq`.

## Why the ends agree

A reader looks ahead by a character or two: a number asks whether a digit follows the dot, an
operator asks for the longest one, a comment goes on to the end of its line. At the end of the piece
this look ahead finds nothing where the text may have anything. That makes no difference as long as
the reader, in the text, has stopped in front of the cut. The lemmas for single readers
(`Lexeme.Cut`) say so, and all lemmas here assume that as much is left as there is behind the piece
(`behind.length ≤ d.rest.length`).

One thing has to be asked of the cut itself: it does not go through a line break of two characters,
because the first of the two is a blank when the second is missing. It is the field `whole` of
`Cursor.Cut`.

## The order of the lemmas

The readers call one another in a circle: tokens read strings, strings read interpolations, and
these read tokens. In the definition the circle is cut by a bound. So `Follows` is the statement
about the reader of tokens at one bound, each reader on the way has a lemma under that hypothesis,
and `follows_token` closes the circle by induction on the bound of the text.

## Main definitions

* `Position.translate`: the position in the text of what stands at a position of the piece
* `Cursor.Cut`: a place of the text and the same place of the piece

## Main results

* `Lexical.follows_token`: the readers of tokens go side by side
* `Lexical.tokenize_of_passes`: a piece that some tokens take has these tokens
-/

namespace NixSyntax

/-! ### Positions

A position is moved as the text of the piece is moved when it is put behind other text. Only
characters of the first line stand behind something on their line. That lines count from one is
needed throughout, to tell the first line from the others. -/

namespace Position

/-- The position in a text of what stands at `q` in the piece of it that begins at `origin`. Lines
and offsets are added. The columns are other ones in the first line only. -/
def translate (origin q : Position) : Position where
  line := q.line + (origin.line - 1)
  column := if q.line = 1 then q.column + (origin.column - 1) else q.column
  offset := q.offset + origin.offset

/-- A piece that begins where the text begins has the same positions. -/
theorem start_translate : translate start = id := by
  funext q
  simp [translate, start]

/-- A piece begins at its origin. -/
theorem translate_start {origin : Position} (hline : 1 ≤ origin.line)
    (hcolumn : 1 ≤ origin.column) : origin.translate start = origin := by
  obtain ⟨line, column, offset⟩ := origin
  simp only [translate, start, if_true, Nat.zero_add, mk.injEq, and_true] at *
  omega

/-- A character moves the two positions alike. With a line break both go to the first column. -/
theorem translate_next (origin : Position) {q : Position} (hq : 1 ≤ q.line) (c : Char) :
    origin.translate (q.next c) = (origin.translate q).next c := by
  by_cases hc : c = '\n'
  · simp only [next, hc, translate, if_true, mk.injEq]
    refine ⟨by omega, ?_, by omega⟩
    rw [if_neg (by omega)]
  · simp only [next, hc, translate, if_false, mk.injEq, true_and]
    refine ⟨?_, by omega⟩
    split <;> omega

/-- And so does a text, by induction on its characters. -/
theorem translate_advance (origin : Position) {q : Position} (hq : 1 ≤ q.line) (cs : List Char) :
    origin.translate (q.advance cs) = (origin.translate q).advance cs := by
  induction cs generalizing q with
  | nil => rfl
  | cons c cs ih =>
    have hnext : 1 ≤ (q.next c).line := by
      unfold next
      split
      · exact Nat.le_add_left 1 q.line
      · exact hq
    rw [advance_cons, ih hnext, translate_next origin hq, advance_cons]

end Position

/-! ### Places

How a reader leaves two places that correspond: `past` is for what it has read, `skip` for a mark of
known length, `skipBlanks` for blanks. Each asks that the text was not read further than the piece
goes. -/

/-- The cursor `c'` stands in a piece of text and `c` at the same character of the whole text. The
piece begins at `origin` there, and `behind` follows it. -/
structure Cursor.Cut (origin : Position) (behind : List Char) (c c' : Cursor) : Prop where
  /-- More is left in the text. -/
  rest : c.rest = c'.rest ++ behind
  /-- The positions are translated. -/
  pos : c.pos = origin.translate c'.pos
  /-- Lines count from one. -/
  line : 1 ≤ c'.pos.line
  /-- The piece does not end inside a line break. -/
  whole : ¬ SplitsBreak c'.rest behind

namespace Cursor.Cut

variable {origin : Position} {behind s : List Char} {c c' : Cursor}

/-- What is left of the text is longer by what is behind the piece. -/
theorem length (h : Cursor.Cut origin behind c c') :
    c.rest.length = c'.rest.length + behind.length := by
  rw [h.rest, List.length_append]

/-- Behind the same lexeme the places correspond again. -/
theorem past {α : Type} {l l' : Lexeme α} (h : Cursor.Cut origin behind c c')
    (hl : Lexeme.Cut behind l l') (hl' : l'.text ++ l'.rest = c'.rest) :
    Cursor.Cut origin behind (c.past l) (c'.past l') where
  rest := hl.rest
  pos := by
    dsimp only [Cursor.past]
    rw [Position.translate_advance origin h.line, ← h.pos, hl.text]
  line := by
    dsimp only [Cursor.past]
    rw [Position.line_advance]
    exact Nat.le_add_right_of_le h.line
  whole := not_splitsBreak_of_append (hl'.symm ▸ h.whole)

theorem skip {n : Nat} (h : Cursor.Cut origin behind c c') (hn : n ≤ c'.rest.length) :
    Cursor.Cut origin behind (c.skip n) (c'.skip n) := by
  have hcut : Lexeme.Cut behind (Lexeme.mk () (c.rest.take n) (c.rest.drop n))
      (Lexeme.mk () (c'.rest.take n) (c'.rest.drop n)) :=
    ⟨rfl, by rw [h.rest, List.take_append_of_le_length hn],
      by rw [h.rest, List.drop_append_of_le_length hn]⟩
  exact h.past hcut (List.take_append_drop n _)

/-- Blanks are skipped on both sides, and those behind the piece are not skipped in the text. -/
theorem skipBlanks (h : Cursor.Cut origin behind c c')
    (hlen : behind.length ≤ c.skipBlanks.rest.length) :
    Cursor.Cut origin behind c.skipBlanks c'.skipBlanks := by
  have hlen' : behind.length ≤ (Lexical.blanks c.rest).rest.length := hlen
  rw [h.rest] at hlen'
  have hcut := Lexical.local_blanks h.whole hlen'
  rw [← h.rest] at hcut
  exact h.past hcut (Lexical.append_blanks _)

theorem spanFrom {p p' : Position} (h : Cursor.Cut origin behind c c')
    (hp : p = origin.translate p') :
    c.spanFrom p = (c'.spanFrom p').map origin.translate := by
  rw [Cursor.spanFrom, hp, h.pos]
  rfl

/-- What stands in the piece stands in the text. -/
theorem prefix_text (h : Cursor.Cut origin behind c c') (hs : s <+: c'.rest) : s <+: c.rest := by
  rw [h.rest]
  exact hs.trans (List.prefix_append _ _)

/-- What stands in the text stands in the piece, if it is not too long for that. -/
theorem prefix_piece (h : Cursor.Cut origin behind c c') (hs : s <+: c.rest)
    (hlen : behind.length + s.length ≤ c.rest.length) : s <+: c'.rest := by
  have hlength := h.length
  rw [h.rest] at hs
  exact List.prefix_of_prefix_length_le hs (List.prefix_append _ _) (by omega)

end Cursor.Cut

namespace Lexical

variable {origin : Position} {behind : List Char} {c c' d : Cursor} {t : Token} {ts : List Token}
  {n n' : Nat}

/-! ### Readers -/

/-- A place where nothing but blanks is left. -/
theorem token_of_rest_eq_nil (h : c.skipBlanks.rest = []) (hn : c.rest.length ≤ n) :
    token n c = .ok (⟨.endOfInput, .point c.skipBlanks.pos⟩, c.skipBlanks) := by
  cases n with
  | zero =>
    obtain ⟨rest, pos⟩ := c
    obtain rfl : rest = [] := List.eq_nil_of_length_eq_zero (Nat.le_zero.mp hn)
    rfl
  | succ n => rw [token, tokenAt, h]

/-- At the end there is nothing to skip. -/
theorem skipBlanks_of_rest_eq_nil (h : c.rest = []) : c.skipBlanks = c := by
  obtain ⟨rest, pos⟩ := c
  obtain rfl : rest = [] := h
  rfl

theorem Stands.length_lt (h : Stands c t d) (hend : t.isEnd = false) :
    d.rest.length < c.rest.length := by
  obtain ⟨text, htext, -, hne⟩ := h.passes
  rw [hend] at hne
  have hlength := htext.length_rest
  have hpos := List.length_pos_of_ne_nil hne
  omega

theorem Stands.rest_eq_nil (h : Stands c t d) (hend : t.isEnd = true) :
    c.rest = [] ∧ d.rest = [] := by
  obtain ⟨text, htext, -, hnil⟩ := h.passes
  rw [if_pos hend] at hnil
  exact ⟨by rw [htext.rest, hnil.1, hnil.2]; rfl, hnil.2⟩

theorem Reads.length_lt (h : Reads c t d) (hend : t.isEnd = false) :
    d.rest.length < c.rest.length :=
  (h.stands.length_lt hend).trans_le (passes_skipBlanks c).reaches.length_rest_le

variable (origin behind n n') in
/-- What a reader with the bound `n` finds in the text, a reader with the bound `n'` finds in the
piece. -/
def Follows : Prop :=
  ∀ ⦃c c' : Cursor⦄ ⦃t : Token⦄ ⦃d : Cursor⦄, Cursor.Cut origin behind c c' → c.rest.length ≤ n →
    c'.rest.length ≤ n' → token n c = .ok (t, d) → behind.length ≤ d.rest.length →
    ∃ t' d', token n' c' = .ok (t', d') ∧ Cursor.Cut origin behind d d' ∧
      t = t'.relabel origin.translate

/-- The text of a string in front of a mark that is taken along. -/
theorem cut_stringText_past {multiline : Bool} {stop : List Char}
    (hc : Cursor.Cut origin behind c c') (hmem : stop = delimiter multiline ∨ stop = ['$', '{'])
    (hstop : stop <+: (c.past (stringText multiline c.rest)).rest)
    (hlen : behind.length + stop.length ≤ (c.past (stringText multiline c.rest)).rest.length) :
    (stringText multiline c.rest).value = (stringText multiline c'.rest).value ∧
      Cursor.Cut origin behind (c.past (stringText multiline c.rest))
        (c'.past (stringText multiline c'.rest)) := by
  dsimp only [Cursor.past] at hstop hlen
  rw [hc.rest] at hstop hlen
  have hcut := cut_stringText hmem hstop hlen
  rw [← hc.rest] at hcut
  exact ⟨hcut.value, hc.past hcut (append_stringText _ _)⟩

section

variable (hinner : Follows origin behind n n')
include hinner

/-- The tokens up to the brace that closes an interpolation. The induction is on the bound of the
loop in the text. That in the piece only has to be large enough. -/
theorem cut_untilBrace {k k' depth : Nat} {start start' : Position}
    (hc : Cursor.Cut origin behind c c') (hn : c.rest.length ≤ n) (hn' : c'.rest.length ≤ n')
    (hk' : c'.rest.length ≤ k') (h : untilBrace (token n) start k depth c = .ok (ts, d))
    (hd : behind.length ≤ d.rest.length) :
    ∃ ts' d', untilBrace (token n') start' k' depth c' = .ok (ts', d') ∧
      Cursor.Cut origin behind d d' ∧ ts = relabelTokens origin.translate ts' := by
  induction k generalizing k' depth c c' ts with
  | zero => cases h
  | succ k ih =>
    obtain ⟨t, e, ht, hend, hround⟩ := untilBrace_succ_eq_ok_iff.mp h
    have hread : Reads c t e := ⟨n, hn, ht⟩
    have he : e.rest.length ≤ n := hread.reaches.length_rest_le.trans hn
    have hshorter := hread.length_lt hend
    have hed : behind.length ≤ e.rest.length := by
      rcases hround with ⟨-, -, rfl⟩ | ⟨depth', us, -, hus, -⟩
      · exact hd
      · obtain ⟨mid, close, hrun, hclose, -⟩ := (run_of_untilBrace he hus).1
        exact hd.trans (hrun.reaches.trans hclose.reaches).length_rest_le
    -- the piece has the token too, and with it a further round
    obtain ⟨t', e', ht', hcut, rfl⟩ := hinner hc hn hn' ht hed
    have hlength := hc.length
    have hlength' := hcut.length
    obtain ⟨m, rfl⟩ : ∃ m, k' = m + 1 := ⟨k' - 1, by omega⟩
    rw [Token.isEnd_relabel] at hend
    rw [Token.kind_relabel, TokenKind.braceDepth_relabel] at hround
    rcases hround with ⟨hdepth, rfl, rfl⟩ | ⟨depth', us, hdepth, hus, rfl⟩
    · exact ⟨[], e', untilBrace_succ_eq_ok_iff.mpr ⟨t', e', ht', hend, .inl ⟨hdepth, rfl, rfl⟩⟩,
        hcut, (relabelTokens_nil _).symm⟩
    · have hm : e'.rest.length ≤ m := by omega
      obtain ⟨us', d', hus', hcut', rfl⟩ := ih hcut he (by omega) hm hus
      exact ⟨t' :: us', d', untilBrace_succ_eq_ok_iff.mpr
        ⟨t', e', ht', hend, .inr ⟨depth', us', hdepth, hus', rfl⟩⟩, hcut',
        (relabelTokens_cons _ _ _).symm⟩

/-- An interpolation in the text whose closing brace is in the piece is opened in the piece too. -/
theorem cut_interpolation {span : Span} (hc : Cursor.Cut origin behind c c')
    (hopen : ['$', '{'] <+: c.rest) (hn : c.rest.length ≤ n + 1) (hn' : c'.rest.length ≤ n' + 1)
    (h : interpolation n (token n) c = .ok (ts, span, d)) (hd : behind.length ≤ d.rest.length) :
    ['$', '{'] <+: c'.rest ∧ ∃ ts' span' d',
      interpolation n' (token n') c' = .ok (ts', span', d') ∧ Cursor.Cut origin behind d d' ∧
      ts = relabelTokens origin.translate ts' ∧ span = span'.map origin.translate := by
  have hinside := (encloses_of_interpolation hopen hn h).1.reaches_inside.length_rest_le
  have hlength := (passes_opening hopen).length_rest
  have hlength' := hc.length
  simp only [List.length_cons, List.length_nil] at hlength
  have hskip := hc.skip (n := 2) (by omega)
  have hbound : (c'.skip 2).rest.length ≤ n' := by
    have := hskip.length
    omega
  obtain ⟨hts, rfl⟩ := interpolation_eq_ok_iff.mp h
  obtain ⟨ts', d', hts', hcut, hrelabel⟩ :=
    cut_untilBrace hinner hskip (by omega) hbound hbound hts hd
  exact ⟨hc.prefix_piece hopen (by simp only [List.length_cons, List.length_nil]; omega),
    ts', _, d', interpolation_eq_ok_iff.mpr ⟨hts', rfl⟩, hcut, hrelabel, hcut.spanFrom hc.pos⟩

/-- The parts of a string, up to the delimiter. Texts between them are compared by
`cut_stringText_past`, since an escape may reach over some characters. -/
theorem cut_stringFragments {multiline : Bool} {parts : List StringFragment} {k k' : Nat}
    {start start' : Position} (hc : Cursor.Cut origin behind c c') (hn : c.rest.length ≤ n)
    (hn' : c'.rest.length ≤ n') (hk' : c'.rest.length ≤ k')
    (h : stringFragments n (token n) multiline start k c = .ok (parts, d))
    (hd : behind.length ≤ d.rest.length) :
    ∃ parts' d', stringFragments n' (token n') multiline start' k' c' = .ok (parts', d') ∧
      Cursor.Cut origin behind d d' ∧ parts = relabelFragments origin.translate parts' := by
  induction k generalizing k' c c' parts with
  | zero => cases h
  | succ k ih =>
    have htext := (passes_stringText multiline c).reaches.length_rest_le
    have htext' := (passes_stringText multiline c').reaches.length_rest_le
    have hlength := hc.length
    -- a text is followed by an interpolation and more parts, or by the delimiter that ends the
    -- string
    rcases stringFragments_succ_eq_ok_iff.mp h with
      ⟨hopen, us, span, e, more, hus, hmore, rfl⟩ | ⟨hopen, hclose, rfl, rfl⟩
    · have hinside :=
        (encloses_of_interpolation hopen (by omega) hus).1.reaches_inside.length_rest_le
      have hmark := (passes_opening hopen).length_rest
      simp only [List.length_cons, List.length_nil] at hmark
      have hbehind := (fragments_of_stringFragments (by omega) hmore).reaches.length_rest_le
      obtain ⟨hvalue, hcut⟩ := cut_stringText_past hc (.inr rfl) hopen
        (by simp only [List.length_cons, List.length_nil]; omega)
      obtain ⟨hopen', us', span', e', hus', hcut', hrelabels, hspan⟩ :=
        cut_interpolation hinner hcut hopen (by omega) (by omega) hus (by omega)
      have hlength' := hcut'.length
      obtain ⟨m, rfl⟩ : ∃ m, k' = m + 1 := ⟨k' - 1, by omega⟩
      have hm : e'.rest.length ≤ m := by omega
      obtain ⟨more', d', hmore', hcut'', hmores⟩ := ih hcut' (by omega) (by omega) hm hmore
      refine ⟨_, d', stringFragments_succ_eq_ok_iff.mpr
        (.inl ⟨hopen', us', span', e', more', hus', hmore', rfl⟩), hcut'', ?_⟩
      simp [relabelFragments, StringFragment.relabel, hvalue, hrelabels, hspan, hmores]
    · have hmark := (passes_delimiter hclose).length_rest
      obtain ⟨hvalue, hcut⟩ := cut_stringText_past hc (.inl rfl) hclose (by omega)
      have hclose' := hcut.prefix_piece hclose (by omega)
      have hlength' := hcut.length
      have hmark' := (passes_delimiter hclose').length_rest
      have hpos := length_delimiter_pos multiline
      obtain ⟨m, rfl⟩ : ∃ m, k' = m + 1 := ⟨k' - 1, by omega⟩
      refine ⟨_, _, stringFragments_succ_eq_ok_iff.mpr
        (.inr ⟨mt hcut.prefix_text hopen, hclose', rfl, rfl⟩), hcut.skip hclose'.length_le, ?_⟩
      simp [relabelFragments, StringFragment.relabel, hvalue]

/-- A string in the text that ends in the piece begins in it, with the same delimiter. -/
theorem cut_stringToken {multiline : Bool} (hc : Cursor.Cut origin behind c c')
    (hopen : delimiter multiline <+: c.rest) (hn : c.rest.length ≤ n + 1)
    (hn' : c'.rest.length ≤ n' + 1) (h : stringToken n (token n) multiline c = .ok (t, d))
    (hd : behind.length ≤ d.rest.length) :
    delimiter multiline <+: c'.rest ∧ ∃ t' d',
      stringToken n' (token n') multiline c' = .ok (t', d') ∧ Cursor.Cut origin behind d d' ∧
      t = t'.relabel origin.translate := by
  obtain ⟨parts, hparts, rfl⟩ := stringToken_eq_ok_iff.mp h
  have hpos := length_delimiter_pos multiline
  have hmark := (passes_delimiter hopen).length_rest
  have hbehind := (fragments_of_stringFragments (by omega) hparts).reaches.length_rest_le
  have hopen' := hc.prefix_piece hopen (by omega)
  have hskip := hc.skip hopen'.length_le
  have hbound : (c'.skip (delimiter multiline).length).rest.length ≤ n' := by
    have := hc.length
    have := hskip.length
    omega
  obtain ⟨parts', d', hparts', hcut, hrelabels⟩ :=
    cut_stringFragments hinner hskip (by omega) hbound hbound hparts hd
  refine ⟨hopen', _, d', stringToken_eq_ok_iff.mpr ⟨parts', hparts', rfl⟩, hcut, ?_⟩
  rw [Token.relabel, TokenKind.relabel, hrelabels, hcut.spanFrom hc.pos]

omit hinner in
/-- A token that holds no others, from its first character. -/
theorem cut_plainTokenAt {ch : Char} {cs : List Char} (hc : Cursor.Cut origin behind c c')
    (hcs : c'.rest = ch :: cs) (h : plainTokenAt ch (cs ++ behind) c = .ok (t, d))
    (hd : behind.length ≤ d.rest.length) :
    ∃ t' d', plainTokenAt ch cs c' = .ok (t', d') ∧
      Cursor.Cut origin behind d d' ∧ t = t'.relabel origin.translate := by
  obtain ⟨kind, hkind, rfl, rfl⟩ := plainTokenAt_eq_ok_iff.mp h
  have hcut := cut_plainToken (hcs ▸ hc.whole) hd
  have hpast := hc.past hcut ((append_plainToken ch cs).trans hcs.symm)
  refine ⟨_, _, plainTokenAt_eq_ok_iff.mpr ⟨kind, hcut.value ▸ hkind, rfl, rfl⟩, hpast, ?_⟩
  rw [Token.relabel, TokenKind.relabel_of_isFlat _ (isFlat_plainToken hkind),
    hpast.spanFrom hc.pos]

/-- Any token, from its first character. -/
theorem cut_tokenAt (hc : Cursor.Cut origin behind c c') (hn : c.rest.length ≤ n + 1)
    (hn' : c'.rest.length ≤ n' + 1) (h : tokenAt n (token n) c = .ok (t, d))
    (hd : behind.length ≤ d.rest.length) :
    ∃ t' d', tokenAt n' (token n') c' = .ok (t', d') ∧
      Cursor.Cut origin behind d d' ∧ t = t'.relabel origin.translate := by
  have hstands := stands_of_tokenAt hn h
  -- where the text is over the piece is, so what is read there is the end of input on both sides
  cases hend : t.isEnd with
  | true =>
    obtain ⟨hnil, -⟩ := hstands.rest_eq_nil hend
    obtain ⟨hnil', -⟩ := List.append_eq_nil_iff.mp (hc.rest.symm.trans hnil)
    rw [tokenAt, hnil] at h
    cases h
    rw [tokenAt, hnil']
    exact ⟨_, c', rfl, hc, by rw [Token.relabel_endOfInput, hc.pos]⟩
  | false =>
    obtain ⟨ch, cs, hcs', hcs⟩ : ∃ ch cs, c'.rest = ch :: cs ∧ c.rest = ch :: (cs ++ behind) := by
      have hshorter := hstands.length_lt hend
      have hlength := hc.length
      obtain ⟨ch, cs, hcs'⟩ := List.exists_cons_of_length_pos (l := c'.rest) (by omega)
      exact ⟨ch, cs, hcs', by rw [hc.rest, hcs', List.cons_append]⟩
    rcases (tokenAt_eq_ok_iff hcs).mp h with
      ⟨hopen, ts, span, hts, rfl⟩ | ⟨hopen, multiline, hquote, h⟩ | ⟨hopen, hquote, h⟩
    · obtain ⟨hopen', ts', span', d', hts', hcut, hrelabels, hspan⟩ :=
        cut_interpolation hinner hc hopen hn hn' hts hd
      refine ⟨_, d', (tokenAt_eq_ok_iff hcs').mpr (.inl ⟨hopen', ts', span', hts', rfl⟩), hcut, ?_⟩
      rw [Token.relabel, TokenKind.relabel, hrelabels, hspan]
    · obtain ⟨hquote', t', d', ht', hcut, hrelabel⟩ :=
        cut_stringToken hinner hc hquote hn hn' h hd
      exact ⟨t', d', (tokenAt_eq_ok_iff hcs').mpr
        (.inr (.inl ⟨mt hc.prefix_text hopen, multiline, hquote', ht'⟩)), hcut, hrelabel⟩
    · obtain ⟨t', d', ht', hcut, hrelabel⟩ := cut_plainTokenAt hc hcs' h hd
      exact ⟨t', d', (tokenAt_eq_ok_iff hcs').mpr (.inr (.inr
        ⟨mt hc.prefix_text hopen, fun multiline => mt hc.prefix_text (hquote multiline), ht'⟩)),
        hcut, hrelabel⟩

end

/-- Where the piece has ended, so has the text, or a token would go past the cut. -/
theorem Reads.cut_of_rest_eq_nil (h : Reads c t d) (hc : Cursor.Cut origin behind c c')
    (hnil : c'.rest = []) (hd : behind.length ≤ d.rest.length) :
    ∃ t' d', token n' c' = .ok (t', d') ∧ Cursor.Cut origin behind d d' ∧
      t = t'.relabel origin.translate := by
  have hskip' := skipBlanks_of_rest_eq_nil hnil
  have hend : t.isEnd = true := by
    by_contra hend
    have hshorter := h.length_lt (by simpa using hend)
    rw [hc.length, hnil, List.length_nil] at hshorter
    omega
  obtain ⟨hrest, hrest'⟩ := h.stands.rest_eq_nil hend
  obtain rfl : behind = [] := by
    rw [hrest', List.length_nil] at hd
    exact List.eq_nil_of_length_eq_zero (Nat.le_zero.mp hd)
  have hskip := skipBlanks_of_rest_eq_nil (c := c) (by rw [hc.rest, hnil]; rfl)
  obtain ⟨n, hn, h⟩ := h
  obtain ⟨rfl, rfl⟩ := Prod.mk.inj (Except.ok.inj ((token_of_rest_eq_nil hrest hn).symm.trans h))
  refine ⟨_, _, token_of_rest_eq_nil (by rw [hskip', hnil]) (by simp [hnil]), ?_, ?_⟩
  · rwa [hskip, hskip']
  · rw [Token.relabel_endOfInput, hskip, hskip', hc.pos]

/-- **The readers of tokens go side by side**, in the text and in a piece of it. -/
theorem follows_token (n n' : Nat) : Follows origin behind n n' := by
  induction n generalizing n' with
  | zero =>
    intro c c' t d hc hn _ h hd
    obtain ⟨hnil, -⟩ := List.append_eq_nil_iff.mp
      (hc.rest.symm.trans (List.eq_nil_of_length_eq_zero (Nat.le_zero.mp hn)))
    exact Reads.cut_of_rest_eq_nil ⟨0, hn, h⟩ hc hnil hd
  | succ n ih =>
    intro c c' t d hc hn hn' h hd
    have hread : Reads c t d := ⟨n + 1, hn, h⟩
    cases n' with
    | zero =>
      exact hread.cut_of_rest_eq_nil hc
        (List.eq_nil_of_length_eq_zero (Nat.le_zero.mp hn')) hd
    | succ n' =>
      obtain ⟨text, htext, -⟩ := hread.stands.passes
      have hblanks := (passes_skipBlanks c).reaches.length_rest_le
      have hblanks' := (passes_skipBlanks c').reaches.length_rest_le
      exact cut_tokenAt (ih n') (hc.skipBlanks (hd.trans htext.reaches.length_rest_le))
        (hblanks.trans hn) (hblanks'.trans hn') h hd

/-! ### Tokens in a row

The bounds are gone from here on. A row of tokens is followed token by token, and at the end of the
piece the end of input is added, which the text need not have there. -/

/-- The text is a piece of itself. -/
theorem Reads.token_eq (h : Reads c t d) (hline : 1 ≤ c.pos.line) (hn : c.rest.length ≤ n) :
    token n c = .ok (t, d) := by
  obtain ⟨m, hm, h⟩ := h
  have hc : Cursor.Cut Position.start [] c c :=
    ⟨(List.append_nil _).symm, by rw [Position.start_translate]; rfl, hline, by simp [SplitsBreak]⟩
  obtain ⟨t', d', ht', hcut, hrelabel⟩ := follows_token m n hc hm hn h (Nat.zero_le _)
  rw [ht', hrelabel, Position.start_translate, Token.relabel_id]
  obtain ⟨rest, pos⟩ := d
  obtain ⟨rest', pos'⟩ := d'
  obtain rfl : rest = rest' := hcut.rest.trans (List.append_nil _)
  obtain rfl : pos = pos' := by simpa [Position.start_translate] using hcut.pos
  rfl

/-- A token of the text that ends in the piece is read there. -/
theorem Reads.cut (h : Reads c t d) (hc : Cursor.Cut origin behind c c')
    (hd : behind.length ≤ d.rest.length) :
    ∃ t' d', Reads c' t' d' ∧ Cursor.Cut origin behind d d' ∧
      t = t'.relabel origin.translate := by
  obtain ⟨n, hn, h⟩ := h
  obtain ⟨t', d', ht', hcut, hrelabel⟩ := follows_token n c'.rest.length hc hn le_rfl h hd
  exact ⟨t', d', ⟨_, le_rfl, ht'⟩, hcut, hrelabel⟩

/-- Tokens in a row that stay in the piece stand in a row there. -/
theorem Run.cut (h : Run c ts d) (hc : Cursor.Cut origin behind c c')
    (hd : behind.length ≤ d.rest.length) :
    ∃ ts' d', Run c' ts' d' ∧ Cursor.Cut origin behind d d' ∧
      ts = relabelTokens origin.translate ts' := by
  induction h generalizing c' with
  | nil c => exact ⟨[], c', .nil c', hc, (relabelTokens_nil _).symm⟩
  | cons head tail ih =>
    obtain ⟨t', e', hhead, hcut, hrelabel⟩ := head.cut hc (hd.trans tail.reaches.length_rest_le)
    obtain ⟨ts', d', htail, hcut', hrelabels⟩ := ih hcut hd
    exact ⟨t' :: ts', d', .cons hhead htail, hcut',
      by rw [relabelTokens_cons, ← hrelabel, ← hrelabels]⟩

/-- Behind tokens in a row the reading goes on. -/
theorem exists_tokensFrom_of_run {k : Nat} (h : Run c ts d) (hend : ∀ t ∈ ts, t.isEnd = false)
    (hline : 1 ≤ c.pos.line) (hn : c.rest.length ≤ n) (hk : c.rest.length ≤ k) :
    ∃ m, d.rest.length ≤ m ∧
      tokensFrom (token n) k c = (tokensFrom (token n) m d).map (ts ++ ·) := by
  induction h generalizing k with
  | nil c =>
    refine ⟨k, hk, ?_⟩
    cases tokensFrom (token n) k c <;> rfl
  | @cons c e d t ts head tail ih =>
    obtain ⟨htend, hend⟩ := List.forall_mem_cons.mp hend
    have hshorter := head.length_lt htend
    obtain ⟨k, rfl⟩ : ∃ m, k = m + 1 := ⟨k - 1, by omega⟩
    obtain ⟨text, htext⟩ := head.reaches
    have hline' : 1 ≤ e.pos.line := by
      rw [htext.pos, Position.line_advance]
      exact Nat.le_add_right_of_le hline
    obtain ⟨m, hm, htail⟩ := ih hend hline' (by omega) (show e.rest.length ≤ k by omega)
    refine ⟨m, hm, ?_⟩
    simp only [tokensFrom, head.token_eq hline hn, bind, Except.bind, htend, Bool.false_eq_true,
      if_false, htail]
    cases tokensFrom (token n) m d <;> rfl

/-- **Tokens in a row up to the end of a text are all its tokens.** -/
theorem tokensFrom_of_run {k : Nat} (h : Run c ts d) (hend : ∀ t ∈ ts, t.isEnd = false)
    (hline : 1 ≤ c.pos.line) (hn : c.rest.length ≤ n) (hk : c.rest.length ≤ k)
    (hd : d.skipBlanks.rest = []) :
    tokensFrom (token n) k c = .ok (ts ++ [⟨.endOfInput, .point d.skipBlanks.pos⟩]) := by
  obtain ⟨m, hm, htail⟩ := exists_tokensFrom_of_run h hend hline hn hk
  rw [htail]
  cases m with
  | zero =>
    rw [skipBlanks_of_rest_eq_nil (List.eq_nil_of_length_eq_zero (Nat.le_zero.mp hm))]
    rfl
  | succ m =>
    rw [tokensFrom, token_of_rest_eq_nil hd (h.reaches.length_rest_le.trans hn)]
    rfl

/-- No token begins with the byte order mark. -/
theorem value_plainToken_byteOrderMark (cs : List Char) (kind : TokenKind) :
    (plainToken Cursor.byteOrderMark cs).value ≠ .ok kind := by
  have hform := plainForm_plainToken Cursor.byteOrderMark cs
  generalize plainToken Cursor.byteOrderMark cs = l at hform
  cases hform with
  | bracket h => cases h
  | lineBreak h => cases h
  | word h => exact absurd h (by decide)
  | dot h => exact absurd h (by decide)
  | operator h => exact absurd h (by decide)
  | blockComment h => exact absurd h (by decide)
  | path h => cases cs <;> cases h
  | number h => exact absurd h (by decide)
  | lineComment h => exact absurd h (by decide)
  | unexpected => exact nofun

theorem Reads.ne_byteOrderMark {ch : Char} {cs : List Char} (h : Reads c t d)
    (hcs : c.rest = ch :: cs) : ch ≠ Cursor.byteOrderMark := by
  rintro rfl
  have hblank : isBlank Cursor.byteOrderMark = false := by decide
  have hskip : c.skipBlanks.rest = Cursor.byteOrderMark :: cs := by
    simp [Cursor.skipBlanks, Cursor.past, hcs, blanks, hblank]
  have hstands := h.stands
  generalize c.skipBlanks = e at hskip hstands
  cases hstands with
  | endOfInput hnil => cases hskip.symm.trans hnil
  | interpolation henc =>
    have hopen := henc.opens
    simp [hskip, Cursor.byteOrderMark] at hopen
  | @string _ multiline _ opens =>
    rw [hskip] at opens
    cases multiline <;> simp [delimiter, Cursor.byteOrderMark] at opens
  | plain hcs' _ _ hvalue =>
    obtain ⟨rfl, rfl⟩ := List.cons.inj (hcs'.symm.trans hskip)
    exact value_plainToken_byteOrderMark _ _ hvalue

/-- **A piece that some tokens take has these tokens**, at other positions, and behind them its
end. There may be blanks on both sides of them. -/
theorem tokenize_of_passes {text : List Char} {m : Cursor} (hline : 1 ≤ c.pos.line)
    (hcolumn : 1 ≤ c.pos.column) (htext : c.Passes text m) (h : Run c ts d)
    (hend : ∀ t ∈ ts, t.isEnd = false) (hm : m = d ∨ m = d.skipBlanks)
    (hmark : ∀ ch cs, c.rest = ch :: cs → ch ≠ Cursor.byteOrderMark) :
    ∃ ts' stop, tokenize (String.ofList text) = .ok (ts' ++ [⟨.endOfInput, .point stop⟩]) ∧
      ts = relabelTokens c.pos.translate ts' ∧ m.pos = c.pos.translate stop := by
  have hof : Cursor.ofText text = ⟨text, .start⟩ := by
    cases text with
    | nil => rfl
    | cons ch cs => rw [Cursor.ofText, if_neg (hmark ch _ htext.rest)]
  -- the text on its own, from the first position on, is the piece cut off at `m`
  have hc : Cursor.Cut c.pos m.rest c ⟨text, .start⟩ :=
    ⟨htext.rest, (Position.translate_start hline hcolumn).symm, le_rfl, htext.whole⟩
  have hd : m.rest.length ≤ d.rest.length := by
    rcases hm with rfl | rfl
    · exact le_rfl
    · exact (passes_skipBlanks d).reaches.length_rest_le
  obtain ⟨ts', d', hrun, hcut, hrelabels⟩ := h.cut hc hd
  have hend' : ∀ t ∈ ts', t.isEnd = false :=
    (forall_isEnd_relabelTokens _).mp (hrelabels ▸ hend)
  obtain ⟨hrest, hpos⟩ :
      d'.skipBlanks.rest = [] ∧ m.pos = c.pos.translate d'.skipBlanks.pos := by
    rcases hm with rfl | rfl
    · have hnil := List.self_eq_append_left.mp hcut.rest
      rw [skipBlanks_of_rest_eq_nil hnil]
      exact ⟨hnil, hcut.pos⟩
    · have hskip := hcut.skipBlanks le_rfl
      exact ⟨List.self_eq_append_left.mp hskip.rest, hskip.pos⟩
  refine ⟨ts', d'.skipBlanks.pos, ?_, hrelabels, hpos⟩
  rw [tokenize, String.toList_ofList, hof]
  exact tokensFrom_of_run hrun hend' le_rfl le_rfl le_rfl hrest

end Lexical

end NixSyntax
