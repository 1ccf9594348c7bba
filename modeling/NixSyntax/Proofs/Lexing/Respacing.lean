import NixSyntax.Proofs.Cutting.Expressions
import NixSyntax.Proofs.Lexing.Concatenation
import NixSyntax.Proofs.Lexing.Escapes

/-!
# Blanks set anew

The texts of the tokens of a source are put one behind the other, with a single blank between two of
them. The result has the same tokens. So it does not matter how many blanks there were, or whether
there were any: a token that ended in front of something other than a blank ends in front of a blank
as well. Only a comment to the end of a line would take the blank, so none is set behind it; what
follows it is the line break at which it ended.

Each token is read alone first, in the text that it takes, and from there it is found in the new
text by `Reads.insert_of_keeps`. Two tokens need to be known not to go on with the blank. A comment
to the end of a line is one, and the other is a path with a backslash at its end. Such a path is the
last token of its source: anywhere else the backslash would have taken the next character.

## Two inductions

The new text is followed from its front, and the pieces of the old one are taken along (`Pieces`).
At each token there are two things to know. In the old text something was behind it or not, which
tells whether it was stopped by what followed. In the new text a blank is behind it, or the line
break of the next token, or nothing at all. The lemmas for a single token relate the two:
`Reads.exists_before` where something was behind it, and `Reads.exists_at_end` where it is the rest
of the text.

That a token takes the same text in front of a blank as in front of whatever stood there uses both
readings of locality. The token is first cut out of the old text, where it is known to stop, and
then put in front of the new one.

## Main definitions

* `respaced`: the texts of some tokens with a blank between them
* `Lexical.Pieces`: tokens in a row, each with its text

## Main results

* `Lexical.Pieces.exists_run`: the tokens of the new text
* `tokenize_respaced`: setting the blanks anew changes no token
-/

namespace NixSyntax

/-- What is set between a token and the next one: a blank, unless the token would take it. -/
def Token.gap (t : Token) : List Char :=
  match t.kind with
  | .comment _ false => []
  | _ => [' ']

/-- The texts of some tokens, one behind the other, with what is set between them. -/
def respaced : List (Token × List Char) → List Char
  | [] => []
  | [(_, text)] => text
  | (t, text) :: next :: more => text ++ (t.gap ++ respaced (next :: more))

/-- The new text begins with the text of the first token. -/
theorem exists_respaced_cons (t : Token) (text : List Char) (more : List (Token × List Char)) :
    ∃ behind, respaced ((t, text) :: more) = text ++ behind := by
  cases more with
  | nil => exact ⟨[], (List.append_nil text).symm⟩
  | cons next more => exact ⟨_, rfl⟩

/-- There is a blank behind a token, or the token is a comment to the end of a line. -/
theorem Token.gap_cases (t : Token) :
    (t.gap = [' '] ∧ ∀ text, t.kind ≠ .comment text false) ∨
      t.gap = [] ∧ ∃ text, t.kind = .comment text false := by
  unfold Token.gap
  split
  · exact .inr ⟨rfl, _, ‹_›⟩
  · rename_i hnone
    exact .inl ⟨rfl, hnone⟩

namespace Lexical

variable {a b c d e : Cursor} {t u : Token} {ts : List Token} {source : String}
  {text behind cs : List Char} {ch : Char}

/-! ### Tokens that would go on

Of all flat tokens, those two that take blanks: a path whose last character is a backslash, and a
comment to the end of a line. -/

/-- A path has a backslash at its end only where its text is over. -/
theorem hangs_pathTail (hne : (pathTail cs).rest ≠ []) : hangs (pathTail cs).text = false := by
  fun_induction pathTail cs with
  | case1 cs ih => simpa [Lexeme.before, hangs, hangs_cons] using ih hne
  | case2 c cs _ ih => simpa [Lexeme.before, hangs] using ih hne
  | case3 => exact absurd rfl hne
  | case4 c cs _ _ _ hc ih =>
    simpa [Lexeme.before, hangs_cons (ne_backslash_of_isPathChar hc)] using ih hne
  | case5 => rfl
  | case6 => rfl

/-- So a path that is followed by something has no lone backslash at its end. -/
theorem hangs_of_path {value : String} (h : (plainToken ch cs).value = .ok (.path value))
    (hne : (plainToken ch cs).rest ≠ []) :
    ∃ text, (plainToken ch cs).text = ch :: text ∧ hangs text = false := by
  obtain ⟨-, heq⟩ := plainToken_eq_path h
  rw [heq] at hne ⊢
  exact ⟨_, rfl, hangs_pathTail hne⟩

/-- The rest of a line ends in front of a line break. -/
theorem startsLineBreak_lineTail (hne : (lineTail cs).rest ≠ []) :
    startsLineBreak (lineTail cs).rest = true := by
  fun_induction lineTail cs with
  | case1 => exact absurd rfl hne
  | case2 c cs h => exact h
  | case3 c cs h ih => exact ih hne

theorem plainToken_hash (cs : List Char) : plainToken '#' cs =
    ⟨.ok (lineComment cs).value, (lineComment cs).text, (lineComment cs).rest⟩ := by
  cases cs <;> rfl

/-- A comment that is followed by something is followed by a line break. -/
theorem startsLineBreak_of_lineComment {content : String}
    (h : (plainToken ch cs).value = .ok (.comment content false))
    (hne : (plainToken ch cs).rest ≠ []) : startsLineBreak (plainToken ch cs).rest = true := by
  obtain ⟨text, htext⟩ := text_plainToken ch cs
  have hspelled : (plainToken ch cs).text = '#' :: content.toList ∧ _ := spelledBy_plainToken h
  obtain ⟨rfl, -⟩ := List.cons.inj (htext.symm.trans hspelled.1)
  rw [plainToken_hash] at hne ⊢
  exact startsLineBreak_lineTail hne

/-- A token with something behind it does not go on with a blank that is put there instead, or, if
it is a comment to the end of a line, with a line break. -/
theorem Stands.keeps_text {f : Position → Position} (h : Stands a (t.relabel f) b)
    (htext : a.Passes text b) (hb : b.rest ≠ []) (hrest : c.rest = text)
    (hbreak : ¬ SplitsBreak text behind) (hblank : Sheltered [] behind)
    (hcomment : ∀ content, t.kind = .comment content false → startsLineBreak behind = true) :
    Keeps behind c t := by
  intro hflat ch cs hcs hkind
  obtain rfl : text = ch :: cs := hrest.symm.trans hcs
  have hsame : (t.relabel f).kind = t.kind := by
    rw [Token.kind_relabel, TokenKind.relabel_of_isFlat f hflat]
  generalize t.relabel f = u at h hsame
  rw [← hsame] at hflat
  cases h with
  | endOfInput | interpolation | string => cases hflat
  | @plain ch' cs' kind hcs' _ _ hkind' =>
    have htaken : (plainToken ch' cs').text = ch :: cs :=
      List.append_cancel_right ((passes_plainToken hcs').rest.symm.trans htext.rest)
    refine settled_plainToken hkind hbreak (by simpa using hblank.append (plainToken ch cs).rest)
      (fun _ => hcomment) fun _ value hvalue => ?_
    obtain rfl : kind = .path value := hsame.trans hvalue
    obtain ⟨text', htext', hhangs⟩ := hangs_of_path hkind' hb
    obtain ⟨-, rfl⟩ := List.cons.inj (htext'.symm.trans htaken)
    exact hhangs

/-! ### A token in its own text and in another

First the token is alone, with nothing in front and nothing behind. From there it is put where it is
wanted. -/

/-- A token can be read alone in the text that it takes. -/
theorem Reads.exists_alone (h : Reads a t b) (hskip : a.skipBlanks = a) (htext : a.Passes text b)
    (hpos : 1 ≤ a.pos.line ∧ 1 ≤ a.pos.column) :
    ∃ u d, Reads ⟨text, .start⟩ u d ∧ d.rest = [] ∧ t = u.relabel a.pos.translate ∧
      (⟨text, .start⟩ : Cursor).skipBlanks.rest = text := by
  have hcut : Cursor.Cut a.pos b.rest a ⟨text, .start⟩ :=
    ⟨htext.rest, (Position.translate_start hpos.1 hpos.2).symm, le_rfl, htext.whole⟩
  obtain ⟨u, d, hread, hd, hrelabel⟩ := h.cut hcut le_rfl
  have hblanks := (hcut.skipBlanks (by rw [hskip]; exact h.reaches.length_rest_le)).rest
  rw [hskip, htext.rest] at hblanks
  exact ⟨u, d, hread, List.self_eq_append_left.mp hd.rest, hrelabel,
    (List.append_cancel_right hblanks).symm⟩

/-- A token that has something behind it is read where its text stands in front of a blank. -/
theorem Reads.exists_before (h : Reads a t b) (hskip : a.skipBlanks = a)
    (htext : a.Passes text b) (hpos : 1 ≤ a.pos.line ∧ 1 ≤ a.pos.column) (hb : b.rest ≠ [])
    (hc : c.rest = text ++ behind) (hpos' : 1 ≤ c.pos.line ∧ 1 ≤ c.pos.column)
    (hbreak : ¬ SplitsBreak text behind) (hblank : Sheltered [] behind)
    (hcomment : ∀ content, t.kind = .comment content false → startsLineBreak behind = true) :
    ∃ u d, Reads c u d ∧ d.rest = behind ∧ u.relabel erasePosition = t.relabel erasePosition := by
  obtain ⟨u, d, hread, hd, rfl, halone⟩ := h.exists_alone hskip htext hpos
  have hcut : Cursor.Cut c.pos behind c ⟨text, .start⟩ :=
    ⟨hc, (Position.translate_start hpos'.1 hpos'.2).symm, le_rfl, hbreak⟩
  have hend : u.isEnd = false := by
    rw [← Token.isEnd_relabel a.pos.translate]
    exact Bool.eq_false_iff.mpr fun hend => hb (h.stands.rest_eq_nil hend).2
  have hkeeps : Keeps behind (⟨text, .start⟩ : Cursor).skipBlanks u := by
    refine (hskip ▸ h.stands).keeps_text htext hb halone hbreak hblank fun content hkind => ?_
    exact hcomment content (by rw [Token.kind_relabel, hkind]; simp [TokenKind.relabel])
  obtain ⟨e, hread', he⟩ := hread.insert_of_keeps hcut hend hkeeps (by rwa [hd])
  refine ⟨_, e, hread', by rw [he.rest, hd, List.nil_append], ?_⟩
  rw [Token.relabel_comp, Token.relabel_comp]
  rfl

/-- A token is read where its text is the rest. -/
theorem Reads.exists_at_end (h : Reads a t b) (hskip : a.skipBlanks = a)
    (htext : a.Passes text b) (hpos : 1 ≤ a.pos.line ∧ 1 ≤ a.pos.column) (hc : c.rest = text)
    (hpos' : 1 ≤ c.pos.line ∧ 1 ≤ c.pos.column) :
    ∃ u d, Reads c u d ∧ d.rest = [] ∧ u.relabel erasePosition = t.relabel erasePosition := by
  obtain ⟨u, d, ⟨n, hn, hread⟩, hd, rfl, -⟩ := h.exists_alone hskip htext hpos
  have hcut : Cursor.Cut c.pos [] c ⟨text, .start⟩ :=
    ⟨by rw [hc, List.append_nil], (Position.translate_start hpos'.1 hpos'.2).symm, le_rfl,
      by simp [SplitsBreak]⟩
  have hagree := (lockstep_translate c.pos).agree_token hcut le_rfl hn
  rw [hread] at hagree
  cases hfound : token c.rest.length c with
  | error =>
    rw [hfound] at hagree
    cases hagree
  | ok found =>
    obtain ⟨v, e⟩ := found
    rw [hfound] at hagree
    cases hagree with
    | ok hboth =>
      obtain ⟨hsame, he⟩ := hboth
      have hv : v = u.relabel c.pos.translate := by
        simpa [Token.recast, Token.reword_id, Token.relabel_id] using hsame
      refine ⟨v, e, ⟨_, le_rfl, hfound⟩, by rw [he.rest, hd, List.nil_append], ?_⟩
      rw [hv, Token.relabel_comp, Token.relabel_comp]
      rfl

/-! ### Tokens with their texts

The tokens of a source with what they take. The blanks between them are not in the texts. -/

/-- Some tokens that stand in a row from `c` to `d`, each with the text that it takes. -/
inductive Pieces : Cursor → List (Token × List Char) → Cursor → Prop where
  | nil (c : Cursor) : Pieces c [] c
  | cons {c d e : Cursor} {t : Token} {text : List Char} {more : List (Token × List Char)}
    (head : Reads c t e) (takes : c.skipBlanks.Passes text e) (hend : t.isEnd = false)
    (tail : Pieces e more d) : Pieces c ((t, text) :: more) d

/-- Each token in a row takes some text. -/
theorem Run.exists_pieces (h : Run c ts d) (hend : ∀ t ∈ ts, t.isEnd = false) :
    ∃ pieces, Pieces c pieces d ∧ pieces.map Prod.fst = ts := by
  induction h with
  | nil c => exact ⟨[], .nil c, rfl⟩
  | cons head tail ih =>
    obtain ⟨htend, hend⟩ := List.forall_mem_cons.mp hend
    obtain ⟨more, hmore, rfl⟩ := ih hend
    obtain ⟨text, htext, -⟩ := head.stands.passes
    exact ⟨_, .cons head htext htend hmore, rfl⟩

/-- The text of a token is the one under its span. -/
theorem Pieces.isSlice {pieces : List (Token × List Char)} (h : Pieces c pieces d)
    (hc : c.IsIn source) :
    ∀ p ∈ pieces, IsSlice source p.1.span.start.offset p.1.span.stop.offset p.2 := by
  induction h with
  | nil => simp
  | @cons c d e t text more head takes _ tail ih =>
    refine List.forall_mem_cons.mpr ⟨?_, ih (hc.reaches head.reaches)⟩
    obtain ⟨-, -, hspan, -⟩ := head.stands.passes
    rw [hspan]
    exact (hc.reaches (passes_skipBlanks c).reaches).isSlice takes

/-! ### The new text

In front of each token of the new text stands a blank, if anything, and blanks in front are skipped.
So the tokens follow one another as they did. -/

theorem startsLineBreak_append_right (h : startsLineBreak cs = true) (ds : List Char) :
    startsLineBreak (cs ++ ds) = true := by
  unfold startsLineBreak at h
  split at h
  · rfl
  · rfl
  · cases h

/-- A line break is a blank in this respect, as its characters have that property. -/
theorem sheltered_of_startsLineBreak (h : startsLineBreak behind = true) :
    Sheltered [] behind := by
  unfold startsLineBreak at h
  split at h
  · exact .of_cons (by decide)
  · exact .of_cons (by decide)
  · cases h

/-- But it is not skipped. -/
theorem skipBlanks_of_startsLineBreak (h : startsLineBreak c.rest = true) : c.skipBlanks = c := by
  obtain ⟨rest, pos⟩ := c
  cases rest with
  | nil => rfl
  | cons ch cs =>
    have hstop : blanks (ch :: cs) = ⟨(), [], ch :: cs⟩ := by
      rw [blanks, if_neg (by simp [show startsLineBreak (ch :: cs) = true from h])]
    simp [Cursor.skipBlanks, Cursor.past, hstop]

/-- What follows a comment to the end of a line in the old text is the token for the line break. -/
theorem Stands.startsLineBreak_of_comment {content : String} (h : Stands a t b)
    (ht : t.kind = .comment content false) (hb : b.rest ≠ []) : startsLineBreak b.rest = true := by
  cases h with
  | endOfInput | interpolation | string => cases ht
  | plain _ _ _ hkind =>
    obtain rfl := ht
    exact startsLineBreak_of_lineComment hkind hb

/-- Where another token follows in the old text, a blank follows in the new one, or the line break
behind a comment. -/
theorem Pieces.before_next {next : Token × List Char} {more : List (Token × List Char)}
    (head : Reads c t e) (takes : c.skipBlanks.Passes text e) (tail : Pieces e (next :: more) d) :
    e.rest ≠ [] ∧ ¬ SplitsBreak text (t.gap ++ respaced (next :: more)) ∧
      Sheltered [] (t.gap ++ respaced (next :: more)) ∧
      ∀ content, t.kind = .comment content false →
        startsLineBreak (t.gap ++ respaced (next :: more)) = true := by
  cases tail with
  | @cons _ _ f u text' _ head' takes' hend' tail' =>
    have hshorter := head'.length_lt hend'
    have hne : e.rest ≠ [] := List.ne_nil_of_length_pos (by omega)
    refine ⟨hne, ?_⟩
    -- a blank is put behind every token but a line comment, which its line break must follow
    obtain ⟨hgap, hnone⟩ | ⟨hgap, content, hkind⟩ := t.gap_cases
    · rw [hgap]
      exact ⟨by simp [SplitsBreak], .of_cons (by decide),
        fun content hkind => absurd hkind (hnone content)⟩
    · have hstart := head.stands.startsLineBreak_of_comment hkind hne
      rw [skipBlanks_of_startsLineBreak hstart] at takes'
      have hlength := takes'.length_rest
      obtain ⟨ch, cs, rfl⟩ := List.exists_cons_of_length_pos (l := text') (by omega)
      have hstart' : startsLineBreak (ch :: cs) = true := by
        rw [← startsLineBreak_append takes'.whole, ← takes'.rest]
        exact hstart
      obtain ⟨behind, hbehind⟩ := exists_respaced_cons u (ch :: cs) more
      have hnew := startsLineBreak_append_right hstart' behind
      rw [hgap, List.nil_append, hbehind]
      refine ⟨fun hsplit => takes.whole ⟨hsplit.1, ?_⟩, sheltered_of_startsLineBreak hnew,
        fun _ _ => hnew⟩
      rw [takes'.rest]
      exact hsplit.2

/-- A blank in front of a token is not needed to read it. -/
theorem exists_behind_gap (hb : b.IsIn source) (hrest : b.rest = t.gap ++ cs) :
    ∃ m : Cursor, m.IsIn source ∧ m.rest = cs ∧ ∀ u d, Reads m u d → Reads b u d := by
  obtain ⟨hgap, -⟩ | ⟨hgap, -⟩ := t.gap_cases
  · rw [hgap] at hrest
    have hpasses : b.Passes [' '] (b.skip 1) := Cursor.passes_skip hrest (by simp)
    have hskip : (b.skip 1).skipBlanks = b.skipBlanks := by
      obtain ⟨rest, pos⟩ := b
      obtain rfl : rest = ' ' :: cs := hrest
      have hblank : blanks (' ' :: cs) = ⟨(), ' ' :: (blanks cs).text, (blanks cs).rest⟩ := by
        rw [blanks]
        exact if_pos rfl
      simp [Cursor.skipBlanks, Cursor.past, Cursor.skip, hblank]
    refine ⟨b.skip 1, hb.reaches hpasses.reaches, by simp [Cursor.skip, hrest], fun u d h => ?_⟩
    rw [reads_iff (hb.reaches hpasses.reaches).one_le.1, hskip] at h
    exact (reads_iff hb.one_le.1).mpr h
  · exact ⟨b, hb, by rw [hrest, hgap, List.nil_append], fun _ _ h => h⟩

/-- The new text does not begin with a byte order mark, with which no token begins. -/
theorem Pieces.ofText_respaced {pieces : List (Token × List Char)} (h : Pieces c pieces d) :
    Cursor.ofText (respaced pieces) = ⟨respaced pieces, .start⟩ := by
  refine Cursor.ofText_of_head?_ne ?_
  cases h with
  | nil => exact nofun
  | @cons _ _ e t text more head takes hend tail =>
    have hshorter := head.skipBlanks.length_lt hend
    have hlength := takes.length_rest
    obtain ⟨ch, cs, rfl⟩ := List.exists_cons_of_length_pos (l := text) (by omega)
    obtain ⟨behind, hbehind⟩ := exists_respaced_cons t (ch :: cs) more
    rw [hbehind]
    simpa using head.skipBlanks.ne_byteOrderMark takes.rest

/-- **The tokens of the new text** are those of the old one, in other places. -/
theorem Pieces.exists_run {source' : String} {c' : Cursor} {pieces : List (Token × List Char)}
    (h : Pieces c pieces d) (hc : c.IsIn source) (hc' : c'.IsIn source')
    (hrest : c'.rest = respaced pieces) : ∃ us d', Run c' us d' ∧ d'.rest = [] ∧
      relabelTokens erasePosition us = relabelTokens erasePosition (pieces.map Prod.fst) := by
  induction h generalizing c' with
  | nil c => exact ⟨[], c', .nil c', hrest, rfl⟩
  | @cons c d e t text more head takes hend tail ih =>
    have ha : c.skipBlanks.IsIn source := hc.reaches (passes_skipBlanks c).reaches
    have hskip := skipBlanks_skipBlanks c
    cases more with
    | nil =>
      obtain ⟨u, b, hu, hb, hsame⟩ :=
        head.skipBlanks.exists_at_end hskip takes ha.one_le hrest hc'.one_le
      exact ⟨[u], b, .cons hu (.nil b), hb, by simp [hsame]⟩
    | cons next more =>
      obtain ⟨hne, hbreak, hblank, hcomment⟩ := tail.before_next head takes
      obtain ⟨u, b, hu, hb, hsame⟩ := head.skipBlanks.exists_before hskip takes ha.one_le hne hrest
        hc'.one_le hbreak hblank hcomment
      obtain ⟨m, hm, hmrest, hread⟩ := exists_behind_gap (hc'.reaches hu.reaches) hb
      obtain ⟨us, d', hrun, hd', hsames⟩ := ih (hc.reaches head.reaches) hm hmrest
      cases hrun with
      | nil => simp at hsames
      | cons head' tail' =>
        refine ⟨_, d', .cons hu (.cons (hread _ _ head') tail'), hd', ?_⟩
        simp only [List.map_cons, relabelTokens_cons] at hsames ⊢
        rw [hsame, hsames]

end Lexical

/-- **Blanks can be set anew.** The texts of the tokens of a source, in their order and with exactly
one blank between two of them, or none behind a comment to the end of a line, make up a text with
the same tokens, those inside strings and interpolations included. Only their positions are others.
It does not matter which blanks there were in the source, or whether there were any. -/
theorem tokenize_respaced {source : String} {ts : List Token} (h : tokenize source = .ok ts) :
    ∃ pieces : List (Token × List Char), pieces.map Prod.fst = ts.filter (!·.isEnd) ∧
      (∀ p ∈ pieces, IsSlice source p.1.span.start.offset p.1.span.stop.offset p.2) ∧
      ∃ us, tokenize (String.ofList (respaced pieces)) = .ok us ∧
        relabelTokens erasePosition us = relabelTokens erasePosition ts := by
  obtain ⟨body, d, e, last, rfl, hrun, hlast, hend, hbody⟩ := Lexical.run_of_tokenize h
  obtain ⟨pieces, hpieces, rfl⟩ := hrun.exists_pieces hbody
  have hfilter : (pieces.map Prod.fst ++ [last]).filter (!·.isEnd) = pieces.map Prod.fst := by
    rw [List.filter_append, List.filter_eq_self.mpr fun t ht => by simp [hbody t ht]]
    simp [hend]
  have hc : (Cursor.ofText source.toList).IsIn source := .refl _
  refine ⟨pieces, hfilter.symm, hpieces.isSlice hc, ?_⟩
  have hc' : Cursor.IsIn (String.ofList (respaced pieces)) ⟨respaced pieces, .start⟩ := by
    rw [Cursor.IsIn, String.toList_ofList, hpieces.ofText_respaced]
    exact .refl _
  obtain ⟨us, d', hrun', hd', hsame⟩ := hpieces.exists_run hc hc' rfl
  have hends : ∀ u ∈ us, u.isEnd = false :=
    (forall_isEnd_relabelTokens _).mp (hsame ▸ (forall_isEnd_relabelTokens _).mpr hbody)
  have hskip := Lexical.skipBlanks_of_rest_eq_nil hd'
  have htokens := Lexical.tokensFrom_of_run hrun' hends le_rfl le_rfl le_rfl (hskip.symm ▸ hd')
  refine ⟨us ++ [⟨.endOfInput, .point d'.skipBlanks.pos⟩], ?_, ?_⟩
  · rw [tokenize, String.toList_ofList, hpieces.ofText_respaced]
    exact htokens
  · obtain ⟨kind, span⟩ := last
    obtain rfl : kind = .endOfInput := by cases kind <;> first | rfl | cases hend
    simp only [relabelTokens_eq_map, List.map_append] at hsame ⊢
    rw [hsame]
    simp [Token.relabel, TokenKind.relabel]

/-- The tokens of `f<=${x} # a` and, on the next line, `./b\`. The comment ends in a carriage
return, which is not a part of the line break, and the path ends in a backslash that escapes
nothing. -/
def closeTokens : List Token :=
  [⟨.identifier "f", ⟨⟨1, 1, 0⟩, ⟨1, 2, 1⟩⟩⟩, ⟨.symbol .lessEqual, ⟨⟨1, 2, 1⟩, ⟨1, 4, 3⟩⟩⟩,
    ⟨.interpolation [⟨.identifier "x", ⟨⟨1, 6, 5⟩, ⟨1, 7, 6⟩⟩⟩], ⟨⟨1, 4, 3⟩, ⟨1, 8, 7⟩⟩⟩,
    ⟨.comment " a\r" false, ⟨⟨1, 9, 8⟩, ⟨1, 13, 12⟩⟩⟩,
    ⟨.newline, ⟨⟨1, 13, 12⟩, ⟨2, 1, 14⟩⟩⟩, ⟨.path "./b", ⟨⟨2, 1, 14⟩, ⟨2, 5, 18⟩⟩⟩,
    ⟨.endOfInput, .point ⟨2, 5, 18⟩⟩]

/-- Blanks are set between all of them but in front of the line break, behind the comment. -/
theorem tokenize_respaced_closeTokens :
    tokenize "f<=$\x7bx\x7d # a\r\r\n./b\\" = .ok closeTokens ∧
      ∃ pieces : List (Token × List Char),
        pieces.map Prod.fst = closeTokens.filter (!·.isEnd) ∧
        (∀ p ∈ pieces, IsSlice "f<=$\x7bx\x7d # a\r\r\n./b\\" p.1.span.start.offset
          p.1.span.stop.offset p.2) ∧
        ∃ us, tokenize (String.ofList (respaced pieces)) = .ok us ∧
          relabelTokens erasePosition us = relabelTokens erasePosition closeTokens := by
  have h : tokenize "f<=$\x7bx\x7d # a\r\r\n./b\\" = .ok closeTokens := rfl
  exact ⟨h, tokenize_respaced h⟩

end NixSyntax
