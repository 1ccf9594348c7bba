import NixSyntax.Proofs.Lexing.Building
import NixSyntax.Proofs.Lexing.Settled

/-!
# A text set into another

A text is put into a larger one, with other text in front of it and behind it. Its tokens are those
of the larger text at that place, at other positions, as far as something of it follows them, and
a blank is among what follows. For in front of a blank no reader looks at what is behind.

The proof goes from one place of the text to the same place of the larger one, by induction on what
is left of the text: `Reads.stands` takes a token apart, each part is found in the larger text, and
`reads_iff` puts it together there. A token with which the text is over is found there as well, if
it holds tokens, for then a brace or a delimiter is its end. Of a flat token it has to be known that
the larger text does not prolong it (`Keeps`).

## Why a blank is enough

A reader that has come to the end of its text may want to know what follows: another letter, another
digit, the second character of a mark. If something of the text is left behind it, there is nothing
to want. If the text is over, the first character behind it matters, and that is a blank, with which
no token goes on. Two exceptions are known. A comment up to the end of the line takes blanks, and a
backslash at the end of a path does. `Keeps` is what has to be known of a flat token, and those who
insert a text that may end in one of the two have to provide it.

Blanks that are read but not taken do no harm either: `Sheltered` says that a blank is among what
follows, be it in the text or behind.

## The induction

It is on the characters that are left, not on the tokens, for an interpolation inside a token is
followed in the same way as the token itself. `Inserts` is the statement for all places at which
less than a given number of characters is left, and each part of a token has a lemma under that
hypothesis.

## Main definitions

* `Lexical.Keeps`: a flat token is not prolonged by what is put behind it

## Main results

* `Lexical.Reads.insert_of_keeps`: a token in front of a blank
* `Lexical.Run.insert`: tokens in a row, behind which something of the text is left
-/

namespace NixSyntax

/-- Braces are counted without a look at places. -/
theorem depthBehind_relabel (f : Position → Position) (depth : Nat) (ts : List Token) :
    depthBehind depth (relabelTokens f ts) = depthBehind depth ts := by
  induction ts generalizing depth with
  | nil => rw [relabelTokens_nil]
  | cons t ts ih =>
    rw [relabelTokens_cons, depthBehind_cons, depthBehind_cons, Token.kind_relabel,
      TokenKind.braceDepth_relabel]
    simp only [ih]

/-- The interpolations of a string, at other places. -/
theorem filterMap_interpolation?_relabel (f : Position → Position) (parts : List StringFragment) :
    (relabelFragments f parts).filterMap StringFragment.interpolation? =
      (parts.filterMap StringFragment.interpolation?).map
        fun i => (relabelTokens f i.1, i.2.map f) := by
  induction parts with
  | nil => simp [relabelFragments]
  | cons part parts ih =>
    cases part <;>
      simp [relabelFragments, StringFragment.relabel, StringFragment.interpolation?,
        List.filterMap_cons, ih]

/-- The interpolations of a token at other places are its interpolations at other places. -/
theorem Token.interpolations_relabel (f : Position → Position) (t : Token) :
    (t.relabel f).interpolations =
      t.interpolations.map fun i => (relabelTokens f i.1, i.2.map f) := by
  obtain ⟨kind, span⟩ := t
  cases kind <;>
    simp [Token.relabel, TokenKind.relabel, Token.interpolations, filterMap_interpolation?_relabel]

namespace Cursor

variable {c d : Cursor} {origin : Position} {behind : List Char}

/-- What is left later was left before. -/
theorem Reaches.mem_rest {ch : Char} (h : c.Reaches d) (hmem : ch ∈ d.rest) : ch ∈ c.rest := by
  obtain ⟨text, htext⟩ := h
  rw [htext.rest]
  exact List.mem_append_right _ hmem

theorem Cut.one_le_line (h : Cursor.Cut origin behind c d) : 1 ≤ c.pos.line := by
  rw [h.pos]
  exact Nat.le_add_right_of_le h.line

/-- A blank that follows later follows now. -/
theorem Reaches.sheltered (h : c.Reaches d) (hd : Sheltered d.rest behind) :
    Sheltered c.rest behind := by
  obtain ⟨text, htext⟩ := h
  rw [htext.rest]
  exact hd.append text

theorem Reaches.ne_nil (h : c.Reaches d) (hd : d.rest ≠ []) : c.rest ≠ [] := by
  obtain ⟨text, htext⟩ := h
  rw [htext.rest]
  exact List.append_ne_nil_of_right_ne_nil text hd

/-- If something is left of the text behind the blanks, no more blanks are skipped in the larger
text. -/
theorem Cut.skipBlanks_of_ne_nil (h : Cursor.Cut origin behind c d) (hne : d.skipBlanks.rest ≠ []) :
    Cursor.Cut origin behind c.skipBlanks d.skipBlanks := by
  have hcut := Lexical.settled_blanks h.whole hne
  rw [← h.rest] at hcut
  exact h.past hcut (Lexical.append_blanks _)

end Cursor

namespace Lexical

variable {origin : Position} {behind : List Char} {c c' d' : Cursor} {t : Token} {ts : List Token}
  {n : Nat}

/-- A flat token takes the same characters in front of `behind`. -/
def Keeps (behind : List Char) (c : Cursor) (t : Token) : Prop :=
  t.kind.isFlat = true → ∀ ch cs, c.rest = ch :: cs → (plainToken ch cs).value = .ok t.kind →
    Lexeme.Cut behind (plainToken ch (cs ++ behind)) (plainToken ch cs)

/-- A token behind which something is left is not prolonged. -/
theorem Stands.keeps (h : Stands c t d') (hbreak : ¬ SplitsBreak c.rest behind)
    (hd : d'.rest ≠ []) (hs : Sheltered d'.rest behind) : Keeps behind c t := by
  intro hflat ch cs hcs hkind
  cases h with
  | endOfInput hnil => cases hnil.symm.trans hcs
  | interpolation | string => cases hflat
  | plain hcs' =>
    obtain ⟨rfl, rfl⟩ := List.cons.inj (hcs'.symm.trans hcs)
    exact settled_plainToken hkind (hcs ▸ hbreak) hs (fun hnil => absurd hnil hd)
      fun hnil => absurd hnil hd

/-- A flat token of the text is one of the larger text too, if it takes the same characters there.
There is a blank at it, and no delimiter goes across that. -/
theorem stands_plain {ch : Char} {cs : List Char} {kind : TokenKind}
    (hc : Cursor.Cut origin behind c c') (hcs : c'.rest = ch :: cs)
    (hopen : ¬ ['$', '{'] <+: c'.rest) (hquote : ∀ multiline, ¬ delimiter multiline <+: c'.rest)
    (hkind : (plainToken ch cs).value = .ok kind)
    (hcut : Lexeme.Cut behind (plainToken ch (cs ++ behind)) (plainToken ch cs))
    (hs : Sheltered c'.rest behind) :
    ∃ d, Stands c (Token.relabel origin.translate
        ⟨kind, ⟨c'.pos, (c'.past (plainToken ch cs)).pos⟩⟩) d ∧
      Cursor.Cut origin behind d (c'.past (plainToken ch cs)) := by
  have hrest : c.rest = ch :: (cs ++ behind) := by rw [hc.rest, hcs, List.cons_append]
  have hpast := hc.past hcut ((append_plainToken ch cs).trans hcs.symm)
  have hmark {mark : List Char} (hblank : mark.any isBlank = false) (h : ¬ mark <+: c'.rest) :
      ¬ mark <+: c.rest := by
    rw [hc.rest, hs.prefix_iff hblank]
    exact h
  refine ⟨_, ?_, hpast⟩
  rw [Token.relabel, TokenKind.relabel_of_isFlat _ (isFlat_plainToken hkind), Span.map, ← hc.pos,
    ← hpast.pos]
  exact .plain hrest (hmark (by decide) hopen)
    (fun multiline => hmark (isBlank_delimiter multiline) (hquote multiline))
    (hcut.value.trans hkind)

theorem Reads.insert_flat (h : Reads c' t d') (ht : t.kind.isFlat = true)
    (hc : Cursor.Cut origin behind c c') (hkeeps : Keeps behind c'.skipBlanks t)
    (hs : Sheltered c'.skipBlanks.rest behind) :
    ∃ d, Reads c (t.relabel origin.translate) d ∧ Cursor.Cut origin behind d d' := by
  have hstands := h.stands
  cases hstands with
  | endOfInput | interpolation | string => cases ht
  | plain hcs hopen hquote hkind =>
    have hskip := hc.skipBlanks_of_ne_nil (hcs ▸ List.cons_ne_nil _ _)
    obtain ⟨d, hstands', hd⟩ :=
      stands_plain hskip hcs hopen hquote hkind (hkeeps ht _ _ hcs hkind) hs
    refine ⟨d, (reads_iff hc.one_le_line).mpr ⟨hstands', ?_⟩, hd⟩
    rw [Token.interpolations_relabel, TokenKind.interpolations_of_isFlat ht]
    simp

/-- A closing brace is one whatever follows it. -/
theorem Reads.insert_closeBrace (h : Reads c' t d') (ht : t.kind = .symbol .closeBrace)
    (hc : Cursor.Cut origin behind c c') (hs : Sheltered d'.rest behind) :
    ∃ d, Reads c (t.relabel origin.translate) d ∧ Cursor.Cut origin behind d d' := by
  have hpasses := h.stands.passes_closeBrace ht
  refine h.insert_flat (by rw [ht]; rfl) hc (fun _ ch cs hcs _ => ?_) (hpasses.reaches.sheltered hs)
  obtain ⟨rfl, rfl⟩ := List.cons.inj (hcs.symm.trans hpasses.rest)
  exact ⟨rfl, rfl, rfl⟩

variable (origin behind n) in
/-- Tokens that have less than `n` characters from their place on are in the larger text too, if
something is left behind them and a blank follows. -/
def Inserts : Prop :=
  ∀ ⦃c c' : Cursor⦄ ⦃t : Token⦄ ⦃d' : Cursor⦄, c'.rest.length < n → Reads c' t d' →
    Cursor.Cut origin behind c c' → d'.rest ≠ [] → Sheltered d'.rest behind →
    ∃ d, Reads c (t.relabel origin.translate) d ∧ Cursor.Cut origin behind d d'

section

variable (hinner : Inserts origin behind n)
include hinner

/-- Tokens in a row, behind which something of the text is left. -/
theorem Inserts.run (h : Run c' ts d') (hn : c'.rest.length < n)
    (hc : Cursor.Cut origin behind c c') (hd : d'.rest ≠ []) (hs : Sheltered d'.rest behind) :
    ∃ d, Run c (relabelTokens origin.translate ts) d ∧ Cursor.Cut origin behind d d' := by
  induction h generalizing c with
  | nil c' => exact ⟨c, by simpa using .nil c, hc⟩
  | cons head tail ih =>
    obtain ⟨e, hhead, he⟩ :=
      hinner hn head hc (tail.reaches.ne_nil hd) (tail.reaches.sheltered hs)
    obtain ⟨d, htail, hcut⟩ := ih (head.reaches.length_rest_le.trans_lt hn) he hd hs
    exact ⟨d, by simpa using .cons hhead htail, hcut⟩

/-- An interpolation. Its closing brace is left behind its tokens, so nothing more has to be known
of these. -/
theorem Inserts.encloses (h : Encloses c' ts d') (hn : c'.rest.length ≤ n)
    (hc : Cursor.Cut origin behind c c') (hs : Sheltered d'.rest behind) :
    ∃ d, Encloses c (relabelTokens origin.translate ts) d ∧ Cursor.Cut origin behind d d' := by
  obtain ⟨mid, close, hrun, hclose, hkind⟩ := h.closes
  have hmark := (passes_opening h.opens).length_rest
  simp only [List.length_cons, List.length_nil] at hmark
  have hinside : (c'.skip 2).rest.length < n := by omega
  have hskip := hc.skip (n := 2) (by omega)
  have hmid : mid.rest ≠ [] := by
    refine (passes_skipBlanks mid).reaches.ne_nil ?_
    rw [(hclose.stands.passes_closeBrace hkind).rest]
    exact List.cons_ne_nil _ _
  obtain ⟨m, hrun', hm⟩ := hinner.run hrun hinside hskip hmid (hclose.reaches.sheltered hs)
  obtain ⟨d, hclose', hd⟩ := hclose.insert_closeBrace hkind hm hs
  have hkind' : (close.relabel origin.translate).kind = .symbol .closeBrace := by
    rw [Token.kind_relabel, hkind]
    rfl
  exact ⟨d, ⟨hc.prefix_text h.opens, ⟨m, _, hrun', hclose', hkind'⟩,
    (forall_isEnd_relabelTokens _).mpr h.unended⟩, hd⟩

/-- The parts of a string, with the delimiter behind them. -/
theorem Inserts.fragments {multiline : Bool} {parts : List StringFragment}
    (h : Fragments multiline c' parts d') (hn : c'.rest.length ≤ n)
    (hc : Cursor.Cut origin behind c c') (hs : Sheltered d'.rest behind) :
    ∃ d, Fragments multiline c (relabelFragments origin.translate parts) d ∧
      Cursor.Cut origin behind d d' := by
  induction h generalizing c with
  | @last c' closes =>
    have hne : (c'.past (stringText multiline c'.rest)).rest ≠ [] :=
      closes.ne_nil (by cases multiline <;> decide)
    -- the text in front of a mark is settled: what comes after the mark does not change it
    have hcut : Lexeme.Cut behind _ _ :=
      settled_stringText ((passes_delimiter closes).reaches.sheltered hs) hne
    rw [← hc.rest] at hcut
    have hpast := hc.past hcut (append_stringText _ _)
    refine ⟨_, ?_, hpast.skip closes.length_le⟩
    rw [relabelFragments, relabelFragments, StringFragment.relabel, ← hcut.value]
    exact .last (hpast.prefix_text closes)
  | @interpolation c' e' d' ts parts head tail ih =>
    have htail := tail.reaches.sheltered hs
    have hne : (c'.past (stringText multiline c'.rest)).rest ≠ [] :=
      head.opens.ne_nil (by decide)
    have hcut : Lexeme.Cut behind _ _ := settled_stringText (head.reaches.sheltered htail) hne
    rw [← hc.rest] at hcut
    have hpast := hc.past hcut (append_stringText _ _)
    have hlength := (passes_stringText multiline c').reaches.length_rest_le.trans hn
    obtain ⟨e, hhead, he⟩ := hinner.encloses head hlength hpast htail
    obtain ⟨d, hparts, hd⟩ := ih (head.reaches.length_rest_le.trans hlength) he hs
    refine ⟨d, ?_, hd⟩
    have hspan : (Span.mk (c'.past (stringText multiline c'.rest)).pos e'.pos).map
        origin.translate = ⟨(c.past (stringText multiline c.rest)).pos, e.pos⟩ := by
      rw [hpast.pos, he.pos]
      rfl
    rw [relabelFragments, relabelFragments, StringFragment.relabel, StringFragment.relabel,
      hspan, ← hcut.value]
    exact .interpolation hhead hparts

/-- A token without the blanks in front of it, by its form. -/
theorem Inserts.stands (h : Stands c' t d') (hn : c'.rest.length ≤ n)
    (hc : Cursor.Cut origin behind c c') (hend : t.isEnd = false) (hkeeps : Keeps behind c' t)
    (hs : Sheltered d'.rest behind) :
    ∃ d, Stands c (t.relabel origin.translate) d ∧ Cursor.Cut origin behind d d' := by
  cases h with
  | endOfInput => cases hend
  | interpolation henc =>
    obtain ⟨d, henc', hd⟩ := hinner.encloses henc hn hc hs
    refine ⟨d, ?_, hd⟩
    rw [Token.relabel, TokenKind.relabel, Span.map, ← hc.pos, ← hd.pos]
    exact .interpolation henc'
  | @string _ multiline parts opens hparts =>
    have hlength := (passes_delimiter opens).reaches.length_rest_le.trans hn
    obtain ⟨d, hparts', hd⟩ := hinner.fragments hparts hlength (hc.skip opens.length_le) hs
    refine ⟨d, ?_, hd⟩
    rw [Token.relabel, TokenKind.relabel, Span.map, ← hc.pos, ← hd.pos]
    exact .string (hc.prefix_text opens) hparts'
  | plain hcs hopen hquote hkind =>
    exact stands_plain hc hcs hopen hquote hkind
      (hkeeps (isFlat_plainToken hkind) _ _ hcs hkind)
      ((passes_plainToken hcs).reaches.sheltered hs)

theorem Inserts.reads (h : Reads c' t d') (hn : c'.rest.length ≤ n)
    (hc : Cursor.Cut origin behind c c') (hend : t.isEnd = false)
    (hkeeps : Keeps behind c'.skipBlanks t) (hs : Sheltered d'.rest behind) :
    ∃ d, Reads c (t.relabel origin.translate) d ∧ Cursor.Cut origin behind d d' := by
  obtain ⟨hstands, hdepth⟩ := (reads_iff hc.line).mp h
  have hblanks := (passes_skipBlanks c').reaches.length_rest_le
  have hne : c'.skipBlanks.rest ≠ [] :=
    List.ne_nil_of_length_pos (Nat.zero_lt_of_lt (hstands.length_lt hend))
  have hskip := hc.skipBlanks_of_ne_nil hne
  obtain ⟨d, hstands', hd⟩ := hinner.stands hstands (hblanks.trans hn) hskip hend hkeeps hs
  refine ⟨d, (reads_iff hc.one_le_line).mpr ⟨hstands', fun i hi => ?_⟩, hd⟩
  rw [Token.interpolations_relabel] at hi
  obtain ⟨j, hj, rfl⟩ := List.mem_map.mp hi
  rw [depthBehind_relabel]
  exact hdepth j hj

end

variable (origin behind) in
/-- Less text is left with every interpolation that is entered. -/
theorem inserts (n : Nat) : Inserts origin behind n := by
  induction n with
  | zero => exact fun _ _ _ _ hlt => absurd hlt (Nat.not_lt_zero _)
  | succ n ih =>
    intro c c' t d' hlt h hc hd hs
    have hend : t.isEnd = false :=
      Bool.eq_false_iff.mpr fun hend => hd (h.stands.rest_eq_nil hend).2
    have hblanks := passes_skipBlanks c'
    have hbreak : ¬ SplitsBreak c'.skipBlanks.rest behind :=
      not_splitsBreak_of_append (hblanks.rest ▸ hc.whole)
    exact ih.reads h (Nat.le_of_lt_succ hlt) hc hend (h.stands.keeps hbreak hd hs) hs

/-- **A token is where its text is set into another**, if a blank follows and what is put behind it
does not prolong it. -/
theorem Reads.insert_of_keeps (h : Reads c' t d') (hc : Cursor.Cut origin behind c c')
    (hend : t.isEnd = false) (hkeeps : Keeps behind c'.skipBlanks t)
    (hs : Sheltered d'.rest behind) :
    ∃ d, Reads c (t.relabel origin.translate) d ∧ Cursor.Cut origin behind d d' :=
  (inserts origin behind _).reads h le_rfl hc hend hkeeps hs

/-- **So are tokens in a row**, if something is left behind them and a blank follows. -/
theorem Run.insert (h : Run c' ts d') (hc : Cursor.Cut origin behind c c') (hd : d'.rest ≠ [])
    (hs : Sheltered d'.rest behind) :
    ∃ d, Run c (relabelTokens origin.translate ts) d ∧ Cursor.Cut origin behind d d' :=
  (inserts origin behind _).run h (Nat.lt_succ_self _) hc hd hs

/-! ### Behind the last line feed

A line break is over with its line feed, so it is the only token for which no blank has to
follow. -/

theorem Stands.passes_of_isNewline {d : Cursor} (h : Stands c t d) (ht : t.isNewline = true) :
    ∃ text, c.Passes (text ++ ['\n']) d := by
  cases h with
  | @plain ch cs kind hcs hopen hquote hkind =>
    obtain rfl : kind = .newline := by cases kind <;> first | rfl | cases ht
    obtain ⟨text, htext⟩ := exists_text_of_newline hkind
    exact ⟨text, htext ▸ passes_plainToken hcs⟩
  | _ => cases ht

theorem Stands.mem_of_isNewline {d : Cursor} (h : Stands c t d) (ht : t.isNewline = true) :
    '\n' ∈ c.rest := by
  obtain ⟨text, htext⟩ := h.passes_of_isNewline ht
  rw [htext.rest]
  simp

/-- A line break is in the larger text too, whatever follows it. -/
theorem Reads.insert_newline (h : Reads c' t d') (ht : t.isNewline = true)
    (hc : Cursor.Cut origin behind c c') :
    ∃ d, Reads c (t.relabel origin.translate) d ∧ Cursor.Cut origin behind d d' := by
  have hkind : t.kind = .newline := by
    obtain ⟨kind, span⟩ := t
    cases kind <;> first | rfl | cases ht
  refine h.insert_flat (by rw [hkind]; rfl) hc (fun _ ch cs _ hvalue => ?_)
    (.of_mem (h.stands.mem_of_isNewline ht) (by decide))
  exact plainToken_append_of_newline (hvalue.trans (congrArg _ hkind))

end Lexical

end NixSyntax
