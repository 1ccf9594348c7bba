import NixSyntax.Proofs.Lexing.Insertion
import NixSyntax.Proofs.Lexing.Lockstep
import NixSyntax.Proofs.Lexing.Tiling

/-!
# Texts one behind the other

Two texts are put one behind the other. If the first one ends with a line break, the tokens of the
whole are those of the first and then those of the second, which only stand further down. So are
its faults. Nothing else of the first text has any influence on how the second is read, and nothing
at all of the second on how the first is read.

The tokens of the first text are found in the whole by `Run.insert`, which wants a blank behind
them, and the line break itself by `Reads.insert_newline`. From there on the whole and the second
text are the same up to positions, and read in lockstep.

The byte order mark is no part of a text unless it stands in front. Hence the first text may be just
that, and the second must not begin with it.

## The end of the first text

What comes behind a text can change how the text is read in two ways. Its last token may go on: a
name with more letters, a comment up to the next line feed. And a token may have been a fault only
because the text was over. A line break at the end rules out the first, since no token goes across
one but those that have a closing delimiter of their own, and the second is ruled out because only
texts that have tokens are put in front. `EndsLine` names the three texts that another one can
follow: one with a line feed at its end that is a line break, the byte order mark alone, and the
empty text.

A line feed inside a string or a comment at the end would not do, and so the line break is asked for
among the tokens and not among the characters.

## Main definitions

* `Position.below`: the position in the whole of what stands at a position of the second text
* `EndsLine`: a text that another one can be put behind

## Main results

* `Lexical.lockstep_translate`: the same text at another place is read in lockstep
* `tokenize_append`: the tokens of two texts, or their fault
-/

namespace NixSyntax

open String (utf8Len)

/-! ### Further down

Behind a line feed the column is the first one again, so what stands further down has the same
columns in every line. -/

/-- The position of what stands at `q` in a text that begins at `origin`, in front of a line. Lines
count from one, and columns stay what they are. -/
def Position.below (origin q : Position) : Position where
  line := origin.line + q.line - 1
  column := q.column
  offset := origin.offset + q.offset

/-- In front of a line, moving is adding lines and bytes. -/
theorem Position.translate_eq_below {origin : Position} (hline : 1 ≤ origin.line)
    (hcolumn : origin.column = 1) : origin.translate = origin.below := by
  funext q
  simp only [translate, below, hcolumn, mk.injEq, Nat.sub_self, Nat.add_zero, ite_self, true_and]
  omega

/-- Behind a line feed a line begins. -/
theorem Position.column_advance_lineFeed (p : Position) (cs : List Char) :
    (p.advance (cs ++ ['\n'])).column = 1 := by
  rw [advance_append]
  simp [next]

/-- The mark in front of a text is skipped whatever follows. -/
theorem Cursor.ofText_append {cs : List Char} (h : cs ≠ []) (ds : List Char) :
    ofText (cs ++ ds) = ⟨(ofText cs).rest ++ ds, (ofText cs).pos⟩ := by
  obtain ⟨c, cs, rfl⟩ := List.exists_cons_of_ne_nil h
  simp only [List.cons_append, ofText]
  split <;> rfl

/-- Another text can be put behind `source`, the tokens of which are `ts`: its last character
belongs to a line break, or it has none but for the byte order mark. -/
def EndsLine (source : String) (ts : List Token) : Prop :=
  source = "" ∨ source = "\uFEFF" ∨
    ∃ t ∈ ts, t.isNewline = true ∧ t.span.stop.offset = utf8Len source.toList

namespace Lexical

variable {origin : Position} {c c' d : Cursor} {s₁ s₂ : String} {t stop : Token} {ts : List Token}

/-! ### In lockstep -/

/-- The text and a piece of it that takes all that is left. -/
theorem rest_eq_of_cut_nil (hc : Cursor.Cut origin [] c c') : c.rest = c'.rest :=
  hc.rest.trans (List.append_nil _)

variable (origin) in
/-- **The same text at another place is read in lockstep.** -/
theorem lockstep_translate : Lockstep id origin.translate id (Cursor.Cut origin []) where
  pos hc := hc.pos
  ended hc := by rw [rest_eq_of_cut_nil hc]
  blanks hc := by
    rw [Cursor.skipBlanks, Cursor.skipBlanks, rest_eq_of_cut_nil hc]
    exact hc.past (.refl _) (append_blanks _)
  opens hc := by rw [rest_eq_of_cut_nil hc]
  opening hc hopen := hc.skip (rest_eq_of_cut_nil hc ▸ hopen).length_le
  delimits hc multiline := by rw [rest_eq_of_cut_nil hc]
  delimiter hc multiline hquote := hc.skip (rest_eq_of_cut_nil hc ▸ hquote).length_le
  text hc multiline := by
    rw [rest_eq_of_cut_nil hc]
    exact ⟨rfl, hc.past (.refl _) (append_stringText _ _)⟩
  plain hc ch cs ch' cs' hcs hcs' := by
    obtain ⟨rfl, rfl⟩ := List.cons.inj (hcs.symm.trans ((rest_eq_of_cut_nil hc).trans hcs'))
    exact ⟨rfl, hc.past (.refl _) ((append_plainToken ch cs).trans hcs'.symm)⟩

/-! ### The end of the first text -/

/-- A token to which the last character of a text belongs is the last one. -/
theorem exists_run_of_last (h : tokenize s₁ = .ok (ts ++ [stop])) (ht : t ∈ ts)
    (hlast : t.span.stop.offset = utf8Len s₁.toList) :
    ∃ front m d, ts = front ++ [t] ∧ Run (Cursor.ofText s₁.toList) front m ∧ Reads m t d ∧
      d.rest = [] ∧ stop = ⟨.endOfInput, .point d.pos⟩ ∧ ∀ u ∈ ts, u.isEnd = false := by
  obtain ⟨body, d', e, last, hts, hrun, hread, hend, hbody⟩ := run_of_tokenize h
  obtain ⟨rfl, rfl⟩ : ts = body ∧ stop = last := by simpa using List.append_inj' hts rfl
  obtain ⟨front, back, rfl⟩ := List.append_of_mem ht
  obtain ⟨m, hfront, htail⟩ := hrun.split
  cases htail with
  | @cons _ d _ _ _ hhead hback =>
    have hd : d.IsIn s₁ := hfront.reaches.trans hhead.reaches
    have hrest : d.rest = [] := by
      obtain ⟨text, htext, hat⟩ := hd.exists_at
      obtain ⟨_, -, hspan, -⟩ := hhead.stands.passes
      rw [hspan, htext, String.utf8Len_append] at hlast
      have hoffset : d.pos.offset = utf8Len text := hat.offset
      dsimp only at hlast
      exact String.utf8Len_eq_zero.mp (by omega)
    cases hback with
    | nil =>
      have hstop := hread.stands
      rw [skipBlanks_of_rest_eq_nil hrest] at hstop
      exact ⟨front, m, d', rfl, hfront, hhead, hrest, (hstop.eq_endOfInput hd hend).1, hbody⟩
    | @cons _ _ _ u us hu _ =>
      -- no token is read behind the end
      have hshorter := hu.length_lt (hbody u (by simp))
      simp [hrest] at hshorter

/-- The tokens of the first text are read in the whole, up to the second. -/
theorem exists_run_append_of_newline (h : tokenize s₁ = .ok (ts ++ [stop])) (ht : t ∈ ts)
    (hnewline : t.isNewline = true) (hlast : t.span.stop.offset = utf8Len s₁.toList) :
    ∃ d, Run (Cursor.ofText (s₁ ++ s₂).toList) ts d ∧ d.rest = s₂.toList ∧
      d.pos = stop.span.start ∧ d.pos.column = 1 ∧ ∀ u ∈ ts, u.isEnd = false := by
  obtain ⟨front, m, d, rfl, hfront, hread, hrest, rfl, hends⟩ :=
    exists_run_of_last h ht hlast
  obtain ⟨text, htext⟩ := hread.stands.passes_of_isNewline hnewline
  obtain ⟨before, hbefore⟩ := (hfront.reaches.trans (passes_skipBlanks m).reaches)
  have hwhole : withoutMark s₁.toList = (before ++ text) ++ ['\n'] := by
    have hall := (hbefore.trans htext).rest
    rw [Cursor.ofText_eq, hrest] at hall
    simpa using hall
  have hne : s₁.toList ≠ [] := fun hnil => by simp [hnil, withoutMark] at hwhole
  have hcut : Cursor.Cut .start s₂.toList (Cursor.ofText (s₁ ++ s₂).toList)
      (Cursor.ofText s₁.toList) := by
    rw [String.toList_append, Cursor.ofText_append hne]
    refine ⟨rfl, by rw [Position.start_translate]; rfl, ?_, ?_⟩
    · rw [Cursor.ofText_eq]
      exact le_rfl
    · rw [Cursor.ofText_eq, hwhole]
      simp [SplitsBreak]
  -- the tokens in front of the line break are read in the whole, and then the line break itself
  have hmem : '\n' ∈ m.rest :=
    (passes_skipBlanks m).reaches.mem_rest (hread.stands.mem_of_isNewline hnewline)
  obtain ⟨m', hfront', hm⟩ :=
    hfront.insert hcut (List.ne_nil_of_mem hmem) (.of_mem hmem (by decide))
  obtain ⟨d', hread', hd⟩ := hread.insert_newline hnewline hm
  have hpos : d'.pos = d.pos := by rw [hd.pos, Position.start_translate, id]
  rw [Position.start_translate, relabelTokens_id] at hfront'
  rw [Position.start_translate, Token.relabel_id] at hread'
  refine ⟨d', hfront'.append (.cons hread' (.nil d')), by rw [hd.rest, hrest]; rfl, hpos, ?_,
    hends⟩
  rw [hpos, htext.pos]
  exact Position.column_advance_lineFeed _ _

/-- How far the tokens of the first text reach in the whole, and what is left there. -/
theorem exists_run_append (h : tokenize s₁ = .ok (ts ++ [stop])) (hends : EndsLine s₁ ts)
    (hmark : s₂.toList.head? ≠ some Cursor.byteOrderMark) :
    ∃ d, Run (Cursor.ofText (s₁ ++ s₂).toList) ts d ∧ d.rest = s₂.toList ∧
      d.pos = stop.span.start ∧ d.pos.column = 1 ∧ ∀ u ∈ ts, u.isEnd = false := by
  rcases hends with rfl | rfl | ⟨t, ht, hnewline, hlast⟩
  · have hempty : tokenize "" = .ok ([] ++ [⟨.endOfInput, .point .start⟩]) := rfl
    obtain ⟨rfl, hstop⟩ := List.append_inj' (Except.ok.inj (h.symm.trans hempty)) rfl
    obtain rfl := List.cons.inj hstop |>.1
    refine ⟨⟨s₂.toList, .start⟩, ?_, rfl, rfl, rfl, by simp⟩
    rw [String.empty_append, Cursor.ofText_of_head?_ne hmark]
    exact .nil _
  · have hlone : tokenize "\uFEFF" = .ok ([] ++ [⟨.endOfInput, .point ⟨1, 1, 3⟩⟩]) := rfl
    obtain ⟨rfl, hstop⟩ := List.append_inj' (Except.ok.inj (h.symm.trans hlone)) rfl
    obtain rfl := List.cons.inj hstop |>.1
    refine ⟨⟨s₂.toList, ⟨1, 1, 3⟩⟩, ?_, rfl, rfl, rfl, by simp⟩
    rw [String.toList_append, Cursor.ofText_append (by decide)]
    exact .nil _
  · exact exists_run_append_of_newline h ht hnewline hlast

end Lexical

/-- **The tokens of two texts, one behind the other**, are those of the first without its end, and
those of the second further down. The fault of the second is the fault of both. -/
theorem tokenize_append {s₁ s₂ : String} {ts : List Token} {stop : Token}
    (h : tokenize s₁ = .ok (ts ++ [stop])) (hends : EndsLine s₁ ts)
    (hmark : s₂.toList.head? ≠ some Cursor.byteOrderMark) :
    tokenize (s₁ ++ s₂) = match tokenize s₂ with
      | .ok us => .ok (ts ++ relabelTokens stop.span.start.below us)
      | .error f => .error ⟨f.cause, f.span.map stop.span.start.below⟩ := by
  obtain ⟨d, hrun, hrest, hpos, hcolumn, hends⟩ := Lexical.exists_run_append h hends hmark
  have hfront : 1 ≤ (Cursor.ofText (s₁ ++ s₂).toList).pos.line := by
    rw [Cursor.ofText_eq]
    exact le_rfl
  have hline := hrun.reaches.one_le_line hfront
  have hcut : Cursor.Cut d.pos [] d ⟨s₂.toList, .start⟩ :=
    ⟨hrest.trans (List.append_nil _).symm,
      (Position.translate_start hline hcolumn.ge).symm, le_rfl, by simp [SplitsBreak]⟩
  obtain ⟨m, hm, htokens⟩ :=
    Lexical.exists_tokensFrom_of_run hrun hends hfront le_rfl le_rfl
  have hagree := (Lexical.lockstep_translate d.pos).agree_tokensFrom hcut
    hrun.reaches.length_rest_le le_rfl hm le_rfl
  rw [Position.translate_eq_below hline hcolumn, hpos] at hagree
  rw [tokenize, htokens, tokenize, Cursor.ofText_of_head?_ne hmark]
  generalize Lexical.tokensFrom _ m d = x,
    Lexical.tokensFrom _ _ ⟨s₂.toList, .start⟩ = y at hagree ⊢
  cases hagree with
  | ok hts =>
    rw [recastTokens_text_id, recastTokens_text_id, relabelTokens_id] at hts
    rw [hts]
    rfl
  | @error cause span span' hspan =>
    obtain rfl : span = span'.map stop.span.start.below := hspan
    rfl

/-- Behind a line with a name on it, a string stands in the second line, and so does a dollar sign
that begins nothing. -/
theorem tokenize_append_secondLine :
    tokenize ("x\r\n" ++ "\"$\x7by\x7d\"") = .ok
      [⟨.identifier "x", ⟨⟨1, 1, 0⟩, ⟨1, 2, 1⟩⟩⟩, ⟨.newline, ⟨⟨1, 2, 1⟩, ⟨2, 1, 3⟩⟩⟩,
        ⟨.string [.text "", .interpolation [⟨.identifier "y", ⟨⟨2, 4, 6⟩, ⟨2, 5, 7⟩⟩⟩]
          ⟨⟨2, 2, 4⟩, ⟨2, 6, 8⟩⟩, .text ""] false, ⟨⟨2, 1, 3⟩, ⟨2, 7, 9⟩⟩⟩,
        ⟨.endOfInput, .point ⟨2, 7, 9⟩⟩] ∧
    tokenize ("x\r\n" ++ " $") =
      .error ⟨.unexpectedCharacter '$', ⟨⟨2, 2, 4⟩, ⟨2, 3, 5⟩⟩⟩ := by
  have h : tokenize "x\r\n" = .ok
      ([⟨.identifier "x", ⟨⟨1, 1, 0⟩, ⟨1, 2, 1⟩⟩⟩, ⟨.newline, ⟨⟨1, 2, 1⟩, ⟨2, 1, 3⟩⟩⟩] ++
        [⟨.endOfInput, .point ⟨2, 1, 3⟩⟩]) := rfl
  have hends : EndsLine "x\r\n"
      [⟨.identifier "x", ⟨⟨1, 1, 0⟩, ⟨1, 2, 1⟩⟩⟩, ⟨.newline, ⟨⟨1, 2, 1⟩, ⟨2, 1, 3⟩⟩⟩] :=
    .inr (.inr ⟨_, List.mem_cons_of_mem _ List.mem_cons_self, rfl, by decide⟩)
  have hstring : tokenize "\"$\x7by\x7d\"" = .ok
      [⟨.string [.text "", .interpolation [⟨.identifier "y", ⟨⟨1, 4, 3⟩, ⟨1, 5, 4⟩⟩⟩]
          ⟨⟨1, 2, 1⟩, ⟨1, 6, 5⟩⟩, .text ""] false, ⟨⟨1, 1, 0⟩, ⟨1, 7, 6⟩⟩⟩,
        ⟨.endOfInput, .point ⟨1, 7, 6⟩⟩] := rfl
  have hdollar : tokenize " $" =
      .error ⟨.unexpectedCharacter '$', ⟨⟨1, 2, 1⟩, ⟨1, 3, 2⟩⟩⟩ := rfl
  constructor
  · rw [tokenize_append h hends (by decide), hstring]
    simp [relabelTokens, Token.relabel, TokenKind.relabel, relabelFragments,
      StringFragment.relabel, Span.map, Span.point, Position.below]
  · rw [tokenize_append h hends (by decide), hdollar]
    rfl

end NixSyntax
