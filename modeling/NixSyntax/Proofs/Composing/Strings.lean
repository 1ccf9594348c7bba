import NixSyntax.Proofs.Lexing.Escapes
import NixSyntax.Proofs.Lexing.Insertion

/-!
# Strings put together

A string is written from its parts: texts, and between them sources that are set between the braces
of interpolations. What is read is a string of these parts again. The texts come back because all
that could end them or change them has a backslash. The sources come back because they end with a
line break and their braces match: no comment and no string in them goes on behind that line break,
so the brace that closes them is the one behind it.

Both forms of a string are read by one loop, and nothing here is said of one of them only.

## What stands between the braces

The tokens of an interpolation are read one by one until a closing brace comes for which none was
opened. For a source between braces this has to be the brace behind it, and there are two ways in
which another one could come first, or this one could not come at all. A brace of the source could
be without its partner: it is asked that the source keeps the depth. Or a comment, a string or a
path at its end could go on and take the brace: a line break at the end prevents this, since it is a
token of its own, and behind it the text begins anew.

The reader is at another place in the text than at the front of the source alone. Places are moved
accordingly, and that lines may have been passed is the reason why columns are not simply added
(`Position.translate`).

## Main definitions

* `inBraces`: a source between the braces of an interpolation
* `StringInsert`: a source that can be set into a string, and the text behind it
* `stringBody`, `partsFrom`: what is written between the delimiters, and what is read
* `stringSource`: a source with nothing in it but a string

## Main results

* `Lexical.encloses_of_tokenize`: the tokens of a source between braces
* `Lexical.fragments_inserts`: the parts that are read are the parts that were written
* `tokenize_stringSource`: the tokens of a source with nothing in it but a string
-/

namespace NixSyntax

/-- A source between the braces of an interpolation. -/
def inBraces (source : String) : String := "$\x7b" ++ source ++ "\x7d"

/-- The stretch of a text that stands at `p`. -/
def Span.over (p : Position) (text : String) : Span := ⟨p, p.advance text.toList⟩

theorem toList_inBraces (source : String) :
    (inBraces source).toList = '$' :: '{' :: (source.toList ++ ['}']) := by
  simp [inBraces]

/-- A source that can be set into a string, and the text that comes next there. -/
structure StringInsert where
  /-- The source between the braces. -/
  source : String
  /-- Its tokens, without the last two. -/
  tokens : List Token
  /-- Its last token but one. -/
  newline : Token
  /-- Its last token. -/
  stop : Token
  /-- The text behind the braces. -/
  text : String
  /-- These are the tokens of the source. -/
  tokenize_eq : tokenize source = .ok (tokens ++ [newline, stop])
  /-- The source ends with a line break. -/
  isNewline : newline.isNewline = true
  /-- The source does not begin with the mark that is taken only at the front of all. -/
  head?_ne : source.toList.head? ≠ some Cursor.byteOrderMark
  /-- The braces of the source match. -/
  bracesMatch : BracesMatch (tokens ++ [newline])

/-- What is written between the delimiters of a string that begins with `text`. -/
def stringBody (text : String) : List StringInsert → List Char
  | [] => withBackslashes marksString text.toList
  | i :: inserts => withBackslashes marksString text.toList ++
      ((inBraces i.source).toList ++ stringBody i.text inserts)

/-- A source with nothing in it but a string, which has `body` between its delimiters. -/
def stringSource (multiline : Bool) (body : List Char) : String :=
  String.ofList (Lexical.delimiter multiline ++ (body ++ Lexical.delimiter multiline))

/-- The parts of a string that is written with its first text at `p`. The tokens of an
interpolation are those of its source, moved to where they stand behind the opening brace. -/
def partsFrom (p : Position) (text : String) : List StringInsert → List StringFragment
  | [] => [.text text]
  | i :: inserts =>
    let opening := p.advance (withBackslashes marksString text.toList)
    .text text ::
      .interpolation (relabelTokens (opening.advance ['$', '{']).translate
        (i.tokens ++ [i.newline])) (.over opening (inBraces i.source)) ::
      partsFrom (opening.advance (inBraces i.source).toList) i.text inserts

namespace Lexical

variable {a c d : Cursor} {source : String} {tail : List Char} {newline stop t : Token}
  {ts : List Token} {multiline : Bool} {text : String} {inserts : List StringInsert}
  {parts : List StringFragment} {p : Position}

/-! ### The tokens between the braces

The run of tokens of the source, moved to behind the opening, and then the closing brace. -/

/-- The tokens of a text of which the last two are known. -/
theorem run_of_tokenize_append_pair (h : tokenize source = .ok (ts ++ [newline, stop])) :
    ∃ d e, Run (Cursor.ofText source.toList) (ts ++ [newline]) d ∧ Reads d stop e ∧
      stop.isEnd = true ∧ ∀ t ∈ ts ++ [newline], t.isEnd = false := by
  obtain ⟨body, d, e, last, hts, hrun, hlast, hend, hbody⟩ := run_of_tokenize h
  obtain ⟨rfl, hstop⟩ : ts ++ [newline] = body ∧ [stop] = [last] :=
    List.append_inj' (by simpa using hts) rfl
  obtain rfl : stop = last := by simpa using hstop
  exact ⟨d, e, hrun, hlast, hend, hbody⟩

/-- The closing brace is read behind blanks. -/
theorem reads_closeBrace (hline : 1 ≤ c.pos.line) (h : c.skipBlanks.rest = '}' :: tail) :
    ∃ t d, Reads c t d ∧ t.kind = .symbol .closeBrace ∧ d.rest = tail := by
  have hopen : ¬ ['$', '{'] <+: c.skipBlanks.rest := by simp [h]
  have hquote : ∀ multiline, ¬ delimiter multiline <+: c.skipBlanks.rest := by
    intro multiline
    cases multiline <;> simp [h, delimiter]
  have hstands : Stands c.skipBlanks _ _ := .plain h hopen hquote rfl
  exact ⟨_, _, (reads_iff hline).mpr ⟨hstands, by simp [Token.interpolations]⟩, rfl, rfl⟩

theorem one_le_advance_opening {p : Position} (hline : 1 ≤ p.line) :
    1 ≤ (p.advance ['$', '{']).line ∧ 1 ≤ (p.advance ['$', '{']).column := by
  simp [Position.next, hline]

/-- The place that is reached behind a text. -/
theorem eq_of_reaches {text : List Char} (h : a.Reaches d) (ha : a.rest = text ++ tail)
    (hd : d.rest = tail) : d = ⟨tail, a.pos.advance text⟩ := by
  obtain ⟨text', htext⟩ := h
  obtain rfl : text' = text := by
    have hrest := htext.rest.symm.trans ha
    rw [hd] at hrest
    exact List.append_cancel_right hrest
  obtain ⟨rest, pos⟩ := d
  obtain rfl : rest = tail := hd
  obtain rfl : pos = a.pos.advance text' := htext.pos
  rfl

/-- **A source between braces has its tokens there**, if a line break comes last in it. -/
theorem encloses_of_tokenize (hmark : source.toList.head? ≠ some Cursor.byteOrderMark)
    (h : tokenize source = .ok (ts ++ [newline, stop])) (hnewline : newline.isNewline = true)
    (ha : a.rest = (inBraces source).toList ++ tail) (hline : 1 ≤ a.pos.line) :
    Encloses a (relabelTokens (a.pos.advance ['$', '{']).translate (ts ++ [newline]))
      ⟨tail, a.pos.advance (inBraces source).toList⟩ := by
  obtain ⟨d', e', hrun, hlast, hend, hbody⟩ := run_of_tokenize_append_pair h
  rw [Cursor.ofText_of_head?_ne hmark] at hrun
  have ha' : a.rest = '$' :: '{' :: (source.toList ++ '}' :: tail) := by
    rw [ha, toList_inBraces]
    simp
  have hopens : ['$', '{'] <+: a.rest := ⟨_, ha'.symm⟩
  have hskip : (a.skip 2).pos = a.pos.advance ['$', '{'] := (passes_opening hopens).pos
  obtain ⟨hline', hcolumn'⟩ := one_le_advance_opening hline
  have hcut : Cursor.Cut (a.pos.advance ['$', '{']) ('}' :: tail) (a.skip 2)
      ⟨source.toList, .start⟩ :=
    ⟨by simp [Cursor.skip, ha'], hskip.trans (Position.translate_start hline' hcolumn').symm,
      le_rfl, by simp [SplitsBreak]⟩
  -- the tokens in front of the line break, the line break, and the brace behind it
  obtain ⟨m', hfront, hback⟩ := hrun.split
  cases hback with
  | cons hbreak hnil =>
    cases hnil
    have hmem := (passes_skipBlanks m').reaches.mem_rest (hbreak.stands.mem_of_isNewline hnewline)
    obtain ⟨m, hfront', hm⟩ :=
      hfront.insert hcut (List.ne_nil_of_mem hmem) (.of_mem hmem (by decide))
    obtain ⟨e, hbreak', he⟩ := hbreak.insert_newline hnewline hm
    have hblanks := blanks_append he.whole (by decide)
    have hnext : e.skipBlanks.rest = d'.skipBlanks.rest ++ '}' :: tail :=
      (congrArg (fun cs => (blanks cs).rest) he.rest).trans hblanks.rest
    rw [(hlast.stands.rest_eq_nil hend).1, List.nil_append] at hnext
    obtain ⟨brace, d, hbrace, hkind, hd⟩ := reads_closeBrace he.one_le_line hnext
    have henc : Encloses a
        (relabelTokens (a.pos.advance ['$', '{']).translate (ts ++ [newline])) d := by
      refine ⟨hopens, ⟨e, brace, ?_, hbrace, hkind⟩, (forall_isEnd_relabelTokens _).mpr hbody⟩
      rw [relabelTokens_eq_map, List.map_append, ← relabelTokens_eq_map]
      exact hfront'.append (.cons hbreak' (.nil e))
    rwa [eq_of_reaches henc.reaches ha hd] at henc

/-! ### The parts of a string

From the last part to the first. Each text is read up to the mark behind it, because what could be
such a mark has a backslash in front of it. -/

theorem one_le_line_advance (hline : 1 ≤ p.line) (cs : List Char) : 1 ≤ (p.advance cs).line := by
  rw [Position.line_advance]
  exact Nat.le_add_right_of_le hline

/-- A text is read back up to where it has to stop. -/
theorem past_stringBody (text : String) (p : Position) {stop : List Char}
    (hstop : stopsAt multiline stop = true) :
    (stringText multiline (withBackslashes marksString text.toList ++ stop)).value = text.toList ∧
      Cursor.past ⟨withBackslashes marksString text.toList ++ stop, p⟩
        (stringText multiline (withBackslashes marksString text.toList ++ stop)) =
          ⟨stop, p.advance (withBackslashes marksString text.toList)⟩ := by
  rw [stringText_withBackslashes hstop]
  exact ⟨rfl, rfl⟩

/-- A last text that is written is a last part that is read. -/
theorem fragments_last (multiline : Bool) (p : Position) (text : String) :
    Fragments multiline ⟨withBackslashes marksString text.toList ++ delimiter multiline, p⟩
      [.text text]
      ⟨[], p.advance (withBackslashes marksString text.toList ++ delimiter multiline)⟩ := by
  have hstop : stopsAt multiline (delimiter multiline) = true := by cases multiline <;> rfl
  obtain ⟨hvalue, hpast⟩ := past_stringBody text p hstop
  have hlast : Fragments multiline
      ⟨withBackslashes marksString text.toList ++ delimiter multiline, p⟩ _ _ :=
    .last (by simp [hpast])
  rw [hvalue, hpast, String.ofList_toList] at hlast
  simpa [Cursor.skip, Position.advance_append] using hlast

/-- A text that is written in front of an interpolation is a part that is read in front of it. -/
theorem Fragments.written {rest : List Char} (htail : Fragments multiline d parts c)
    (hhead : Encloses ⟨rest, p.advance (withBackslashes marksString text.toList)⟩ ts d) :
    Fragments multiline ⟨withBackslashes marksString text.toList ++ rest, p⟩
      (.text text ::
        .interpolation ts ⟨p.advance (withBackslashes marksString text.toList), d.pos⟩ :: parts)
      c := by
  have hstop : stopsAt multiline rest = true := by
    rw [stopsAt, Bool.or_eq_true]
    exact .inr (List.isPrefixOf_iff_prefix.mpr hhead.opens)
  obtain ⟨hvalue, hpast⟩ := past_stringBody text p hstop
  rw [← hpast] at hhead
  have hall := Fragments.interpolation hhead htail
  rwa [hvalue, hpast, String.ofList_toList] at hall

/-- **The parts that are read are the parts that were written.** -/
theorem fragments_inserts (multiline : Bool) (hline : 1 ≤ p.line) (text : String)
    (inserts : List StringInsert) :
    Fragments multiline ⟨stringBody text inserts ++ delimiter multiline, p⟩
      (partsFrom p text inserts)
      ⟨[], p.advance (stringBody text inserts ++ delimiter multiline)⟩ := by
  induction inserts generalizing p text with
  | nil => exact fragments_last multiline p text
  | cons i inserts ih =>
    have hopening := one_le_line_advance hline (withBackslashes marksString text.toList)
    have hbehind := one_le_line_advance hopening (inBraces i.source).toList
    have hhead : Encloses ⟨(inBraces i.source).toList ++
        (stringBody i.text inserts ++ delimiter multiline),
        p.advance (withBackslashes marksString text.toList)⟩ _ _ :=
      encloses_of_tokenize i.head?_ne i.tokenize_eq i.isNewline rfl hopening
    have hall := (ih hbehind i.text).written hhead
    simpa [stringBody, partsFrom, Span.over, Position.advance_append] using hall

/-- The sources in a string keep the depth. -/
theorem depthBehind_of_mem_partsFrom (p : Position) (text : String)
    (inserts : List StringInsert) :
    ∀ i ∈ (partsFrom p text inserts).filterMap StringFragment.interpolation?,
      depthBehind 0 i.1 = some 0 := by
  induction inserts generalizing p text with
  | nil => simp [partsFrom, StringFragment.interpolation?]
  | cons i inserts ih =>
    simp only [partsFrom, List.filterMap_cons, StringFragment.interpolation?, List.forall_mem_cons]
    refine ⟨?_, ih _ _⟩
    rw [depthBehind_relabel]
    exact depthBehind_of_bracesMatch i.bracesMatch

/-- A source with nothing in it but a string, of which the parts are known. -/
theorem tokenize_of_fragments {body : List Char}
    (h : Fragments multiline
      ⟨body ++ delimiter multiline, Position.start.advance (delimiter multiline)⟩ parts
      ⟨[], (Position.start.advance (delimiter multiline)).advance (body ++ delimiter multiline)⟩)
    (hdepth : ∀ i ∈ parts.filterMap StringFragment.interpolation?, depthBehind 0 i.1 = some 0) :
    tokenize (stringSource multiline body) =
      .ok [⟨.string parts multiline, .over .start (stringSource multiline body)⟩,
        ⟨.endOfInput, .point (Span.over .start (stringSource multiline body)).stop⟩] := by
  have hsource : (stringSource multiline body).toList =
      delimiter multiline ++ (body ++ delimiter multiline) := by simp [stringSource]
  have hopens : delimiter multiline <+: (stringSource multiline body).toList := ⟨_, hsource.symm⟩
  have hskip : (⟨(stringSource multiline body).toList, .start⟩ : Cursor).skip
      (delimiter multiline).length =
        ⟨body ++ delimiter multiline, Position.start.advance (delimiter multiline)⟩ := by
    simp [Cursor.skip, hsource]
  rw [← hskip, ← Position.advance_append, ← hsource] at h
  obtain ⟨ch, cs, hcs, hch⟩ : ∃ ch cs, (stringSource multiline body).toList = ch :: cs ∧
      isBlank ch = false ∧ ch ≠ Cursor.byteOrderMark := by
    rw [hsource]
    cases multiline <;> exact ⟨_, _, rfl, by decide⟩
  exact tokenize_of_stands hcs hch (.string hopens h) hdepth rfl rfl

end Lexical

/-- **A string is read as it is written.** It may have any texts in it, and between them any sources
that can be set into a string. It is the only token of its source. Its parts are these texts, and
between them the tokens of these sources, which have only moved. -/
theorem tokenize_stringSource (multiline : Bool) (text : String) (inserts : List StringInsert) :
    tokenize (stringSource multiline (stringBody text inserts)) =
      .ok [⟨.string (partsFrom (Position.start.advance (Lexical.delimiter multiline)) text inserts)
          multiline, .over .start (stringSource multiline (stringBody text inserts))⟩,
        ⟨.endOfInput,
          .point (Span.over .start (stringSource multiline (stringBody text inserts))).stop⟩] := by
  have hline : 1 ≤ (Position.start.advance (Lexical.delimiter multiline)).line :=
    Lexical.one_le_line_advance le_rfl _
  exact Lexical.tokenize_of_fragments (Lexical.fragments_inserts multiline hline text inserts)
    (Lexical.depthBehind_of_mem_partsFrom _ text inserts)

/-- A set with a brace in a comment, and a quote behind it. -/
def setInsert : StringInsert where
  source := "\x7b /*\x7d*/ \x7d\n"
  tokens := [⟨.symbol .openBrace, ⟨⟨1, 1, 0⟩, ⟨1, 2, 1⟩⟩⟩,
    ⟨.comment "\x7d" true, ⟨⟨1, 3, 2⟩, ⟨1, 8, 7⟩⟩⟩, ⟨.symbol .closeBrace, ⟨⟨1, 9, 8⟩, ⟨1, 10, 9⟩⟩⟩]
  newline := ⟨.newline, ⟨⟨1, 10, 9⟩, ⟨2, 1, 10⟩⟩⟩
  stop := ⟨.endOfInput, .point ⟨2, 1, 10⟩⟩
  text := "'"
  tokenize_eq := rfl
  isNewline := rfl
  head?_ne := by decide
  bracesMatch := bracesMatch_of_depthBehind rfl

/-- A dollar sign in front of the braces is text, and so is a quote in front of the delimiter. -/
theorem tokenize_stringSource_set :
    stringSource true (stringBody "$" [setInsert]) =
      "''\\$$\x7b\x7b /*\x7d*/ \x7d\n\x7d\\'''" ∧
    tokenize "''\\$$\x7b\x7b /*\x7d*/ \x7d\n\x7d\\'''" = .ok
      [⟨.string [.text "$",
          .interpolation [⟨.symbol .openBrace, ⟨⟨1, 7, 6⟩, ⟨1, 8, 7⟩⟩⟩,
            ⟨.comment "\x7d" true, ⟨⟨1, 9, 8⟩, ⟨1, 14, 13⟩⟩⟩,
            ⟨.symbol .closeBrace, ⟨⟨1, 15, 14⟩, ⟨1, 16, 15⟩⟩⟩,
            ⟨.newline, ⟨⟨1, 16, 15⟩, ⟨2, 1, 16⟩⟩⟩] ⟨⟨1, 5, 4⟩, ⟨2, 2, 17⟩⟩,
          .text "'"] true, ⟨.start, ⟨2, 6, 21⟩⟩⟩,
        ⟨.endOfInput, .point ⟨2, 6, 21⟩⟩] := by
  have hsource : stringSource true (stringBody "$" [setInsert]) =
      "''\\$$\x7b\x7b /*\x7d*/ \x7d\n\x7d\\'''" := by decide
  have h := tokenize_stringSource true "$" [setInsert]
  rw [hsource] at h
  exact ⟨hsource, h⟩

end NixSyntax
