import NixSyntax.Proofs.Lexing.Lexemes
import NixSyntax.Proofs.Lexing.Places
import Mathlib.Data.List.Chain

/-!
# Tokens tile the text

No part of a text is lost between two tokens. What is there consists of blanks, and of no line
break, for a line break is a token. `Tiles` says so of the tokens between two offsets, and it holds
of all tokens of a text as it does of the tokens between the braces of an interpolation.

A run of tokens ends behind its last token, and the blanks behind that one belong to whatever comes
next: the end of the text, or the brace that closes an interpolation. So the induction on a run
(`Run.tiles`) leaves the last gap to its caller.

## What the gaps may hold

A gap holds blanks only, and not a line feed, nor a carriage return with a line feed behind. A
carriage return alone is a blank like any other. Gaps may be empty: there is none between two tokens
in `a+b`. A token may not be empty unless it is the end of the text, so no token hides in a gap.

Inside a string there are no gaps between the parts. Its interpolations stand in a row, and each of
them is tiled between its braces. What is between two interpolations is text, and that it is the
right text is another matter (`PartsSpelled`).

## Main definitions

* `InOrder`: spans in a row between two offsets
* `gaps`: the offsets between which nothing is covered
* `BlankBetween`: nothing but blanks between two offsets
* `Tiles`: tokens that cover everything but blanks between two offsets
* `TilesBraces`: tokens that do so between the braces of an interpolation

## Main results

* `tiles_of_tokenize`: the tokens of a text tile it, and those of an interpolation what is in it
-/

namespace NixSyntax

open String (utf8Len)

/-- Spans stand in a row between two offsets, and each of them has its ends in order. -/
def InOrder (first : Nat) (spans : List Span) (last : Nat) : Prop :=
  (first :: (spans.flatMap fun s => [s.start.offset, s.stop.offset]) ++ [last]).IsChain (· ≤ ·)

/-- The stretches in front of some spans, between them and behind them, from `first` to `last`. -/
def gaps (first : Nat) (spans : List Span) (last : Nat) : List (Nat × Nat) :=
  match spans with
  | [] => [(first, last)]
  | s :: ss => (first, s.start.offset) :: gaps s.stop.offset ss last

/-- Nothing but blanks stands in `source` between two offsets, and no part of a line break. -/
def BlankBetween (source : String) (first last : Nat) : Prop :=
  ∃ front gap back, source.toList = front ++ (gap ++ back) ∧ utf8Len front = first ∧
    utf8Len (front ++ gap) = last ∧ (∀ c ∈ gap, isBlank c = true ∧ c ≠ '\n') ∧
    ¬ SplitsBreak gap back

/-- Between two offsets of `source`, there are some tokens and else only blanks. -/
structure Tiles (source : String) (first : Nat) (ts : List Token) (last : Nat) : Prop where
  /-- The end of the text is none of the tokens. -/
  unended : ∀ t ∈ ts, t.isEnd = false
  /-- The tokens stand in a row. -/
  inOrder : InOrder first (ts.map Token.span) last
  /-- Every token covers something. -/
  covers : ∀ t ∈ ts, t.span.start.offset < t.span.stop.offset
  /-- There is nothing but blanks between them. -/
  blank : ∀ g ∈ gaps first (ts.map Token.span) last, BlankBetween source g.1 g.2

/-- In the interpolation under `span`, the tokens tile what is between the braces. -/
def TilesBraces (source : String) (ts : List Token) (span : Span) : Prop :=
  ∃ close, IsSlice source span.start.offset (span.start.offset + 2) ['$', '{'] ∧
    Tiles source (span.start.offset + 2) ts close ∧ IsSlice source close span.stop.offset ['}']

section

variable {source : String} {first last : Nat}

theorem inOrder_nil : InOrder first [] last ↔ first ≤ last := by
  simp [InOrder]

/-- A span in a row begins behind the row so far, ends behind its beginning, and the row goes on
behind its end. -/
theorem inOrder_cons {s : Span} {ss : List Span} : InOrder first (s :: ss) last ↔
    first ≤ s.start.offset ∧ s.start.offset ≤ s.stop.offset ∧ InOrder s.stop.offset ss last := by
  simp [InOrder]

theorem BlankBetween.le (h : BlankBetween source first last) : first ≤ last := by
  obtain ⟨front, gap, back, -, rfl, rfl, -⟩ := h
  rw [String.utf8Len_append]
  omega

/-- Without tokens there are blanks. -/
theorem Tiles.nil (h : BlankBetween source first last) : Tiles source first [] last where
  unended := by simp
  inOrder := inOrder_nil.mpr h.le
  covers := by simp
  blank := by simpa [gaps] using h

/-- A token in front is a gap, a stretch of its own, and what is behind. -/
theorem Tiles.cons {t : Token} {ts : List Token} (hend : t.isEnd = false)
    (hblank : BlankBetween source first t.span.start.offset)
    (hcovers : t.span.start.offset < t.span.stop.offset)
    (h : Tiles source t.span.stop.offset ts last) : Tiles source first (t :: ts) last where
  unended := List.forall_mem_cons.mpr ⟨hend, h.unended⟩
  inOrder := inOrder_cons.mpr ⟨hblank.le, hcovers.le, h.inOrder⟩
  covers := List.forall_mem_cons.mpr ⟨hcovers, h.covers⟩
  blank := List.forall_mem_cons.mpr ⟨hblank, h.blank⟩

end

namespace Lexical

variable {source : String} {c d : Cursor} {t : Token} {ts : List Token}

theorem forall_mem_blanks (cs : List Char) :
    ∀ c ∈ (blanks cs).text, isBlank c = true ∧ c ≠ '\n' := by
  fun_induction blanks cs with
  | case1 => simp
  | case2 c cs h l ih =>
    obtain ⟨hblank, hbreak⟩ := Bool.and_eq_true_iff.mp h
    refine List.forall_mem_cons.mpr ⟨⟨hblank, ?_⟩, ih⟩
    rintro rfl
    exact absurd hbreak (by simp [startsLineBreak])
  | case3 => simp

/-- What a reader skips is blank. -/
theorem blankBetween_skipBlanks (hc : c.IsIn source) :
    BlankBetween source c.pos.offset c.skipBlanks.pos.offset := by
  have hblanks := passes_skipBlanks c
  obtain ⟨front, hfront, hat⟩ := hc.exists_at
  refine ⟨front, _, c.skipBlanks.rest, by rw [hfront, ← hblanks.rest], hat.offset.symm, ?_,
    forall_mem_blanks _, hblanks.whole⟩
  rw [hblanks.offset, hat.offset, String.utf8Len_append]

/-- **Tokens in a row tile the text up to the last of them**, and up to `last` if there is nothing
but blanks. -/
theorem Run.tiles {last : Nat} (hc : c.IsIn source) (h : Run c ts d)
    (hend : ∀ t ∈ ts, t.isEnd = false) (hlast : BlankBetween source d.pos.offset last) :
    Tiles source c.pos.offset ts last := by
  induction h with
  | nil => exact .nil hlast
  | @cons c d e t ts head tail ih =>
    obtain ⟨hend, hends⟩ := List.forall_mem_cons.mp hend
    obtain ⟨text, htext, hspan, hne⟩ := head.stands.passes
    rw [if_neg (by simp [hend])] at hne
    have hpos : utf8Len text ≠ 0 := mt String.utf8Len_eq_zero.mp hne
    refine .cons hend ?_ ?_ ?_
    · rw [hspan]
      exact blankBetween_skipBlanks hc
    · rw [hspan, htext.offset]
      dsimp only
      omega
    · rw [hspan]
      exact ih (hc.reaches head.reaches) hends hlast

/-- The tokens of an interpolation tile what is behind its opening and in front of its closing
brace. -/
theorem Encloses.tilesBraces (hc : c.IsIn source) (h : Encloses c ts d) :
    TilesBraces source ts ⟨c.pos, d.pos⟩ := by
  obtain ⟨mid, hrun, hclose⟩ := h.exists_run
  have hopen := passes_opening h.opens
  have hinside := hc.reaches hopen.reaches
  have hmid := hinside.reaches hrun.reaches
  have hoffset : (c.skip 2).pos.offset = c.pos.offset + 2 := hopen.offset
  refine ⟨mid.skipBlanks.pos.offset, ?_, ?_, ?_⟩
  · rw [← hoffset]
    exact hc.isSlice hopen
  · rw [← hoffset]
    exact hrun.tiles hinside h.unended (blankBetween_skipBlanks hmid)
  · exact (hmid.reaches (passes_skipBlanks mid).reaches).isSlice hclose

/-- The interpolations of a string stand in a row. -/
theorem Fragments.inOrder {multiline : Bool} {parts : List StringFragment} {first : Nat}
    (h : Fragments multiline c parts d) (hfirst : first ≤ c.pos.offset) :
    InOrder first ((parts.filterMap StringFragment.interpolation?).map Prod.snd) d.pos.offset := by
  induction h generalizing first with
  | @last c closes =>
    have hle := (passes_stringText multiline c).reaches.offset_le
    have hle' := (passes_delimiter closes).reaches.offset_le
    refine inOrder_nil.mpr ?_
    omega
  | @interpolation c d e ts parts head tail ih =>
    have hle := (passes_stringText multiline c).reaches.offset_le
    exact inOrder_cons.mpr ⟨hfirst.trans hle, head.reaches.offset_le, ih le_rfl⟩

/-- The interpolations of a token stand in a row inside its span. -/
theorem Stands.inOrder (h : Stands c t d) :
    InOrder t.span.start.offset (t.interpolations.map Prod.snd) t.span.stop.offset := by
  obtain ⟨text, htext, hspan, -⟩ := h.passes
  have hle := htext.reaches.offset_le
  rw [hspan]
  cases h with
  | endOfInput => exact inOrder_nil.mpr hle
  | interpolation h => exact inOrder_cons.mpr ⟨le_rfl, hle, inOrder_nil.mpr le_rfl⟩
  | string opens h => exact h.inOrder (passes_delimiter opens).reaches.offset_le
  | plain _ _ _ h =>
    rw [TokenKind.interpolations_of_isFlat (isFlat_plainToken h)]
    exact inOrder_nil.mpr hle

/-- The end of a text is read where nothing is left, and without any width. -/
theorem Stands.eq_endOfInput (hc : c.IsIn source) (h : Stands c t d) (ht : t.isEnd = true) :
    t = ⟨.endOfInput, .point c.pos⟩ ∧ c.pos.offset = source.utf8ByteSize := by
  cases h with
  | endOfInput h =>
    obtain ⟨front, hfront, hat⟩ := hc.exists_at
    rw [h, List.append_nil] at hfront
    refine ⟨rfl, ?_⟩
    rw [hat.offset, ← hfront, ← String.utf8ByteSize_ofList, String.ofList_toList]
  | interpolation | string => cases ht
  | plain _ _ _ h =>
    rw [TokenKind.isEnd_of_isFlat (isFlat_plainToken h)] at ht
    cases ht

end Lexical

/-- **The tokens of a text tile it.** The last of them is the end of the text, without width, and
no other. The tokens of an interpolation at any depth tile what is between its braces, and the
interpolations of a token stand in a row inside of it. -/
theorem tiles_of_tokenize {source : String} {ts : List Token} (h : tokenize source = .ok ts) :
    (∃ body place, ts = body ++ [⟨.endOfInput, .point place⟩] ∧
      place.offset = source.utf8ByteSize ∧
      Tiles source (utf8Len (leadingMark source.toList)) body source.utf8ByteSize) ∧
    ∀ t ∈ nestedTokens ts,
      InOrder t.span.start.offset (t.interpolations.map Prod.snd) t.span.stop.offset ∧
      ∀ i ∈ t.interpolations, TilesBraces source i.1 i.2 := by
  refine ⟨?_, fun t ht => ?_⟩
  · obtain ⟨body, d, e, last, rfl, hrun, hlast, hend, hends⟩ := Lexical.run_of_tokenize h
    have hbehind : d.IsIn source := hrun.reaches
    have hgap := Lexical.blankBetween_skipBlanks hbehind
    obtain ⟨rfl, hoffset⟩ := hlast.stands.eq_endOfInput
      (hbehind.reaches (Lexical.passes_skipBlanks d).reaches) hend
    have hfront :
        (Cursor.ofText source.toList).pos.offset = utf8Len (leadingMark source.toList) := by
      rw [Cursor.ofText_eq]
    rw [← hoffset, ← hfront]
    exact ⟨body, _, rfl, rfl, hrun.tiles (.refl _) hends hgap⟩
  · obtain ⟨c, d, hc, hstands⟩ := Lexical.stands_of_mem_nestedTokens h ht
    refine ⟨hstands.inOrder, fun i hi => ?_⟩
    obtain ⟨a, b, ha, henc, -, hspan⟩ := hstands.of_mem_interpolations i hi
    rw [hspan]
    exact henc.tilesBraces (hc.reaches ha)

/-- There are blanks on both sides of an interpolation's braces, and behind a byte order mark. -/
theorem tiles_of_tokenize_blanks :
    Tiles "\uFEFF a \"$\x7b b \x7d\" " 3
      [⟨.identifier "a", ⟨⟨1, 2, 4⟩, ⟨1, 3, 5⟩⟩⟩,
        ⟨.string [.text "", .interpolation [⟨.identifier "b", ⟨⟨1, 8, 10⟩, ⟨1, 9, 11⟩⟩⟩]
          ⟨⟨1, 5, 7⟩, ⟨1, 11, 13⟩⟩, .text ""] false, ⟨⟨1, 4, 6⟩, ⟨1, 12, 14⟩⟩⟩] 15 ∧
    TilesBraces "\uFEFF a \"$\x7b b \x7d\" " [⟨.identifier "b", ⟨⟨1, 8, 10⟩, ⟨1, 9, 11⟩⟩⟩]
      ⟨⟨1, 5, 7⟩, ⟨1, 11, 13⟩⟩ := by
  have h : tokenize "\uFEFF a \"$\x7b b \x7d\" " = .ok
      ([⟨.identifier "a", ⟨⟨1, 2, 4⟩, ⟨1, 3, 5⟩⟩⟩,
        ⟨.string [.text "", .interpolation [⟨.identifier "b", ⟨⟨1, 8, 10⟩, ⟨1, 9, 11⟩⟩⟩]
          ⟨⟨1, 5, 7⟩, ⟨1, 11, 13⟩⟩, .text ""] false, ⟨⟨1, 4, 6⟩, ⟨1, 12, 14⟩⟩⟩] ++
        [⟨.endOfInput, .point ⟨1, 13, 15⟩⟩]) := rfl
  obtain ⟨⟨body, place, hbody, -, htiles⟩, hinner⟩ := tiles_of_tokenize h
  obtain ⟨rfl, -⟩ := List.append_inj' hbody rfl
  refine ⟨htiles, (hinner _ (mem_nestedTokens_iff.mpr
    ⟨_, List.mem_cons_of_mem _ List.mem_cons_self, Token.mem_nested_iff.mpr (.inl rfl)⟩)).2
      _ List.mem_cons_self⟩

end NixSyntax
