import NixSyntax.Proofs.Lexing.Nested
import Mathlib.Data.List.DropRight

/-!
# Positions and the text

A position has a line, a column and an offset, and the readers of tokens move all three along. Here
each of them is compared with the text itself: `Position.Counts` says what they are by looking at
all that stands in front of the position, from the beginning. It holds wherever a reader can be
(`Cursor.IsIn.counts`), and so at both ends of every token, of every interpolation and of a fault.

A position is determined by its offset then, and positions of one text stand in the order of their
offsets. The byte order mark is the only exception to a larger offset in one line being a larger
column. It is also the only part of a text that no reader has passed, and `leadingMark` is to
account for it.

## What a position is right about

`Position.Counts` divides the text into what is in front of the position and what is behind, and
says that the line is one more than the line feeds in front, that the column is one more than the
characters behind the last of them, and that the offset is the number of bytes. It mentions neither
cursors nor readers. A text can be divided at a given offset in one way only, so at most one
position has that offset. That the order of positions agrees with their offsets follows, and does
not have to be kept by the readers.

A position inside a character, or between the two characters of a line break, is ruled out: the
division is between characters, and the readers keep line breaks whole.

## Main definitions

* `leadingMark`, `withoutMark`: the byte order mark in front of a text, and the text without it
* `Cursor.IsIn`: a place of a source text
* `IsSlice`: the text between two offsets
* `Position.Counts`: a position is where its line, its column and its offset say
* `lexicalPlaces`: the positions in an answer of `tokenize`

## Main results

* `Lexical.stands_of_mem_nestedTokens`: every token stands somewhere in the text
* `counts_of_mem_lexicalPlaces`: all these positions are right, and in the order of their offsets
-/

namespace NixSyntax

open String (utf8Len)

/-! ### The byte order mark -/

/-- The byte order mark in front of a text, if there is one. -/
def leadingMark : List Char → List Char
  | [] => []
  | c :: _ => if c = Cursor.byteOrderMark then [c] else []

/-- A text without the byte order mark in front of it. -/
def withoutMark : List Char → List Char
  | [] => []
  | c :: cs => if c = Cursor.byteOrderMark then cs else c :: cs

theorem leadingMark_append_withoutMark (cs : List Char) :
    leadingMark cs ++ withoutMark cs = cs := by
  cases cs with
  | nil => rfl
  | cons c cs =>
    simp only [leadingMark, withoutMark]
    split <;> rfl

/-- Reading begins behind the mark, in the first column, and with the bytes of the mark in the
offset. -/
theorem Cursor.ofText_eq (cs : List Char) :
    ofText cs = ⟨withoutMark cs, { Position.start with offset := utf8Len (leadingMark cs) }⟩ := by
  cases cs with
  | nil => rfl
  | cons c cs =>
    simp only [ofText, leadingMark, withoutMark]
    split <;> simp [Position.start]

theorem Cursor.ofText_of_head?_ne {cs : List Char} (h : cs.head? ≠ some byteOrderMark) :
    ofText cs = ⟨cs, .start⟩ := by
  cases cs with
  | nil => rfl
  | cons c cs => rw [ofText, if_neg (by simpa using h)]

theorem forall_mem_leadingMark (cs : List Char) :
    ∀ c ∈ leadingMark cs, c = Cursor.byteOrderMark := by
  cases cs with
  | nil => simp [leadingMark]
  | cons c cs =>
    unfold leadingMark
    split <;> simp_all

/-- The mark in front of the beginning of a text is the mark in front of the text. -/
theorem withoutMark_leadingMark_append {cs front back : List Char}
    (h : withoutMark cs = front ++ back) : withoutMark (leadingMark cs ++ front) = front := by
  cases cs with
  | nil =>
    obtain ⟨rfl, -⟩ := List.append_eq_nil_iff.mp h.symm
    rfl
  | cons c cs =>
    simp only [withoutMark, leadingMark] at h ⊢
    split at h
    · rename_i hc
      simp [hc]
    · rename_i hc
      cases front with
      | nil => simp [hc]
      | cons d front =>
        obtain ⟨rfl, -⟩ := List.cons_eq_cons.mp h
        simp [hc]

theorem withoutMark_append {cs : List Char} (h : cs ≠ []) (ds : List Char) :
    withoutMark (cs ++ ds) = withoutMark cs ++ ds := by
  obtain ⟨c, cs, rfl⟩ := List.exists_cons_of_ne_nil h
  simp only [List.cons_append, withoutMark]
  split <;> rfl

/-! ### The order of positions

Positions are compared by line, then by column, then by offset, and the order is total. -/

namespace Position

variable {p q : Position}

/-- A position is in front of another if its line is, or its column in the same line, or its offset
at the same column. -/
theorem compare_eq_lt_iff : compare p q = .lt ↔ p.line < q.line ∨ p.line = q.line ∧
    (p.column < q.column ∨ p.column = q.column ∧ p.offset < q.offset) := by
  change (compare p.line q.line).then ((compare p.column q.column).then
    (compare p.offset q.offset)) = .lt ↔ _
  simp only [Ordering.then_eq_lt, Nat.compare_eq_lt, Nat.compare_eq_eq]

/-- Of two positions one is behind the other exactly if that one is in front of it. -/
theorem swap_compare (p q : Position) : (compare p q).swap = compare q p := by
  change ((compare p.line q.line).then ((compare p.column q.column).then
    (compare p.offset q.offset))).swap = (compare q.line p.line).then
      ((compare q.column p.column).then (compare q.offset p.offset))
  simp only [Ordering.swap_then, Nat.compare_swap]

theorem compare_self (p : Position) : compare p p = .eq := by
  change (compare p.line p.line).then ((compare p.column p.column).then
    (compare p.offset p.offset)) = .eq
  simp

end Position

/-! ### Counting

Lines are the line feeds in front, and columns are the characters since the last one. The column
behind the mark is the first. -/

/-- The characters of the last line of a text, of which no line feed is one. -/
abbrev lastLine (cs : List Char) : List Char := cs.rtakeWhile (· != '\n')

namespace Position

/-- A text has as many more lines as line feeds. -/
theorem line_advance (p : Position) (cs : List Char) :
    (p.advance cs).line = p.line + cs.count '\n' := by
  induction cs generalizing p with
  | nil => rfl
  | cons c cs ih =>
    rw [advance_cons, ih, List.count_cons, next]
    split
    · rename_i hc
      simp [hc, Nat.add_comm, Nat.add_left_comm]
    · rename_i hc
      simp [hc]

/-- The column behind a text that begins at the front of a line. -/
theorem column_advance {p : Position} (hp : p.column = 1) (cs : List Char) :
    (p.advance cs).column = 1 + (lastLine cs).length := by
  induction cs using List.reverseRecOn with
  | nil => exact hp
  | append_singleton cs c ih =>
    rw [advance_append, advance_cons, advance_nil, lastLine, List.rtakeWhile_concat, next]
    split
    · rename_i hc
      simp [hc]
    · rename_i hc
      simp [hc, ih, Nat.add_assoc]

end Position

/-- A text without a line feed goes on with the last line of what is in front of it. -/
theorem lastLine_append {cs ds : List Char} (h : '\n' ∉ ds) :
    lastLine (cs ++ ds) = lastLine cs ++ ds := by
  induction ds using List.reverseRecOn with
  | nil => simp
  | append_singleton ds c ih =>
    have hc : c ≠ '\n' := fun hc => h (by simp [hc])
    have hds : '\n' ∉ ds := fun hds => h (by simp [hds])
    rw [← List.append_assoc, lastLine, List.rtakeWhile_concat_pos _ _ _ (by simpa using hc),
      ← lastLine, ih hds, List.append_assoc]

/-- The text `front` stands in front of the position `p` and `back` behind it, and the line, the
column and the offset of `p` are those of the border between them. -/
structure Position.At (p : Position) (front back : List Char) : Prop where
  /-- The offset is the size of what is in front. -/
  offset : p.offset = utf8Len front
  /-- The line is counted in line feeds. -/
  line : p.line = 1 + front.count '\n'
  /-- The column is counted in the characters of the line, without the byte order mark. -/
  column : p.column = 1 + (lastLine (withoutMark front)).length
  /-- The border is not inside a line break. -/
  whole : ¬ SplitsBreak front back

/-- A position of `source` is where its line, its column and its offset say. -/
def Position.Counts (source : String) (p : Position) : Prop :=
  ∃ front back, source.toList = front ++ back ∧ p.At front back

/-- Of two positions, the one with more in front of it is behind the other. -/
theorem Position.At.compare_eq {p q : Position} {front gap back back' : List Char}
    (hp : p.At front back) (hq : q.At (front ++ gap) back') :
    compare p q = compare p.offset q.offset := by
  rcases eq_or_ne gap [] with rfl | hgap
  · rw [List.append_nil] at hq
    obtain rfl : p = q := by
      obtain ⟨line, column, offset⟩ := p
      obtain ⟨line', column', offset'⟩ := q
      simp only [Position.mk.injEq]
      exact ⟨hp.line.trans hq.line.symm, hp.column.trans hq.column.symm,
        hp.offset.trans hq.offset.symm⟩
    rw [compare_self, Nat.compare_eq_eq.mpr rfl]
  · have hoffset : p.offset < q.offset := by
      have hpos : utf8Len gap ≠ 0 := mt String.utf8Len_eq_zero.mp hgap
      rw [hp.offset, hq.offset, String.utf8Len_append]
      omega
    -- lines only grow with the offset, and on one line the columns do
    have hline : p.line ≤ q.line := by
      rw [hp.line, hq.line, List.count_append]
      omega
    have hcolumn (h : p.line = q.line) : p.column ≤ q.column := by
      rcases eq_or_ne front [] with rfl | hfront
      · rw [hp.column, hq.column]
        simp [withoutMark]
      · have hbreak : '\n' ∉ gap := by
          rw [hp.line, hq.line, List.count_append] at h
          exact List.count_eq_zero.mp (by omega)
        rw [hp.column, hq.column, withoutMark_append hfront, lastLine_append hbreak,
          List.length_append]
        omega
    rw [Nat.compare_eq_lt.mpr hoffset, compare_eq_lt_iff]
    omega

/-- Positions of one text stand in the order of their offsets. -/
theorem Position.Counts.compare_eq {source : String} {p q : Position} (hp : p.Counts source)
    (hq : q.Counts source) : compare p q = compare p.offset q.offset := by
  obtain ⟨front, back, hfront, hp⟩ := hp
  obtain ⟨front', back', hfront', hq⟩ := hq
  rcases List.prefix_or_prefix_of_prefix ⟨back, hfront.symm⟩ ⟨back', hfront'.symm⟩ with
    ⟨gap, rfl⟩ | ⟨gap, rfl⟩
  · exact hp.compare_eq hq
  · rw [← swap_compare, hq.compare_eq hp, Nat.compare_swap]

/-! ### Places of a text

A place is reached from the front of the text, so what is in front of it is the mark and what has
been passed. -/

namespace Cursor

variable {source : String} {a b c : Cursor} {text : List Char}

/-- The cursor `c` stands somewhere in `source`. -/
def IsIn (source : String) (c : Cursor) : Prop := (ofText source.toList).Reaches c

/-- Places that are reached from a place of the text are such places. -/
theorem IsIn.reaches (ha : a.IsIn source) (h : a.Reaches b) : b.IsIn source := ha.trans h

/-- What is in front of a cursor, and what is behind it. -/
theorem IsIn.exists_at (h : c.IsIn source) :
    ∃ front, source.toList = front ++ c.rest ∧ c.pos.At front c.rest := by
  obtain ⟨text, h⟩ := h
  have hrest := h.rest
  have hpos := h.pos
  rw [ofText_eq] at hrest hpos
  dsimp only at hrest hpos
  refine ⟨leadingMark source.toList ++ text, ?_, ?_, ?_, ?_, ?_⟩
  · rw [List.append_assoc, ← hrest, leadingMark_append_withoutMark]
  · rw [hpos, Position.offset_advance, String.utf8Len_append]
  · have hmark : (leadingMark source.toList).count '\n' = 0 := by
      refine List.count_eq_zero.mpr fun hmem => ?_
      exact absurd (forall_mem_leadingMark _ _ hmem) (by decide)
    rw [hpos, Position.line_advance, List.count_append, hmark, Nat.zero_add, Position.start]
  · rw [hpos, Position.column_advance rfl, withoutMark_leadingMark_append hrest]
  · refine not_splitsBreak_append h.whole fun _ => not_splitsBreak_of_forall (fun c hc => ?_) _
    rw [forall_mem_leadingMark _ c hc]
    decide

/-- **A cursor knows its line, its column and its offset.** -/
theorem IsIn.counts (h : c.IsIn source) : c.pos.Counts source := by
  obtain ⟨front, hfront, hat⟩ := h.exists_at
  exact ⟨front, c.rest, hfront, hat⟩

end Cursor

/-- The characters of `source` between the offsets `first` and `last` are `text`. -/
def IsSlice (source : String) (first last : Nat) (text : List Char) : Prop :=
  ∃ front back, source.toList = front ++ (text ++ back) ∧ utf8Len front = first ∧
    utf8Len (front ++ text) = last

/-- What is passed is the text between the two offsets. -/
theorem Cursor.IsIn.isSlice {source : String} {c d : Cursor} {text : List Char}
    (hc : c.IsIn source) (h : c.Passes text d) :
    IsSlice source c.pos.offset d.pos.offset text := by
  obtain ⟨front, hfront, hat⟩ := hc.exists_at
  refine ⟨front, d.rest, by rw [hfront, h.rest], hat.offset.symm, ?_⟩
  rw [h.offset, hat.offset, String.utf8Len_append]

/-! ### The positions of an answer

Positions occur in spans of tokens, of interpolations in strings, and of a fault. Each of them is
the position of some place. -/

/-- The positions in a token, without the tokens inside it. -/
def Token.places (t : Token) : List Position :=
  t.span.start :: t.span.stop :: t.interpolations.flatMap fun i => [i.2.start, i.2.stop]

/-- The positions in an answer of `tokenize`: those of all tokens, or those of the fault. -/
def lexicalPlaces : Except LexFault (List Token) → List Position
  | .ok ts => (nestedTokens ts).flatMap Token.places
  | .error f => [f.span.start, f.span.stop]

namespace Lexical

variable {source : String} {base c : Cursor} {t : Token} {ts : List Token} {f : LexFault}

/-- All tokens of a text are read behind its front. -/
theorem within_tokensFrom (n k : Nat) (hc : base.Reaches c) :
    Within base (fun _ => base) (tokensFrom (token n) k c) := by
  induction k generalizing c with
  | zero => exact .refl base
  | succ k ih =>
    refine (within_token n hc).bind fun (t, d) hd => ?_
    dsimp only
    split
    · exact .refl base
    · exact (ih hd).bind fun _ _ => .refl base

theorem faultWithin_of_tokenize (h : tokenize source = .error f) :
    FaultWithin (Cursor.ofText source.toList) f := by
  have hwithin := within_tokensFrom (Cursor.ofText source.toList).rest.length
    (Cursor.ofText source.toList).rest.length (.refl (Cursor.ofText source.toList))
  rw [tokenize] at h
  rwa [h] at hwithin

/-- Every token of a text stands somewhere in it. -/
theorem stands_of_mem_nestedTokens (h : tokenize source = .ok ts) (ht : t ∈ nestedTokens ts) :
    ∃ c d : Cursor, c.IsIn source ∧ Stands c t d := by
  obtain ⟨a, b, ha, hread⟩ := reads_of_mem_nestedTokens h ht
  exact ⟨a.skipBlanks, b, ha.trans (passes_skipBlanks a).reaches, hread.stands⟩

theorem isIn_of_mem_places {p : Position} {d : Cursor} (hc : c.IsIn source) (h : Stands c t d)
    (hp : p ∈ t.places) : ∃ e : Cursor, e.IsIn source ∧ e.pos = p := by
  obtain ⟨text, htext, hspan, -⟩ := h.passes
  simp only [Token.places, List.mem_cons, List.mem_flatMap, List.not_mem_nil, or_false] at hp
  rcases hp with rfl | rfl | ⟨i, hi, hp⟩
  · exact ⟨c, hc, by rw [hspan]⟩
  · exact ⟨d, hc.reaches htext.reaches, by rw [hspan]⟩
  · obtain ⟨a, b, ha, henc, -, hi⟩ := h.of_mem_interpolations i hi
    rw [hi] at hp
    rcases hp with rfl | rfl
    · exact ⟨a, hc.reaches ha, rfl⟩
    · exact ⟨b, (hc.reaches ha).reaches henc.reaches, rfl⟩

/-- A position in an answer is that of a place of the text. -/
theorem isIn_of_mem_lexicalPlaces {p : Position} (hp : p ∈ lexicalPlaces (tokenize source)) :
    ∃ c : Cursor, c.IsIn source ∧ c.pos = p := by
  cases h : tokenize source with
  | ok ts =>
    rw [h] at hp
    obtain ⟨t, ht, hp⟩ := List.mem_flatMap.mp hp
    obtain ⟨c, d, hc, hstands⟩ := stands_of_mem_nestedTokens h ht
    exact isIn_of_mem_places hc hstands hp
  | error f =>
    rw [h] at hp
    obtain ⟨a, b, ha, hb, hspan⟩ := faultWithin_of_tokenize h
    simp only [lexicalPlaces, hspan, List.mem_cons, List.not_mem_nil, or_false] at hp
    rcases hp with rfl | rfl
    · exact ⟨a, ha, rfl⟩
    · exact ⟨b, hb, rfl⟩

end Lexical

/-- **Every position is where its line, its column and its offset say**, in the tokens of a text at
any depth as in the fault that keeps it from being read, and these positions stand in the order of
their offsets. -/
theorem counts_of_mem_lexicalPlaces (source : String) :
    (∀ p ∈ lexicalPlaces (tokenize source), p.Counts source) ∧
      ∀ p ∈ lexicalPlaces (tokenize source), ∀ q ∈ lexicalPlaces (tokenize source),
        compare p q = compare p.offset q.offset := by
  have hcounts : ∀ p ∈ lexicalPlaces (tokenize source), p.Counts source := by
    intro p hp
    obtain ⟨c, hc, rfl⟩ := Lexical.isIn_of_mem_lexicalPlaces hp
    exact hc.counts
  exact ⟨hcounts, fun p hp q hq => (hcounts p hp).compare_eq (hcounts q hq)⟩

/-- The name in the string stands behind the byte order mark and a line break of two characters. -/
theorem counts_of_mem_lexicalPlaces_marked :
    ∃ p ∈ lexicalPlaces (tokenize "\uFEFFx\r\n\"$\x7by\x7d\""),
      p = ⟨2, 4, 9⟩ ∧ p.Counts "\uFEFFx\r\n\"$\x7by\x7d\"" := by
  have h : tokenize "\uFEFFx\r\n\"$\x7by\x7d\"" = .ok
      [⟨.identifier "x", ⟨⟨1, 1, 3⟩, ⟨1, 2, 4⟩⟩⟩, ⟨.newline, ⟨⟨1, 2, 4⟩, ⟨2, 1, 6⟩⟩⟩,
        ⟨.string [.text "", .interpolation [⟨.identifier "y", ⟨⟨2, 4, 9⟩, ⟨2, 5, 10⟩⟩⟩]
          ⟨⟨2, 2, 7⟩, ⟨2, 6, 11⟩⟩, .text ""] false, ⟨⟨2, 1, 6⟩, ⟨2, 7, 12⟩⟩⟩,
        ⟨.endOfInput, .point ⟨2, 7, 12⟩⟩] := rfl
  have hp : (⟨2, 4, 9⟩ : Position) ∈ lexicalPlaces (tokenize "\uFEFFx\r\n\"$\x7by\x7d\"") := by
    rw [h]
    simp [lexicalPlaces, nestedTokens, Token.nested, TokenKind.innerTokens, fragmentsTokens,
      StringFragment.innerTokens, Token.places, Token.interpolations]
  exact ⟨_, hp, rfl, (counts_of_mem_lexicalPlaces _).1 _ hp⟩

end NixSyntax
