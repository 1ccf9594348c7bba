import NixSyntax.Token.Stream
import Mathlib.Data.List.TakeWhile
import Mathlib.Data.String.Basic

/-!
# From one place of a text to another

A reader goes from one `Cursor` to another and takes the text between them with it. What is left is
the rest of the text, and the position has moved by what was taken. This is `Cursor.Passes`, and all
that is said later about the places of tokens rests on it.

A line break may have two characters. No reader stops between them, and that is part of
`Cursor.Passes` too, since it holds for a way of several steps exactly if it holds for the last one
that takes anything.

## Three facts in one

That a cursor has passed a text says three things: the text was in front of it and is not any more,
the position was moved by exactly this text, and no line break was cut at the end. The first two
make all positions right, for a position is moved one character after the other and depends on
nothing else. The third is what makes it right to cut a text where a token ends.

A way of several steps is a step (`Passes.trans`). So a reader that calls others is treated by
composing their ways, and only the scanners, which go over characters, have to be looked into.

## Main definitions

* `SplitsBreak`: a line break stands across the border of two texts
* `Cursor.Passes`, `Cursor.Reaches`: the way between two places, with and without its text

## Main results

* `Position.offset_advance`: an offset moves by the bytes of the text
* `Lexical.passes_plainToken`, `Lexical.passes_stringText`, …: every scanner passes its text
-/

namespace NixSyntax

open String (utf8Len)

/-- Offsets count bytes. -/
theorem Position.offset_advance (p : Position) (cs : List Char) :
    (p.advance cs).offset = p.offset + utf8Len cs := by
  induction cs generalizing p with
  | nil => simp
  | cons c cs ih =>
    have hnext : (p.next c).offset = p.offset + c.utf8Size := by
      unfold next
      split <;> rfl
    rw [advance_cons, ih, hnext, String.utf8Len_cons]
    omega

/-- A line break of two characters stands across the border between two texts. -/
def SplitsBreak (text rest : List Char) : Prop :=
  text.getLast? = some '\r' ∧ rest.head? = some '\n'

/-- Behind a text without a carriage return no line break is cut. -/
theorem not_splitsBreak_of_forall {text : List Char} (h : ∀ c ∈ text, c ≠ '\r')
    (rest : List Char) : ¬ SplitsBreak text rest := by
  rintro ⟨hlast, -⟩
  exact h '\r' (List.mem_of_getLast? hlast) rfl

theorem not_splitsBreak_nil (rest : List Char) : ¬ SplitsBreak [] rest := by
  simp [SplitsBreak]

/-- The border behind two texts is the border behind the second, or behind the first if the second
is empty. -/
theorem not_splitsBreak_append {s t rest : List Char} (ht : ¬ SplitsBreak t rest)
    (hs : t = [] → ¬ SplitsBreak s rest) : ¬ SplitsBreak (s ++ t) rest := by
  rintro ⟨hlast, hhead⟩
  cases t with
  | nil => exact hs rfl ⟨by simpa using hlast, hhead⟩
  | cons c t =>
    rw [List.getLast?_append_of_ne_nil _ (List.cons_ne_nil c t)] at hlast
    exact ht ⟨hlast, hhead⟩

namespace Cursor

variable {a b c : Cursor} {s t : List Char}

/-- The way from `c` to `d` takes `text`. -/
structure Passes (c : Cursor) (text : List Char) (d : Cursor) : Prop where
  /-- The text stands at `c`, and what is behind it at `d`. -/
  rest : c.rest = text ++ d.rest
  /-- The position moves by the text. -/
  pos : d.pos = c.pos.advance text
  /-- The way does not end inside a line break. -/
  whole : ¬ SplitsBreak text d.rest

theorem Passes.refl (c : Cursor) : c.Passes [] c := ⟨rfl, rfl, not_splitsBreak_nil _⟩

/-- Two ways, one behind the other. -/
theorem Passes.trans (h : a.Passes s b) (h' : b.Passes t c) : a.Passes (s ++ t) c where
  rest := by rw [h.rest, h'.rest, List.append_assoc]
  pos := by rw [h'.pos, h.pos, Position.advance_append]
  whole := by
    refine not_splitsBreak_append h'.whole fun ht => ?_
    have hrest : b.rest = c.rest := by simpa [ht] using h'.rest
    exact hrest ▸ h.whole

/-- The offset has moved by the bytes of the text. -/
theorem Passes.offset (h : a.Passes s b) : b.pos.offset = a.pos.offset + utf8Len s := by
  rw [h.pos, Position.offset_advance]

theorem Passes.length_rest (h : a.Passes s b) : a.rest.length = s.length + b.rest.length := by
  rw [h.rest, List.length_append]

/-- There is a way from `c` to `d`. -/
def Reaches (c d : Cursor) : Prop := ∃ text, c.Passes text d

theorem Passes.reaches (h : a.Passes s b) : a.Reaches b := ⟨s, h⟩

theorem Reaches.refl (c : Cursor) : c.Reaches c := (Passes.refl c).reaches

theorem Reaches.trans (h : a.Reaches b) (h' : b.Reaches c) : a.Reaches c := by
  obtain ⟨s, hs⟩ := h
  obtain ⟨t, ht⟩ := h'
  exact (hs.trans ht).reaches

/-- Nothing is put back. -/
theorem Reaches.length_rest_le (h : a.Reaches b) : b.rest.length ≤ a.rest.length := by
  obtain ⟨s, hs⟩ := h
  rw [hs.length_rest]
  omega

theorem Reaches.offset_le (h : a.Reaches b) : a.pos.offset ≤ b.pos.offset := by
  obtain ⟨s, hs⟩ := h
  rw [hs.offset]
  omega

/-- The way over what a scanner covers. -/
theorem passes_past {α : Type} {l : Lexeme α} (h : c.rest = l.text ++ l.rest)
    (hwhole : ¬ SplitsBreak l.text l.rest) : c.Passes l.text (c.past l) := ⟨h, rfl, hwhole⟩

/-- The way over a mark. -/
theorem passes_skip (h : c.rest = s ++ t) (hs : ∀ ch ∈ s, ch ≠ '\r') :
    c.Passes s (c.skip s.length) where
  rest := by simp [skip, h]
  pos := by simp [skip, h]
  whole := not_splitsBreak_of_forall hs _

end Cursor

/-! ### No scanner ends inside a line break

A carriage return with a line feed behind it is no blank and stops a comment, so scanners stop in
front of it. Those that take any character take the line feed too. -/

namespace Lexical

variable {c : Char} {cs : List Char}

/-- A character that begins no line break with what follows may be taken in front of a text. -/
theorem not_splitsBreak_cons {text rest : List Char} (h : ¬ SplitsBreak text rest)
    (hcs : text ++ rest = cs) (hc : startsLineBreak (c :: cs) = false) :
    ¬ SplitsBreak (c :: text) rest := by
  refine not_splitsBreak_append (s := [c]) h ?_
  rintro rfl ⟨hlast, hhead⟩
  obtain rfl : c = '\r' := by simpa using hlast
  cases rest with
  | nil => simp at hhead
  | cons d rest =>
    obtain rfl : d = '\n' := by simpa using hhead
    subst hcs
    simp [startsLineBreak] at hc

/-- A line break begins with one of two characters. -/
theorem startsLineBreak_of_ne (hn : c ≠ '\n') (hr : c ≠ '\r') (cs : List Char) :
    startsLineBreak (c :: cs) = false := by
  simp [startsLineBreak, hn, hr]

/-- Blanks end in front of a line break. -/
theorem whole_blanks (cs : List Char) : ¬ SplitsBreak (blanks cs).text (blanks cs).rest := by
  fun_induction blanks cs with
  | case1 => exact not_splitsBreak_nil _
  | case2 c cs h l ih =>
    exact not_splitsBreak_cons ih (append_blanks cs) (by simpa using (Bool.and_eq_true_iff.mp h).2)
  | case3 => exact not_splitsBreak_nil _

/-- So does a line. -/
theorem whole_lineTail (cs : List Char) : ¬ SplitsBreak (lineTail cs).text (lineTail cs).rest := by
  fun_induction lineTail cs with
  | case1 => exact not_splitsBreak_nil _
  | case2 => exact not_splitsBreak_nil _
  | case3 c cs h ih => exact not_splitsBreak_cons ih (append_lineTail cs) (by simpa using h)

theorem whole_run {p : Char → Bool} (hp : p '\r' = false) (cs : List Char) :
    ¬ SplitsBreak (Lexeme.run p cs).text (Lexeme.run p cs).rest := by
  refine not_splitsBreak_of_forall (fun d hd => ?_) _
  rintro rfl
  exact Bool.false_ne_true (hp.symm.trans (List.mem_takeWhile_imp hd))

/-- A backslash takes a line break of two characters as one. -/
theorem whole_pathTail (cs : List Char) : ¬ SplitsBreak (pathTail cs).text (pathTail cs).rest := by
  fun_induction pathTail cs with
  | case1 cs ih => exact not_splitsBreak_append (s := ['\\', '\r', '\n']) ih (by simp [SplitsBreak])
  | case2 c cs hbreak ih =>
    refine not_splitsBreak_append (s := ['\\', c]) ih ?_
    rintro htext ⟨hlast, hhead⟩
    -- a carriage return behind the backslash would take the line feed behind it along
    obtain rfl : c = '\r' := by simpa using hlast
    have hcs : (pathTail cs).rest = cs := by simpa [htext] using append_pathTail cs
    obtain ⟨ds, hds⟩ := List.head?_eq_some_iff.mp (hcs ▸ hhead)
    exact hbreak ds rfl hds
  | case3 => simp [SplitsBreak]
  | case4 c cs _ _ _ hc ih =>
    refine not_splitsBreak_cons ih (append_pathTail cs) (startsLineBreak_of_ne ?_ ?_ cs)
    all_goals
      rintro rfl
      exact absurd hc (by decide)
  | case5 => exact not_splitsBreak_nil _
  | case6 => exact not_splitsBreak_nil _

theorem whole_number (cs : List Char) : ¬ SplitsBreak (number cs).text (number cs).rest := by
  have hdigits := whole_run (p := Char.isDigit) rfl
  unfold number
  dsimp only
  split
  · rename_i d rest _
    split
    · exact not_splitsBreak_append (not_splitsBreak_append (s := ['.']) (hdigits (d :: rest))
        fun _ => by simp [SplitsBreak]) fun h => by simp at h
    · exact hdigits cs
  · exact hdigits cs

/-- An operator is made of characters of the marks in the table. -/
theorem beginsOperator_eq_false (hc : ∀ s ∈ Symbol.operators, c ∉ s.spelling) (taken : List Char) :
    beginsOperator (taken ++ [c]) = false := by
  refine Bool.eq_false_iff.mpr fun h => ?_
  obtain ⟨s, hs, hprefix⟩ := List.any_eq_true.mp h
  exact hc s hs ((List.isPrefixOf_iff_prefix.mp hprefix).subset (by simp))

/-- An operator does not go on with a carriage return. -/
theorem ne_of_beginsOperator {taken : List Char} (h : beginsOperator (taken ++ [c]) = true) :
    c ≠ '\r' := by
  rintro rfl
  exact Bool.false_ne_true ((beginsOperator_eq_false (by decide) taken).symm.trans h)

theorem ne_of_mem_growOperator (taken cs : List Char) :
    ∀ d ∈ (growOperator taken cs).text, d ≠ '\r' := by
  fun_induction growOperator taken cs with
  | case1 => simp
  | case2 taken c cs h ih =>
    simpa [Lexeme.before] using And.intro (ne_of_beginsOperator h) ih
  | case3 => simp

theorem whole_operator (hc : c ≠ '\r') (cs : List Char) :
    ¬ SplitsBreak (operator c cs).text (operator c cs).rest := by
  have htext : ∀ d ∈ c :: (growOperator [c] cs).text, d ≠ '\r' :=
    List.forall_mem_cons.mpr ⟨hc, ne_of_mem_growOperator [c] cs⟩
  unfold operator
  dsimp only
  split <;> exact not_splitsBreak_of_forall htext _

/-- A comment ends with a slash. -/
theorem whole_blockComment (cs : List Char) :
    ¬ SplitsBreak (blockComment cs).text (blockComment cs).rest := by
  unfold blockComment
  split
  · rename_i text rest _
    exact not_splitsBreak_append (s := '/' :: '*' :: text) (by simp [SplitsBreak])
      fun h => by simp at h
  · simp [SplitsBreak]

theorem whole_lineBreak (cs : List Char) :
    ¬ SplitsBreak (lineBreak cs).text (lineBreak cs).rest := by
  unfold lineBreak
  split
  · simp [SplitsBreak]
  · rename_i c cs h
    rintro ⟨hlast, hhead⟩
    obtain rfl : c = '\r' := by simpa using hlast
    obtain ⟨ds, hds⟩ := List.head?_eq_some_iff.mp hhead
    exact h ds rfl hds
  · exact not_splitsBreak_nil _

/-- The forms of a token that is neither a string nor an interpolation. -/
inductive PlainForm (c : Char) (cs : List Char) : Lexeme (Except LexCause TokenKind) → Prop where
  | bracket {s : Symbol} : bracket? c = some s → PlainForm c cs ⟨.ok (.symbol s), [c], cs⟩
  | lineBreak : startsLineBreak (c :: cs) = true →
    PlainForm c cs ⟨.ok (lineBreak (c :: cs)).value, (lineBreak (c :: cs)).text,
      (lineBreak (c :: cs)).rest⟩
  | word : isNameStart c = true →
    PlainForm c cs ⟨.ok (word (c :: cs)).value, (word (c :: cs)).text, (word (c :: cs)).rest⟩
  | dot : c = '.' → PlainForm c cs ⟨.ok (.symbol .dot), [c], cs⟩
  | operator : isOperatorStart c = true → PlainForm c cs (operator c cs)
  | blockComment {ds : List Char} : c = '/' → cs = '*' :: ds → PlainForm c cs (blockComment ds)
  | path : startsPath c cs = true →
    PlainForm c cs ⟨.ok (path c cs).value, (path c cs).text, (path c cs).rest⟩
  | number : c.isDigit = true → PlainForm c cs (number (c :: cs))
  | lineComment : c = '#' →
    PlainForm c cs ⟨.ok (lineComment cs).value, (lineComment cs).text, (lineComment cs).rest⟩
  | unexpected : startsLineBreak (c :: cs) = false →
    PlainForm c cs ⟨.error (.unexpectedCharacter c), [c], cs⟩

/-- The forms in the order in which they are tried. -/
theorem plainForm_plainToken (c : Char) (cs : List Char) : PlainForm c cs (plainToken c cs) := by
  unfold plainToken
  split
  · exact .bracket ‹_›
  split
  · exact .lineBreak ‹_›
  split
  · exact .word ‹_›
  split
  · exact .dot (by simp_all)
  split
  · rename_i h
    -- a dot with two more behind it begins an operator
    obtain ⟨rfl, -⟩ : c = '.' ∧ _ := by simpa using h
    exact .operator rfl
  split
  · rename_i h
    cases cs with
    | nil => simp at h
    | cons d ds =>
      obtain ⟨hc, rfl⟩ : c = '/' ∧ '*' = d := by simpa using h
      exact .blockComment hc rfl
  split
  · exact .path ‹_›
  split
  · exact .number ‹_›
  split
  · exact .operator ‹_›
  split
  · exact .lineComment ‹_›
  · exact .unexpected (by simp_all)

theorem bracket?_ne {s : Symbol} (h : bracket? c = some s) : c ≠ '\r' := by
  rintro rfl
  simp [bracket?] at h

theorem whole_plainToken (c : Char) (cs : List Char) :
    ¬ SplitsBreak (plainToken c cs).text (plainToken c cs).rest := by
  have hform := plainForm_plainToken c cs
  generalize plainToken c cs = l at hform
  cases hform with
  | bracket h => exact not_splitsBreak_of_forall (by simpa using bracket?_ne h) _
  | lineBreak => exact whole_lineBreak _
  | word => exact whole_run (by decide) _
  | dot h => simp [SplitsBreak, h]
  | operator h => exact whole_operator (by rintro rfl; exact absurd h (by decide)) _
  | blockComment => exact whole_blockComment _
  | path h =>
    refine not_splitsBreak_cons (whole_pathTail cs) (append_pathTail cs)
      (startsLineBreak_of_ne ?_ ?_ cs)
    all_goals
      rintro rfl
      cases cs <;> simp [startsPath, isPathStart] at h
  | number => exact whole_number _
  | lineComment =>
    exact not_splitsBreak_cons (whole_lineTail cs) (append_lineTail cs) rfl
  | unexpected h => exact not_splitsBreak_cons (not_splitsBreak_nil _) rfl h

/-- The text of a string stops at its delimiter, at an interpolation, or at the end. -/
theorem rest_stringText (multiline : Bool) (cs : List Char) :
    (stringText multiline cs).rest = [] ∨
      delimiter multiline <+: (stringText multiline cs).rest ∨
      ['$', '{'] <+: (stringText multiline cs).rest := by
  fun_induction stringText multiline cs with
  | case1 _ _ ih => exact ih
  | case2 => exact .inl rfl
  | case3 c cs _ _ h =>
    refine .inr ?_
    simpa using h
  | case4 _ _ _ _ _ ih => exact ih
  | case5 => exact .inl rfl

theorem whole_stringText (multiline : Bool) (cs : List Char) :
    ¬ SplitsBreak (stringText multiline cs).text (stringText multiline cs).rest := by
  rintro ⟨-, hhead⟩
  obtain ⟨ds, hds⟩ := List.head?_eq_some_iff.mp hhead
  have h := rest_stringText multiline cs
  rw [hds] at h
  cases multiline <;> simp [delimiter] at h

end Lexical

end NixSyntax
