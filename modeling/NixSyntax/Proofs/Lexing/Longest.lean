import NixSyntax.Proofs.Lexing.Locality
import NixSyntax.Proofs.Lexing.Places

/-!
# No token could have been longer

A reader stops where its token ends. Here is what stands behind that end: nothing with which the
token could have gone on. For names, numbers and paths it is the next character that says so, and
behind a whole number also the one after it, for a point belongs to a number only in front of a
digit.

## Operators

An operator is grown one character at a time, as long as some entry of `Symbol.operators` begins
with what was read, and the table is asked only then. This is the same as taking the longest entry
that the text begins with. Not every beginning of an entry is an entry (`..` and `|` are none), so
what was grown may be none either, and then there is no token at all. But if it is one, then any
longer entry would have let it grow by one more character.

The marks that are told by their first character, and the single dot, are not in the table.

## What is looked at

The end of a token is described by what follows in the text and not by what the readers did. So the
statement can be checked on a text and its tokens alone: take the text under the span of a token and
what comes behind. It does not say that no token of another form could have begun at the same place.
It says that the next character, or for operators any longer entry of the table, does not go on with
this one.

## Main definitions

* `Symbol.LongestAt`: the longest entry of the table with which a text begins
* `TokenKind.EndsAt`: a token of this kind could not be longer

## Main results

* `Lexical.longestAt_operator`: growing finds the longest entry
* `endsAt_of_mem_nestedTokens`: no token of a text could have been longer, at any depth
-/

namespace NixSyntax

open String (utf8Len)

/-- The mark `s` is the longest one of the table with which a text begins. -/
structure Symbol.LongestAt (s : Symbol) (cs : List Char) : Prop where
  /-- It is in the table. -/
  mem : s ∈ Symbol.operators
  /-- The text begins with it. -/
  starts : s.spelling <+: cs
  /-- No other one with which the text begins is longer. -/
  longest : ∀ r ∈ Symbol.operators, r.spelling <+: cs → r.spelling.length ≤ s.spelling.length

/-- A token that takes `text` could not be longer if `rest` stands behind it. -/
def TokenKind.EndsAt (text rest : List Char) : TokenKind → Prop
  | .null | .bool _ | .keyword _ | .identifier _ => ∀ c ∈ rest.head?, isNameChar c = false
  | .int _ => (∀ c ∈ rest.head?, c.isDigit = false) ∧
      ∀ d ds, rest = '.' :: d :: ds → d.isDigit = false
  | .float _ => ∀ c ∈ rest.head?, c.isDigit = false
  | .path _ => ∀ c ∈ rest.head?, isPathChar c = false ∧ c ≠ '\\'
  | .symbol s => s ∈ Symbol.operators → text = s.spelling ∧ s.LongestAt (text ++ rest)
  | _ => True

namespace Lexical

variable {c : Char} {cs : List Char} {kind : TokenKind}

/-! ### Operators -/

/-- Growing stops only where no entry of the table goes on with the next character. -/
theorem stops_growOperator (taken cs : List Char) : ∀ d ∈ (growOperator taken cs).rest.head?,
    beginsOperator (taken ++ (growOperator taken cs).text ++ [d]) = false := by
  fun_induction growOperator taken cs with
  | case1 => simp
  | case2 taken c cs _ ih => simpa [Lexeme.before] using ih
  | case3 taken c cs h => simpa using h

/-- A text that begins with an entry of the table longer than `taken` goes on with a character of
that entry. -/
theorem exists_beginsOperator {taken rest : List Char} {r : Symbol} (hr : r ∈ Symbol.operators)
    (hstarts : r.spelling <+: taken ++ rest) (hlt : taken.length < r.spelling.length) :
    ∃ d ∈ rest.head?, beginsOperator (taken ++ [d]) = true := by
  cases rest with
  | nil =>
    have hle := hstarts.length_le
    rw [List.append_nil] at hle
    omega
  | cons d ds =>
    have hnext : taken ++ [d] <+: taken ++ d :: ds := ⟨ds, by simp⟩
    have htaken : taken ++ [d] <+: r.spelling :=
      List.prefix_of_prefix_length_le hnext hstarts (by rw [List.length_append]; exact hlt)
    exact ⟨d, rfl, List.any_eq_true.mpr ⟨r, hr, List.isPrefixOf_iff_prefix.mpr htaken⟩⟩

/-- What is grown is looked up as it is. -/
theorem exists_symbol_of_operator (h : (operator c cs).value = .ok kind) :
    ∃ s ∈ Symbol.operators, kind = .symbol s ∧ s.spelling = c :: (growOperator [c] cs).text ∧
      (operator c cs).text = s.spelling := by
  have hspelled := spelledBy_operator h
  unfold operator at h
  dsimp only at h
  split at h
  · rename_i s hs
    cases h
    obtain ⟨hmem, hspelling⟩ := Symbol.ofSpelling?_eq_some_iff.mp hs
    refine ⟨s, hmem, rfl, ?_, hspelled⟩
    rw [hspelling, ← value_growOperator]
    rfl
  · cases h

/-- **An operator is the longest entry of the table with which the text begins.** -/
theorem longestAt_operator (h : (operator c cs).value = .ok kind) :
    ∃ s, kind = .symbol s ∧ (operator c cs).text = s.spelling ∧ s.LongestAt (c :: cs) := by
  obtain ⟨s, hmem, hkind, hgrown, htext⟩ := exists_symbol_of_operator h
  have hsplit : c :: cs = s.spelling ++ (growOperator [c] cs).rest := by
    rw [hgrown, List.cons_append, append_growOperator]
  refine ⟨s, hkind, htext, hmem, ⟨_, hsplit.symm⟩, ?_⟩
  intro r hr hstarts
  by_contra hlonger
  rw [hsplit] at hstarts
  obtain ⟨d, hd, hgoes⟩ := exists_beginsOperator hr hstarts (by omega)
  have hstops := stops_growOperator [c] cs d hd
  rw [List.singleton_append, ← hgrown, hgoes] at hstops
  cases hstops

/-! ### Words, numbers and paths

What stops a stretch is a character that is not of its class. A path can be followed by nothing that
may stand in a path, and by no backslash. -/

/-- A stretch is followed by a character of another class, or by nothing. -/
theorem stops_run (p : Char → Bool) (cs : List Char) :
    ∀ d ∈ (Lexeme.run p cs).rest.head?, p d = false := by
  intro d hd
  have hnot := List.head?_dropWhile_not p cs
  rw [show (cs.dropWhile p).head? = some d from hd] at hnot
  simpa using hnot

theorem endsAt_wordKind (w : String) {text rest : List Char}
    (h : ∀ d ∈ rest.head?, isNameChar d = false) : (wordKind w).EndsAt text rest := by
  unfold wordKind
  split
  · exact h
  split
  · exact h
  split
  · exact h
  split
  · exact h
  · exact h

theorem endsAt_intKind {digits rest : List Char} (hstops : ∀ d ∈ rest.head?, d.isDigit = false)
    (hpoint : ∀ d ds, rest = '.' :: d :: ds → d.isDigit = false)
    (h : intKind digits = .ok kind) : kind.EndsAt digits rest := by
  unfold intKind at h
  split at h
  · cases h
    exact ⟨hstops, hpoint⟩
  · cases h

/-- Whole digits are followed by no digit, and by a point only if none follows that. -/
theorem endsAt_number (h : (number cs).value = .ok kind) :
    kind.EndsAt (number cs).text (number cs).rest := by
  obtain ⟨d, ds, hrest, hd⟩ | hnone := fraction_or_whole cs
  · rw [number_of_fraction hrest hd] at h ⊢
    cases h
    show ∀ x ∈ (Lexeme.run Char.isDigit (d :: ds)).rest.head?, x.isDigit = false
    exact stops_run Char.isDigit (d :: ds)
  · rw [number_of_whole hnone] at h ⊢
    exact endsAt_intKind (stops_run Char.isDigit cs) hnone h

/-- A path takes every backslash, so none stands behind it. -/
theorem stops_pathTail (cs : List Char) :
    ∀ d ∈ (pathTail cs).rest.head?, isPathChar d = false ∧ d ≠ '\\' := by
  fun_induction pathTail cs with
  | case1 cs ih => exact ih
  | case2 c cs _ ih => exact ih
  | case3 => simp
  | case4 c cs _ _ _ _ ih => exact ih
  | case5 c cs _ hpair hlone hc =>
    intro d hd
    obtain rfl : c = d := by simpa using hd
    exact ⟨by simpa using hc, ne_backslash hpair hlone⟩
  | case6 => simp

/-- Brackets are told by one character and are not in the table. -/
theorem notMem_operators_of_bracket? {s : Symbol} (h : bracket? c = some s) :
    s ∉ Symbol.operators := by
  unfold bracket? at h
  split at h <;> cases h <;> decide

/-- **A flat token could not be longer.** -/
theorem endsAt_plainToken (h : (plainToken c cs).value = .ok kind) :
    kind.EndsAt (plainToken c cs).text (plainToken c cs).rest := by
  have happend := append_plainToken c cs
  have hform := plainForm_plainToken c cs
  generalize plainToken c cs = l at hform h happend
  cases hform with
  -- a bracket is taken before operators are looked for, and no operator is spelled like one
  | bracket hs =>
    cases h
    intro hmem
    exact absurd hmem (notMem_operators_of_bracket? hs)
  | lineBreak =>
    cases h
    unfold lineBreak
    split <;> exact trivial
  | word =>
    cases h
    exact endsAt_wordKind _ (stops_run isNameChar (c :: cs))
  | dot =>
    cases h
    intro hmem
    exact absurd hmem (by decide)
  | operator =>
    obtain ⟨s, rfl, hlongest⟩ := longestAt_operator h
    intro _
    rw [happend]
    exact hlongest
  | blockComment =>
    unfold blockComment at h
    split at h
    · cases h
      exact trivial
    · cases h
  | path =>
    cases h
    exact stops_pathTail cs
  | number => exact endsAt_number h
  | lineComment =>
    cases h
    exact trivial
  | unexpected => cases h

/-- **A token could not be longer at its place.** -/
theorem Stands.endsAt {a d : Cursor} {t : Token} (h : Stands a t d) :
    ∃ text, a.Passes text d ∧ t.kind.EndsAt text d.rest := by
  obtain ⟨text, htext, -, -⟩ := h.passes
  cases h with
  | endOfInput => exact ⟨text, htext, trivial⟩
  | interpolation => exact ⟨text, htext, trivial⟩
  | string => exact ⟨text, htext, trivial⟩
  | plain hcs _ _ h => exact ⟨_, passes_plainToken hcs, endsAt_plainToken h⟩

end Lexical

/-- **No token of a text could have been longer**, at any depth: behind the text under its span
stands nothing with which it could have gone on, and an operator is the longest entry of the table
that stands at its place. -/
theorem endsAt_of_mem_nestedTokens {source : String} {ts : List Token} {t : Token}
    (h : tokenize source = .ok ts) (ht : t ∈ nestedTokens ts) :
    ∃ front text rest, source.toList = front ++ (text ++ rest) ∧
      utf8Len front = t.span.start.offset ∧ utf8Len (front ++ text) = t.span.stop.offset ∧
      t.kind.EndsAt text rest := by
  obtain ⟨c, d, hc, hstands⟩ := Lexical.stands_of_mem_nestedTokens h ht
  obtain ⟨text, htext, hends⟩ := hstands.endsAt
  obtain ⟨_, -, hspan, -⟩ := hstands.passes
  obtain ⟨front, hfront, hat⟩ := hc.exists_at
  refine ⟨front, text, d.rest, ?_, ?_, ?_, hends⟩
  · rw [hfront, htext.rest]
  · rw [hspan, hat.offset]
  · rw [hspan, String.utf8Len_append, htext.offset, hat.offset]

/-- The two marks of equality in an interpolation are one operator, though each of them is one. -/
theorem endsAt_of_mem_nestedTokens_equal :
    ∃ front text rest, "$\x7ba==b\x7d".toList = front ++ (text ++ rest) ∧
      utf8Len front = 3 ∧ utf8Len (front ++ text) = 5 ∧
      (TokenKind.symbol .equal).EndsAt text rest := by
  have h : tokenize "$\x7ba==b\x7d" = .ok
      [⟨.interpolation [⟨.identifier "a", ⟨⟨1, 3, 2⟩, ⟨1, 4, 3⟩⟩⟩,
          ⟨.symbol .equal, ⟨⟨1, 4, 3⟩, ⟨1, 6, 5⟩⟩⟩,
          ⟨.identifier "b", ⟨⟨1, 6, 5⟩, ⟨1, 7, 6⟩⟩⟩], ⟨⟨1, 1, 0⟩, ⟨1, 8, 7⟩⟩⟩,
        ⟨.endOfInput, .point ⟨1, 8, 7⟩⟩] := rfl
  have ht : (⟨.symbol .equal, ⟨⟨1, 4, 3⟩, ⟨1, 6, 5⟩⟩⟩ : Token) ∈ nestedTokens
      [⟨.interpolation [⟨.identifier "a", ⟨⟨1, 3, 2⟩, ⟨1, 4, 3⟩⟩⟩,
          ⟨.symbol .equal, ⟨⟨1, 4, 3⟩, ⟨1, 6, 5⟩⟩⟩,
          ⟨.identifier "b", ⟨⟨1, 6, 5⟩, ⟨1, 7, 6⟩⟩⟩], ⟨⟨1, 1, 0⟩, ⟨1, 8, 7⟩⟩⟩,
        ⟨.endOfInput, .point ⟨1, 8, 7⟩⟩] := by
    simp [nestedTokens, Token.nested, TokenKind.innerTokens]
  exact endsAt_of_mem_nestedTokens h ht

end NixSyntax
