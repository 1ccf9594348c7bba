import NixSyntax.Proofs.Cutting.Pieces
import NixSyntax.Proofs.Lexing.Turns

/-!
# What stands there is read

`Reads.stands` takes a token apart. Here it is put together again: where all that a token is made of
stands in a text, the token is read. That takes one thing more than `Stands` says. The reader of an
interpolation ends at a brace of its own choice, the first behind which no other is open, so the
tokens have to come back to the depth at which they begin. With that, `reads_iff` says what it is
for a token to be read without a word about readers or bounds.

## What is not to be found in `Stands`

For the readers, two things happen at once when an interpolation is read: its tokens are read, and
braces are counted to find the one that closes it. In `Stands` there are only the tokens, with a
closing brace behind them, and it would also hold of an interpolation that has gone on to a later
brace. That the depth comes back to zero behind the tokens, and not before, rules that out
(`depthBehind`). Strings and flat tokens choose nothing of that sort, since a string ends at its
first delimiter outside of interpolations.

The other direction is needed to show that a given text has given tokens: a text is built, what
stands in it is read off the definitions, and `tokenize_of_stands` says that this is what will be
read.

## Main results

* `Lexical.untilBrace_of_run`: tokens that keep the depth are read up to the closing brace
* `Lexical.reads_iff`: a token is read where it stands
* `Lexical.tokenize_of_stands`: a text with nothing in it but a token has that token alone
-/

namespace NixSyntax

namespace Cursor

variable {c d : Cursor}

/-- Lines are counted upwards. -/
theorem Reaches.one_le_line (h : c.Reaches d) (hline : 1 ≤ c.pos.line) : 1 ≤ d.pos.line := by
  obtain ⟨text, htext⟩ := h
  rw [htext.pos, Position.line_advance]
  exact Nat.le_add_right_of_le hline

end Cursor

namespace Lexical

variable {c d e : Cursor} {n k depth : Nat} {t : Token} {ts : List Token} {start : Position}

/-! ### Interpolations

Along the tokens that stand in a row, the bound of the loop goes down with every round, and is large
enough since every token takes a character. -/

/-- Tokens that come back to depth zero are read, up to the brace behind them. -/
theorem untilBrace_of_run (h : Run c ts d) (hend : ∀ u ∈ ts, u.isEnd = false)
    (hdepth : depthBehind depth ts = some 0) (hclose : Reads d t e)
    (ht : t.kind = .symbol .closeBrace) (hline : 1 ≤ c.pos.line) (hn : c.rest.length ≤ n)
    (hk : c.rest.length ≤ k) : untilBrace (token n) start k depth c = .ok (ts, e) := by
  induction h generalizing depth k with
  | nil c =>
    -- no brace is open, so the brace that comes next is the one that closes
    obtain rfl : depth = 0 := by simpa using hdepth
    have htend : t.isEnd = false := by
      obtain ⟨kind, span⟩ := t
      obtain rfl : kind = _ := ht
      rfl
    have hshorter := hclose.length_lt htend
    obtain ⟨k, rfl⟩ : ∃ m, k = m + 1 := ⟨k - 1, by omega⟩
    exact untilBrace_succ_eq_ok_iff.mpr ⟨t, e, hclose.token_eq hline hn, htend,
      .inl ⟨TokenKind.braceDepth_eq_none_iff.mpr ⟨ht, rfl⟩, rfl, rfl⟩⟩
  | @cons c m d u us head tail ih =>
    obtain ⟨huend, hend⟩ := List.forall_mem_cons.mp hend
    rw [depthBehind_cons, Option.bind_eq_some_iff] at hdepth
    obtain ⟨depth', hhead, hdepth⟩ := hdepth
    have hshorter := head.length_lt huend
    obtain ⟨k, rfl⟩ : ∃ m, k = m + 1 := ⟨k - 1, by omega⟩
    exact untilBrace_succ_eq_ok_iff.mpr ⟨u, m, head.token_eq hline hn, huend, .inr ⟨depth', us,
      hhead, ih hend hdepth hclose (head.reaches.one_le_line hline) (by omega) (by omega), rfl⟩⟩

/-- An interpolation is read where it stands, if the depth comes back. -/
theorem Encloses.interpolation_eq (h : Encloses c ts d) (hdepth : depthBehind 0 ts = some 0)
    (hline : 1 ≤ c.pos.line) (hn : c.rest.length ≤ n) :
    interpolation n (token n) c = .ok (ts, ⟨c.pos, d.pos⟩, d) := by
  obtain ⟨mid, close, hrun, hclose, hkind⟩ := h.closes
  have hopen := (passes_opening h.opens).reaches
  have hlength := hopen.length_rest_le.trans hn
  exact interpolation_eq_ok_iff.mpr ⟨untilBrace_of_run hrun h.unended hdepth hclose hkind
    (hopen.one_le_line hline) hlength hlength, rfl⟩

/-! ### Strings

The text of a part ends where an interpolation begins or the delimiter stands, and the two cannot
stand at one place. -/

theorem not_opening_of_delimiter {cs : List Char} {multiline : Bool}
    (h : delimiter multiline <+: cs) : ¬ ['$', '{'] <+: cs := by
  obtain ⟨ds, rfl⟩ := h
  cases multiline <;> simp [delimiter]

/-- The parts of a string are read where they stand, if its interpolations are. -/
theorem Fragments.stringFragments_eq {multiline : Bool} {parts : List StringFragment}
    (h : Fragments multiline c parts d)
    (hdepth : ∀ i ∈ parts.filterMap StringFragment.interpolation?, depthBehind 0 i.1 = some 0)
    (hline : 1 ≤ c.pos.line) (hn : c.rest.length ≤ n) (hk : c.rest.length ≤ k) :
    stringFragments n (token n) multiline start k c = .ok (parts, d) := by
  induction h generalizing k with
  | @last c closes =>
    have htext := (passes_stringText multiline c).reaches.length_rest_le
    have hmark := (passes_delimiter closes).length_rest
    have hpos := length_delimiter_pos multiline
    obtain ⟨k, rfl⟩ : ∃ m, k = m + 1 := ⟨k - 1, by omega⟩
    exact stringFragments_succ_eq_ok_iff.mpr
      (.inr ⟨not_opening_of_delimiter closes, closes, rfl, rfl⟩)
  | @interpolation c e d ts parts head tail ih =>
    have htext := (passes_stringText multiline c).reaches
    have hmark := (passes_opening head.opens).length_rest
    have hinside := head.reaches_inside.length_rest_le
    have hlength := htext.length_rest_le
    simp only [List.length_cons, List.length_nil] at hmark
    simp only [List.filterMap_cons, StringFragment.interpolation?, List.forall_mem_cons] at hdepth
    obtain ⟨k, rfl⟩ : ∃ m, k = m + 1 := ⟨k - 1, by omega⟩
    -- the interpolation is read by its own rule, and what is behind it with the smaller bound
    have hfirst := head.interpolation_eq hdepth.1 (htext.one_le_line hline) (hlength.trans hn)
    have hmore : stringFragments n (token n) multiline start k e = .ok (parts, d) :=
      ih hdepth.2 ((htext.trans head.reaches).one_le_line hline) (by omega) (by omega)
    exact stringFragments_succ_eq_ok_iff.mpr (.inl ⟨head.opens, _, _, _, _, hfirst, hmore, rfl⟩)

/-! ### Tokens

The first characters decide between the forms, in the order in which the reader tries them. -/

theorem tokenAt_of_stands (h : Stands c t d)
    (hdepth : ∀ i ∈ t.interpolations, depthBehind 0 i.1 = some 0) (hline : 1 ≤ c.pos.line)
    (hn : c.rest.length ≤ n) : tokenAt n (token n) c = .ok (t, d) := by
  cases h with
  | endOfInput hnil => rw [tokenAt, hnil]
  | interpolation henc =>
    obtain ⟨cs, hcs⟩ := henc.opens
    refine (tokenAt_eq_ok_iff hcs.symm).mpr (.inl ⟨henc.opens, _, _, ?_, rfl⟩)
    exact henc.interpolation_eq (hdepth _ List.mem_cons_self) hline hn
  | @string _ multiline parts opens hparts =>
    -- a delimiter has a first character
    obtain ⟨ch, cs, hcs⟩ : ∃ ch cs, c.rest = ch :: cs :=
      List.exists_cons_of_ne_nil fun hnil => by
        rw [hnil] at opens
        cases multiline <;> simp [delimiter] at opens
    have hskip := (passes_delimiter opens).reaches
    refine (tokenAt_eq_ok_iff hcs).mpr (.inr (.inl ⟨not_opening_of_delimiter opens, multiline,
      opens, stringToken_eq_ok_iff.mpr ⟨parts, ?_, rfl⟩⟩))
    have hlength := hskip.length_rest_le.trans hn
    exact hparts.stringFragments_eq hdepth (hskip.one_le_line hline) hlength hlength
  | plain hcs hopen hquote hkind =>
    exact (tokenAt_eq_ok_iff hcs).mpr
      (.inr (.inr ⟨hopen, hquote, plainTokenAt_eq_ok_iff.mpr ⟨_, hkind, rfl, rfl⟩⟩))

/-- **A token is read where it stands**, if the braces of its interpolations match. -/
theorem reads_iff (hline : 1 ≤ c.pos.line) : Reads c t d ↔
    Stands c.skipBlanks t d ∧ ∀ i ∈ t.interpolations, depthBehind 0 i.1 = some 0 := by
  refine ⟨fun h => ⟨h.stands, h.depthBehind⟩, fun ⟨h, hdepth⟩ => ?_⟩
  have hblanks := (passes_skipBlanks c).reaches
  exact ⟨c.rest.length + 1, Nat.le_succ _,
    tokenAt_of_stands h hdepth (hblanks.one_le_line hline) hblanks.length_rest_le⟩

/-! ### A text that is one token

In front of the token there must be no blank, and behind it nothing at all. What the readers then
find next is the end of the text. -/

theorem skipBlanks_of_not_isBlank {ch : Char} {cs : List Char} (h : c.rest = ch :: cs)
    (hch : isBlank ch = false) : c.skipBlanks = c := by
  obtain ⟨rest, pos⟩ := c
  obtain rfl : rest = ch :: cs := h
  simp [Cursor.skipBlanks, Cursor.past, blanks, hch]

/-- **A text that is one token.** -/
theorem tokenize_of_stands {source : String} {ch : Char} {cs : List Char}
    (hsource : source.toList = ch :: cs) (hch : isBlank ch = false ∧ ch ≠ Cursor.byteOrderMark)
    (h : Stands ⟨source.toList, .start⟩ t d)
    (hdepth : ∀ i ∈ t.interpolations, depthBehind 0 i.1 = some 0) (hend : t.isEnd = false)
    (hd : d.rest = []) : tokenize source = .ok [t, ⟨.endOfInput, .point d.pos⟩] := by
  rw [tokenize, Cursor.ofText_of_head?_ne (by simpa [hsource] using hch.2)]
  have hskip := skipBlanks_of_not_isBlank (c := ⟨source.toList, .start⟩) hsource hch.1
  have hskip' := skipBlanks_of_rest_eq_nil hd
  have hread : Reads ⟨source.toList, .start⟩ t d :=
    (reads_iff le_rfl).mpr ⟨hskip.symm ▸ h, hdepth⟩
  have htokens := tokensFrom_of_run (.cons hread (.nil d)) (by simpa using hend) le_rfl le_rfl
    le_rfl (hskip'.symm ▸ hd)
  rw [hskip'] at htokens
  exact htokens

end Lexical

end NixSyntax
