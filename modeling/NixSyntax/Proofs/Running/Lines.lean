import NixSyntax.Proofs.Lexing.Slices
import NixSyntax.Proofs.Running.Batches

/-!
# The lines of a list of tokens

The tokens of a file are listed with a line feed behind each. Whether that makes one line for each
of them depends on what is in front of the line feed: the place of the token and what a message
calls it. Of most tokens a message says no more than their sort, so the line feeds in comments and
strings are not seen. Numbers, words and marks are written out and have none.

A path is written out too, with its backslashes resolved, and a backslash can stand in front of a
line feed. The list has a line too many for each such line feed, and there is no other way for it
to have one.

## Line feeds in an entry

An entry is a place, a tab, and what a message calls the token. The place is four numbers, and the
digits of a number have no line feed. What a message calls a token depends on its kind, so
`lineFeed_mem_describe_iff` goes through these. Where a name is written out, it is used that the
token was read from a text: the characters of a name are those that the rule for names takes, and a
line feed is none of them. The other kinds that are written out come from tables, or are numbers.

## From entries to lines

A list is cut at its line feeds. If no entry has one, the pieces are the entries, with nothing
behind the last line feed. If one has, there are more line feeds than entries. Both are facts about
any lists with marks between them, and are stated so.

## Main definitions

* `Token.entry`: the line on a token, without the line feed at its end
* `TokenKind.IsBrokenPath`: paths with a line feed in them

## Main results

* `lineFeed_mem_entry_iff`: which entries of a text's tokens are over several lines
* `lines_run_tokens`: when the lines of a list are its tokens
* `exists_broken_path`: when they are not
-/

namespace NixSyntax

/-! ### Texts without a line feed

What can be written out in an entry, from the characters up to numbers with a sign, a point and a
power of ten. -/

theorem ne_lineFeed_of_isDigit {c : Char} (h : c.isDigit = true) : c ≠ '\n' := by
  rintro rfl
  cases h

theorem ne_lineFeed_of_isNameChar {c : Char} (h : isNameChar c = true) : c ≠ '\n' := by
  rintro rfl
  exact absurd (isBlank_of_isNameChar h) (by decide)

theorem lineFeed_notMem_toDigits (n : Nat) : '\n' ∉ Nat.toDigits 10 n := by
  intro h
  exact ne_lineFeed_of_isDigit (Nat.isDigit_of_mem_toDigits (by decide) (Nat.le_refl 10) h) rfl

/-- A number is written with digits only. -/
theorem lineFeed_notMem_toString (n : Nat) : '\n' ∉ (toString n).toList := by
  simpa using lineFeed_notMem_toDigits n

theorem lineFeed_notMem_toString_int (i : Int) : '\n' ∉ (toString i).toList := by
  cases i with
  | ofNat n => exact lineFeed_notMem_toString n
  | negSucc n =>
    change '\n' ∉ ("-" ++ toString (n + 1)).toList
    simpa using lineFeed_notMem_toDigits (n + 1)

theorem lineFeed_notMem_word (k : Keyword) : '\n' ∉ k.word.toList := by
  cases k <;> decide

theorem lineFeed_notMem_text (s : Symbol) : '\n' ∉ s.text.toList := by
  cases s <;> decide

namespace NumberLayout

variable {l : NumberLayout} (hmark : '\n' ∉ l.wholeMark.toList)
include hmark

/-- Digits with a point among them, or with the mark of whole numbers behind. -/
theorem lineFeed_notMem_positional (d : Decimal) : '\n' ∉ (l.positional d).toList := by
  have hdigits : '\n' ∉ digitsOf d.digits := lineFeed_notMem_toDigits d.digits
  have hpadded (n : Nat) : '\n' ∉ List.replicate n '0' ++ digitsOf d.digits := by
    simpa using hdigits
  unfold positional
  dsimp only
  split
  · simpa using ⟨hdigits, hmark⟩
  · rw [String.toList_ofList, List.mem_append, List.mem_cons]
    -- in front of the point, the point, and behind it
    rintro (h | h | h)
    · exact hpadded _ (List.mem_of_mem_take h)
    · cases h
    · exact hpadded _ (List.mem_of_mem_drop h)

omit hmark in
/-- Digits and a power of ten. -/
theorem lineFeed_notMem_scientific (d : Decimal) (power : Int) :
    '\n' ∉ (scientific d power).toList := by
  have hdigits : '\n' ∉ digitsOf d.digits := lineFeed_notMem_toDigits d.digits
  have hpower : '\n' ∉ ("e" ++ toString power).toList := by
    rw [String.toList_append, List.mem_append]
    rintro (h | h)
    · exact absurd h (by decide)
    · exact lineFeed_notMem_toString_int power h
  unfold scientific
  dsimp only
  rw [String.append_assoc, String.toList_append, List.mem_append, not_or, String.toList_ofList]
  refine ⟨?_, hpower⟩
  split
  · rename_i first second more hd
    rw [hd] at hdigits
    simpa using hdigits
  · exact hdigits

/-- A number is on one line, if the mark of whole numbers is. -/
theorem lineFeed_notMem_write (x : Float) : '\n' ∉ (l.write x).toList := by
  have hdecimal (d : Decimal) : '\n' ∉ (l.writeDecimal d).toList := by
    unfold writeDecimal
    dsimp only
    split
    · exact lineFeed_notMem_scientific d _
    · exact lineFeed_notMem_positional hmark d
  have hsign : '\n' ∉ (if Binary64.isNegative x.toBits.toNat then "-" else "").toList := by
    split <;> decide
  unfold write
  dsimp only
  split
  · split
    · simpa using hsign
    · decide
  · split
    · simpa using ⟨hsign, hmark⟩
    · simpa using ⟨hsign, hdecimal _⟩

end NumberLayout

/-! ### Entries

Whether the entry of a token is on one line is decided by what a message calls the token. -/

/-- The line on a token, without the line feed at its end. -/
def Token.entry (t : Token) : String :=
  toString t.span.start.line ++ ":" ++ toString t.span.start.column ++ "-" ++
    toString t.span.stop.line ++ ":" ++ toString t.span.stop.column ++ "\t" ++ t.kind.describe

theorem Token.line_eq (t : Token) : t.line = t.entry ++ "\n" := rfl

/-- A path with a line feed in it. -/
def TokenKind.IsBrokenPath : TokenKind → Prop
  | .path value => '\n' ∈ value.toList
  | _ => False

/-- The place of a token is on one line, so the rest decides. -/
theorem Token.lineFeed_mem_entry_iff_describe (t : Token) :
    '\n' ∈ t.entry.toList ↔ '\n' ∈ t.kind.describe.toList := by
  have hplace (n : Nat) := lineFeed_notMem_toString n
  simp only [entry, String.toList_append, List.mem_append, hplace, false_or]
  simp

/-- What a message calls a token that was read from a text is on one line, unless it is a path over
several lines. -/
theorem TokenKind.lineFeed_mem_describe_iff {kind : TokenKind} {text : List Char}
    (h : kind.SpelledBy text) : '\n' ∈ kind.describe.toList ↔ kind.IsBrokenPath := by
  have hquotes (s : String) : '\n' ∈ (inQuotes s).toList ↔ '\n' ∈ s.toList := by
    simp [inQuotes]
  cases kind with
  | endOfInput | newline | null => exact iff_of_false (by decide) id
  | comment | string | interpolation => simp [describe, IsBrokenPath]
  | bool value =>
    refine iff_of_false ?_ id
    cases value <;> decide
  | int value =>
    refine iff_of_false ?_ id
    simpa [describe, hquotes] using lineFeed_notMem_toString_int value.toInt
  | float value =>
    refine iff_of_false ?_ id
    have hwrite := NumberLayout.lineFeed_notMem_write (l := messageNumbers) (by decide) value
    simpa [describe, hquotes] using hwrite
  | path value => simp [describe, hquotes, IsBrokenPath]
  | keyword k =>
    refine iff_of_false ?_ id
    simpa [describe, hquotes] using lineFeed_notMem_word k
  | symbol s =>
    refine iff_of_false ?_ id
    simpa [describe, hquotes] using lineFeed_notMem_text s
  | identifier name =>
    -- the characters of a name are those that its rule takes
    obtain ⟨rfl, ⟨c, cs, htext, hc, hcs⟩, -, -⟩ := h
    have hname : '\n' ∉ name.toList := by
      rw [htext, List.mem_cons]
      rintro (rfl | hmem)
      · exact ne_lineFeed_of_isNameChar (isNameChar_of_isNameStart hc) rfl
      · exact ne_lineFeed_of_isNameChar (hcs _ hmem) rfl
    refine iff_of_false ?_ id
    simpa [describe, hquotes] using hname

/-- **Which entries of a text's tokens are over several lines**: those of paths over several
lines. -/
theorem lineFeed_mem_entry_iff {source : String} {ts : List Token} {t : Token}
    (h : tokenize source = .ok ts) (ht : t ∈ ts) :
    '\n' ∈ t.entry.toList ↔ t.kind.IsBrokenPath := by
  obtain ⟨c, d, -, hstands⟩ := Lexical.stands_of_mem_nestedTokens h (mem_nestedTokens_of_mem ht)
  obtain ⟨text, -, hspelled⟩ := hstands.spelledBy
  rw [t.lineFeed_mem_entry_iff_describe, TokenKind.lineFeed_mem_describe_iff hspelled]

/-! ### Lines

Stretches of any elements, with a mark behind each. -/

section Lines

variable {α : Type} [DecidableEq α] (feed : α) (lines : List (List α))

/-- There is a mark behind every stretch. -/
theorem length_le_count_ended :
    lines.length ≤ (lines.flatMap (· ++ [feed])).count feed := by
  induction lines with
  | nil => exact Nat.le_refl 0
  | cons l lines ih =>
    simp only [List.flatMap_cons, List.count_append, List.count_singleton_self, List.length_cons]
    omega

/-- Some stretches, each ended by a mark, have as many marks as there are stretches, if no stretch
has one in it. -/
theorem count_ended_eq_length_iff :
    (lines.flatMap (· ++ [feed])).count feed = lines.length ↔ ∀ l ∈ lines, feed ∉ l := by
  induction lines with
  | nil => simp
  | cons l lines ih =>
    have hle := length_le_count_ended feed lines
    rw [List.forall_mem_cons, ← ih, ← List.count_eq_zero]
    simp only [List.flatMap_cons, List.count_append, List.count_singleton_self, List.length_cons]
    omega

variable {feed lines} in
/-- Stretches without a mark in them, each ended by one, are found again between the marks. -/
theorem splitOn_ended (h : ∀ l ∈ lines, feed ∉ l) :
    (lines.flatMap (· ++ [feed])).splitOn feed = lines ++ [[]] := by
  induction lines with
  | nil => simp
  | cons l lines ih =>
    obtain ⟨hl, hlines⟩ := List.forall_mem_cons.mp h
    have htail := ih hlines
    simp [List.splitOn_append_cons_self_of_not_mem hl, htail]

end Lines

/-- The list of some tokens is their entries, with a line feed behind each. -/
theorem toList_join_line (ts : List Token) : (String.join (ts.map Token.line)).toList =
    (ts.map fun t => t.entry.toList).flatMap (· ++ ['\n']) := by
  induction ts with
  | nil => rfl
  | cons t ts ih => simp [Token.line_eq, ih]

/-- **The list of a file's tokens has a line for each of them**, in their order, which says where
the token stands and what a message calls it. The only exception are paths with a line feed in
them: with such a path the list has more line feeds than there are tokens. -/
theorem lines_run_tokens {directory : Directory} {file source : String} {ts : List Token}
    (hread : directory file = .ok source) (h : tokenize source = .ok ts) :
    (Command.tokens.run directory [file]).code = 0 ∧
    (Command.tokens.run directory [file]).errors = "" ∧
    (Command.tokens.run directory [file]).output = String.join (ts.map fun t => t.entry ++ "\n") ∧
    ((Command.tokens.run directory [file]).output.toList.count '\n' = ts.length ↔
      ∀ t ∈ ts, ¬ t.kind.IsBrokenPath) ∧
    ((∀ t ∈ ts, ¬ t.kind.IsBrokenPath) →
      (Command.tokens.run directory [file]).output.toList.splitOn '\n' =
        (ts.map fun t => t.entry.toList) ++ [[]]) := by
  have hrun : Command.tokens.run directory [file] = ⟨0, String.join (ts.map Token.line), ""⟩ := by
    simp [Command.run_single, Command.report, Command.reportText, hread, h, Report.outcome]
  -- that no token is a broken path says that no entry has a line feed
  have hentries : (∀ t ∈ ts, ¬ t.kind.IsBrokenPath) ↔
      ∀ l ∈ ts.map fun t => t.entry.toList, '\n' ∉ l := by
    rw [List.forall_mem_map]
    exact forall₂_congr fun t ht => not_congr (lineFeed_mem_entry_iff h ht).symm
  rw [hrun, hentries]
  refine ⟨rfl, rfl, rfl, ?_, ?_⟩
  · rw [toList_join_line, ← count_ended_eq_length_iff, List.length_map]
  · intro hbroken
    rw [toList_join_line]
    exact splitOn_ended hbroken

/-- A comment over two lines and a string over two lines, with nothing between them. -/
def tallText : String := "/*\n*/''\n''"

/-- A directory with two files: that text, and a path with a line feed in it. -/
def tallDirectory : Directory
  | "tall.nix" => .ok tallText
  | "path.nix" => .ok "./a\\\nb"
  | _ => .error .missing

/-- The list has three lines. The third is on the end of the text. -/
theorem lines_run_tokens_tallText :
    (Command.tokens.run tallDirectory ["tall.nix"]).output.toList.splitOn '\n' =
      ["1:1-2:3\tcomment".toList, "2:3-3:3\tstring".toList, "3:3-3:3\tend of input".toList, []] := by
  have hread : tallDirectory "tall.nix" = .ok tallText := rfl
  have h : tokenize tallText = .ok
      [⟨.comment "\n" true, ⟨⟨1, 1, 0⟩, ⟨2, 3, 5⟩⟩⟩,
        ⟨.string [.text "\n"] true, ⟨⟨2, 3, 5⟩, ⟨3, 3, 10⟩⟩⟩,
        ⟨.endOfInput, .point ⟨3, 3, 10⟩⟩] := rfl
  obtain ⟨-, -, -, -, hlines⟩ := lines_run_tokens hread h
  rw [hlines (by simp [TokenKind.IsBrokenPath])]
  decide

/-- **A path with a line feed in it takes two lines**: the file holds two tokens, and their list has
three lines. -/
theorem exists_broken_path : ∃ source ts,
    tallDirectory "path.nix" = .ok source ∧ tokenize source = .ok ts ∧ ts.length = 2 ∧
    (Command.tokens.run tallDirectory ["path.nix"]).output =
      "1:1-2:2\tpath './a\nb'\n2:2-2:2\tend of input\n" ∧
    (Command.tokens.run tallDirectory ["path.nix"]).output.toList.count '\n' = 3 := by
  have houtput : (Command.tokens.run tallDirectory ["path.nix"]).output =
      "1:1-2:2\tpath './a\nb'\n2:2-2:2\tend of input\n" := rfl
  refine ⟨_, _, rfl, rfl, rfl, houtput, ?_⟩
  rw [houtput]
  decide

end NixSyntax
