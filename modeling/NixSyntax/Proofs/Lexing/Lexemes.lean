import NixSyntax.Proofs.Lexing.Nested

/-!
# What the text of a token says

A token is made from its text, and the text can be told from the token, or what is in it can:
a mark, a keyword or a name is written in one way only, a number may have more zeros, and a path or
a string may have more backslashes. `TokenKind.SpelledBy` says for each kind of token what its text
looks like.

## Backslashes

In paths and in strings a backslash takes the next character as it is, but for three letters that
mean something else in a string. `resolveEscapes` is that rule on its own. Nothing else is changed
in either of them, so `resolveEscapes` turns their text into their content.

A path may end in a backslash that has nothing behind it. That one is dropped.

## What is the same in all forms

`SpelledBy` relates a kind to a text and says nothing about where the text stands. For a flat token
it is complete: the kind can be computed from the text. For a token that holds tokens it says how
the text begins and ends, and what stands between is said by the tokens that are there.

Numbers are compared by value, a whole one by the number that its digits mean and one with a
fraction by the double that is nearest to it. Leading zeros are lost in both.

## Main definitions

* `resolveEscapes`: a text without its backslashes
* `TokenKind.SpelledBy`: the texts of a token

## Main results

* `Lexical.Stands.spelledBy`: a token is spelled by the text that it takes
* `Lexical.resolveEscapes_stringText`: so is the text in a string
-/

namespace NixSyntax

/-- The text that is meant by a text with backslashes. A backslash in front of `c` stands for
`meaning c`, and at the end for nothing. -/
def resolveEscapes (meaning : Char → Char) : List Char → List Char
  | '\\' :: c :: cs => meaning c :: resolveEscapes meaning cs
  | ['\\'] => []
  | c :: cs => c :: resolveEscapes meaning cs
  | [] => []

/-- A backslash and the character behind it become one character. -/
@[simp] theorem resolveEscapes_backslash (meaning : Char → Char) (c : Char) (cs : List Char) :
    resolveEscapes meaning ('\\' :: c :: cs) = meaning c :: resolveEscapes meaning cs := by
  simp [resolveEscapes]

/-- All other characters stay. -/
theorem resolveEscapes_cons (meaning : Char → Char) {c : Char} (h : c ≠ '\\') (cs : List Char) :
    resolveEscapes meaning (c :: cs) = c :: resolveEscapes meaning cs := by
  rw [resolveEscapes]
  · exact fun _ _ hc => absurd hc h
  · exact fun hc => absurd hc h

/-- The texts of a token, by its kind. -/
def TokenKind.SpelledBy (text : List Char) : TokenKind → Prop
  | .endOfInput => text = []
  | .newline => text = ['\n'] ∨ text = ['\r', '\n']
  | .comment content false => text = '#' :: content.toList ∧ '\n' ∉ content.toList
  | .comment content true =>
    text = '/' :: '*' :: (content.toList ++ ['*', '/']) ∧ ¬ ['*', '/'] <:+: content.toList
  | .null => text = "null".toList
  | .bool value => text = (if value then "true" else "false").toList
  | .string _ multiline => ∃ body,
    text = Lexical.delimiter multiline ++ (body ++ Lexical.delimiter multiline)
  | .int value =>
    text ≠ [] ∧ (∀ c ∈ text, c.isDigit = true) ∧ (decimalValue text : Int) = value.toInt
  | .float value => ∃ whole fraction, text = whole ++ '.' :: fraction ∧
    (whole ≠ [] ∧ ∀ c ∈ whole, c.isDigit = true) ∧
    (fraction ≠ [] ∧ ∀ c ∈ fraction, c.isDigit = true) ∧ value = floatOfDigits whole fraction
  | .path value => value.toList = resolveEscapes id text
  | .keyword k => text = k.word.toList
  | .identifier name => text = name.toList ∧
    (∃ c cs, text = c :: cs ∧ isNameStart c = true ∧ ∀ d ∈ cs, isNameChar d = true) ∧
    Keyword.ofWord? name = none ∧ name ∉ ["null", "true", "false"]
  | .symbol s => text = s.spelling
  | .interpolation _ => ∃ body, text = '$' :: '{' :: (body ++ ['}'])

namespace Lexical

variable {c : Char} {cs : List Char} {kind : TokenKind}

/-! ### Flat tokens

One lemma for each scanner. What a scanner takes and what it makes of it are computed together, so
most of these are by induction on the text, in step with the scanner. -/

theorem spelling_of_bracket? {s : Symbol} (h : bracket? c = some s) : [c] = s.spelling := by
  unfold bracket? at h
  split at h <;> cases h <;> rfl

/-- A line break is a line feed, with or without a carriage return. -/
theorem spelledBy_lineBreak (h : startsLineBreak (c :: cs) = true) :
    (lineBreak (c :: cs)).value.SpelledBy (lineBreak (c :: cs)).text := by
  unfold startsLineBreak at h
  split at h
  · rename_i ds heq
    rw [heq]
    exact .inl rfl
  · rename_i ds heq
    rw [heq]
    exact .inr rfl
  · cases h

/-- A word is looked up among the words that have a meaning of their own, and is a name if it is
none of them. -/
theorem spelledBy_wordKind {text : List Char} (h : ∃ c cs, text = c :: cs ∧ isNameStart c = true ∧
    ∀ d ∈ cs, isNameChar d = true) : (wordKind (String.ofList text)).SpelledBy text := by
  have hword {w : String} (hw : String.ofList text = w) : text = w.toList := by simp [← hw]
  unfold wordKind
  split
  · exact hword ‹_›
  rename_i hnull
  split
  · exact hword ‹_›
  rename_i htrue
  split
  · exact hword ‹_›
  rename_i hfalse
  split
  · rename_i k hk
    exact hword (Keyword.ofWord?_eq_some_iff.mp hk).symm
  · rename_i hk
    exact ⟨by simp, h, hk, by simp [hnull, htrue, hfalse]⟩

theorem spelledBy_word (h : isNameStart c = true) :
    (word (c :: cs)).value.SpelledBy (word (c :: cs)).text := by
  have htext : (word (c :: cs)).text = c :: cs.takeWhile isNameChar := by
    simp [word, Lexeme.run, isNameChar_of_isNameStart h]
  exact spelledBy_wordKind ⟨c, _, htext, h, fun _ hd => List.mem_takeWhile_imp hd⟩

/-- An operator is read as the characters it has. -/
theorem value_growOperator (taken cs : List Char) :
    (growOperator taken cs).value = (growOperator taken cs).text := by
  fun_induction growOperator taken cs with
  | case1 => rfl
  | case2 _ _ _ _ ih => simp [Lexeme.before, ih]
  | case3 => rfl

/-- An operator is spelled as in the table. -/
theorem spelledBy_operator (h : (operator c cs).value = .ok kind) :
    kind.SpelledBy (operator c cs).text := by
  unfold operator at h ⊢
  dsimp only at h ⊢
  split at h
  · rename_i s hs
    cases h
    obtain ⟨-, hspelling⟩ := Symbol.ofSpelling?_eq_some_iff.mp hs
    rw [TokenKind.SpelledBy, hspelling]
    simp [Lexeme.before, value_growOperator]
  · cases h

/-- A comment ends at the first place where it can. -/
theorem not_infix_of_blockTail {text rest : List Char} (h : blockTail cs = some (text, rest)) :
    ¬ ['*', '/'] <:+: text := by
  fun_induction blockTail cs generalizing text with
  | case1 => simp_all
  | case2 c cs hclose ih =>
    obtain ⟨⟨text', rest'⟩, htail, heq⟩ := Option.map_eq_some_iff.mp h
    obtain ⟨rfl, rfl⟩ := Prod.mk.inj heq
    rw [List.infix_cons_iff]
    rintro (hfront | hinside)
    · obtain ⟨ds, hds⟩ := hfront
      obtain ⟨rfl, rfl⟩ : '*' = c ∧ '/' :: ds = text' := by simpa using hds
      exact hclose (ds ++ '*' :: '/' :: rest') rfl (eq_append_of_blockTail htail)
    · exact ih htail hinside
  | case3 => cases h

theorem spelledBy_blockComment (h : (blockComment cs).value = .ok kind) :
    kind.SpelledBy (blockComment cs).text := by
  unfold blockComment at h ⊢
  split at h
  · rename_i text rest htail
    cases h
    simp only [TokenKind.SpelledBy, String.toList_ofList]
    exact ⟨trivial, not_infix_of_blockTail htail⟩
  · cases h

theorem ne_backslash_of_isPathChar (h : isPathChar c = true) : c ≠ '\\' := by
  rintro rfl
  exact absurd h (by decide)

/-- The content of a path is its text without backslashes, the last one included if nothing
follows. -/
theorem resolveEscapes_pathTail (cs : List Char) :
    resolveEscapes id (pathTail cs).text = (pathTail cs).value := by
  fun_induction pathTail cs with
  | case1 cs ih =>
    simp [Lexeme.before, ih, resolveEscapes_cons id (c := '\n') (by decide)]
  | case2 c cs _ ih => simp [Lexeme.before, ih]
  | case3 => rfl
  | case4 c cs _ _ _ hc ih =>
    simp [Lexeme.before, ih, resolveEscapes_cons id (ne_backslash_of_isPathChar hc)]
  | case5 => rfl
  | case6 => rfl

theorem spelledBy_path (h : startsPath c cs = true) :
    (path c cs).value.SpelledBy (path c cs).text := by
  have hc : c ≠ '\\' := by
    rintro rfl
    cases cs <;> simp [startsPath, isPathStart] at h
  simp [path, TokenKind.SpelledBy, Lexeme.before, resolveEscapes_cons id hc,
    resolveEscapes_pathTail]

theorem toInt_ofNat_of_le {n : Nat} (h : n ≤ maxInt) : (Int64.ofNat n).toInt = n := by
  have hmax : maxInt = 2 ^ 63 - 1 := rfl
  rw [Int64.toInt_ofNat_of_lt (by omega)]

theorem spelledBy_intKind {digits : List Char} (hne : digits ≠ [])
    (hdigits : ∀ d ∈ digits, d.isDigit = true) (h : intKind digits = .ok kind) :
    kind.SpelledBy digits := by
  unfold intKind at h
  split at h
  · rename_i hle
    cases h
    exact ⟨hne, hdigits, (toInt_ofNat_of_le hle).symm⟩
  · cases h

/-- A number is digits, or digits with a point between. -/
theorem spelledBy_number (hc : c.isDigit = true) (h : (number (c :: cs)).value = .ok kind) :
    kind.SpelledBy (number (c :: cs)).text := by
  have hrun (d : Char) (ds : List Char) (hd : d.isDigit = true) :
      (d :: ds).takeWhile Char.isDigit ≠ [] ∧
        ∀ x ∈ (d :: ds).takeWhile Char.isDigit, x.isDigit = true :=
    ⟨by simp [hd], fun _ hx => List.mem_takeWhile_imp hx⟩
  obtain ⟨hne, hall⟩ := hrun c cs hc
  unfold number at h ⊢
  dsimp only at h ⊢
  split at h
  · rename_i d rest hrest
    split at h
    · rename_i hd
      cases h
      simp only [hrest, hd, if_true]
      exact ⟨_, _, rfl, ⟨hne, hall⟩, hrun d rest hd, rfl⟩
    · rename_i hd
      simp only [hrest, if_neg hd]
      exact spelledBy_intKind hne hall h
  · exact spelledBy_intKind hne hall h

/-- A comment to the end of the line keeps its characters and has no line feed. -/
theorem lineTail_spec (cs : List Char) :
    (lineTail cs).value = (lineTail cs).text ∧ '\n' ∉ (lineTail cs).text := by
  fun_induction lineTail cs with
  | case1 => simp
  | case2 => simp
  | case3 c cs h ih =>
    have hc : '\n' ≠ c := by
      rintro rfl
      exact h rfl
    simp [Lexeme.before, ih.1, ih.2, hc]

/-- **A flat token is spelled by the text that it takes.** -/
theorem spelledBy_plainToken (h : (plainToken c cs).value = .ok kind) :
    kind.SpelledBy (plainToken c cs).text := by
  have hform := plainForm_plainToken c cs
  generalize plainToken c cs = l at hform h
  cases hform with
  | bracket hs =>
    cases h
    exact spelling_of_bracket? hs
  | lineBreak hstart =>
    cases h
    exact spelledBy_lineBreak hstart
  | word hc =>
    cases h
    exact spelledBy_word hc
  | dot hc =>
    cases h
    exact congrArg ([·]) hc
  | operator => exact spelledBy_operator h
  | blockComment => exact spelledBy_blockComment h
  | path hstart =>
    cases h
    exact spelledBy_path hstart
  | number hc => exact spelledBy_number hc h
  | lineComment =>
    cases h
    obtain ⟨hvalue, hbreak⟩ := lineTail_spec cs
    simpa [lineComment, TokenKind.SpelledBy, hvalue] using hbreak
  | unexpected => cases h

/-! ### The text of strings

Where the text of a string goes on behind it, no backslash was cut from its character. -/

section

variable {a d : Cursor} {t : Token} {ts : List Token}

/-- A closing brace takes one character. -/
theorem Stands.passes_closeBrace (h : Stands a t d) (ht : t.kind = .symbol .closeBrace) :
    a.Passes ['}'] d := by
  cases h with
  | endOfInput | interpolation | string => cases ht
  | plain hcs _ _ h =>
    obtain rfl := ht
    have htext : (plainToken _ _).text = ['}'] := spelledBy_plainToken h
    exact htext ▸ passes_plainToken hcs

/-- The tokens of an interpolation stand behind its opening, and its closing brace behind them. -/
theorem Encloses.exists_run (h : Encloses a ts d) :
    ∃ mid, Run (a.skip 2) ts mid ∧ mid.skipBlanks.Passes ['}'] d := by
  obtain ⟨mid, close, hrun, hclose, hkind⟩ := h.closes
  exact ⟨mid, hrun, hclose.stands.passes_closeBrace hkind⟩

/-- An interpolation begins with its opening and ends with a brace. -/
theorem Encloses.exists_passes_braces (h : Encloses a ts d) :
    ∃ body, a.Passes ('$' :: '{' :: (body ++ ['}'])) d := by
  obtain ⟨mid, hrun, hclose⟩ := h.exists_run
  obtain ⟨body, hbody⟩ := hrun.reaches.trans (passes_skipBlanks mid).reaches
  exact ⟨body, (passes_opening h.opens).trans (hbody.trans hclose)⟩

/-- A string ends with its delimiter. -/
theorem Fragments.exists_passes_delimiter {multiline : Bool} {parts : List StringFragment}
    (h : Fragments multiline a parts d) :
    ∃ mid, a.Reaches mid ∧ mid.Passes (delimiter multiline) d := by
  induction h with
  | last closes => exact ⟨_, (passes_stringText _ _).reaches, passes_delimiter closes⟩
  | interpolation head _ ih =>
    obtain ⟨mid, hmid, hclose⟩ := ih
    exact ⟨mid, (passes_stringText _ _).reaches.trans (head.reaches.trans hmid), hclose⟩

/-- **A token is spelled by the text that it takes.** -/
theorem Stands.spelledBy (h : Stands a t d) :
    ∃ text, a.Passes text d ∧ t.kind.SpelledBy text := by
  cases h with
  | endOfInput => exact ⟨[], .refl a, rfl⟩
  | interpolation h =>
    obtain ⟨body, hbody⟩ := h.exists_passes_braces
    exact ⟨_, hbody, body, rfl⟩
  | string opens h =>
    obtain ⟨mid, ⟨body, hbody⟩, hclose⟩ := h.exists_passes_delimiter
    exact ⟨_, (passes_delimiter opens).trans (hbody.trans hclose), body, rfl⟩
  | plain hcs _ _ h => exact ⟨_, passes_plainToken hcs, spelledBy_plainToken h⟩

end

end Lexical

end NixSyntax
