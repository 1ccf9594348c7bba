import NixSyntax.Proofs.Lexing.Building

/-!
# What can be written with backslashes

Whatever cannot stand in a path or in a string as it is can stand there behind a backslash. So there
is no text that a string could not hold, and the only thing that tells a path from another text is
how it begins. `withBackslashes` is the way to write a text with a backslash in front of each
character that needs one, and reading it takes the backslashes away again.

A backslash in front of a letter may mean something else in a string, so a string is only read back
if no letter has one.

## Two dots

A path begins with two characters that tell it from the operators, comments and dots that begin in
the same way. A third dot makes two dots an ellipsis, and then no path begins there. But a path can
hold three dots: behind a backslash, the third one is not seen when the forms are told apart.

## Line breaks

In a path, a backslash takes a line break of two characters as a whole. Where both characters have a
backslash of their own, each is taken on its own, and the content is the same.

## Main definitions

* `withBackslashes`: a text with a backslash in front of all that needs one
* `BeginsPath`: the two characters with which a path begins
* `pathSource`: a source with nothing in it but a path

## Main results

* `Lexical.pathTail_withBackslashes`, `Lexical.stringText_withBackslashes`: a text with backslashes
  is read as the text
* `exists_path_iff`: which texts are read as paths, and from which source
-/

namespace NixSyntax

/-! ### Backslashes

Writing a text with backslashes and reading it is no change, in a path and in a string. In both the
induction is on the text that is written, and the backslash and the character behind it are read in
one step. -/

/-- A text with a backslash in front of each character that `needs` one. -/
def withBackslashes (needs : Char → Bool) (cs : List Char) : List Char :=
  cs.flatMap fun c => if needs c then ['\\', c] else [c]

section

variable {needs : Char → Bool} {c : Char} {cs ds : List Char}

/-- An empty text needs none. -/
@[simp] theorem withBackslashes_nil : withBackslashes needs [] = [] := rfl

theorem withBackslashes_cons_of_needs (h : needs c = true) :
    withBackslashes needs (c :: cs) = '\\' :: c :: withBackslashes needs cs := by
  simp [withBackslashes, h]

theorem withBackslashes_cons_of_not_needs (h : needs c = false) :
    withBackslashes needs (c :: cs) = c :: withBackslashes needs cs := by
  simp [withBackslashes, h]

/-- Such a text begins with a backslash, or with a character that needs none. -/
theorem eq_backslash_or_of_withBackslashes (h : withBackslashes needs cs = c :: ds) :
    c = '\\' ∨ needs c = false := by
  cases cs with
  | nil => cases h
  | cons d cs =>
    by_cases hd : needs d = true
    · rw [withBackslashes_cons_of_needs hd] at h
      exact .inl (List.cons.inj h).1.symm
    · have hd : needs d = false := by simpa using hd
      rw [withBackslashes_cons_of_not_needs hd] at h
      obtain ⟨rfl, -⟩ := List.cons.inj h
      exact .inr hd

end

/-- The characters that have a backslash where the text of a string is written: the backslash, both
quotes and the dollar sign. -/
def marksString (c : Char) : Bool :=
  ['\\', '"', '\'', '$'].contains c

/-- What needs no backslash is none of the four marks. -/
theorem ne_of_not_marksString {c : Char} (h : marksString c = false) :
    c ≠ '\\' ∧ c ≠ '"' ∧ c ≠ '\'' ∧ c ≠ '$' := by
  simpa [marksString] using h

namespace Lexical

variable {c d : Char} {cs : List Char} {value : String}

/-- What has a backslash in a string stands for itself behind one. -/
theorem unescape_of_marksString (h : marksString c = true) : unescape c = c := by
  have hc : c = '\\' ∨ c = '"' ∨ c = '\'' ∨ c = '$' := by simpa [marksString] using h
  rcases hc with rfl | rfl | rfl | rfl
  all_goals rfl

/-- A character that needs no backslash is neither a delimiter nor does it begin one. -/
theorem stopsAt_of_not_marksString (h : marksString c = false) (multiline : Bool)
    (cs : List Char) : stopsAt multiline (c :: cs) = false := by
  obtain ⟨-, hquote, hapostrophe, hdollar⟩ := ne_of_not_marksString h
  cases multiline
  · simp [stopsAt, delimiter, List.isPrefixOf, Ne.symm hquote, Ne.symm hdollar]
  · simp [stopsAt, delimiter, List.isPrefixOf, Ne.symm hapostrophe, Ne.symm hdollar]

/-- A text is read back from a path. -/
theorem pathTail_withBackslashes (needs : Char → Bool)
    (hneeds : ∀ c, needs c = false → isPathChar c = true) (cs : List Char) :
    pathTail (withBackslashes needs cs) = ⟨cs, withBackslashes needs cs, []⟩ := by
  induction cs with
  | nil => rfl
  | cons c cs ih =>
    by_cases hc : needs c = true
    · -- the character behind a carriage return is no line feed, but may be its backslash
      have hpair : ∀ ds, c = '\r' → withBackslashes needs cs = '\n' :: ds → False := by
        intro ds _ hcs
        rcases eq_backslash_or_of_withBackslashes hcs with h | h
        · exact absurd h (by decide)
        · exact absurd (hneeds _ h) (by decide)
      rw [withBackslashes_cons_of_needs hc, pathTail_backslash hpair, ih]
      rfl
    · have hc : needs c = false := by simpa using hc
      have hpath := hneeds c hc
      rw [withBackslashes_cons_of_not_needs hc, pathTail_cons (ne_backslash_of_isPathChar hpath),
        if_pos hpath, ih]
      rfl

/-- A text is read back from a string, if the string stops behind it. -/
theorem stringText_withBackslashes {multiline : Bool} {stop : List Char}
    (hstop : stopsAt multiline stop = true) (cs : List Char) :
    stringText multiline (withBackslashes marksString cs ++ stop) =
      ⟨cs, withBackslashes marksString cs, stop⟩ := by
  induction cs with
  | nil => exact stringText_of_stopsAt hstop
  | cons c cs ih =>
    by_cases hc : marksString c = true
    · have hmeaning : unescape c = c := unescape_of_marksString hc
      rw [withBackslashes_cons_of_needs hc, List.cons_append, List.cons_append, stringText, ih,
        hmeaning]
      rfl
    · have hc : marksString c = false := by simpa using hc
      have hgoes := stopsAt_of_not_marksString hc multiline (withBackslashes marksString cs ++ stop)
      rw [withBackslashes_cons_of_not_needs hc, List.cons_append,
        stringText_cons multiline (ne_of_not_marksString hc).1, if_neg (by simp [hgoes]), ih]
      rfl

end Lexical

/-! ### Paths

That a text is read as a path is decided by its first characters, before any backslash can occur.
Everything else of it can be written with backslashes. -/

/-- The two characters with which a path begins. -/
def BeginsPath (c d : Char) : Prop :=
  c = '/' ∧ isPathChar d = true ∧ d ≠ '/' ∨ c = '~' ∧ isPathChar d = true ∨
    c = '.' ∧ (d = '.' ∨ d = '/')

/-- The characters that have a backslash where a path is written: all but letters and digits. -/
def marksPath (c : Char) : Bool := !c.isAlphanum

/-- A source with nothing in it but a path that begins with `c` and `d`, and in which `cs` comes
next. All of that but letters and digits has a backslash. -/
def pathSource (c d : Char) (cs : List Char) : String :=
  String.ofList (c :: d :: withBackslashes marksPath cs)

/-- The second character may stand in a path as it is. -/
theorem isPathChar_of_beginsPath {c d : Char} (h : BeginsPath c d) : isPathChar d = true := by
  rcases h with ⟨-, hd, -⟩ | ⟨-, hd⟩ | ⟨-, rfl | rfl⟩
  · exact hd
  · exact hd
  · rfl
  · rfl

theorem isPathChar_of_not_marksPath {c : Char} (h : marksPath c = false) : isPathChar c = true := by
  have hc : c.isAlphanum = true := by simpa [marksPath] using h
  simp [isPathChar, hc]

namespace Lexical

variable {c d : Char} {cs : List Char} {value : String}

/-- The two characters are those at which the reader of tokens starts a path. A dot starts one
unless it stands alone. -/
theorem beginsPath_iff (cs : List Char) : BeginsPath c d ↔
    startsPath c (d :: cs) = true ∧ (c = '.' → isLoneDot (d :: cs) = false) := by
  have hlone : isLoneDot (d :: cs) = false ↔ d = '.' ∨ d = '/' := by
    by_cases hdot : d = '.' <;> by_cases hslash : d = '/' <;> simp [isLoneDot, hdot, hslash]
  have hmark : isPathChar '.' = true ∧ isPathChar '/' = true := by decide
  rw [hlone]
  simp only [BeginsPath, startsPath, isPathStart]
  grind

/-- A path begins where two characters can begin it and no third one makes them an operator. -/
theorem plainToken_of_beginsPath (h : BeginsPath c d) (hdots : cs.head? ≠ some '.') :
    plainToken c (d :: cs) = ⟨.ok (path c (d :: cs)).value, (path c (d :: cs)).text,
      (path c (d :: cs)).rest⟩ := by
  obtain ⟨hstarts, hlone⟩ := (beginsPath_iff cs).mp h
  have hstar : d ≠ '*' := by
    rintro rfl
    exact absurd (isPathChar_of_beginsPath h) (by decide)
  have hthird : ¬ ['.', '.'].isPrefixOf (d :: cs) = true := by
    rw [List.isPrefixOf_iff_prefix]
    rintro ⟨ds, hds⟩
    obtain ⟨-, rfl⟩ := List.cons.inj hds
    exact hdots rfl
  have hclass : bracket? c = none ∧ startsLineBreak (c :: d :: cs) = false ∧
      isNameStart c = false := by
    rcases h with ⟨rfl, -⟩ | ⟨rfl, -⟩ | ⟨rfl, -⟩
    · exact ⟨rfl, rfl, rfl⟩
    · exact ⟨rfl, rfl, rfl⟩
    · exact ⟨rfl, rfl, rfl⟩
  obtain ⟨hbracket, hbreak, hname⟩ := hclass
  have hdot : ¬ (decide (c = '.') && isLoneDot (d :: cs)) = true := by simpa using hlone
  rw [plainToken, hbracket]
  simp [hbreak, hname, hdot, hthird, hstarts, Ne.symm hstar]

/-- No word is a path. -/
theorem wordKind_ne_path (w : String) : wordKind w ≠ .path value := by
  intro h
  unfold wordKind at h
  repeat' split at h
  all_goals cases h

/-- No number is a path. -/
theorem number_ne_path : (number cs).value ≠ .ok (.path value) := by
  intro h
  obtain ⟨d, ds, hrest, hd⟩ | hnone := fraction_or_whole cs
  · rw [number_of_fraction hrest hd] at h
    cases h
  · rw [number_of_whole hnone, intKind] at h
    split at h <;> cases h

/-- A token that is a path was read as one: no other form becomes a path. -/
theorem plainToken_eq_path (h : (plainToken c cs).value = .ok (.path value)) :
    startsPath c cs = true ∧
      plainToken c cs = ⟨.ok (path c cs).value, (path c cs).text, (path c cs).rest⟩ := by
  have hform := plainForm_plainToken c cs
  generalize plainToken c cs = l at hform h ⊢
  cases hform with
  | bracket | dot | lineComment | unexpected => cases h
  | lineBreak =>
    unfold lineBreak at h
    split at h <;> cases h
  | word => exact absurd (Except.ok.inj h) (wordKind_ne_path _)
  | operator =>
    unfold operator at h
    dsimp only at h
    split at h <;> cases h
  | blockComment =>
    unfold blockComment at h
    split at h <;> cases h
  | path hstarts => exact ⟨hstarts, rfl⟩
  | number => exact absurd h number_ne_path

/-- A dot that begins neither a path nor an ellipsis stands alone. -/
theorem plainToken_dot (h : isLoneDot cs = true) :
    plainToken '.' cs = ⟨.ok (.symbol .dot), ['.'], cs⟩ := by
  simp [plainToken, bracket?, startsLineBreak, isNameStart, h]

/-- **What a path begins with.** -/
theorem beginsPath_of_plainToken (h : (plainToken c cs).value = .ok (.path value)) :
    ∃ d ds, BeginsPath c d ∧ value.toList = c :: d :: ds := by
  have hlone : c = '.' → isLoneDot cs = false := by
    rintro rfl
    by_contra hlone
    rw [plainToken_dot (by simpa using hlone)] at h
    cases h
  obtain ⟨hstarts, heq⟩ := plainToken_eq_path h
  rw [heq] at h
  cases cs with
  | nil => cases hstarts
  | cons d ds =>
    have hbegins := (beginsPath_iff ds).mpr ⟨hstarts, hlone⟩
    have hd := isPathChar_of_beginsPath hbegins
    refine ⟨d, (pathTail ds).value, hbegins, ?_⟩
    obtain rfl : _ = value := TokenKind.path.inj (Except.ok.inj h)
    simp [pathTail_cons (ne_backslash_of_isPathChar hd), hd, Lexeme.before]

/-- A path in a text has at least the two characters that it begins with, and they are among its
content. -/
theorem Stands.beginsPath {a b : Cursor} {t : Token} (h : Stands a t b)
    (ht : t.kind = .path value) : ∃ d e ds, BeginsPath d e ∧ value.toList = d :: e :: ds := by
  cases h with
  | endOfInput | interpolation | string => cases ht
  | plain _ _ _ h =>
    obtain rfl := ht
    obtain ⟨e, ds, hbegins, hvalue⟩ := beginsPath_of_plainToken h
    exact ⟨_, e, ds, hbegins, hvalue⟩

/-- All of a source is read as its path. -/
theorem plainToken_pathSource (h : BeginsPath c d) (cs : List Char) :
    plainToken c (d :: withBackslashes marksPath cs) =
      ⟨.ok (.path (String.ofList (c :: d :: cs))), (pathSource c d cs).toList, []⟩ := by
  have hd := isPathChar_of_beginsPath h
  have hdots : (withBackslashes marksPath cs).head? ≠ some '.' := by
    intro hhead
    obtain ⟨ds, hds⟩ := List.head?_eq_some_iff.mp hhead
    rcases eq_backslash_or_of_withBackslashes hds with hdot | hdot
    · exact absurd hdot (by decide)
    · exact absurd hdot (by decide)
  have hread : pathTail (d :: withBackslashes marksPath cs) =
      ⟨d :: cs, d :: withBackslashes marksPath cs, []⟩ := by
    rw [pathTail_cons (ne_backslash_of_isPathChar hd), if_pos hd,
      pathTail_withBackslashes marksPath (fun _ => isPathChar_of_not_marksPath)]
    rfl
  rw [plainToken_of_beginsPath h hdots, path, hread]
  simp [Lexeme.before, pathSource]

/-- **A path is read from its source.** -/
theorem tokenize_pathSource (h : BeginsPath c d) (cs : List Char) :
    ∃ stop, tokenize (pathSource c d cs) =
      .ok [⟨.path (String.ofList (c :: d :: cs)), ⟨.start, stop⟩⟩,
        ⟨.endOfInput, .point stop⟩] := by
  have hsource : (pathSource c d cs).toList =
      c :: d :: withBackslashes marksPath cs := by simp [pathSource]
  have hfirst : isBlank c = false ∧ c ≠ Cursor.byteOrderMark ∧ c ≠ '$' ∧ c ≠ '"' ∧ c ≠ '\'' := by
    rcases h with ⟨rfl, -⟩ | ⟨rfl, -⟩ | ⟨rfl, -⟩
    · decide
    · decide
    · decide
  obtain ⟨hblank, hmark, hdollar, hquote, hapostrophe⟩ := hfirst
  have hopen : ¬ ['$', '{'] <+: (pathSource c d cs).toList := by
    rw [hsource]
    simp [Ne.symm hdollar]
  have hquotes : ∀ multiline, ¬ delimiter multiline <+: (pathSource c d cs).toList := by
    intro multiline
    rw [hsource]
    cases multiline
    · simp [delimiter, Ne.symm hquote]
    · simp [delimiter, Ne.symm hapostrophe]
  have hplain := plainToken_pathSource h cs
  have hstands : Stands ⟨(pathSource c d cs).toList, .start⟩ _ _ :=
    .plain hsource hopen hquotes (congrArg Lexeme.value hplain)
  rw [hplain] at hstands
  exact ⟨_, tokenize_of_stands hsource ⟨hblank, hmark⟩ hstands (by simp [Token.interpolations]) rfl
    rfl⟩

end Lexical

/-- **Which texts can be read as paths.** The paths in the sources that can be read, at any depth,
are the texts that begin with two characters with which a path begins. Each of them is all of one
source, in which its other characters but letters and digits have a backslash. -/
theorem exists_path_iff :
    (∀ value : String, (∃ source ts t, tokenize source = .ok ts ∧ t ∈ nestedTokens ts ∧
      t.kind = .path value) ↔ ∃ c d cs, BeginsPath c d ∧ value.toList = c :: d :: cs) ∧
    ∀ c d cs, BeginsPath c d → ∃ stop, tokenize (pathSource c d cs) =
      .ok [⟨.path (String.ofList (c :: d :: cs)), ⟨.start, stop⟩⟩,
        ⟨.endOfInput, .point stop⟩] := by
  refine ⟨fun value => ⟨?_, ?_⟩, fun c d cs h => Lexical.tokenize_pathSource h cs⟩
  · rintro ⟨source, ts, t, hts, ht, hkind⟩
    obtain ⟨a, b, -, hstands⟩ := Lexical.stands_of_mem_nestedTokens hts ht
    exact hstands.beginsPath hkind
  · rintro ⟨c, d, cs, h, hvalue⟩
    obtain ⟨stop, hts⟩ := Lexical.tokenize_pathSource h cs
    rw [← hvalue, String.ofList_toList] at hts
    refine ⟨_, _, ⟨.path value, ⟨.start, stop⟩⟩, hts, ?_, rfl⟩
    refine mem_nestedTokens_iff.mpr ⟨_, List.mem_cons_self, ?_⟩
    exact Token.mem_nested_iff.mpr (.inl rfl)

/-- Three dots and a line break of two characters make up a path. -/
theorem exists_path_iff_dots : pathSource '.' '.' ['.', '\r', '\n'] = "..\\.\\\r\\\n" ∧
    ∃ stop, tokenize (pathSource '.' '.' ['.', '\r', '\n']) =
      .ok [⟨.path "...\r\n", ⟨.start, stop⟩⟩, ⟨.endOfInput, .point stop⟩] :=
  ⟨by decide, exists_path_iff.2 '.' '.' ['.', '\r', '\n'] (.inr (.inr ⟨rfl, .inl rfl⟩))⟩

end NixSyntax
