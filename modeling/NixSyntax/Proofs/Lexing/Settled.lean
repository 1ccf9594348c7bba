import NixSyntax.Proofs.Lexing.Locality

/-!
# Scanners that have seen enough

A text may be continued. What a scanner takes of it can change then: a word at the end of a text is
a part of a longer one, and a comment goes on. It does not change if a blank follows, be it one that
the scanner has left or the first character of what the text goes on with. There is no form that
needs to know what stands behind a blank, and no mark that goes across one, so whatever the scanner
looks at is there already.

Some forms take blanks themselves, and paths take them behind a backslash. These have to have left
something of their text, or else to have come to their end in another way.

This is the converse of `Lexical.Local`, which is about text that is cut off. There the scanner has
read the longer text and is known to stay in front of the cut. Here it has read the shorter one.

## Blanks and the end of the text

Each lemma has two cases, for the same reason as in the other direction. If the scanner stopped
inside the text, it had all that it looks at, and what follows behind makes no difference. If it has
come to the end, the first character behind is a blank. Then it has to be seen that the scanner does
not go on with a blank, which is a fact about classes of characters: no letter, digit, or character
of an operator or a path is one.

The scanners for blanks, for the rest of a line, for block comments and for texts do go on with
blanks. They are only compared where they have left something, where their own end was found, or,
for the rest of a line, where a line break comes first.

## Main definitions

* `Sheltered`: a blank is left in a text, or is the first character behind it
* `Lexical.Settled`: scanners that read the same of a text that goes on with a blank
* `Lexical.hangs`: texts that end with a backslash for the next character

## Main results

* `Lexical.settled_plainToken`: flat tokens
* `Lexical.settled_stringText`: the text of a string
-/

namespace NixSyntax

/-- A blank is left in `rest`, or is the first character `behind` it. -/
def Sheltered (rest behind : List Char) : Prop :=
  ∃ b ∈ rest ++ behind.take 1, isBlank b = true

namespace Sheltered

variable {cs behind mark : List Char}

/-- More text in front does not matter. -/
theorem append (h : Sheltered cs behind) (s : List Char) : Sheltered (s ++ cs) behind := by
  obtain ⟨b, hb, hblank⟩ := h
  exact ⟨b, by simpa using .inr (List.mem_append.mp hb), hblank⟩

theorem cons (h : Sheltered cs behind) (c : Char) : Sheltered (c :: cs) behind := h.append [c]

/-- A blank among what is left is enough, whatever follows. -/
theorem of_mem {b : Char} (hb : b ∈ cs) (hblank : isBlank b = true) : Sheltered cs behind :=
  ⟨b, List.mem_append_left _ hb, hblank⟩

/-- A blank may be the first character behind. -/
theorem of_cons {b : Char} (hblank : isBlank b = true) : Sheltered cs (b :: behind) :=
  ⟨b, by simp, hblank⟩

/-- A text that is over goes on with a blank. -/
theorem exists_cons (h : Sheltered [] behind) : ∃ b ds, behind = b :: ds ∧ isBlank b = true := by
  obtain ⟨b, hb, hblank⟩ := h
  cases behind with
  | nil => cases hb
  | cons d ds =>
    obtain rfl : b = d := by simpa using hb
    exact ⟨b, ds, rfl, hblank⟩

/-- A mark that has no blank in it does not go across one. -/
theorem prefix_iff (h : Sheltered cs behind) (hmark : mark.any isBlank = false) :
    mark <+: cs ++ behind ↔ mark <+: cs := by
  refine ⟨fun hpre => ?_, fun hpre => hpre.trans (List.prefix_append cs behind)⟩
  rcases Nat.lt_or_ge cs.length mark.length with hlong | hshort
  · have hpart : cs ++ behind.take 1 <+: cs ++ behind :=
      (List.prefix_append_right_inj cs).mpr (List.take_prefix 1 behind)
    have hover : cs ++ behind.take 1 <+: mark := by
      refine List.prefix_of_prefix_length_le hpart hpre ?_
      rw [List.length_append, List.length_take]
      omega
    obtain ⟨b, hb, hblank⟩ := h
    exact absurd hblank (List.any_eq_false.mp hmark b (hover.subset hb))
  · exact List.prefix_of_prefix_length_le hpre (List.prefix_append cs behind) hshort

/-- Such a mark is found in both texts or in none. -/
theorem isPrefixOf_append (h : Sheltered cs behind) (hmark : mark.any isBlank = false) :
    mark.isPrefixOf (cs ++ behind) = mark.isPrefixOf cs := by
  rw [Bool.eq_iff_iff, List.isPrefixOf_iff_prefix, List.isPrefixOf_iff_prefix, h.prefix_iff hmark]

end Sheltered

namespace Lexical

variable {c : Char} {cs behind : List Char}

/-- What a scanner takes of a text in front of a blank it takes of the text that goes on. -/
def Settled {α : Type} (scan : List Char → Lexeme α) : Prop :=
  ∀ ⦃cs behind : List Char⦄, ¬ SplitsBreak cs behind → Sheltered (scan cs).rest behind →
    Lexeme.Cut behind (scan (cs ++ behind)) (scan cs)

/-! ### Stretches

That a scanner goes on alike inside of a text is shown in `Lexical.Continues`, for this direction
and the other one. What is left is the end of the text. -/

/-- Blanks that have ended in front of something are no more. -/
theorem settled_blanks (hbreak : ¬ SplitsBreak cs behind) (hne : (blanks cs).rest ≠ []) :
    Lexeme.Cut behind (blanks (cs ++ behind)) (blanks cs) :=
  continues_blanks (Q := fun _ rest => rest ≠ []) (absurd rfl) hbreak hne

/-- Blanks are taken in front of any other character as at the end of a text. -/
theorem blanks_append (hbreak : ¬ SplitsBreak cs (c :: behind)) (hblank : isBlank c = false) :
    Lexeme.Cut (c :: behind) (blanks (cs ++ c :: behind)) (blanks cs) := by
  refine continues_blanks (Q := fun _ _ => True) (fun _ => ?_) hbreak trivial
  rw [List.nil_append, blanks.eq_2, hblank]
  exact ⟨rfl, rfl, rfl⟩

/-- A class that has no blanks ends in front of one. -/
theorem settled_run {p : Char → Bool} (hp : ∀ b, p b = true → isBlank b = false)
    (h : Sheltered (Lexeme.run p cs).rest behind) :
    Lexeme.Cut behind (Lexeme.run p (cs ++ behind)) (Lexeme.run p cs) := by
  refine continues_run (Q := fun _ rest => Sheltered rest behind) (fun h => ?_) h
  obtain ⟨b, ds, rfl, hblank⟩ := h.exists_cons
  have hstop : p b = false := Bool.eq_false_iff.mpr fun hb => by simp [hp b hb] at hblank
  simp only [Lexeme.run, List.nil_append, List.takeWhile_cons, List.dropWhile_cons, hstop]
  exact ⟨rfl, rfl, rfl⟩

theorem settled_word : Settled word := by
  intro cs behind _ h
  exact (settled_run (fun _ => isBlank_of_isNameChar) h).map fun text =>
    wordKind (String.ofList text)

/-- The rest of a line is over at the end of the text, if a line break is added there. -/
theorem settled_lineTail (hbreak : ¬ SplitsBreak cs behind)
    (h : (lineTail cs).rest ≠ [] ∨ startsLineBreak behind = true) :
    Lexeme.Cut behind (lineTail (cs ++ behind)) (lineTail cs) := by
  refine continues_lineTail (Q := fun _ rest => rest ≠ [] ∨ startsLineBreak behind = true)
    (fun h => ?_) hbreak h
  obtain hne | hstart := h
  · exact absurd rfl hne
  · cases behind with
    | nil => cases hstart
    | cons d ds =>
      rw [List.nil_append, lineTail.eq_2, if_pos hstart]
      exact ⟨rfl, rfl, rfl⟩

/-- No operator has a blank in it. -/
theorem beginsOperator_of_isBlank {b : Char} (hblank : isBlank b = true) (taken : List Char) :
    beginsOperator (taken ++ [b]) = false := by
  have hspelling : ∀ s ∈ Symbol.operators, s.spelling.any isBlank = false := by decide
  refine beginsOperator_eq_false (fun s hs hmem => ?_) taken
  exact List.any_eq_false.mp (hspelling s hs) b hmem hblank

theorem settled_operator (c : Char) : Settled (operator c) := by
  intro cs behind _
  refine continues_operator (Q := fun _ rest => Sheltered rest behind) (fun taken h => ?_) c
  obtain ⟨b, ds, rfl, hblank⟩ := h.exists_cons
  rw [List.nil_append, growOperator.eq_2, beginsOperator_of_isBlank hblank]
  exact ⟨rfl, rfl, rfl⟩

/-! ### Paths

A path goes on with a blank behind a backslash, and not otherwise. -/

/-- Whether a text ends with a backslash that waits for a character. -/
def hangs : List Char → Bool
  | '\\' :: _ :: cs => hangs cs
  | ['\\'] => true
  | _ :: cs => hangs cs
  | [] => false

/-- A character that is no backslash waits for nothing. -/
theorem hangs_cons (h : c ≠ '\\') (cs : List Char) : hangs (c :: cs) = hangs cs := by
  rw [hangs.eq_def]
  split
  case h_1 hcons => exact absurd (List.cons.inj hcons).1 h
  case h_2 hcons => exact absurd (List.cons.inj hcons).1 h
  case h_3 hcons =>
    obtain ⟨rfl, rfl⟩ := List.cons.inj hcons
    rfl
  case h_4 hcons => cases hcons

theorem settled_pathTail (hbreak : ¬ SplitsBreak cs behind)
    (h : Sheltered (pathTail cs).rest behind)
    (hhangs : (pathTail cs).rest = [] → hangs cs = false) :
    Lexeme.Cut behind (pathTail (cs ++ behind)) (pathTail cs) := by
  fun_induction pathTail cs with
  | case1 cs ih =>
    simp only [List.cons_append, pathTail_lineBreak]
    have hhangs' : (pathTail cs).rest = [] → hangs cs = false := fun hnil => by
      simpa [hangs, hangs_cons] using hhangs hnil
    exact (ih (not_splitsBreak_of_append (s := ['\\', '\r', '\n']) hbreak) h hhangs').before _ _
  | case2 c cs hpair ih =>
    have hpair' := not_lineFeed_append (not_splitsBreak_of_cons hbreak) hpair
    rw [List.cons_append, List.cons_append, pathTail_backslash hpair']
    exact (ih (not_splitsBreak_of_append (s := ['\\', c]) hbreak) h hhangs).before _ _
  -- a backslash at the end waits for a character, which is excluded
  | case3 => cases hhangs rfl
  | case4 c cs _ _ _ hc ih =>
    have hne := ne_backslash_of_isPathChar hc
    rw [List.cons_append, pathTail_cons hne, if_pos hc]
    rw [hangs_cons hne] at hhangs
    exact (ih (not_splitsBreak_of_cons hbreak) h hhangs).before _ _
  | case5 c cs _ hpair hlone hc =>
    rw [List.cons_append, pathTail_cons (ne_backslash hpair hlone), if_neg hc]
    exact ⟨rfl, rfl, rfl⟩
  | case6 =>
    obtain ⟨b, ds, rfl, hblank⟩ := h.exists_cons
    have hstop : ¬ isPathChar b = true := fun hb => by simp [isBlank_of_isPathChar hb] at hblank
    have hne : b ≠ '\\' := by
      rintro rfl
      exact absurd hblank (by decide)
    rw [List.nil_append, pathTail_cons hne, if_neg hstop]
    exact ⟨rfl, rfl, rfl⟩

/-- A path without a lone backslash at its end. -/
theorem settled_path (c : Char) (hbreak : ¬ SplitsBreak cs behind)
    (h : Sheltered (path c cs).rest behind) (hhangs : (path c cs).rest = [] → hangs cs = false) :
    Lexeme.Cut behind (path c (cs ++ behind)) (path c cs) :=
  ((settled_pathTail hbreak h hhangs).before [c] [c]).map fun text =>
    TokenKind.path (String.ofList text)

/-! ### Numbers and comments

The point of a number is a mark of two characters together with its digit, and no blank is among
them. -/

theorem mem_of_mem_rest_run {p : Char → Bool} (h : c ∈ (Lexeme.run p cs).rest) : c ∈ cs :=
  (List.dropWhile_suffix p).subset h

/-- A point and a digit are no blanks. -/
theorem isBlank_pointDigit {d : Char} (hd : d.isDigit = true) :
    ['.', d].any isBlank = false := by
  simpa [isBlank_of_isDigit hd] using (by decide : isBlank '.' = false)

/-- A point in front of a blank has no digit behind it in the longer text either. -/
theorem settled_number : Settled number := by
  intro cs behind _ h
  have hrun {cs : List Char} (h : Sheltered (Lexeme.run Char.isDigit cs).rest behind) :
      Lexeme.Cut behind (Lexeme.run Char.isDigit (cs ++ behind)) (Lexeme.run Char.isDigit cs) :=
    settled_run (fun _ => isBlank_of_isDigit) h
  obtain ⟨d, rest, hrest, hd⟩ | hnone := fraction_or_whole cs
  · rw [number_of_fraction hrest hd] at h
    have hpoint : Sheltered (Lexeme.run Char.isDigit cs).rest behind := by
      rw [hrest, ← Lexeme.append_run Char.isDigit (d :: rest)]
      exact (h.append _).cons '.'
    exact cut_number_of_fraction hrest hd (hrun hpoint) (hrun h)
  · rw [number_of_whole hnone] at h ⊢
    have hwhole := hrun h
    rw [number_of_whole fun d rest hsplit => ?_]
    · exact hwhole.map intKind
    · by_contra hd
      have hprefix : ['.', d] <+: (Lexeme.run Char.isDigit cs).rest ++ behind :=
        ⟨rest, by rw [← hwhole.rest, hsplit]; rfl⟩
      have hmark := isBlank_pointDigit (d := d) (by simpa using hd)
      obtain ⟨rest', hrest'⟩ := (h.prefix_iff hmark).mp hprefix
      exact hd (hnone d rest' hrest'.symm)

/-- A comment to the end of a line that has left its line break, or finds one behind. -/
theorem settled_lineComment (hbreak : ¬ SplitsBreak cs behind)
    (h : (lineComment cs).rest ≠ [] ∨ startsLineBreak behind = true) :
    Lexeme.Cut behind (lineComment (cs ++ behind)) (lineComment cs) := by
  obtain ⟨hvalue, htext, hrest⟩ := settled_lineTail hbreak h
  exact ⟨congrArg (fun text => TokenKind.comment (String.ofList text) false) hvalue,
    congrArg ('#' :: ·) htext, hrest⟩

/-- A comment that has ended stays what it is. -/
theorem blockTail_append_eq {text rest : List Char} (h : blockTail cs = some (text, rest)) :
    blockTail (cs ++ behind) = some (text, rest ++ behind) := by
  fun_induction blockTail cs generalizing text with
  | case1 cs =>
    obtain ⟨rfl, rfl⟩ := Prod.mk.inj (Option.some.inj h)
    rfl
  | case2 c cs hclose ih =>
    obtain ⟨⟨text', rest'⟩, htail, heq⟩ := Option.map_eq_some_iff.mp h
    obtain ⟨rfl, rfl⟩ := Prod.mk.inj heq
    have hclose' : ∀ ds, c = '*' → cs ++ behind = '/' :: ds → False := by
      rintro ds rfl hds
      cases cs with
      | nil => cases htail
      | cons d cs => exact hclose cs rfl (by rw [(List.cons.inj hds).1])
    rw [List.cons_append, blockTail.eq_2 c _ hclose', ih htail]
    rfl
  | case3 => cases h

/-- A block comment that is closed. -/
theorem settled_blockComment {kind : TokenKind} (h : (blockComment cs).value = .ok kind) :
    Lexeme.Cut behind (blockComment (cs ++ behind)) (blockComment cs) := by
  unfold blockComment at h ⊢
  cases htail : blockTail cs with
  | none => simp [htail] at h
  | some found =>
    obtain ⟨text, rest⟩ := found
    rw [blockTail_append_eq htail]
    exact ⟨rfl, rfl, rfl⟩

/-! ### The choice of a form

Here the converse is easier. Whatever decides between the forms is no blank, so where a blank comes
first, the same is decided as where nothing comes. -/

/-- What is sheltered behind a token is so behind its first character. -/
theorem sheltered_of_rest_plainToken (h : Sheltered (plainToken c cs).rest behind) :
    Sheltered cs behind := by
  obtain ⟨text, htext⟩ := text_plainToken c cs
  have happend := append_plainToken c cs
  rw [htext, List.cons_append] at happend
  rw [← (List.cons.inj happend).2]
  exact h.append text

/-- A blank behind a dot leaves it alone. -/
theorem isLoneDot_sheltered (h : Sheltered cs behind) :
    isLoneDot (cs ++ behind) = isLoneDot cs := by
  cases cs with
  | cons d ds => exact isLoneDot_append (List.cons_ne_nil d ds) behind
  | nil =>
    obtain ⟨b, ds, rfl, hblank⟩ := h.exists_cons
    have hslash : b ≠ '/' := by
      rintro rfl
      exact absurd hblank (by decide)
    have hdot : b ≠ '.' := by
      rintro rfl
      exact absurd hblank (by decide)
    simp [isLoneDot, hslash, hdot]

/-- No path begins with a blank as its second character. -/
theorem startsPath_sheltered (h : Sheltered cs behind) (c : Char) :
    startsPath c (cs ++ behind) = startsPath c cs := by
  cases cs with
  | cons d ds => rfl
  | nil =>
    obtain ⟨b, ds, rfl, hblank⟩ := h.exists_cons
    have hstop : isPathChar b = false :=
      Bool.eq_false_iff.mpr fun hb => by simp [isBlank_of_isPathChar hb] at hblank
    simp [startsPath, hstop]

/-- Two texts with the same first character, of which the same form is read. What they are read as
is related if it is for every form. -/
theorem rel_plainToken {cs' : List Char}
    {R : Lexeme (Except LexCause TokenKind) → Lexeme (Except LexCause TokenKind) → Prop}
    (hline : startsLineBreak (c :: cs') = startsLineBreak (c :: cs))
    (hlone : isLoneDot cs' = isLoneDot cs)
    (hdots : ['.', '.'].isPrefixOf cs' = ['.', '.'].isPrefixOf cs)
    (hstar : ['*'].isPrefixOf cs' = ['*'].isPrefixOf cs)
    (hpath : startsPath c cs' = startsPath c cs)
    (single : ∀ value, R ⟨value, [c], cs'⟩ ⟨value, [c], cs⟩)
    (hbreak : R ⟨.ok (lineBreak (c :: cs')).value, (lineBreak (c :: cs')).text,
      (lineBreak (c :: cs')).rest⟩ ⟨.ok (lineBreak (c :: cs)).value, (lineBreak (c :: cs)).text,
      (lineBreak (c :: cs)).rest⟩)
    (hword : R ⟨.ok (word (c :: cs')).value, (word (c :: cs')).text, (word (c :: cs')).rest⟩
      ⟨.ok (word (c :: cs)).value, (word (c :: cs)).text, (word (c :: cs)).rest⟩)
    (hoperator : R (operator c cs') (operator c cs))
    (hblock : ['*'] <+: cs → R (blockComment (cs'.drop 1)) (blockComment (cs.drop 1)))
    (hpaths : R ⟨.ok (path c cs').value, (path c cs').text, (path c cs').rest⟩
      ⟨.ok (path c cs).value, (path c cs).text, (path c cs).rest⟩)
    (hnumber : R (number (c :: cs')) (number (c :: cs)))
    (hcomment : R ⟨.ok (lineComment cs').value, (lineComment cs').text, (lineComment cs').rest⟩
      ⟨.ok (lineComment cs).value, (lineComment cs).text, (lineComment cs).rest⟩) :
    R (plainToken c cs') (plainToken c cs) := by
  unfold plainToken
  rw [hline, hlone, hdots, hstar, hpath]
  cases bracket? c with
  | some s => exact single _
  | none =>
    dsimp only
    -- one form after the other, in the order in which they are tried
    by_cases hfeed : startsLineBreak (c :: cs) = true
    · rw [if_pos hfeed, if_pos hfeed]
      exact hbreak
    rw [if_neg hfeed, if_neg hfeed]
    by_cases hname : isNameStart c = true
    · rw [if_pos hname, if_pos hname]
      exact hword
    rw [if_neg hname, if_neg hname]
    by_cases hdot : (c = '.' && isLoneDot cs) = true
    · rw [if_pos hdot, if_pos hdot]
      exact single _
    rw [if_neg hdot, if_neg hdot]
    by_cases hmore : (c = '.' && ['.', '.'].isPrefixOf cs) = true
    · rw [if_pos hmore, if_pos hmore]
      exact hoperator
    rw [if_neg hmore, if_neg hmore]
    by_cases hopen : (c = '/' && ['*'].isPrefixOf cs) = true
    · rw [if_pos hopen, if_pos hopen]
      exact hblock (List.isPrefixOf_iff_prefix.mp (Bool.and_eq_true_iff.mp hopen).2)
    rw [if_neg hopen, if_neg hopen]
    by_cases hfront : startsPath c cs = true
    · rw [if_pos hfront, if_pos hfront]
      exact hpaths
    rw [if_neg hfront, if_neg hfront]
    by_cases hdigit : c.isDigit = true
    · rw [if_pos hdigit, if_pos hdigit]
      exact hnumber
    rw [if_neg hdigit, if_neg hdigit]
    by_cases hsign : isOperatorStart c = true
    · rw [if_pos hsign, if_pos hsign]
      exact hoperator
    rw [if_neg hsign, if_neg hsign]
    by_cases hhash : c = '#'
    · rw [if_pos hhash, if_pos hhash]
      exact hcomment
    rw [if_neg hhash, if_neg hhash]
    exact single _

/-- A token in front of a blank has looked at nothing behind it. Where its text is over, this takes
a line break behind a comment, and a path that does not hang. -/
theorem settled_plainToken {kind : TokenKind} (hkind : (plainToken c cs).value = .ok kind)
    (hbreak : ¬ SplitsBreak (c :: cs) behind) (h : Sheltered (plainToken c cs).rest behind)
    (hcomment : (plainToken c cs).rest = [] → ∀ text, kind = .comment text false →
      startsLineBreak behind = true)
    (hpath : (plainToken c cs).rest = [] → ∀ text, kind = .path text → hangs cs = false) :
    Lexeme.Cut behind (plainToken c (cs ++ behind)) (plainToken c cs) := by
  have hcs := sheltered_of_rest_plainToken h
  have htail := not_splitsBreak_of_cons hbreak
  -- every test by which a form is chosen comes out as it does without the text behind
  refine rel_plainToken (R := fun l' l => l.value = .ok kind → Sheltered l.rest behind →
      (l.rest = [] → ∀ text, kind = .comment text false → startsLineBreak behind = true) →
      (l.rest = [] → ∀ text, kind = .path text → hangs cs = false) → Lexeme.Cut behind l' l)
    ?_ (isLoneDot_sheltered hcs) (hcs.isPrefixOf_append (by decide))
    (hcs.isPrefixOf_append (by decide)) (startsPath_sheltered hcs c)
    (fun _ _ _ _ _ => ⟨rfl, rfl, rfl⟩) ?_ ?_ (fun _ h _ _ => settled_operator c htail h) ?_ ?_
    (fun _ h _ _ => settled_number hbreak h) ?_ hkind h hcomment hpath
  · rw [← List.cons_append, startsLineBreak_append hbreak]
  · exact fun _ _ _ _ => (cut_lineBreak hbreak (List.cons_ne_nil c cs)).map _
  · exact fun _ h _ _ => (settled_word hbreak h).map _
  · rintro ⟨ds, rfl⟩ hkind _ _ _
    exact settled_blockComment hkind
  · intro hkind h _ hpath
    exact (settled_path c htail h fun hnil => hpath hnil _ (Except.ok.inj hkind).symm).map _
  · intro hkind _ hcomment _
    refine (settled_lineComment htail ?_).map _
    by_cases hnil : (lineComment cs).rest = []
    · exact .inr (hcomment hnil _ (Except.ok.inj hkind).symm)
    · exact .inl hnil

/-- A line break ends with its line feed. -/
theorem exists_text_of_newline (h : (plainToken c cs).value = .ok .newline) :
    ∃ text, (plainToken c cs).text = text ++ ['\n'] := by
  have htext : (plainToken c cs).text = ['\n'] ∨ (plainToken c cs).text = ['\r', '\n'] :=
    spelledBy_plainToken h
  rcases htext with htext | htext
  · exact ⟨[], htext⟩
  · exact ⟨['\r'], htext⟩

/-- A token that is a line break stays one, whatever follows. -/
theorem plainToken_append_of_newline (h : (plainToken c cs).value = .ok .newline) :
    Lexeme.Cut behind (plainToken c (cs ++ behind)) (plainToken c cs) := by
  have htext : (plainToken c cs).text = ['\n'] ∨ (plainToken c cs).text = ['\r', '\n'] :=
    spelledBy_plainToken h
  have happend := append_plainToken c cs
  rcases htext with htext | htext
  · rw [htext] at happend
    obtain rfl := (List.cons.inj happend).1
    exact ⟨rfl, rfl, rfl⟩
  · rw [htext] at happend
    generalize (plainToken c cs).rest = rest at happend
    obtain ⟨rfl, rfl⟩ := List.cons.inj happend
    exact ⟨rfl, rfl, rfl⟩

/-! ### The text of strings

A text that has stopped in front of a mark stops there again. -/

theorem isBlank_delimiter (multiline : Bool) : (delimiter multiline).any isBlank = false := by
  cases multiline <;> decide

/-- What stops a text has no blank in it. -/
theorem stopsAt_append {multiline : Bool} (h : Sheltered cs behind) :
    stopsAt multiline (cs ++ behind) = stopsAt multiline cs := by
  rw [stopsAt, stopsAt, h.isPrefixOf_append (isBlank_delimiter multiline),
    h.isPrefixOf_append (by decide)]

theorem settled_stringText {multiline : Bool} (h : Sheltered (stringText multiline cs).rest behind)
    (hne : (stringText multiline cs).rest ≠ []) :
    Lexeme.Cut behind (stringText multiline (cs ++ behind)) (stringText multiline cs) := by
  fun_induction stringText multiline cs with
  | case1 c cs ih => exact (ih h hne).before [unescape c] ['\\', c]
  | case2 => exact absurd rfl hne
  | case3 c cs hpair hlone hstops =>
    have hstops' : stopsAt multiline (c :: (cs ++ behind)) = true := by
      rw [← List.cons_append, stopsAt_append h]
      exact hstops
    rw [List.cons_append, stringText_cons multiline (ne_backslash hpair hlone), if_pos hstops']
    exact ⟨rfl, rfl, rfl⟩
  | case4 c cs hpair hlone hgoes ih =>
    have hcs : Sheltered (c :: cs) behind := by
      rw [← append_stringText multiline cs]
      exact (h.append _).cons c
    have hgoes' : ¬ stopsAt multiline (c :: (cs ++ behind)) = true := by
      rw [← List.cons_append, stopsAt_append hcs]
      exact hgoes
    rw [List.cons_append, stringText_cons multiline (ne_backslash hpair hlone), if_neg hgoes']
    exact (ih h hne).before [c] [c]
  | case5 => exact absurd rfl hne

end Lexical

end NixSyntax
