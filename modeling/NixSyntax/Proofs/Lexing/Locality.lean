import NixSyntax.Proofs.Lexing.Lexemes

/-!
# Scanners look no further than they take

A text is cut off somewhere. A scanner that stays in front of the cut takes the same of what is left
as it took of the whole text. This is not true of a character at the cut: a carriage return is no
line break on its own, and an operator may be longer in the whole text. But a scanner that found the
longer one has gone past the cut. What remains is the line break, which is not to be cut in two.

The text of a string needs more, for it ends in front of its delimiter or of an interpolation, and
has to look at that. So does the choice between the forms of a plain token, which looks ahead by up
to two characters; there all that was looked at is taken.

## Two uses

A piece of a text is read like the text it was cut out of, and here the text is the longer side:
something has been read of it and did not go past the cut. In the other direction a text is put in
front of other text and is to be read as before. There the shorter side is known, and other
conditions are needed (see `Lexical.Settled`). The inductions over the characters are the same in
both, and they are made once: `Continues` leaves open which condition `Q` holds of what is left on
the two sides, and asks for the case of an empty text only, since that is where the two differ.

## Numbers and the point

A point belongs to a number only if a digit follows, and a path may begin with one. So behind whole
digits a reader looks at two more characters. If it takes them, the digit is part of what was taken.
If it does not, there is no point with a digit behind it in the longer text, and all the less so in
the text that is cut off.

## Main definitions

* `Lexeme.Cut`: two lexemes that differ in what follows
* `Lexical.Local`: scanners that read the same of a text that is cut off
* `Lexical.Continues`: the same under any condition on what is left
* `Lexical.stopsAt`: where the text of a string stops

## Main results

* `Lexical.cut_plainToken`: flat tokens
* `Lexical.cut_stringText`: the text of a string, with the mark at which it stops
-/

namespace NixSyntax

/-! ### Line breaks at the cut

A cut is inside of a line break if the text in front ends with a carriage return and the one behind
begins with a line feed. Taking something off the front of a text changes nothing in that, unless
nothing remains. -/

section

variable {c : Char} {cs s behind : List Char}

theorem SplitsBreak.append (h : SplitsBreak cs behind) (s : List Char) :
    SplitsBreak (s ++ cs) behind := by
  have hne : cs ≠ [] := by
    rintro rfl
    exact not_splitsBreak_nil behind h
  exact ⟨by rw [List.getLast?_append_of_ne_nil s hne, h.1], h.2⟩

/-- A cut that is not inside a line break is not inside one of the end of the text either. -/
theorem not_splitsBreak_of_append (h : ¬ SplitsBreak (s ++ cs) behind) : ¬ SplitsBreak cs behind :=
  fun h' => h (h'.append s)

theorem not_splitsBreak_of_cons (h : ¬ SplitsBreak (c :: cs) behind) : ¬ SplitsBreak cs behind :=
  not_splitsBreak_of_append (s := [c]) h

/-- A line break at the front is seen in both texts, if it is not cut in two. -/
theorem startsLineBreak_append (h : ¬ SplitsBreak (c :: cs) behind) :
    startsLineBreak (c :: cs ++ behind) = startsLineBreak (c :: cs) := by
  cases cs with
  | cons d cs => by_cases hc : c = '\n' <;> by_cases hr : c = '\r' <;> by_cases hd : d = '\n' <;>
      simp [startsLineBreak, hc, hr, hd]
  | nil =>
    cases behind with
    | nil => rfl
    | cons d ds =>
      have hbreak : ¬ (c = '\r' ∧ d = '\n') := by simpa [SplitsBreak] using h
      by_cases hc : c = '\n'
      · simp [startsLineBreak, hc]
      · simp [startsLineBreak, hc]
        grind

/-- A carriage return in front of the cut has no line feed behind it in the whole text either. -/
theorem not_lineFeed_append (h : ¬ SplitsBreak (c :: cs) behind)
    (hpair : ∀ ds, c = '\r' → cs = '\n' :: ds → False) (ds : List Char) (hc : c = '\r')
    (hds : cs ++ behind = '\n' :: ds) : False := by
  subst hc
  cases cs with
  | nil => exact h ⟨rfl, by rw [← List.nil_append behind, hds]; rfl⟩
  | cons d cs => exact hpair cs rfl (by rw [(List.cons.inj hds).1])

end

/-- The lexeme `l'` is what `l` is, with the text `behind` cut off. -/
structure Lexeme.Cut {α : Type} (behind : List Char) (l l' : Lexeme α) : Prop where
  /-- They have the same value. -/
  value : l.value = l'.value
  /-- They take the same characters. -/
  text : l.text = l'.text
  /-- They differ in what follows. -/
  rest : l.rest = l'.rest ++ behind

namespace Lexeme.Cut

variable {α β : Type} {behind : List Char}

/-- The same text is put in front of both. -/
theorem before {l l' : Lexeme (List α)} (h : Lexeme.Cut behind l l') (value : List α)
    (text : List Char) : Lexeme.Cut behind (l.before value text) (l'.before value text) :=
  ⟨congrArg (value ++ ·) h.value, congrArg (text ++ ·) h.text, h.rest⟩

/-- The same is made of both. -/
theorem map {l l' : Lexeme α} (h : Lexeme.Cut behind l l') (f : α → β) :
    Lexeme.Cut behind ⟨f l.value, l.text, l.rest⟩ ⟨f l'.value, l'.text, l'.rest⟩ :=
  ⟨congrArg f h.value, h.text, h.rest⟩

theorem refl (l : Lexeme α) : Lexeme.Cut [] l l := ⟨rfl, rfl, (List.append_nil _).symm⟩

end Lexeme.Cut

namespace Lexical

variable {c : Char} {cs behind : List Char}

/-- What a scanner takes of a text it takes of the text that is cut off behind. -/
def Local {α : Type} (scan : List Char → Lexeme α) : Prop :=
  ∀ ⦃cs behind : List Char⦄, ¬ SplitsBreak cs behind →
    behind.length ≤ (scan (cs ++ behind)).rest.length →
    Lexeme.Cut behind (scan (cs ++ behind)) (scan cs)

/-- A border that is not behind another one divides what is behind that. -/
theorem exists_append_of_length_le {text rest : List Char} (h : text ++ rest = cs ++ behind)
    (hlen : behind.length ≤ rest.length) : ∃ ds, cs = text ++ ds ∧ rest = ds ++ behind := by
  obtain ⟨ds, rfl⟩ := List.suffix_of_suffix_length_le ⟨cs, rfl⟩ ⟨text, h⟩ hlen
  refine ⟨ds, ?_, rfl⟩
  rw [← List.append_assoc] at h
  exact (List.append_cancel_right h).symm

/-- A scanner that leaves all of a text has taken nothing. -/
theorem eq_nil_of_length_le {text rest : List Char} (h : text ++ rest = behind)
    (hlen : behind.length ≤ rest.length) : text = [] ∧ rest = behind := by
  have h' : text ++ rest = [] ++ behind := h
  obtain ⟨ds, hds, rfl⟩ := exists_append_of_length_le h' hlen
  obtain ⟨rfl, rfl⟩ := List.append_eq_nil_iff.mp hds.symm
  exact ⟨rfl, rfl⟩

/-! ### Stretches

Scanners that take characters as long as each of them fulfils some condition. The condition may look
at what follows, as that for blanks does, which excludes the front of a line break. -/

/-- A scanner reads of a text that goes on with `behind` what it reads of the text, if `Q` holds of
what it leaves of the two. -/
def Continues {α : Type} (Q : List Char → List Char → Prop) (behind : List Char)
    (scan : List Char → Lexeme α) (cs : List Char) : Prop :=
  Q (scan (cs ++ behind)).rest (scan cs).rest → Lexeme.Cut behind (scan (cs ++ behind)) (scan cs)

section

variable {Q : List Char → List Char → Prop}

-- Each scanner below stops inside the text, and then the same is left of both texts but for what
-- follows, or it comes to the end of the text with nothing else to leave. So `Q` needs to be put to
-- use there only.

theorem continues_blanks (hend : Continues Q behind blanks []) (hbreak : ¬ SplitsBreak cs behind) :
    Continues Q behind blanks cs := by
  intro h
  induction cs with
  | nil => exact hend h
  | cons c cs ih =>
    have hstart := startsLineBreak_append hbreak
    simp only [List.cons_append, blanks] at hstart h ⊢
    rw [hstart] at h ⊢
    by_cases hc : (isBlank c && !startsLineBreak (c :: cs)) = true
    · rw [if_pos hc, if_pos hc] at h ⊢
      obtain ⟨-, htext, hrest⟩ := ih (not_splitsBreak_of_cons hbreak) h
      exact ⟨rfl, congrArg (c :: ·) htext, hrest⟩
    · rw [if_neg hc, if_neg hc]
      exact ⟨rfl, rfl, rfl⟩

/-- Characters of one class. -/
theorem continues_run {p : Char → Bool} (hend : Continues Q behind (Lexeme.run p) []) :
    Continues Q behind (Lexeme.run p) cs := by
  intro h
  induction cs with
  | nil => exact hend h
  | cons c cs ih =>
    simp only [Lexeme.run, List.cons_append, List.takeWhile_cons, List.dropWhile_cons] at h ⊢
    by_cases hc : p c = true
    · simp only [if_pos hc] at h ⊢
      obtain ⟨hvalue, -, hrest⟩ := ih h
      exact ⟨congrArg (c :: ·) hvalue, congrArg (c :: ·) hvalue, hrest⟩
    · simp only [if_neg hc]
      exact ⟨rfl, rfl, rfl⟩

theorem continues_lineTail (hend : Continues Q behind lineTail [])
    (hbreak : ¬ SplitsBreak cs behind) : Continues Q behind lineTail cs := by
  intro h
  induction cs with
  | nil => exact hend h
  | cons c cs ih =>
    have hstart := startsLineBreak_append hbreak
    simp only [List.cons_append, lineTail] at hstart h ⊢
    rw [hstart] at h ⊢
    by_cases hc : startsLineBreak (c :: cs) = true
    · rw [if_pos hc, if_pos hc]
      exact ⟨rfl, rfl, rfl⟩
    · rw [if_neg hc, if_neg hc] at h ⊢
      exact (ih (not_splitsBreak_of_cons hbreak) h).before [c] [c]

theorem continues_growOperator (hend : ∀ taken, Continues Q behind (growOperator taken) [])
    (taken : List Char) : Continues Q behind (growOperator taken) cs := by
  intro h
  induction cs generalizing taken with
  | nil => exact hend taken h
  | cons c cs ih =>
    simp only [List.cons_append, growOperator] at h ⊢
    by_cases hc : beginsOperator (taken ++ [c]) = true
    · rw [if_pos hc, if_pos hc] at h ⊢
      exact (ih _ h).before [c] [c]
    · rw [if_neg hc, if_neg hc]
      exact ⟨rfl, rfl, rfl⟩

/-- What an operator leaves is what growing leaves, whatever the table says. -/
theorem rest_operator (c : Char) (cs : List Char) :
    (operator c cs).rest = (growOperator [c] cs).rest := by
  unfold operator
  dsimp only
  split <;> rfl

/-- An operator is grown and looked up, and the same is looked up on both sides. -/
theorem continues_operator (hend : ∀ taken, Continues Q behind (growOperator taken) [])
    (c : Char) : Continues Q behind (operator c) cs := by
  intro h
  rw [rest_operator, rest_operator] at h
  obtain ⟨hvalue, htext, hrest⟩ := (continues_growOperator hend [c] h).before [c] [c]
  unfold operator
  dsimp only
  rw [← hvalue, ← htext]
  split <;> exact ⟨rfl, rfl, hrest⟩

end

theorem local_blanks : Local blanks := by
  intro cs behind hbreak
  refine continues_blanks (Q := fun rest _ => behind.length ≤ rest.length) (fun hlen => ?_) hbreak
  obtain ⟨htext, hrest⟩ := eq_nil_of_length_le (append_blanks behind) hlen
  exact ⟨rfl, htext, hrest⟩

/-- Characters of one class, if the longer text was not read past the cut. -/
theorem cut_run (p : Char → Bool)
    (hlen : behind.length ≤ (Lexeme.run p (cs ++ behind)).rest.length) :
    Lexeme.Cut behind (Lexeme.run p (cs ++ behind)) (Lexeme.run p cs) := by
  refine continues_run (Q := fun rest _ => behind.length ≤ rest.length) (fun hlen => ?_) hlen
  obtain ⟨htext, hrest⟩ := eq_nil_of_length_le (Lexeme.append_run p behind) hlen
  exact ⟨htext, htext, hrest⟩

theorem local_word : Local word := by
  intro cs behind _ hlen
  exact (cut_run isNameChar hlen).map fun text => wordKind (String.ofList text)

theorem local_lineTail : Local lineTail := by
  intro cs behind hbreak
  refine continues_lineTail (Q := fun rest _ => behind.length ≤ rest.length) (fun hlen => ?_) hbreak
  obtain ⟨htext, hrest⟩ := eq_nil_of_length_le (append_lineTail behind) hlen
  exact ⟨(lineTail_spec behind).1.trans htext, htext, hrest⟩

theorem local_operator (c : Char) : Local (operator c) := by
  intro cs behind _
  refine continues_operator (Q := fun rest _ => behind.length ≤ rest.length) (fun taken hlen => ?_) c
  obtain ⟨htext, hrest⟩ := eq_nil_of_length_le (append_growOperator taken behind) hlen
  exact ⟨(value_growOperator taken behind).trans htext, htext, hrest⟩

/-! ### Paths

A path is not a stretch, as a backslash takes one character or two. Its equations are stated for
each way to go on. -/

theorem ne_backslash (hpair : ∀ d ds, c = '\\' → cs = d :: ds → False)
    (hlone : c = '\\' → cs = [] → False) : c ≠ '\\' := by
  rintro rfl
  cases cs with
  | nil => exact hlone rfl rfl
  | cons d ds => exact hpair d ds rfl rfl

/-- A character that is no backslash is taken if it may stand in a path. -/
theorem pathTail_cons (h : c ≠ '\\') (cs : List Char) : pathTail (c :: cs) =
    if isPathChar c then (pathTail cs).before [c] [c] else ⟨[], [], c :: cs⟩ := by
  rw [pathTail.eq_def]
  split
  case h_1 hcons => exact absurd (List.cons.inj hcons).1 h
  case h_2 hcons => exact absurd (List.cons.inj hcons).1 h
  case h_3 hcons => exact absurd (List.cons.inj hcons).1 h
  case h_4 hcons =>
    obtain ⟨rfl, rfl⟩ := List.cons.inj hcons
    rfl
  case h_5 hcons => cases hcons

theorem pathTail_lineBreak (cs : List Char) : pathTail ('\\' :: '\r' :: '\n' :: cs) =
    (pathTail cs).before ['\r', '\n'] ['\\', '\r', '\n'] := by
  rw [pathTail.eq_def]
  rfl

/-- A backslash takes the next character, unless this is the front of a line break of two. -/
theorem pathTail_backslash (hpair : ∀ ds, c = '\r' → cs = '\n' :: ds → False) :
    pathTail ('\\' :: c :: cs) = (pathTail cs).before [c] ['\\', c] := by
  rw [pathTail.eq_def]
  split
  case h_1 hcons =>
    obtain ⟨hc, hcs⟩ := List.cons.inj (List.cons.inj hcons).2
    exact (hpair _ hc hcs).elim
  case h_2 hcons =>
    obtain ⟨rfl, rfl⟩ := List.cons.inj (List.cons.inj hcons).2
    rfl
  case h_3 hcons => cases (List.cons.inj hcons).2
  case h_4 hnot _ hcons =>
    obtain ⟨rfl, rfl⟩ := List.cons.inj hcons
    exact (hnot c cs rfl rfl).elim
  case h_5 hcons => cases hcons

/-- A backslash takes at least one more character, if there is one. -/
theorem two_le_length_text_pathTail (c : Char) (cs : List Char) :
    2 ≤ (pathTail ('\\' :: c :: cs)).text.length := by
  by_cases hpair : ∃ ds, c = '\r' ∧ cs = '\n' :: ds
  · obtain ⟨ds, rfl, rfl⟩ := hpair
    simp [pathTail_lineBreak, Lexeme.before]
  · rw [pathTail_backslash fun ds hc hcs => hpair ⟨ds, hc, hcs⟩]
    simp [Lexeme.before]

theorem local_pathTail : Local pathTail := by
  intro cs behind hbreak hlen
  fun_induction pathTail cs with
  | case1 cs ih =>
    simp only [List.cons_append, pathTail_lineBreak] at hlen ⊢
    exact (ih (not_splitsBreak_of_append (s := ['\\', '\r', '\n']) hbreak) hlen).before _ _
  | case2 c cs hpair ih =>
    -- a line break behind the backslash is taken as a whole, and it is not cut in two
    have hpair' := not_lineFeed_append (not_splitsBreak_of_cons hbreak) hpair
    rw [List.cons_append, List.cons_append, pathTail_backslash hpair'] at hlen ⊢
    exact (ih (not_splitsBreak_of_append (s := ['\\', c]) hbreak) hlen).before _ _
  -- a backslash at the cut would have taken a character from behind it
  | case3 =>
    cases behind with
    | nil => exact .refl _
    | cons d ds =>
      have htwo := two_le_length_text_pathTail d ds
      have hlength := congrArg List.length (append_pathTail ('\\' :: d :: ds))
      simp only [List.length_append, List.length_cons, List.cons_append, List.nil_append] at *
      omega
  | case4 c cs _ _ _ hc ih =>
    rw [List.cons_append, pathTail_cons (ne_backslash_of_isPathChar hc), if_pos hc] at hlen ⊢
    exact (ih (not_splitsBreak_of_cons hbreak) hlen).before _ _
  | case5 c cs _ hpair hlone hc =>
    rw [List.cons_append, pathTail_cons (ne_backslash hpair hlone), if_neg hc]
    exact ⟨rfl, rfl, rfl⟩
  | case6 =>
    obtain ⟨htext, hrest⟩ := eq_nil_of_length_le (append_pathTail behind) hlen
    refine ⟨?_, htext, hrest⟩
    rw [List.nil_append, ← resolveEscapes_pathTail, htext]
    rfl

theorem local_path (c : Char) : Local (path c) := by
  intro cs behind hbreak hlen
  exact ((local_pathTail hbreak hlen).before [c] [c]).map fun text =>
    TokenKind.path (String.ofList text)

/-! ### Numbers

A number is whole digits, alone or with a fraction. Which of the two it is can be told from what is
behind the digits. -/

theorem length_rest_run_le (p : Char → Bool) (cs : List Char) :
    (Lexeme.run p cs).rest.length ≤ cs.length :=
  List.IsSuffix.length_le ⟨_, Lexeme.append_run p cs⟩

/-- With a digit behind the point, both are taken and all digits that follow. -/
theorem number_of_fraction {d : Char} {rest : List Char}
    (h : (Lexeme.run Char.isDigit cs).rest = '.' :: d :: rest) (hd : d.isDigit = true) :
    number cs = ⟨.ok (.float (floatOfDigits (Lexeme.run Char.isDigit cs).text
        (Lexeme.run Char.isDigit (d :: rest)).text)),
      (Lexeme.run Char.isDigit cs).text ++ '.' :: (Lexeme.run Char.isDigit (d :: rest)).text,
      (Lexeme.run Char.isDigit (d :: rest)).rest⟩ := by
  simp [number, h, hd]

/-- Without, the number is over in front of the point. -/
theorem number_of_whole
    (h : ∀ d rest, (Lexeme.run Char.isDigit cs).rest = '.' :: d :: rest → d.isDigit = false) :
    number cs = ⟨intKind (Lexeme.run Char.isDigit cs).text, (Lexeme.run Char.isDigit cs).text,
      (Lexeme.run Char.isDigit cs).rest⟩ := by
  unfold number
  dsimp only
  split
  · rename_i d rest hrest
    rw [if_neg (by simp [h d rest hrest])]
  · rfl

/-- Whole digits have a fraction behind them, or no digit behind a point. -/
theorem fraction_or_whole (cs : List Char) :
    (∃ d rest, (Lexeme.run Char.isDigit cs).rest = '.' :: d :: rest ∧ d.isDigit = true) ∨
      ∀ d rest, (Lexeme.run Char.isDigit cs).rest = '.' :: d :: rest → d.isDigit = false := by
  by_cases hfraction : ∃ d rest,
      (Lexeme.run Char.isDigit cs).rest = '.' :: d :: rest ∧ d.isDigit = true
  · exact .inl hfraction
  · refine .inr fun d rest h => ?_
    by_contra hd
    exact hfraction ⟨d, rest, h, by simpa using hd⟩

/-- A fraction is read of both texts if its digits are, on either side of the point. -/
theorem cut_number_of_fraction {d : Char} {rest : List Char}
    (hrest : (Lexeme.run Char.isDigit cs).rest = '.' :: d :: rest) (hd : d.isDigit = true)
    (hwhole : Lexeme.Cut behind (Lexeme.run Char.isDigit (cs ++ behind)) (Lexeme.run Char.isDigit cs))
    (hdigits : Lexeme.Cut behind (Lexeme.run Char.isDigit (d :: (rest ++ behind)))
      (Lexeme.run Char.isDigit (d :: rest))) :
    Lexeme.Cut behind (number (cs ++ behind)) (number cs) := by
  rw [number_of_fraction hrest hd, number_of_fraction (by rw [hwhole.rest, hrest]; rfl) hd]
  refine ⟨?_, ?_, hdigits.rest⟩
  · rw [hwhole.text]
    exact congrArg (fun text => Except.ok (TokenKind.float (floatOfDigits _ text))) hdigits.text
  · rw [hwhole.text]
    exact congrArg (fun text => _ ++ '.' :: text) hdigits.text

/-- A digit behind the point is taken, so the point in front of a cut is no part of a number. -/
theorem local_number : Local number := by
  intro cs behind _ hlen
  obtain ⟨d, rest, hrest, hd⟩ | hnone := fraction_or_whole (cs ++ behind)
  · rw [number_of_fraction hrest hd] at hlen
    have hlen' : behind.length ≤ (Lexeme.run Char.isDigit (d :: rest)).rest.length := hlen
    have hshorter : (Lexeme.run Char.isDigit (d :: rest)).rest.length ≤ rest.length := by
      simpa [Lexeme.run, hd] using length_rest_run_le Char.isDigit rest
    have hwhole : Lexeme.Cut behind (Lexeme.run Char.isDigit (cs ++ behind)) _ :=
      cut_run Char.isDigit (by rw [hrest, List.length_cons, List.length_cons]; omega)
    -- the point and the digit are in front of the cut, as more digits may follow them there
    have hsplit : ['.', d] ++ rest = (Lexeme.run Char.isDigit cs).rest ++ behind :=
      hrest.symm.trans hwhole.rest
    obtain ⟨rest', hrest', rfl⟩ := exists_append_of_length_le hsplit (by omega)
    have hdigits : Lexeme.Cut behind _ (Lexeme.run Char.isDigit (d :: rest')) :=
      cut_run Char.isDigit hlen
    exact cut_number_of_fraction hrest' hd hwhole hdigits
  · rw [number_of_whole hnone] at hlen ⊢
    have hwhole := cut_run Char.isDigit hlen
    rw [number_of_whole fun d rest h => hnone d (rest ++ behind) (by rw [hwhole.rest, h]; rfl)]
    exact hwhole.map intKind

/-! ### Comments

A comment to the end of the line is a stretch. Another one ends with a mark of two characters, which
is taken, so it is not cut in two. -/

theorem local_lineComment : Local lineComment := by
  intro cs behind hbreak hlen
  obtain ⟨hvalue, htext, hrest⟩ := local_lineTail hbreak hlen
  exact ⟨congrArg (fun text => TokenKind.comment (String.ofList text) false) hvalue,
    congrArg ('#' :: ·) htext, hrest⟩

/-- A comment that ends in front of the cut has its end in the text that is cut off. -/
theorem blockTail_append {text rest : List Char} (h : blockTail (cs ++ behind) = some (text, rest))
    (hlen : behind.length ≤ rest.length) :
    ∃ rest', blockTail cs = some (text, rest') ∧ rest = rest' ++ behind := by
  fun_induction blockTail cs generalizing text with
  | case1 cs =>
    obtain ⟨rfl, rfl⟩ : [] = text ∧ cs ++ behind = rest := by simpa [blockTail] using h
    exact ⟨cs, rfl, rfl⟩
  | case2 c cs hclose ih =>
    have hclose' : ∀ ds, c = '*' → cs ++ behind = '/' :: ds → False := by
      rintro ds rfl hds
      cases cs with
      | nil =>
        obtain rfl : behind = '/' :: ds := hds
        obtain ⟨-, rfl⟩ : [] = text ∧ ds = rest := by simpa [blockTail] using h
        simp at hlen
      | cons d cs => exact hclose cs rfl (by rw [(List.cons.inj hds).1])
    rw [List.cons_append, blockTail.eq_2 c _ hclose'] at h
    obtain ⟨⟨text', rest'⟩, htail, heq⟩ := Option.map_eq_some_iff.mp h
    obtain ⟨rfl, rfl⟩ := Prod.mk.inj heq
    obtain ⟨rest'', htail', hrest⟩ := ih htail
    exact ⟨rest'', by rw [htail']; rfl, hrest⟩
  | case3 =>
    have hlength := congrArg List.length (eq_append_of_blockTail h)
    simp only [List.nil_append, List.length_append, List.length_cons] at hlength
    omega

theorem local_blockComment : Local blockComment := by
  intro cs behind hbreak hlen
  unfold blockComment at hlen ⊢
  cases h : blockTail (cs ++ behind) with
  | none =>
    simp only [h, List.length_nil, Nat.le_zero, List.length_eq_zero_iff] at hlen
    subst hlen
    rw [List.append_nil] at h ⊢
    rw [h]
    exact .refl _
  | some found =>
    obtain ⟨text, rest⟩ := found
    simp only [h] at hlen
    obtain ⟨rest', h', hrest⟩ := blockTail_append h hlen
    rw [h']
    exact ⟨rfl, rfl, hrest⟩

/-- A line break that is not cut in two is taken whole. -/
theorem cut_lineBreak (hbreak : ¬ SplitsBreak cs behind) (hne : cs ≠ []) :
    Lexeme.Cut behind (lineBreak (cs ++ behind)) (lineBreak cs) := by
  fun_cases lineBreak cs with
  | case1 cs => exact ⟨rfl, rfl, rfl⟩
  | case2 c cs hpair =>
    rw [List.cons_append, lineBreak.eq_2 c _ (not_lineFeed_append hbreak hpair)]
    exact ⟨rfl, rfl, rfl⟩
  | case3 => exact absurd rfl hne

/-! ### The choice of a form

What a token is depends on its first characters. All the characters that were looked at to choose a
form are taken by the scanner of that form, so if it stops in front of the cut, the choice is the
same. -/

theorem two_le_length_text_path (h : startsPath c cs = true) : 2 ≤ (path c cs).text.length := by
  cases cs with
  | nil => cases h
  | cons d cs =>
    have hd : isPathChar d = true := by simp_all [startsPath]
    simp [path, pathTail_cons (ne_backslash_of_isPathChar hd), hd, Lexeme.before]

theorem two_le_length_text_blockComment (cs : List Char) :
    2 ≤ (blockComment cs).text.length := by
  unfold blockComment
  split <;> simp

theorem three_le_length_text_operator (cs : List Char) :
    3 ≤ (operator '.' ('.' :: '.' :: cs)).text.length := by
  have hfirst : beginsOperator ['.', '.'] = true := by decide
  have hsecond : beginsOperator ['.', '.', '.'] = true := by decide
  unfold operator
  dsimp only
  split <;> simp [growOperator, hfirst, hsecond, Lexeme.before]

/-- One character behind the dot is enough to see whether it is alone. -/
theorem isLoneDot_append (h : cs ≠ []) (behind : List Char) :
    isLoneDot (cs ++ behind) = isLoneDot cs := by
  obtain ⟨d, ds, rfl⟩ := List.exists_cons_of_ne_nil h
  by_cases hslash : d = '/' <;> by_cases hdot : d = '.' <;> simp [isLoneDot, hslash, hdot]

theorem startsPath_append (h : cs ≠ []) (c : Char) (behind : List Char) :
    startsPath c (cs ++ behind) = startsPath c cs := by
  obtain ⟨d, ds, rfl⟩ := List.exists_cons_of_ne_nil h
  rfl

theorem startsPath_of_not_isLoneDot (h : isLoneDot cs = false) : startsPath '.' cs = true := by
  cases cs with
  | nil => cases h
  | cons d cs =>
    obtain rfl | rfl : d = '/' ∨ d = '.' := by
      by_contra hd
      simp_all [isLoneDot]
    all_goals rfl

/-- A mark that a scanner takes stands in front of the cut, if the scanner stays there. -/
theorem prefix_of_takes {mark text rest : List Char} (hmark : mark <+: cs ++ behind)
    (htakes : text ++ rest = c :: (cs ++ behind)) (hlen : behind.length ≤ rest.length)
    (hlong : mark.length < text.length) : mark <+: cs := by
  have hlength := congrArg List.length htakes
  simp only [List.length_append, List.length_cons] at hlength
  exact List.prefix_of_prefix_length_le hmark (List.prefix_append cs behind) (by omega)

/-- The dots of an ellipsis that stays in front of the cut are in front of it. -/
theorem dots_of_operator (h : ['.', '.'] <+: cs ++ behind)
    (hlen : behind.length ≤ (operator '.' (cs ++ behind)).rest.length) : ['.', '.'] <+: cs := by
  refine prefix_of_takes h (append_operator '.' (cs ++ behind)) hlen ?_
  obtain ⟨ds, hds⟩ := h
  rw [← hds]
  exact three_le_length_text_operator ds

/-- A block comment that stays in front of the cut was opened in front of it. -/
theorem star_of_blockComment (h : ['*'] <+: cs ++ behind)
    (hlen : behind.length ≤ (blockComment ((cs ++ behind).drop 1)).rest.length) :
    ['*'] <+: cs := by
  obtain ⟨ds, hds⟩ := id h
  have htakes : (blockComment ds).text ++ (blockComment ds).rest = '/' :: (cs ++ behind) :=
    hds ▸ append_blockComment ds
  rw [← hds] at hlen
  exact prefix_of_takes h htakes hlen (two_le_length_text_blockComment ds)

theorem ne_nil_of_path (h : startsPath c (cs ++ behind) = true)
    (hlen : behind.length ≤ (path c (cs ++ behind)).rest.length) : cs ≠ [] := by
  rintro rfl
  have htwo := two_le_length_text_path h
  have hlength := congrArg List.length (append_path c ([] ++ behind))
  simp only [List.length_append, List.length_cons, List.nil_append] at hlength htwo hlen
  omega

/-- A mark that is not in the whole text is not in front of the cut. -/
theorem not_isPrefixOf_append {b : Bool} {mark : List Char}
    (h : ¬ (b && mark.isPrefixOf (cs ++ behind)) = true) : ¬ (b && mark.isPrefixOf cs) = true := by
  simp only [Bool.and_eq_true, List.isPrefixOf_iff_prefix] at h ⊢
  exact fun ⟨hb, hmark⟩ => h ⟨hb, hmark.trans (List.prefix_append cs behind)⟩

/-- A token behind which nothing of `behind` is taken has looked at no more. -/
theorem cut_plainToken (hbreak : ¬ SplitsBreak (c :: cs) behind)
    (hlen : behind.length ≤ (plainToken c (cs ++ behind)).rest.length) :
    Lexeme.Cut behind (plainToken c (cs ++ behind)) (plainToken c cs) := by
  revert hlen
  unfold plainToken
  cases bracket? c with
  | some s => exact fun _ => ⟨rfl, rfl, rfl⟩
  | none =>
    dsimp only
    -- the forms are tried one after the other, and a form that is not there in the whole text is
    -- not there in front of the cut
    rw [← List.cons_append, startsLineBreak_append hbreak]
    by_cases hline : startsLineBreak (c :: cs) = true
    · rw [if_pos hline, if_pos hline]
      exact fun _ => (cut_lineBreak hbreak (List.cons_ne_nil c cs)).map _
    rw [if_neg hline, if_neg hline]
    by_cases hname : isNameStart c = true
    · rw [if_pos hname, if_pos hname]
      exact fun hlen => (local_word hbreak hlen).map _
    rw [if_neg hname, if_neg hname]
    by_cases hlone : (decide (c = '.') && isLoneDot (cs ++ behind)) = true
    · obtain ⟨rfl, hdot⟩ : c = '.' ∧ isLoneDot (cs ++ behind) = true := by simpa using hlone
      have hdot' : isLoneDot cs = true := by
        rcases eq_or_ne cs [] with rfl | hne
        · rfl
        · rwa [isLoneDot_append hne] at hdot
      rw [if_pos hlone, if_pos (by simpa using hdot')]
      exact fun _ => ⟨rfl, rfl, rfl⟩
    rw [if_neg hlone]
    by_cases hdots : (decide (c = '.') && ['.', '.'].isPrefixOf (cs ++ behind)) = true
    · obtain ⟨rfl, hprefix⟩ : c = '.' ∧ ['.', '.'] <+: cs ++ behind := by simpa using hdots
      rw [if_pos hdots]
      intro hlen
      obtain ⟨cs, rfl⟩ := dots_of_operator hprefix hlen
      exact local_operator '.' (not_splitsBreak_of_cons hbreak) hlen
    rw [if_neg hdots]
    by_cases hstar : (decide (c = '/') && ['*'].isPrefixOf (cs ++ behind)) = true
    · obtain ⟨rfl, hprefix⟩ : c = '/' ∧ ['*'] <+: cs ++ behind := by simpa using hstar
      rw [if_pos hstar]
      intro hlen
      obtain ⟨cs, rfl⟩ := star_of_blockComment hprefix hlen
      exact local_blockComment (not_splitsBreak_of_append (s := ['/', '*']) hbreak) hlen
    rw [if_neg hstar]
    by_cases hpath : startsPath c (cs ++ behind) = true
    · rw [if_pos hpath]
      intro hlen
      have hne := ne_nil_of_path hpath hlen
      rw [isLoneDot_append hne] at hlone
      rw [startsPath_append hne] at hpath
      rw [if_neg hlone, if_neg (not_isPrefixOf_append hdots), if_neg (not_isPrefixOf_append hstar),
        if_pos hpath]
      exact (local_path c (not_splitsBreak_of_cons hbreak) hlen).map _
    have hdot : c ≠ '.' := by
      rintro rfl
      exact hpath (startsPath_of_not_isLoneDot (by simpa using hlone))
    have hpath' : ¬ startsPath c cs = true := by
      rcases eq_or_ne cs [] with rfl | hne
      · simp [startsPath]
      · rwa [startsPath_append hne] at hpath
    have hlone' : ¬ (decide (c = '.') && isLoneDot cs) = true := by simp [hdot]
    rw [if_neg hpath, if_neg hlone', if_neg (not_isPrefixOf_append hdots),
      if_neg (not_isPrefixOf_append hstar), if_neg hpath']
    by_cases hdigit : c.isDigit = true
    · rw [if_pos hdigit, if_pos hdigit]
      exact fun hlen => local_number hbreak hlen
    rw [if_neg hdigit, if_neg hdigit]
    by_cases hoperator : isOperatorStart c = true
    · rw [if_pos hoperator, if_pos hoperator]
      exact fun hlen => local_operator c (not_splitsBreak_of_cons hbreak) hlen
    rw [if_neg hoperator, if_neg hoperator]
    by_cases hcomment : c = '#'
    · rw [if_pos hcomment, if_pos hcomment]
      exact fun hlen => (local_lineComment (not_splitsBreak_of_cons hbreak) hlen).map _
    · rw [if_neg hcomment, if_neg hcomment]
      exact fun _ => ⟨rfl, rfl, rfl⟩

/-! ### The text of strings

Unlike the scanners before, that of a text stops because of what comes next. So what comes next, up
to two characters, has to be in front of the cut as well. -/

/-- Whether the text of a string stops in front of `cs`. -/
def stopsAt (multiline : Bool) (cs : List Char) : Bool :=
  (delimiter multiline).isPrefixOf cs || ['$', '{'].isPrefixOf cs

/-- A character that is no backslash is text, unless the text stops there. -/
theorem stringText_cons (multiline : Bool) (h : c ≠ '\\') (cs : List Char) :
    stringText multiline (c :: cs) = if stopsAt multiline (c :: cs) then ⟨[], [], c :: cs⟩
      else (stringText multiline cs).before [c] [c] := by
  rw [stringText, stopsAt]
  all_goals simp [h]

/-- No text is taken in front of what stops it. -/
theorem stringText_of_stopsAt {multiline : Bool}
    (h : stopsAt multiline cs = true) : stringText multiline cs = ⟨[], [], cs⟩ := by
  cases cs with
  | nil => cases multiline <;> cases h
  | cons c cs =>
    have hc : c ≠ '\\' := by
      rintro rfl
      cases multiline <;> cases h
    rw [stringText_cons multiline hc, if_pos h]

theorem length_rest_stringText_le (multiline : Bool) (cs : List Char) :
    (stringText multiline cs).rest.length ≤ cs.length :=
  List.IsSuffix.length_le ⟨_, append_stringText multiline cs⟩

/-- The text of a string that stops in front of a mark, and does so in front of the cut if the mark
does not go past it. -/
theorem cut_stringText {multiline : Bool} {stop : List Char}
    (hmem : stop = delimiter multiline ∨ stop = ['$', '{'])
    (hstop : stop <+: (stringText multiline (cs ++ behind)).rest)
    (hlen : behind.length + stop.length ≤ (stringText multiline (cs ++ behind)).rest.length) :
    Lexeme.Cut behind (stringText multiline (cs ++ behind)) (stringText multiline cs) := by
  have hpos : 0 < stop.length := by
    rcases hmem with rfl | rfl
    · cases multiline <;> decide
    · decide
  fun_induction stringText multiline cs with
  | case1 c cs ih => exact (ih hstop hlen).before [unescape c] ['\\', c]
  | case2 =>
    cases behind with
    | nil => exact .refl _
    | cons d ds =>
      have hlength := length_rest_stringText_le multiline ds
      simp only [List.length_cons, List.cons_append, List.nil_append, stringText,
        Lexeme.before] at hlen
      omega
  | case3 c cs hpair hlone h =>
    have hstops : stopsAt multiline (c :: cs ++ behind) = true := by
      simp only [stopsAt, Bool.or_eq_true, List.isPrefixOf_iff_prefix] at h ⊢
      exact h.imp (·.trans (List.prefix_append _ _)) (·.trans (List.prefix_append _ _))
    rw [List.cons_append, stringText_cons multiline (ne_backslash hpair hlone)]
    rw [List.cons_append] at hstops
    rw [if_pos hstops]
    exact ⟨rfl, rfl, rfl⟩
  | case4 c cs hpair hlone h ih =>
    rw [List.cons_append, stringText_cons multiline (ne_backslash hpair hlone)] at hstop hlen ⊢
    split at hstop
    · rename_i hstops
      rw [if_pos hstops] at hlen
      -- the mark is no longer than what is in front of the cut, which then begins with it
      have hshort : stop <+: c :: cs := by
        refine List.prefix_of_prefix_length_le hstop (List.prefix_append (c :: cs) behind) ?_
        simp only [List.length_cons, List.length_append] at hlen ⊢
        omega
      refine absurd ?_ h
      simp only [Bool.or_eq_true, List.isPrefixOf_iff_prefix]
      rcases hmem with rfl | rfl
      · exact .inl hshort
      · exact .inr hshort
    · rename_i hstops
      rw [if_neg hstops] at hlen ⊢
      exact (ih hstop hlen).before [c] [c]
  | case5 =>
    have hlength := length_rest_stringText_le multiline behind
    simp only [List.nil_append] at hlen
    omega

end Lexical

end NixSyntax
