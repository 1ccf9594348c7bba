import NixSyntax.Proofs.Lexing.Lockstep
import NixSyntax.Proofs.Lexing.Settled

/-!
# Line endings

A line may end with a line feed alone, or with a carriage return in front of it. `withReturns` puts
a carriage return in front of every line feed of a text. The scanners then find the same things, one
character later for each line behind: a carriage return in front of a line feed is no blank, it ends
a comment and a line, and a backslash in a path takes both characters. In texts the carriage returns
stay, so what is left of a text without them (`withoutReturns`) is compared. Lines and columns are
the same, since a line feed begins a new line whatever stands in front of it.

Each scanner is taken by itself, by induction on the text. A text without a carriage return is
empty, or it begins with a line feed, or with a character that stays what it is (`unreturned_rec`).

## What has to be shown of a scanner

A scanner goes through both texts at once. Where the one text has a line feed, the other has a
carriage return in front of it, and everything a scanner asks about a carriage return has to be seen
not to matter: it is no blank in front of a line feed, no character of a name, a number, an operator
or a mark, and it stops a comment to the end of the line. Two scanners take line feeds, that of a
block comment and that of the text of a string, and they take the carriage return as one more
character of the text. A path takes a line feed behind a backslash only, together with the carriage
return.

The values are compared behind `withoutReturns`, which drops all carriage returns from texts. For
most scanners this is the identity on what they find.

## Main definitions

* `withReturns`, `addReturns`: a text, or a source, with carriage returns
* `withoutReturns`: a text without
* `Position.withoutOffset`: a position by line and column
* `Lexeme.Returns`: what is read of a text and of the text with carriage returns
* `Cursor.Returned`: the same place of both texts

## Main results

* `Lexical.returning_plainToken`, `Lexical.returning_stringText`, …: one lemma for each scanner
* `Lexical.lockstep_returned`: the two texts are read in lockstep
* `tokenize_addReturns`: their tokens, or faults, are the same
-/

namespace NixSyntax

/-! ### Texts

The text with carriage returns is longer and has no character changed. It is taken apart at each
line feed, so the lemmas are for a line feed and for any other character. -/

/-- A text with a carriage return in front of every line feed. -/
def withReturns (cs : List Char) : List Char :=
  cs.flatMap fun c => if c = '\n' then ['\r', '\n'] else [c]

/-- A source with a carriage return in front of every line feed. -/
def addReturns (source : String) : String := String.ofList (withReturns source.toList)

/-- The characters of a text that are no carriage returns. -/
def dropReturns (cs : List Char) : List Char := cs.filter (· != '\r')

/-- A text without its carriage returns. -/
def withoutReturns (s : String) : String := String.ofList (dropReturns s.toList)

@[simp] theorem withReturns_nil : withReturns [] = [] := rfl

@[simp] theorem withReturns_lineFeed (cs : List Char) :
    withReturns ('\n' :: cs) = '\r' :: '\n' :: withReturns cs := rfl

/-- Any other character stays alone. -/
theorem withReturns_cons {c : Char} (h : c ≠ '\n') (cs : List Char) :
    withReturns (c :: cs) = c :: withReturns cs := by
  simp [withReturns, h]

theorem withReturns_singleton {c : Char} (h : c ≠ '\n') : withReturns [c] = [c] :=
  withReturns_cons h []

theorem withReturns_append (cs ds : List Char) :
    withReturns (cs ++ ds) = withReturns cs ++ withReturns ds :=
  List.flatMap_append

theorem withReturns_of_notMem {cs : List Char} (h : '\n' ∉ cs) : withReturns cs = cs := by
  induction cs with
  | nil => rfl
  | cons c cs ih =>
    rw [List.mem_cons, not_or] at h
    rw [withReturns_cons (Ne.symm h.1), ih h.2]

theorem withReturns_eq_nil_iff {cs : List Char} : withReturns cs = [] ↔ cs = [] := by
  cases cs with
  | nil => simp
  | cons c cs => by_cases hc : c = '\n' <;> simp [withReturns, hc]

@[simp] theorem dropReturns_append (cs ds : List Char) :
    dropReturns (cs ++ ds) = dropReturns cs ++ dropReturns ds :=
  List.filter_append ..

/-- What was put in is dropped again. -/
@[simp] theorem dropReturns_withReturns (cs : List Char) :
    dropReturns (withReturns cs) = dropReturns cs := by
  induction cs with
  | nil => rfl
  | cons c cs ih =>
    by_cases hc : c = '\n'
    · subst hc
      simpa [dropReturns] using ih
    · rw [withReturns_cons hc, dropReturns, dropReturns, List.filter_cons, List.filter_cons,
        ← dropReturns, ← dropReturns, ih]

theorem withoutReturns_ofList (cs : List Char) :
    withoutReturns (String.ofList cs) = String.ofList (dropReturns cs) := by
  rw [withoutReturns, String.toList_ofList]

/-- How a text without carriage returns is made up. -/
theorem unreturned_rec {motive : (cs : List Char) → '\r' ∉ cs → Prop}
    (nil : motive [] List.not_mem_nil)
    (lineFeed : ∀ cs (h : '\r' ∉ cs) (h' : '\r' ∉ '\n' :: cs), motive cs h → motive ('\n' :: cs) h')
    (cons : ∀ c cs, c ≠ '\n' → c ≠ '\r' → ∀ (h : '\r' ∉ cs) (h' : '\r' ∉ c :: cs),
      motive cs h → motive (c :: cs) h') : ∀ cs (h : '\r' ∉ cs), motive cs h
  | [], _ => nil
  | c :: cs, h => by
    obtain ⟨hreturn, htail⟩ := not_or.mp (mt List.mem_cons.mpr h)
    have ih := unreturned_rec nil lineFeed cons cs htail
    by_cases hfeed : c = '\n'
    · subst hfeed
      exact lineFeed cs htail h ih
    · exact cons c cs hfeed (Ne.symm hreturn) htail h ih

/-! ### Positions

A carriage return moves the column, but a line feed comes right behind it and sets the column back.
Only the offset remembers it, so offsets are left out of the comparison. -/

/-- The line and the column of a position. -/
def Position.withoutOffset (p : Position) : Position := { p with offset := 0 }

/-- Any character moves positions that are alike to such that are alike. -/
theorem Position.withoutOffset_next {p q : Position} (h : p.withoutOffset = q.withoutOffset)
    (c : Char) : (p.next c).withoutOffset = (q.next c).withoutOffset := by
  simp only [withoutOffset, mk.injEq, and_true] at h
  by_cases hc : c = '\n' <;> simp [withoutOffset, next, hc, h]

/-- A carriage return in front of a line feed changes no line and no column. -/
theorem Position.withoutOffset_advance {p q : Position} (h : p.withoutOffset = q.withoutOffset)
    (cs : List Char) :
    (p.advance cs).withoutOffset = (q.advance (withReturns cs)).withoutOffset := by
  induction cs generalizing p q with
  | nil => exact h
  | cons c cs ih =>
    by_cases hc : c = '\n'
    · subst hc
      refine ih ?_
      simp only [withoutOffset, mk.injEq, and_true] at h
      simp [withoutOffset, next, h]
    · rw [withReturns_cons hc]
      exact ih (withoutOffset_next h c)

namespace Lexical

variable {c : Char} {cs mark : List Char} {α β γ δ : Type}

/-! ### Looking ahead

A scanner looks for marks, and no mark contains a line feed or a carriage return. So it stands in
front of both texts or of none, and the text of a string stops at the same places. -/

/-- A mark without a line feed stands in both texts or in none. -/
theorem prefix_withReturns_iff (hfeed : '\n' ∉ mark) (hreturn : '\r' ∉ mark) :
    mark <+: withReturns cs ↔ mark <+: cs := by
  induction mark generalizing cs with
  | nil => simp
  | cons m mark ih =>
    rw [List.mem_cons, not_or] at hfeed hreturn
    cases cs with
    | nil => simp
    | cons c cs =>
      by_cases hc : c = '\n'
      · subst hc
        simp [List.cons_prefix_cons, Ne.symm hfeed.1, Ne.symm hreturn.1]
      · rw [withReturns_cons hc, List.cons_prefix_cons, List.cons_prefix_cons, ih hfeed.2 hreturn.2]

theorem isPrefixOf_withReturns (hfeed : '\n' ∉ mark) (hreturn : '\r' ∉ mark) (cs : List Char) :
    mark.isPrefixOf (withReturns cs) = mark.isPrefixOf cs := by
  rw [Bool.eq_iff_iff, List.isPrefixOf_iff_prefix, List.isPrefixOf_iff_prefix,
    prefix_withReturns_iff hfeed hreturn]

theorem stopsAt_withReturns (multiline : Bool) (cs : List Char) :
    stopsAt multiline (withReturns cs) = stopsAt multiline cs := by
  rw [stopsAt, stopsAt, isPrefixOf_withReturns, isPrefixOf_withReturns]
  all_goals
    cases multiline <;> decide

end Lexical

/-! ### Scanners

Each scanner is followed through both texts. Scanners of one class of characters (`returning_run`)
are enough for names and digits. The others go over the text with equations of their own. -/

/-- What is read of a text, and what is read of the text with carriage returns. The values are the
same behind `h`, and both take the same stretch. -/
structure Lexeme.Returns {α β : Type} (h : α → β) (l l' : Lexeme α) : Prop where
  /-- The same is spelled. -/
  value : h l'.value = h l.value
  /-- The same is covered. -/
  text : l'.text = withReturns l.text
  /-- The same is left. -/
  rest : l'.rest = withReturns l.rest

namespace Lexeme.Returns

variable {α β γ δ : Type}

/-- What has been read in front is put in front, with carriage returns on one side. -/
theorem before {h : List Char → List Char} (happend : ∀ as bs, h (as ++ bs) = h as ++ h bs)
    {l l' : Lexeme (List Char)} {value value' text text' : List Char}
    (hl : Lexeme.Returns h l l') (hvalue : h value' = h value) (htext : text' = withReturns text) :
    Lexeme.Returns h (l.before value text) (l'.before value' text') where
  value := by simp [Lexeme.before, happend, hvalue, hl.value]
  text := by simp [Lexeme.before, htext, hl.text, withReturns_append]
  rest := hl.rest

theorem map {h : α → β} {k : γ → δ} {l l' : Lexeme α} (hl : Lexeme.Returns h l l') (f : α → γ)
    (hf : ∀ a b, h a = h b → k (f a) = k (f b)) :
    Lexeme.Returns k ⟨f l.value, l.text, l.rest⟩ ⟨f l'.value, l'.text, l'.rest⟩ :=
  ⟨hf _ _ hl.value, hl.text, hl.rest⟩

/-- The very same is spelled. -/
theorem of_same {l l' : Lexeme α} (hl : Lexeme.Returns id l l') (h : α → β) :
    Lexeme.Returns h l l' :=
  hl.map id fun a b (hsame : a = b) => congrArg h hsame

/-- What is spelled is a token. -/
theorem ok {h : α → β} {l l' : Lexeme α} (hl : Lexeme.Returns h l l') :
    Lexeme.Returns (Except.map h : Except LexCause α → Except LexCause β)
      ⟨.ok l.value, l.text, l.rest⟩ ⟨.ok l'.value, l'.text, l'.rest⟩ :=
  ⟨congrArg Except.ok hl.value, hl.text, hl.rest⟩

end Lexeme.Returns

namespace Lexical

variable {c : Char} {cs mark : List Char} {α β : Type}

/-- A scanner that reads the same of a text with carriage returns. -/
def Returning (h : α → β) (scan : List Char → Lexeme α) : Prop :=
  ∀ ⦃cs⦄, '\r' ∉ cs → Lexeme.Returns h (scan cs) (scan (withReturns cs))

/-- A carriage return in front of a line feed is no blank, so blanks end at the same place. -/
theorem returning_blanks : Returning id blanks := by
  intro cs h
  induction cs, h using unreturned_rec with
  | nil => exact ⟨rfl, rfl, rfl⟩
  | lineFeed cs h h' ih => exact ⟨rfl, rfl, rfl⟩
  | cons c cs hfeed hreturn h h' ih =>
    obtain ⟨-, htext, hrest⟩ := ih
    rw [withReturns_cons hfeed, blanks, blanks, startsLineBreak_of_ne hfeed hreturn,
      startsLineBreak_of_ne hfeed hreturn]
    split
    · exact ⟨rfl, (congrArg (c :: ·) htext).trans (withReturns_cons hfeed _).symm, hrest⟩
    · exact ⟨rfl, rfl, (withReturns_cons hfeed cs).symm⟩

/-- A class that has neither of the two characters in it ends at a line break. -/
theorem returning_run {p : Char → Bool} (hfeed : p '\n' = false) (hreturn : p '\r' = false) :
    Returning id (Lexeme.run p) := by
  intro cs h
  induction cs, h using unreturned_rec with
  | nil => exact ⟨rfl, rfl, rfl⟩
  | lineFeed cs h h' ih =>
    simp only [Lexeme.run, withReturns_lineFeed, List.takeWhile_cons, List.dropWhile_cons, hfeed,
      hreturn]
    exact ⟨rfl, rfl, rfl⟩
  | cons c cs hc hc' h h' ih =>
    obtain ⟨hvalue, htext, hrest⟩ := ih
    simp only [Lexeme.run, withReturns_cons hc, List.takeWhile_cons, List.dropWhile_cons]
    split
    · exact ⟨congrArg (c :: ·) hvalue,
        (congrArg (c :: ·) htext).trans (withReturns_cons hc _).symm, hrest⟩
    · exact ⟨rfl, rfl, (withReturns_cons hc cs).symm⟩

theorem returning_word : Returning id word := by
  intro cs h
  have hrun := returning_run (p := isNameChar) (by decide) (by decide) h
  exact hrun.map (fun text => wordKind (String.ofList text)) fun a b (h : a = b) => h ▸ rfl

theorem returning_growOperator (taken : List Char) : Returning id (growOperator taken) := by
  intro cs h
  induction cs, h using unreturned_rec generalizing taken with
  | nil => exact ⟨rfl, rfl, rfl⟩
  | lineFeed cs h h' ih =>
    rw [withReturns_lineFeed, growOperator, growOperator, beginsOperator_eq_false (by decide),
      beginsOperator_eq_false (by decide)]
    exact ⟨rfl, rfl, rfl⟩
  | cons c cs hc hc' h h' ih =>
    rw [withReturns_cons hc, growOperator, growOperator]
    split
    · exact (ih (taken ++ [c])).before (fun _ _ => rfl) rfl (withReturns_singleton hc).symm
    · exact ⟨rfl, rfl, (withReturns_cons hc cs).symm⟩

theorem returning_operator (hc : c ≠ '\n') : Returning id (operator c) := by
  intro cs h
  have hgrown : Lexeme.Returns id ((growOperator [c] cs).before [c] [c])
      ((growOperator [c] (withReturns cs)).before [c] [c]) :=
    (returning_growOperator [c] h).before (fun _ _ => rfl) rfl (withReturns_singleton hc).symm
  obtain ⟨hvalue, htext, hrest⟩ := hgrown
  rw [id, id] at hvalue
  unfold operator
  dsimp only
  rw [hvalue, htext]
  split <;> exact ⟨rfl, rfl, hrest⟩

/-- A line ends in front of its line break, whatever form that has. -/
theorem returning_lineTail : Returning id lineTail := by
  intro cs h
  induction cs, h using unreturned_rec with
  | nil => exact ⟨rfl, rfl, rfl⟩
  | lineFeed cs h h' ih => exact ⟨rfl, rfl, rfl⟩
  | cons c cs hc hc' h h' ih =>
    rw [withReturns_cons hc, lineTail, lineTail, startsLineBreak_of_ne hc hc',
      startsLineBreak_of_ne hc hc']
    exact ih.before (fun _ _ => rfl) rfl (withReturns_singleton hc).symm

theorem returning_lineComment : Returning id lineComment := by
  intro cs h
  obtain ⟨hvalue, htext, hrest⟩ := returning_lineTail h
  exact ⟨congrArg (fun text => TokenKind.comment (String.ofList text) false) hvalue,
    (congrArg ('#' :: ·) htext).trans (withReturns_cons (by decide) _).symm, hrest⟩

/-- A line feed behind a backslash is taken with the carriage return in front of it. -/
theorem returning_pathTail : Returning dropReturns pathTail := by
  intro cs h
  fun_induction pathTail cs with
  | case1 cs ih => simp at h
  | case2 c cs hpair ih =>
    simp only [List.mem_cons, not_or] at h
    obtain ⟨-, hreturn, h⟩ := h
    -- only a line feed looks different behind the backslash
    by_cases hc : c = '\n'
    · subst hc
      rw [withReturns_cons (by decide), withReturns_lineFeed, pathTail_lineBreak]
      exact (ih h).before dropReturns_append rfl rfl
    · rw [withReturns_cons (by decide), withReturns_cons hc,
        pathTail_backslash fun _ hc' _ => hreturn hc'.symm]
      refine (ih h).before dropReturns_append rfl ?_
      rw [withReturns_cons (by decide), withReturns_singleton hc]
  | case3 => exact ⟨rfl, rfl, rfl⟩
  | case4 c cs _ _ _ hpath ih =>
    have hc : c ≠ '\n' := by
      rintro rfl
      cases hpath
    rw [withReturns_cons hc, pathTail_cons (ne_backslash_of_isPathChar hpath), if_pos hpath]
    exact (ih (mt (List.mem_cons_of_mem c) h)).before dropReturns_append rfl
      (withReturns_singleton hc).symm
  | case5 c cs _ hpair hlone hpath =>
    by_cases hc : c = '\n'
    · subst hc
      exact ⟨rfl, rfl, rfl⟩
    · rw [withReturns_cons hc, pathTail_cons (ne_backslash hpair hlone), if_neg hpath]
      exact ⟨rfl, rfl, (withReturns_cons hc cs).symm⟩
  | case6 => exact ⟨rfl, rfl, rfl⟩

theorem returning_path (hc : c ≠ '\n') :
    Returning (TokenKind.reword withoutReturns) (path c) := by
  intro cs h
  have htail : Lexeme.Returns dropReturns ((pathTail cs).before [c] [c])
      ((pathTail (withReturns cs)).before [c] [c]) :=
    (returning_pathTail h).before dropReturns_append rfl (withReturns_singleton hc).symm
  refine htail.map (fun text => TokenKind.path (String.ofList text)) fun as bs hsame => ?_
  rw [TokenKind.reword, TokenKind.reword, withoutReturns_ofList, withoutReturns_ofList, hsame]

/-- A point has a digit behind it in both texts or in none. -/
theorem returning_number : Returning id number := by
  intro cs h
  obtain ⟨hwhole, htext, hrest⟩ := returning_run (p := Char.isDigit) (by decide) (by decide) h
  have hsame : (Lexeme.run Char.isDigit (withReturns cs)).text =
      (Lexeme.run Char.isDigit cs).text := hwhole
  -- a point and a digit are the same two characters in both texts
  obtain ⟨d, rest, hpoint, hd⟩ | hnone := fraction_or_whole cs
  · have hfeed : d ≠ '\n' := by
      rintro rfl
      cases hd
    have htail : '\r' ∉ d :: rest := fun hmem =>
      h (mem_of_mem_rest_run (p := Char.isDigit) (by simp [hpoint, List.mem_cons.mp hmem]))
    obtain ⟨hdigits, htext', hrest'⟩ :=
      returning_run (p := Char.isDigit) (by decide) (by decide) htail
    rw [withReturns_cons hfeed] at hdigits htext' hrest'
    rw [hpoint, withReturns_cons (by decide), withReturns_cons hfeed] at hrest
    rw [number_of_fraction hpoint hd, number_of_fraction hrest hd, hsame]
    refine ⟨?_, ?_, hrest'⟩
    · exact congrArg (fun text => Except.ok (TokenKind.float (floatOfDigits _ text))) hdigits
    · rw [withReturns_append, withReturns_cons (by decide), htext', ← htext, hsame]
  · have hnone' : ∀ d rest, (Lexeme.run Char.isDigit (withReturns cs)).rest = '.' :: d :: rest →
        d.isDigit = false := fun d rest h => by
      by_contra hd
      have hdigit : d.isDigit = true := by simpa using hd
      have hprefix : ['.', d] <+: withReturns (Lexeme.run Char.isDigit cs).rest :=
        ⟨rest, by rw [← hrest, h]; rfl⟩
      have hmark {b : Char} (hblank : isBlank b = true) : b ∉ ['.', d] := fun hmem =>
        List.any_eq_false.mp (isBlank_pointDigit hdigit) b hmem hblank
      obtain ⟨rest', hrest'⟩ :=
        (prefix_withReturns_iff (hmark (by decide)) (hmark (by decide))).mp hprefix
      exact hd (hnone d rest' hrest'.symm)
    rw [number_of_whole hnone, number_of_whole hnone', hsame]
    exact ⟨rfl, hsame ▸ htext, hrest⟩

/-- The end of a comment is a mark without a line feed, and stands at the same place. -/
theorem blockTail_withReturns (cs : List Char) : blockTail (withReturns cs) =
    (blockTail cs).map fun found => (withReturns found.1, withReturns found.2) := by
  fun_induction blockTail cs with
  | case1 cs => rfl
  | case2 c cs hclose ih =>
    rw [Option.map_map]
    by_cases hc : c = '\n'
    · subst hc
      rw [withReturns_lineFeed, blockTail.eq_2 _ _ (by simp), blockTail.eq_2 _ _ (by simp), ih,
        Option.map_map, Option.map_map]
      rfl
    · have hclose' : ∀ ds, c = '*' → withReturns cs = '/' :: ds → False := by
        intro ds hstar hds
        have hslash : ['/'] <+: withReturns cs := ⟨ds, hds.symm⟩
        obtain ⟨ds', hds'⟩ := (prefix_withReturns_iff (by decide) (by decide)).mp hslash
        exact hclose ds' hstar hds'.symm
      rw [withReturns_cons hc, blockTail.eq_2 _ _ hclose', ih, Option.map_map]
      congr 1
      funext found
      simp [withReturns_cons hc]
  | case3 => rfl

theorem returning_blockComment :
    Returning (Except.map (TokenKind.reword withoutReturns)) blockComment := by
  intro cs _
  unfold blockComment
  rw [blockTail_withReturns]
  cases blockTail cs with
  | none => exact ⟨rfl, rfl, rfl⟩
  | some found =>
    refine ⟨?_, ?_, rfl⟩
    · simp [Except.map, TokenKind.reword, withoutReturns_ofList]
    · simp [withReturns_cons, withReturns_append]

/-- A line break is no delimiter and begins no interpolation. -/
theorem stringText_break {multiline : Bool} (hc : c = '\n' ∨ c = '\r') (cs : List Char) :
    stringText multiline (c :: cs) = (stringText multiline cs).before [c] [c] := by
  rcases hc with rfl | rfl
  all_goals
    rw [stringText_cons multiline (by decide), if_neg]
    cases multiline <;> simp [stopsAt, delimiter]

/-- A line feed in a string is text, and so is one behind a backslash. -/
theorem returning_stringText (multiline : Bool) :
    Returning dropReturns (stringText multiline) := by
  intro cs h
  fun_induction stringText multiline cs with
  | case1 c cs ih =>
    simp only [List.mem_cons, not_or] at h
    obtain ⟨-, hreturn, h⟩ := h
    by_cases hc : c = '\n'
    · -- a backslash takes the whole line break, which is longer by the return
      subst hc
      rw [withReturns_cons (by decide), withReturns_lineFeed, stringText,
        stringText_break (.inl rfl)]
      have htail : Lexeme.Returns dropReturns
          ((stringText multiline cs).before [unescape '\n'] ['\\', '\n'])
          ((stringText multiline (withReturns cs)).before ['\r', '\n'] ['\\', '\r', '\n']) :=
        (ih h).before dropReturns_append rfl rfl
      exact htail
    · rw [withReturns_cons (by decide), withReturns_cons hc, stringText]
      refine (ih h).before dropReturns_append rfl ?_
      rw [withReturns_cons (by decide), withReturns_singleton hc]
  | case2 => exact ⟨rfl, rfl, rfl⟩
  | case3 c cs hpair hlone hstops =>
    have hc : c ≠ '\n' := by
      rintro rfl
      cases multiline <;> simp [delimiter] at hstops
    rw [withReturns_cons hc, stringText_cons multiline (ne_backslash hpair hlone),
      ← withReturns_cons hc, stopsAt_withReturns,
      if_pos (show stopsAt multiline (c :: cs) = true from hstops)]
    exact ⟨rfl, rfl, rfl⟩
  | case4 c cs hpair hlone hstops ih =>
    have htail := ih (mt (List.mem_cons_of_mem c) h)
    by_cases hc : c = '\n'
    · subst hc
      rw [withReturns_lineFeed, stringText_break (.inr rfl), stringText_break (.inl rfl)]
      have hbreak : Lexeme.Returns dropReturns ((stringText multiline cs).before ['\n'] ['\n'])
          ((stringText multiline (withReturns cs)).before ['\r', '\n'] ['\r', '\n']) :=
        htail.before dropReturns_append rfl rfl
      exact hbreak
    · rw [withReturns_cons hc, stringText_cons multiline (ne_backslash hpair hlone),
        ← withReturns_cons hc, stopsAt_withReturns,
        if_neg (show ¬ stopsAt multiline (c :: cs) = true from hstops)]
      exact htail.before dropReturns_append rfl (withReturns_singleton hc).symm
  | case5 => exact ⟨rfl, rfl, rfl⟩

/-! ### Tokens

The form of a token is chosen by its first characters. Behind the first one, neither a line feed nor
a carriage return goes on with any form, so it does not matter which of the two is there. -/

theorem isLoneDot_withReturns (cs : List Char) : isLoneDot (withReturns cs) = isLoneDot cs := by
  cases cs with
  | nil => rfl
  | cons c cs =>
    by_cases hc : c = '\n'
    · subst hc
      rfl
    · rw [withReturns_cons hc]
      unfold isLoneDot
      split <;> simp_all

theorem startsPath_withReturns (c : Char) (cs : List Char) :
    startsPath c (withReturns cs) = startsPath c cs := by
  cases cs with
  | nil => rfl
  | cons d cs =>
    by_cases hd : d = '\n'
    · subst hd
      have hfeed : isPathChar '\n' = false := by decide
      have hreturn : isPathChar '\r' = false := by decide
      simp [startsPath, hfeed, hreturn]
    · rw [withReturns_cons hd, startsPath, startsPath]

/-- A token that holds no tokens. A line break is read in either form. -/
theorem returning_plainToken {c' : Char} {cs' : List Char} (h : '\r' ∉ c :: cs)
    (h' : withReturns (c :: cs) = c' :: cs') :
    Lexeme.Returns (Except.map (TokenKind.reword withoutReturns)) (plainToken c cs)
      (plainToken c' cs') := by
  obtain ⟨hreturn, htail⟩ := not_or.mp (mt List.mem_cons.mpr h)
  by_cases hc : c = '\n'
  · subst hc
    obtain ⟨rfl, rfl⟩ := List.cons.inj h'
    exact ⟨rfl, rfl, rfl⟩
  have hwhole := withReturns_cons hc cs
  obtain ⟨rfl, rfl⟩ := List.cons.inj (hwhole.symm.trans h')
  have hlineBreak (cs : List Char) : lineBreak (c :: cs) = ⟨.newline, [c], cs⟩ :=
    lineBreak.eq_2 c cs fun _ hc' _ => hreturn hc'.symm
  refine rel_plainToken
    (R := fun l' l => Lexeme.Returns (Except.map (TokenKind.reword withoutReturns)) l l')
    ?_ (isLoneDot_withReturns cs) (isPrefixOf_withReturns (by decide) (by decide) cs)
    (isPrefixOf_withReturns (by decide) (by decide) cs) (startsPath_withReturns c cs)
    (fun _ => ⟨rfl, (withReturns_singleton hc).symm, rfl⟩) ?_ ?_
    ((returning_operator hc htail).of_same _) ?_ (returning_path hc htail).ok ?_
    ((returning_lineComment htail).of_same _).ok
  · rw [startsLineBreak_of_ne hc (Ne.symm hreturn), startsLineBreak_of_ne hc (Ne.symm hreturn)]
  · rw [hlineBreak, hlineBreak]
    exact ⟨rfl, (withReturns_singleton hc).symm, rfl⟩
  · rw [← hwhole]
    exact ((returning_word h).of_same _).ok
  · rintro ⟨ds, rfl⟩
    rw [List.singleton_append, withReturns_cons (by decide)]
    exact returning_blockComment fun hmem => htail (List.mem_cons_of_mem _ hmem)
  · rw [← hwhole]
    exact (returning_number h).of_same _

end Lexical

/-! ### Side by side

From scanners to readers there is nothing more to show: `Returned` relates the places, and the
readers are in lockstep. -/

/-- The same place of a text without carriage returns and of the text with them. -/
structure Cursor.Returned (c c' : Cursor) : Prop where
  /-- There is no carriage return yet. -/
  unreturned : '\r' ∉ c.rest
  /-- The same is left. -/
  rest : c'.rest = withReturns c.rest
  /-- They are in the same line and column. -/
  pos : c.pos.withoutOffset = c'.pos.withoutOffset

namespace Cursor.Returned

variable {c c' : Cursor} {mark : List Char} {α β : Type}

theorem past (hc : Returned c c') {h : α → β} {l l' : Lexeme α} (hl : Lexeme.Returns h l l')
    (happend : l.text ++ l.rest = c.rest) : Returned (c.past l) (c'.past l') where
  unreturned hmem := hc.unreturned (happend ▸ List.mem_append_right _ hmem)
  rest := hl.rest
  pos := by
    rw [Cursor.past, Cursor.past, hl.text]
    exact Position.withoutOffset_advance hc.pos l.text

/-- A mark stands at both places or at none. -/
theorem prefix_iff (hc : Returned c c') (hfeed : '\n' ∉ mark) (hreturn : '\r' ∉ mark) :
    mark <+: c.rest ↔ mark <+: c'.rest := by
  rw [hc.rest, Lexical.prefix_withReturns_iff hfeed hreturn]

theorem skip (hc : Returned c c') (hfeed : '\n' ∉ mark) (hmark : mark <+: c.rest) :
    Returned (c.skip mark.length) (c'.skip mark.length) := by
  obtain ⟨rest, hrest⟩ := hmark
  have hrest' : mark ++ withReturns rest = c'.rest := by
    rw [hc.rest, ← hrest, withReturns_append, withReturns_of_notMem hfeed]
  have hskip : c.skip mark.length = c.past ⟨(), mark, rest⟩ := by
    simp [Cursor.skip, Cursor.past, ← hrest]
  have hskip' : c'.skip mark.length = c'.past ⟨(), mark, withReturns rest⟩ := by
    simp [Cursor.skip, Cursor.past, ← hrest']
  rw [hskip, hskip']
  exact hc.past (h := id) ⟨rfl, (withReturns_of_notMem hfeed).symm, rfl⟩ hrest

end Cursor.Returned

namespace Lexical

/-- **A text and the text with carriage returns are read in lockstep.** -/
theorem lockstep_returned : Lockstep Position.withoutOffset Position.withoutOffset withoutReturns
    Cursor.Returned where
  pos hc := hc.pos
  ended hc := by rw [hc.rest, withReturns_eq_nil_iff]
  blanks hc := by
    have hblanks := returning_blanks hc.unreturned
    rw [← hc.rest] at hblanks
    exact hc.past hblanks (append_blanks _)
  opens hc := hc.prefix_iff (by decide) (by decide)
  opening hc hopen := hc.skip (by decide) hopen
  delimits hc multiline := by
    apply hc.prefix_iff <;> cases multiline <;> decide
  delimiter hc multiline hquote := hc.skip (by cases multiline <;> decide) hquote
  text hc multiline := by
    have htext := returning_stringText multiline hc.unreturned
    rw [← hc.rest] at htext
    refine ⟨?_, hc.past htext (append_stringText _ _)⟩
    rw [withoutReturns_ofList, withoutReturns_ofList, htext.value]
  plain hc ch cs ch' cs' hcs hcs' := by
    have htoken := returning_plainToken (hcs ▸ hc.unreturned) (hcs ▸ hc.rest ▸ hcs')
    exact ⟨htoken.value.symm, hc.past htoken ((append_plainToken ch cs).trans hcs.symm)⟩

/-- The byte order mark is in front of both texts or of none. -/
theorem returned_ofText {cs : List Char} (h : '\r' ∉ cs) :
    Cursor.Returned (.ofText cs) (.ofText (withReturns cs)) := by
  cases cs with
  | nil => exact ⟨h, rfl, rfl⟩
  | cons c cs =>
    by_cases hc : c = '\n'
    · subst hc
      exact ⟨h, rfl, rfl⟩
    · rw [withReturns_cons hc, Cursor.ofText, Cursor.ofText]
      split
      · exact ⟨mt (List.mem_cons_of_mem c) h, rfl, rfl⟩
      · exact ⟨h, (withReturns_cons hc cs).symm, rfl⟩

end Lexical

/-- A lexical fault at another position. -/
def LexFault.relabel (f : Position → Position) (a : LexFault) : LexFault :=
  ⟨a.cause, a.span.map f⟩

/-- **The tokens of a source with carriage returns**, and its fault, stand in the same lines and
columns, and their texts are the same but for carriage returns. -/
theorem tokenize_addReturns {source : String} (h : '\r' ∉ source.toList) :
    ((tokenize (addReturns source)).map (recastTokens .withoutOffset withoutReturns)).mapError
        (LexFault.relabel .withoutOffset) =
      ((tokenize source).map (recastTokens .withoutOffset withoutReturns)).mapError
        (LexFault.relabel .withoutOffset) := by
  have hagree := Lexical.lockstep_returned.agree_tokensFrom (Lexical.returned_ofText h) le_rfl
    le_rfl le_rfl le_rfl
  rw [tokenize, tokenize, addReturns, String.toList_ofList]
  generalize Lexical.tokensFrom _ _ (Cursor.ofText source.toList) = x,
    Lexical.tokensFrom _ _ (Cursor.ofText (withReturns source.toList)) = y at hagree ⊢
  cases hagree with
  | ok hts => exact congrArg Except.ok hts.symm
  | error hspan => exact congrArg (fun span => Except.error (LexFault.mk _ span)) hspan.symm

end NixSyntax
