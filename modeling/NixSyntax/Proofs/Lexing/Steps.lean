import NixSyntax.Proofs.Lexing.Forms
import NixSyntax.Proofs.Lexing.Passage

/-!
# The steps of cutting a text into tokens

`Lexical.token` comes with a bound on the characters that are left, and every loop below it with
one of its own. None of them matters: `Reads` says which token stands at a place without naming a
bound, and `Reads.stands` says what it is made of, again in terms of `Reads`. So what follows about
tokens at any depth is by induction on the text that is left, and no bound occurs in it.

Before the bounds can go, every reader has to be seen to move forward only (`within_token`). The
same goes for the faults: wherever a reader gives up, it has been at both ends of the span it
reports. So the two outcomes are dealt with together, in `Within`.

## Relations instead of readers

`Run`, `Encloses`, `Fragments` and `Stands` have one constructor for each way in which something can
be read, and its arguments are the steps that were made. In place of a bound there is `Reads`, which
says that the reader finds the token with some bound that is large enough for what is left. The
relations forget what does not concern the places of tokens, such as the order in which forms are
tried and how the brace is found that closes an interpolation. Where these are needed, they are
asked for separately.

The first half of the module has no tokens in it. It follows the readers along their definitions and
says that they go from one place of the text to a later one, with a text between that is taken as a
whole.

## Main definitions

* `Within`: a reader ends at a place that can be reached, and so does a fault
* `Reads`: a token, the place in front of its blanks, and the place behind it
* `Run`, `Encloses`, `Fragments`: tokens in a row, those of an interpolation, and a string's parts
* `Stands`: what a token is made of

## Main results

* `within_token`: a reader of tokens moves forward only
* `Reads.stands`: a token is made of what `Stands` says
-/

namespace NixSyntax

namespace Lexical

/-! ### Forward only

A reader is put together from scanners and marks by binds. `Within` goes along with binds, and
scanners and marks are ways between places. -/

/-- A fault is reported between two places that can be reached from `base`. -/
def FaultWithin (base : Cursor) (f : LexFault) : Prop :=
  ∃ a b, base.Reaches a ∧ base.Reaches b ∧ f.span = ⟨a.pos, b.pos⟩

/-- The place at which a reader ended can be reached from `base`, or its fault is reported between
two such places. -/
def Within (base : Cursor) {α : Type} (place : α → Cursor) : Except LexFault α → Prop
  | .ok a => base.Reaches (place a)
  | .error f => FaultWithin base f

section

variable {base s c : Cursor} {inner : TokenReader} {α β : Type}

/-- A reader that starts where another one ended. A fault of either is a fault of both. -/
theorem Within.bind {place : α → Cursor} {place' : β → Cursor} {x : Except LexFault α}
    {f : α → Except LexFault β} (hx : Within base place x)
    (hf : ∀ a, base.Reaches (place a) → Within base place' (f a)) :
    Within base place' (x >>= f) := by
  cases x with
  | error => exact hx
  | ok a => exact hf a hx

/-- A fault is reported from a place that was passed up to the present one. -/
theorem faultWithin_spanFrom {cause : LexCause} (hs : base.Reaches s) (hc : base.Reaches c) :
    FaultWithin base ⟨cause, c.spanFrom s.pos⟩ := ⟨s, c, hs, hc, rfl⟩

/-- Blanks are passed. -/
theorem passes_skipBlanks (c : Cursor) : c.Passes (blanks c.rest).text c.skipBlanks :=
  Cursor.passes_past (append_blanks _).symm (whole_blanks _)

theorem passes_plainToken {ch : Char} {cs : List Char} (h : c.rest = ch :: cs) :
    c.Passes (plainToken ch cs).text (c.past (plainToken ch cs)) :=
  Cursor.passes_past (by rw [append_plainToken, h]) (whole_plainToken ch cs)

/-- The text of a string is passed. -/
theorem passes_stringText (multiline : Bool) (c : Cursor) :
    c.Passes (stringText multiline c.rest).text (c.past (stringText multiline c.rest)) :=
  Cursor.passes_past (append_stringText _ _).symm (whole_stringText _ _)

theorem passes_delimiter {multiline : Bool} (h : delimiter multiline <+: c.rest) :
    c.Passes (delimiter multiline) (c.skip (delimiter multiline).length) := by
  obtain ⟨cs, hcs⟩ := h
  exact Cursor.passes_skip hcs.symm (by cases multiline <;> simp [delimiter])

theorem passes_opening (h : ['$', '{'] <+: c.rest) : c.Passes ['$', '{'] (c.skip 2) := by
  obtain ⟨cs, hcs⟩ := h
  exact Cursor.passes_skip (s := ['$', '{']) hcs.symm (by simp)

section

variable (hinner : ∀ c, base.Reaches c → Within base Prod.snd (inner c))
include hinner

/-- The tokens of an interpolation, by induction on the bound of the loop. -/
theorem within_untilBrace (hs : base.Reaches s) (n depth : Nat) (hc : base.Reaches c) :
    Within base Prod.snd (untilBrace inner s.pos n depth c) := by
  induction n generalizing depth c with
  | zero => exact faultWithin_spanFrom hs hc
  | succ n ih =>
    refine (hinner c hc).bind fun (t, d) hd => ?_
    have hrest (depth : Nat) : Within base Prod.snd
        (untilBrace inner s.pos n depth d >>= fun found => pure (t :: found.1, found.2)) :=
      (ih depth hd).bind fun _ he => he
    dsimp only
    split
    · exact faultWithin_spanFrom hs hd
    · exact hrest _
    · exact hd
    · exact hrest _
    · exact hrest _

/-- An interpolation, behind its opening. -/
theorem within_interpolation (n : Nat) (hc : base.Reaches c) (h : ['$', '{'] <+: c.rest) :
    Within base (·.2.2) (interpolation n inner c) :=
  (within_untilBrace hinner hc n 0 (hc.trans (passes_opening h).reaches)).bind fun _ hd => hd

/-- The parts of a string, each behind the one before. -/
theorem within_stringFragments (bound : Nat) (multiline : Bool) (hs : base.Reaches s) (n : Nat)
    (hc : base.Reaches c) :
    Within base Prod.snd (stringFragments bound inner multiline s.pos n c) := by
  induction n generalizing c with
  | zero => exact faultWithin_spanFrom hs hc
  | succ n ih =>
    have htext := hc.trans (passes_stringText multiline c).reaches
    rw [stringFragments]
    dsimp only
    split
    · rename_i hopen
      exact (within_interpolation hinner bound htext (List.isPrefixOf_iff_prefix.mp hopen)).bind
        fun _ hd => (ih hd).bind fun _ he => he
    · split
      · rename_i hclose
        exact htext.trans (passes_delimiter (List.isPrefixOf_iff_prefix.mp hclose)).reaches
      · exact faultWithin_spanFrom hs htext

theorem within_stringToken (n : Nat) (multiline : Bool) (hc : base.Reaches c)
    (h : delimiter multiline <+: c.rest) :
    Within base Prod.snd (stringToken n inner multiline c) :=
  (within_stringFragments hinner n multiline hc n
    (hc.trans (passes_delimiter h).reaches)).bind fun _ hd => hd

theorem within_tokenAt (n : Nat) (hc : base.Reaches c) :
    Within base Prod.snd (tokenAt n inner c) := by
  unfold tokenAt
  split
  · exact hc
  · rename_i ch cs hcs
    rw [← hcs]
    split
    · rename_i h
      exact (within_interpolation hinner n hc (List.isPrefixOf_iff_prefix.mp h)).bind fun _ hd => hd
    split
    · rename_i h
      exact within_stringToken hinner n false hc (List.isPrefixOf_iff_prefix.mp h)
    split
    · rename_i h
      exact within_stringToken hinner n true hc (List.isPrefixOf_iff_prefix.mp h)
    · have hstop := hc.trans (passes_plainToken hcs).reaches
      unfold plainTokenAt
      dsimp only
      split
      · exact hstop
      · exact faultWithin_spanFrom hc hstop

end

/-- **A reader of tokens moves forward only.** -/
theorem within_token (n : Nat) (hc : base.Reaches c) : Within base Prod.snd (token n c) := by
  induction n generalizing c with
  | zero => exact hc
  | succ n ih => exact within_tokenAt (fun _ => ih) n (hc.trans (passes_skipBlanks c).reaches)

/-- There is a way behind every token. -/
theorem reaches_of_token {n : Nat} {t : Token} {d : Cursor} (h : token n c = .ok (t, d)) :
    c.Reaches d := by
  have hwithin := within_token n (.refl c)
  rwa [h] at hwithin

end

/-! ### What a token is made of

The relations follow the definitions of the readers, and the lemmas say that what a reader has found
is so related. They are in the order of the readers and are closed into a circle in the last one. -/

/-- The token `t` is the next one at `c`, and `d` is the place behind it. -/
def Reads (c : Cursor) (t : Token) (d : Cursor) : Prop :=
  ∃ n, c.rest.length ≤ n ∧ token n c = .ok (t, d)

/-- Some tokens that stand in a row from `c` to `d`. -/
inductive Run : Cursor → List Token → Cursor → Prop where
  | nil (c : Cursor) : Run c [] c
  | cons {c d e : Cursor} {t : Token} {ts : List Token} (head : Reads c t d) (tail : Run d ts e) :
    Run c (t :: ts) e

/-- An interpolation from `c` to `d` has the tokens `ts` between its braces. -/
structure Encloses (c : Cursor) (ts : List Token) (d : Cursor) : Prop where
  /-- It begins with a dollar sign and a brace. -/
  opens : ['$', '{'] <+: c.rest
  /-- Behind its tokens stands the closing brace. -/
  closes : ∃ mid close, Run (c.skip 2) ts mid ∧ Reads mid close d ∧
    close.kind = .symbol .closeBrace
  /-- The end of the text is not among them. -/
  unended : ∀ t ∈ ts, t.isEnd = false

/-- The parts of a string from `c` on, with the place `d` behind its closing delimiter. -/
inductive Fragments (multiline : Bool) : Cursor → List StringFragment → Cursor → Prop where
  | last {c : Cursor}
    (closes : delimiter multiline <+: (c.past (stringText multiline c.rest)).rest) :
    Fragments multiline c [.text (String.ofList (stringText multiline c.rest).value)]
      ((c.past (stringText multiline c.rest)).skip (delimiter multiline).length)
  | interpolation {c d e : Cursor} {ts : List Token} {parts : List StringFragment}
    (head : Encloses (c.past (stringText multiline c.rest)) ts d)
    (tail : Fragments multiline d parts e) :
    Fragments multiline c
      (.text (String.ofList (stringText multiline c.rest).value) ::
        .interpolation ts ⟨(c.past (stringText multiline c.rest)).pos, d.pos⟩ :: parts) e

/-- A token stands from `c` to `d`, with no blanks in front of it. -/
inductive Stands : Cursor → Token → Cursor → Prop where
  | endOfInput {c : Cursor} (h : c.rest = []) : Stands c ⟨.endOfInput, .point c.pos⟩ c
  | interpolation {c d : Cursor} {ts : List Token} (h : Encloses c ts d) :
    Stands c ⟨.interpolation ts, ⟨c.pos, d.pos⟩⟩ d
  | string {c d : Cursor} {multiline : Bool} {parts : List StringFragment}
    (opens : delimiter multiline <+: c.rest)
    (h : Fragments multiline (c.skip (delimiter multiline).length) parts d) :
    Stands c ⟨.string parts multiline, ⟨c.pos, d.pos⟩⟩ d
  | plain {c : Cursor} {ch : Char} {cs : List Char} {kind : TokenKind} (hcs : c.rest = ch :: cs)
    (hopen : ¬ ['$', '{'] <+: c.rest) (hquote : ∀ multiline, ¬ delimiter multiline <+: c.rest)
    (h : (plainToken ch cs).value = .ok kind) :
    Stands c ⟨kind, ⟨c.pos, (c.past (plainToken ch cs)).pos⟩⟩ (c.past (plainToken ch cs))

section

variable {c d : Cursor} {n : Nat} {ts : List Token}

theorem Reads.reaches {t : Token} (h : Reads c t d) : c.Reaches d := by
  obtain ⟨n, -, h⟩ := h
  exact reaches_of_token h

theorem Run.reaches (h : Run c ts d) : c.Reaches d := by
  induction h with
  | nil c => exact .refl c
  | cons head _ ih => exact head.reaches.trans ih

/-- Two runs, one behind the other, are one. -/
theorem Run.append {e : Cursor} {us : List Token} (h : Run c ts d) (h' : Run d us e) :
    Run c (ts ++ us) e := by
  induction h with
  | nil => exact h'
  | cons head _ ih => exact .cons head (ih h')

/-- Two runs, one behind the other. -/
theorem Run.split {us : List Token} (h : Run c (ts ++ us) d) : ∃ e, Run c ts e ∧ Run e us d := by
  induction ts generalizing c with
  | nil => exact ⟨c, .nil c, h⟩
  | cons t ts ih =>
    cases h with
    | cons head tail =>
      obtain ⟨e, hts, hus⟩ := ih tail
      exact ⟨e, .cons head hts, hus⟩

/-- What was read up to a closing brace stands in a row, the brace behind it, and the text was not
over before. -/
theorem run_of_untilBrace {start : Position} {k depth : Nat} (hn : c.rest.length ≤ n)
    (h : untilBrace (token n) start k depth c = .ok (ts, d)) :
    (∃ mid close, Run c ts mid ∧ Reads mid close d ∧ close.kind = .symbol .closeBrace) ∧
      ∀ t ∈ ts, t.isEnd = false := by
  induction k generalizing depth c ts with
  | zero => cases h
  | succ k ih =>
    obtain ⟨t, e, ht, hend, ⟨hdepth, rfl, rfl⟩ | ⟨depth', us, -, hus, rfl⟩⟩ :=
      untilBrace_succ_eq_ok_iff.mp h
    · have hread : Reads c t d := ⟨n, hn, ht⟩
      exact ⟨⟨c, t, .nil c, hread, (TokenKind.braceDepth_eq_none_iff.mp hdepth).1⟩, by simp⟩
    · have hread : Reads c t e := ⟨n, hn, ht⟩
      obtain ⟨⟨mid, close, hrun, hclose⟩, hall⟩ :=
        ih (hread.reaches.length_rest_le.trans hn) hus
      exact ⟨⟨mid, close, .cons hread hrun, hclose⟩, List.forall_mem_cons.mpr ⟨hend, hall⟩⟩

/-- An interpolation that was read, and its span. -/
theorem encloses_of_interpolation {k : Nat} {span : Span} (hopen : ['$', '{'] <+: c.rest)
    (hn : c.rest.length ≤ n + 1) (h : interpolation k (token n) c = .ok (ts, span, d)) :
    Encloses c ts d ∧ span = ⟨c.pos, d.pos⟩ := by
  obtain ⟨hts, rfl⟩ := interpolation_eq_ok_iff.mp h
  have hlength : (c.skip 2).rest.length ≤ n := by
    have := (passes_opening hopen).length_rest
    simp only [List.length_cons, List.length_nil] at this
    omega
  obtain ⟨hcloses, hall⟩ := run_of_untilBrace hlength hts
  exact ⟨⟨hopen, hcloses, hall⟩, rfl⟩

/-- Behind the opening of an interpolation there is a way to its end. -/
theorem Encloses.reaches_inside (h : Encloses c ts d) : (c.skip 2).Reaches d := by
  obtain ⟨mid, close, hrun, hclose, -⟩ := h.closes
  exact hrun.reaches.trans hclose.reaches

theorem Encloses.reaches (h : Encloses c ts d) : c.Reaches d :=
  (passes_opening h.opens).reaches.trans h.reaches_inside

/-- The parts of a string that were read. -/
theorem fragments_of_stringFragments {bound k : Nat} {multiline : Bool} {start : Position}
    {parts : List StringFragment} (hn : c.rest.length ≤ n)
    (h : stringFragments bound (token n) multiline start k c = .ok (parts, d)) :
    Fragments multiline c parts d := by
  induction k generalizing c parts with
  | zero => cases h
  | succ k ih =>
    have htext := (passes_stringText multiline c).reaches.length_rest_le
    rcases stringFragments_succ_eq_ok_iff.mp h with
      ⟨hopen, ts, span, e, more, hts, hmore, rfl⟩ | ⟨-, hclose, rfl, rfl⟩
    · obtain ⟨henc, rfl⟩ := encloses_of_interpolation hopen (by omega) hts
      have he := henc.reaches.length_rest_le
      exact .interpolation henc (ih (by omega) hmore)
    · exact .last hclose

theorem stands_of_stringToken {multiline : Bool} {t : Token}
    (hopen : delimiter multiline <+: c.rest) (hn : c.rest.length ≤ n + 1)
    (h : stringToken n (token n) multiline c = .ok (t, d)) : Stands c t d := by
  obtain ⟨parts, hparts, rfl⟩ := stringToken_eq_ok_iff.mp h
  have hlength : (c.skip (delimiter multiline).length).rest.length ≤ n := by
    have := (passes_delimiter hopen).length_rest
    have := length_delimiter_pos multiline
    omega
  exact .string hopen (fragments_of_stringFragments hlength hparts)

/-- A token that was read, by its first characters. -/
theorem stands_of_tokenAt {t : Token} (hn : c.rest.length ≤ n + 1)
    (h : tokenAt n (token n) c = .ok (t, d)) : Stands c t d := by
  cases hcs : c.rest with
  | nil =>
    rw [tokenAt, hcs] at h
    cases h
    exact .endOfInput hcs
  | cons ch cs =>
    rcases (tokenAt_eq_ok_iff hcs).mp h with
      ⟨hopen, ts, span, hts, rfl⟩ | ⟨-, multiline, hquote, h⟩ | ⟨hopen, hquote, h⟩
    · obtain ⟨henc, rfl⟩ := encloses_of_interpolation hopen hn hts
      exact .interpolation henc
    · exact stands_of_stringToken hquote hn h
    · obtain ⟨kind, hkind, rfl, rfl⟩ := plainTokenAt_eq_ok_iff.mp h
      exact .plain hcs hopen hquote hkind

/-- **A token is made of what stands behind the blanks in front of it.** -/
theorem Reads.stands {t : Token} (h : Reads c t d) : Stands c.skipBlanks t d := by
  obtain ⟨n, hn, h⟩ := h
  have hblanks := (passes_skipBlanks c).reaches.length_rest_le
  cases n with
  | zero =>
    have hrest : c.rest = [] := List.eq_nil_of_length_eq_zero (Nat.le_zero.mp hn)
    have hskip : c.skipBlanks = c := by
      obtain ⟨rest, pos⟩ := c
      obtain rfl : rest = [] := hrest
      rfl
    cases h
    rw [hskip]
    exact .endOfInput hrest
  | succ n => exact stands_of_tokenAt (hblanks.trans hn) h

end

end Lexical

end NixSyntax
