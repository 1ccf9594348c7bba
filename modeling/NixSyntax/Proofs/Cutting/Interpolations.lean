import NixSyntax.Proofs.Cutting.Expressions

/-!
# An interpolation is a program of its own

What stands between the braces of an interpolation is read on the spot, and its tokens are kept with
it. The same text read alone has the same tokens, at positions that count from the opening brace. So
nothing in front of an interpolation, and nothing around it, has a part in how it is read: no brace
of a string or a comment closes it, and none that is open around it is counted.

If the text is a program, so is the one between the braces, and it is the one that the tree has
there. Here comments are kept, for a program takes all of them.

The interpolations of the tokens and those of the tree correspond one to one, in their order. They
are told from one another by their spans.

## Where the ends are

A token that is an interpolation holds the tokens between its braces, and neither brace is among
them. What the piece needs behind its last token is the end of input, and that is known of a piece
(`Lexical.tokenize_of_passes`): it has the tokens that take it, and its end. In front, the piece
begins two characters behind the span of the token, and its first line is the line of the opening
brace, so columns of that line are shifted, and of no other.

A string in the piece may hold further interpolations. These are pieces of the piece, but nothing
has to be said twice: the statement is about all interpolations of the text, at any depth, and each
of them is cut out of the text as a whole.

## Main definitions

* `Span.inside`: where the text between the braces begins
* `LexedAlone`, `ReadAlone`: what is between the braces has the same tokens, and the same tree, when
  it is read alone

## Main results

* `Program.interpolations_alone`: this is so of all interpolations, at every depth
-/

namespace NixSyntax

/-- Where the text between the braces of an interpolation begins. -/
def Span.inside (s : Span) : Position := s.start.advance ['$', '{']

/-- The characters of `source` between the braces of the interpolation under `span`. -/
def IsInside (source : String) (span : Span) (text : List Char) : Prop :=
  IsSlice source (span.start.offset + 2) (span.stop.offset - 1) text

/-- What is between the braces of an interpolation has, read alone, the tokens that the
interpolation has, and the end of the text where the closing brace stands. -/
def LexedAlone (source : String) (i : List Token × Span) : Prop :=
  ∃ text ts stop, IsInside source i.2 text ∧
    tokenize (String.ofList text) = .ok (ts ++ [⟨.endOfInput, .point stop⟩]) ∧
    relabelTokens i.2.inside.translate ts = i.1 ∧ (i.2.inside.translate stop).next '}' = i.2.stop

/-- What is between the braces of an interpolation is, read alone, the program that the tree has
there, comments included. -/
def ReadAlone (source : String) (i : List Token × Span) (c : Interpolation) : Prop :=
  c.span = i.2 ∧ ∃ text p, IsInside source i.2 text ∧ Program.ofText (String.ofList text) = .ok p ∧
    p.body.relabel i.2.inside.translate (List.map (Comment.relabel i.2.inside.translate)) = c.body

/-! ### All interpolations -/

/-- The interpolations of a string, and those in them. -/
theorem mem_fragmentsInterpolations_iff {parts : List StringFragment} {j : List Token × Span} :
    j ∈ fragmentsInterpolations parts ↔ ∃ i ∈ parts.filterMap StringFragment.interpolation?,
      j = i ∨ j ∈ interpolationsOf i.1 := by
  induction parts with
  | nil => simp [fragmentsInterpolations]
  | cons part parts ih =>
    cases part <;>
      simp [fragmentsInterpolations, StringFragment.allInterpolations,
        StringFragment.interpolation?, ih, or_assoc]

/-- The interpolations of a token, and those in them. -/
theorem Token.mem_allInterpolations_iff {t : Token} {j : List Token × Span} :
    j ∈ t.allInterpolations ↔ ∃ i ∈ t.interpolations, j = i ∨ j ∈ interpolationsOf i.1 := by
  obtain ⟨kind, span⟩ := t
  cases kind <;>
    simp [Token.allInterpolations, Token.interpolations, mem_fragmentsInterpolations_iff]

/-- Where the end of input comes last, the interpolations of some tokens are those of each. -/
theorem mem_interpolationsOf_append_iff {ts us : List Token} {i : List Token × Span}
    (hts : ∀ t ∈ ts, t.isEnd = false) (hus : ∀ t ∈ us, t.isEnd = true) :
    i ∈ interpolationsOf (ts ++ us) ↔ ∃ t ∈ ts ++ us, i ∈ t.allInterpolations := by
  induction ts with
  | nil =>
    have hnone : interpolationsOf us = [] := by
      cases us with
      | nil => exact interpolationsOf_nil
      | cons t us => rw [interpolationsOf, if_pos (hus t List.mem_cons_self)]
    have hempty : ∀ t ∈ us, t.allInterpolations = [] := by
      intro t ht
      have hend := hus t ht
      obtain ⟨kind, span⟩ := t
      cases kind <;> simp_all [Token.isEnd, Token.allInterpolations]
    simp only [List.nil_append, hnone, List.not_mem_nil, false_iff]
    rintro ⟨t, ht, hi⟩
    rw [hempty t ht] at hi
    cases hi
  | cons t ts ih =>
    obtain ⟨ht, hts⟩ := List.forall_mem_cons.mp hts
    rw [List.cons_append, interpolationsOf_cons _ ht, List.mem_append, ih hts]
    simp

namespace Lexical

variable {source : String} {a c d : Cursor} {t : Token} {ts : List Token}
  {i : List Token × Span}

/-- The interpolations of some tokens are those of the tokens inside them, if it is so of each. -/
theorem mem_interpolationsOf_iff_of_forall {us : List Token} (hts : ∀ t ∈ ts, t.isEnd = false)
    (hus : ∀ t ∈ us, t.isEnd = true) (h : ∀ t ∈ ts ++ us,
      (i ∈ t.allInterpolations ↔ ∃ u ∈ t.nested, i ∈ u.interpolations)) :
    i ∈ interpolationsOf (ts ++ us) ↔ ∃ u ∈ nestedTokens (ts ++ us), i ∈ u.interpolations := by
  rw [mem_interpolationsOf_append_iff hts hus]
  constructor
  · rintro ⟨t, ht, hi⟩
    obtain ⟨u, hu, hi⟩ := (h t ht).mp hi
    exact ⟨u, mem_nestedTokens_iff.mpr ⟨t, ht, hu⟩, hi⟩
  · rintro ⟨u, hu, hi⟩
    obtain ⟨t, ht, hu⟩ := mem_nestedTokens_iff.mp hu
    exact ⟨t, ht, (h t ht).mpr ⟨u, hu, hi⟩⟩

/-- All the interpolations of a token that was read are those of the tokens inside it. The text that
is left gets shorter with every interpolation that is entered. -/
theorem Reads.mem_allInterpolations_iff (h : Reads c t d) :
    i ∈ t.allInterpolations ↔ ∃ u ∈ t.nested, i ∈ u.interpolations := by
  obtain ⟨n, hn⟩ : ∃ n, n = c.rest.length := ⟨_, rfl⟩
  induction n using Nat.strongRecOn generalizing c t d with
  | ind n ih =>
    subst hn
    have hinner : ∀ j ∈ t.interpolations,
        (i ∈ interpolationsOf j.1 ↔ ∃ u ∈ nestedTokens j.1, i ∈ u.interpolations) := by
      intro j hj
      obtain ⟨a, b, ha, henc, -, -⟩ := h.stands.of_mem_interpolations j hj
      obtain ⟨mid, close, hrun, -, -⟩ := henc.closes
      have hskip := ((passes_skipBlanks c).reaches.trans ha).length_rest_le
      have hopen := (passes_opening henc.opens).length_rest
      simp only [List.length_cons, List.length_nil] at hopen
      -- the tokens of an interpolation are read behind its opening, so the induction covers them
      have heach : ∀ s ∈ j.1 ++ [],
          (i ∈ s.allInterpolations ↔ ∃ u ∈ s.nested, i ∈ u.interpolations) := by
        intro s hs
        obtain ⟨x, y, hx, hread⟩ := hrun.of_mem (by simpa using hs)
        have := hx.length_rest_le
        exact ih _ (by omega) hread rfl
      simpa using mem_interpolationsOf_iff_of_forall henc.unended (by simp) heach
    rw [Token.mem_allInterpolations_iff]
    constructor
    · rintro ⟨j, hj, rfl | hi⟩
      · exact ⟨t, Token.mem_nested_iff.mpr (.inl rfl), hj⟩
      · obtain ⟨u, hu, hi⟩ := (hinner j hj).mp hi
        exact ⟨u, Token.mem_nested_iff.mpr (.inr ⟨j, hj, hu⟩), hi⟩
    · rintro ⟨u, hu, hi⟩
      rcases Token.mem_nested_iff.mp hu with rfl | ⟨j, hj, hu⟩
      · exact ⟨i, hi, .inl rfl⟩
      · exact ⟨j, hj, .inr ((hinner j hj).mpr ⟨u, hu, hi⟩)⟩

/-- All the interpolations of a text. -/
theorem mem_interpolationsOf_iff (h : tokenize source = .ok ts) :
    i ∈ interpolationsOf ts ↔ ∃ t ∈ nestedTokens ts, i ∈ t.interpolations := by
  obtain ⟨body, d, e, last, rfl, hrun, hlast, hend, hends⟩ := run_of_tokenize h
  refine mem_interpolationsOf_iff_of_forall hends (by simpa using hend) fun t ht => ?_
  obtain ⟨x, y, -, hread⟩ := (hrun.append (.cons hlast (.nil e))).of_mem ht
  exact hread.mem_allInterpolations_iff

/-! ### One interpolation

From the reader of tokens, and then from the rules: an interpolation of the tree is made of all the
tokens of one of the text. -/

/-- The text between the braces of an interpolation has the tokens of the interpolation. -/
theorem Encloses.lexedAlone (ha : a.IsIn source) (h : Encloses a ts d) :
    LexedAlone source (ts, ⟨a.pos, d.pos⟩) := by
  obtain ⟨mid, hrun, hclose⟩ := h.exists_run
  obtain ⟨mid', close, hrun', hclose', -⟩ := h.closes
  have hopen := passes_opening h.opens
  have hin : (a.skip 2).IsIn source := ha.reaches hopen.reaches
  obtain ⟨text, htext⟩ := hrun.reaches.trans (passes_skipBlanks mid).reaches
  have hrun' := hrun'.append (.cons hclose' (.nil d))
  obtain ⟨inner, stop, htokens, hrelabel, hstop⟩ := tokenize_of_passes hin.one_le.1 hin.one_le.2
    htext hrun h.unended (.inr rfl) fun _ _ => hrun'.ne_byteOrderMark (by simp)
  have hpos : (a.skip 2).pos = Span.inside ⟨a.pos, d.pos⟩ := hopen.pos
  refine ⟨text, inner, stop, ?_, htokens, by rw [← hpos, ← hrelabel], ?_⟩
  · have hslice := hin.isSlice htext
    have hstart := hopen.offset
    have hend := hclose.offset
    rw [hstart] at hslice
    dsimp only [IsInside]
    rw [hend]
    exact hslice
  · rw [← hpos, ← hstop]
    exact hclose.pos.symm

/-- It does so at every depth, since nested tokens are read in the text as the outer ones are. -/
theorem lexedAlone_of_mem_nestedTokens (h : tokenize source = .ok ts) (ht : t ∈ nestedTokens ts)
    (hi : i ∈ t.interpolations) : LexedAlone source i := by
  obtain ⟨c, d, hc, hstands⟩ := stands_of_mem_nestedTokens h ht
  obtain ⟨a, b, ha, henc, -, hspan⟩ := hstands.of_mem_interpolations i hi
  have halone := henc.lexedAlone (hc.reaches ha)
  rwa [← hspan] at halone

end Lexical

/-- Tokens that were read as an interpolation of a tree make it when they are read alone. -/
theorem Grammar.ReadAs.readAlone {source : String} {i : List Token × Span} {c : Interpolation}
    (h : Grammar.ReadAs i c) (hi : LexedAlone source i) : ReadAlone source i c := by
  obtain ⟨k, h⟩ := h
  obtain ⟨body, hbody, rfl⟩ := Grammar.interpolationOf_eq_ok_iff.mp h
  obtain ⟨text, ts, stop, htext, htokens, hrelabel, -⟩ := hi
  -- nothing follows on either side, so comments are compared too
  have hbefore : (Grammar.Seam.alone true i.2.inside.translate [] stop rfl).Before (i.1 ++ [])
      (ts ++ _) := Grammar.Seam.before_alone stop rfl hrelabel.symm
  rw [List.append_nil] at hbefore
  obtain ⟨body', hbody', hk⟩ := Grammar.Seam.crosses_complete (Grammar.Seam.crosses_operandUpTo k)
    (.before hbefore) rfl hbody
  refine ⟨rfl, text, ⟨body', body'.span⟩, htext, Program.ofText_eq_ok_iff.mpr ⟨_, htokens,
    Program.ofTokens_eq_ok_iff.mpr ⟨body', Grammar.complete_operandUpTo le_rfl hbody', rfl⟩⟩, ?_⟩
  calc body'.relabel i.2.inside.translate (viewComments true i.2.inside.translate)
      = body.relabel id (viewComments true id) := hk.symm
    _ = body := by rw [viewComments_true_id, Expr.relabel_id]

namespace Program

variable {source : String} {ts : List Token}

/-- **Interpolations are programs of their own.** What stands between the braces of any
interpolation of a text has the same tokens when it is read alone. If the text is a program, its
interpolations are, one by one, those of the tree, and what is between the braces is the expression
of that, comments included. -/
theorem interpolations_alone (h : tokenize source = .ok ts) :
    (∀ t ∈ nestedTokens ts, ∀ i ∈ t.interpolations, i ∈ interpolationsOf ts ∧ LexedAlone source i) ∧
      ∀ p, ofText source = .ok p →
        List.Forall₂ (ReadAlone source) (interpolationsOf ts) p.body.interpolations := by
  refine ⟨fun t ht i hi => ⟨(Lexical.mem_interpolationsOf_iff h).mpr ⟨t, ht, hi⟩,
    Lexical.lexedAlone_of_mem_nestedTokens h ht hi⟩, fun p hp => ?_⟩
  obtain ⟨ts', h', hp⟩ := ofText_eq_ok_iff.mp hp
  obtain rfl : ts' = ts := Except.ok.inj (h'.symm.trans h)
  have halone : ∀ i ∈ interpolationsOf ts', LexedAlone source i := by
    intro i hi
    obtain ⟨t, ht, hi⟩ := (Lexical.mem_interpolationsOf_iff h).mp hi
    exact Lexical.lexedAlone_of_mem_nestedTokens h ht hi
  exact ((List.forall₂_and_left _ _).mpr ⟨halone, interpolations_read hp⟩).imp
    fun i c ⟨hi, hc⟩ => hc.readAlone hi

/-- The tokens of `"${"}"}"`: a string around an interpolation around a string with a brace. -/
def hiddenBraceTokens : List Token :=
  [⟨.string [.text "", .interpolation [⟨.string [.text "\x7d"] false, onFirstLine 3 6⟩]
      (onFirstLine 1 7), .text ""] false, onFirstLine 0 8⟩, ⟨.endOfInput, onFirstLine 8 8⟩]

/-- The brace in the inner string does not close the interpolation. -/
theorem interpolations_alone_hiddenBrace :
    tokenize "\"$\x7b\"\x7d\"\x7d\"" = .ok hiddenBraceTokens ∧
    (interpolationsOf hiddenBraceTokens).map Prod.snd = [onFirstLine 1 7] ∧
    (∀ t ∈ nestedTokens hiddenBraceTokens, ∀ i ∈ t.interpolations,
      i ∈ interpolationsOf hiddenBraceTokens ∧ LexedAlone "\"$\x7b\"\x7d\"\x7d\"" i) ∧
    ∃ p, ofText "\"$\x7b\"\x7d\"\x7d\"" = .ok p ∧
      List.Forall₂ (ReadAlone "\"$\x7b\"\x7d\"\x7d\"")
        (interpolationsOf hiddenBraceTokens) p.body.interpolations := by
  have h : tokenize "\"$\x7b\"\x7d\"\x7d\"" = .ok hiddenBraceTokens := rfl
  have hp : ofText "\"$\x7b\"\x7d\"\x7d\"" = .ok _ := ofText_eq_ok_iff.mpr ⟨_, h, rfl⟩
  have hspans : (interpolationsOf hiddenBraceTokens).map Prod.snd = [onFirstLine 1 7] := by
    simp [hiddenBraceTokens, interpolationsOf, Token.allInterpolations, fragmentsInterpolations,
      StringFragment.allInterpolations, Token.isEnd]
  exact ⟨h, hspans, (interpolations_alone h).1, _, hp, (interpolations_alone h).2 _ hp⟩

end Program

end NixSyntax
