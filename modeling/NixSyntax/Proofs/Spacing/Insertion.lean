import NixSyntax.Proofs.Comments.Kept
import NixSyntax.Proofs.Cutting.Expressions
import NixSyntax.Proofs.Spacing.Rules

/-!
# Line breaks and comments in a list of tokens

A line break may be put between any two tokens, or be taken away, unless the one in front of it
minds. The answer is the same program with the same comments at the same places, or no program as
before. It makes no difference how many line breaks there are in a row, even behind a token that
minds.

A comment may be put wherever a line break may, with one exception. Between `rec` and its brace a
line break is passed over and a comment is not, so there a program is one no longer. At all other
places the tree is the same but for the comment, which is in it once.

## One place, and every token in front of it

That two lists with another gap at one place are near is proved from that place backwards
(`near_gap`). Each token in front of the place is put in front of two lists that are near already,
and what has to be known is what follows the token directly. For all tokens but the last one this is
the same on both sides. The last one is where the two conditions on the place come in, and for `rec`
not only the last one: line breaks may stand between it and the gap, and it looks past these.

## What is compared

Line breaks are put in and taken away with the comments compared (`Near true`), so the programs are
equal. With a comment put in, the comments are left out of the comparison (`Near false`). That the
new one is in the tree once, and the others as often as before, is then said by a count. The tree of
any program holds the comments of its tokens, and there is one token more.

## Main results

* `Grammar.Spacing.near_gap`: lists of tokens with another gap at one place
* `Program.ofTokens_newline`: line breaks make no difference
* `Program.ofTokens_comment`: a comment makes no difference but for itself
* `Program.exists_comment_behind_rec`: the place where it does
-/

namespace NixSyntax

theorem Token.isNewline_of_keyword? {t : Token} {k : Keyword} (h : t.keyword? = some k) :
    t.isNewline = false := by
  obtain ⟨kind, span⟩ := t
  cases kind <;> first | rfl | cases h

namespace Grammar

variable {ts us : List Token} {t : Token}

/-! ### Trivia in front

What is ahead of a list that begins with some trivia, in terms of that trivia and of what is behind
it. -/

theorem skipTrivia_cons_eq_iff : skipTrivia (t :: ts) = t :: ts ↔ t.isTrivia = false :=
  ⟨not_isTrivia_of_skipTrivia, skipTrivia_cons_of_not_isTrivia ts⟩

/-- Some trivia is a gap, unless there is none and no gap behind it. -/
theorem skipTrivia_append_eq_iff (h : ∀ t ∈ ts, t.isTrivia = true) (us : List Token) :
    skipTrivia (ts ++ us) = ts ++ us ↔ ts = [] ∧ skipTrivia us = us := by
  cases ts with
  | nil => simp
  | cons t ts => simp [skipTrivia_cons_eq_iff, (List.forall_mem_cons.mp h).1]

/-- The comments of a gap are those of its two parts. -/
theorem commentsAhead_append (h : ∀ t ∈ ts, t.isTrivia = true) (us : List Token) :
    commentsAhead (ts ++ us) = commentsAhead ts ++ commentsAhead us := by
  induction ts with
  | nil => rfl
  | cons t ts ih =>
    obtain ⟨ht, hts⟩ := List.forall_mem_cons.mp h
    rw [List.cons_append, commentsAhead_cons_of_isTrivia _ ht, ih hts,
      commentsAhead_cons_of_isTrivia _ ht, List.append_assoc]

theorem commentsAhead_of_newlines (h : ∀ t ∈ ts, t.isNewline = true) : commentsAhead ts = [] := by
  induction ts with
  | nil => rfl
  | cons t ts ih =>
    obtain ⟨ht, hts⟩ := List.forall_mem_cons.mp h
    obtain ⟨kind, span⟩ := t
    cases kind <;> first | exact ih hts | cases ht

/-- Whether comments are ahead is decided at the first token that is no line break. -/
theorem commentsAhead_eq_nil_congr (h : ¬ ∀ t ∈ ts, t.isNewline = true) (us us' : List Token) :
    commentsAhead (ts ++ us) = [] ↔ commentsAhead (ts ++ us') = [] := by
  induction ts with
  | nil => exact absurd (by simp) h
  | cons t ts ih =>
    obtain ⟨kind, span⟩ := t
    cases kind with
    | newline =>
      rw [List.forall_mem_cons] at h
      exact ih fun hts => h ⟨rfl, hts⟩
    | comment text block =>
      rw [List.cons_append, List.cons_append, commentsAhead_cons_of_isTrivia _ rfl,
        commentsAhead_cons_of_isTrivia _ rfl]
      exact iff_of_false (List.cons_ne_nil _ _) (List.cons_ne_nil _ _)
    | _ => exact iff_of_true rfl rfl

namespace Spacing

variable {keep : Bool} {ts' us' vs vs' : List Token}

/-! ### Another gap at one place

The two gaps are `vs` and `vs'`, the tokens in front of them `pre`, and those behind `post`. -/

/-- One more token in front of two lists that are near. -/
theorem Near.cons (h : Near keep us us')
    (hgap : t.mindsGap = true → (skipTrivia us = us ↔ skipTrivia us' = us'))
    (hbrace : t.keyword? = some .rec_ → (commentsAhead us = [] ↔ commentsAhead us' = [])) :
    Near keep (t :: us) (t :: us') := by
  cases ht : t.isTrivia with
  | true =>
    refine ⟨?_, ?_⟩
    · rw [commentsAhead_cons_of_isTrivia us ht, commentsAhead_cons_of_isTrivia us' ht,
        viewComments_append, viewComments_append, h.comments]
    · rw [skipTrivia_cons_of_isTrivia us ht, skipTrivia_cons_of_isTrivia us' ht]
      exact h.behind
  | false => exact (Same.cons ht hgap hbrace h.comments h.behind).near

theorem near_refl (ts : List Token) : Near keep ts ts := by
  induction ts with
  | nil => exact Same.nil.near
  | cons t ts ih => exact ih.cons (fun _ => Iff.rfl) fun _ => Iff.rfl

/-- **Lists of tokens with another gap at one place.** Behind a token that minds, there may not be
a gap instead of none. Behind `rec`, and behind line breaks behind it, there may not be comments
instead of none. -/
theorem near_gap (pre post : List Token) (hvs : ∀ t ∈ vs, t.isTrivia = true)
    (hvs' : ∀ t ∈ vs', t.isTrivia = true)
    (hcomments : viewComments keep id (commentsAhead vs) =
      viewComments keep id (commentsAhead vs'))
    (hgap : ∀ t ∈ pre.getLast?, t.mindsGap = true → (vs = [] ↔ vs' = []))
    (hbrace : ∀ t ∈ (pre.filter fun t => !t.isNewline).getLast?, t.keyword? = some .rec_ →
      (commentsAhead vs = [] ↔ commentsAhead vs' = [])) :
    Near keep (pre ++ (vs ++ post)) (pre ++ (vs' ++ post)) := by
  induction pre with
  | nil =>
    refine ⟨?_, ?_⟩
    · rw [List.nil_append, List.nil_append, commentsAhead_append hvs, commentsAhead_append hvs',
        viewComments_append, viewComments_append, hcomments]
    · rw [List.nil_append, List.nil_append, skipTrivia_append hvs, skipTrivia_append hvs']
      exact (near_refl post).behind
  | cons t pre ih =>
    have hlast {us : List Token} : ∀ x ∈ us.getLast?, x ∈ (t :: us).getLast? := by
      intro x hx
      rw [List.getLast?_cons, Option.mem_def.mp hx]
      rfl
    refine (ih (fun x hx => hgap x (hlast x hx)) fun x hx => hbrace x ?_).cons
      (fun ht => ?_) fun ht => ?_
    · rw [List.filter_cons]
      split
      · exact hlast x hx
      · exact hx
    · -- whether a gap follows is decided by the next token, or by the new gap itself
      cases pre with
      | cons a pre =>
        exact skipTrivia_cons_eq_iff.trans skipTrivia_cons_eq_iff.symm
      | nil =>
        rw [List.nil_append, List.nil_append, skipTrivia_append_eq_iff hvs,
          skipTrivia_append_eq_iff hvs', hgap t rfl ht]
    · -- if only line breaks stand between `rec` and the gap, its comments are those `rec` meets
      by_cases hnewlines : ∀ t ∈ pre, t.isNewline = true
      · have htrivia : ∀ t ∈ pre, t.isTrivia = true := fun t ht =>
          Token.isTrivia_of_isNewline (hnewlines t ht)
        have hnone : pre.filter (fun t => !t.isNewline) = [] :=
          List.filter_eq_nil_iff.mpr fun t ht => by simp [hnewlines t ht]
        have ht' : t.isNewline = false := Token.isNewline_of_keyword? ht
        have hiff := hbrace t (by simp [hnone, ht']) ht
        rw [commentsAhead_append htrivia, commentsAhead_append htrivia, commentsAhead_append hvs,
          commentsAhead_append hvs', List.append_eq_nil_iff, List.append_eq_nil_iff,
          List.append_eq_nil_iff, List.append_eq_nil_iff, hiff]
      · exact commentsAhead_eq_nil_congr hnewlines _ _

end Spacing

end Grammar

namespace Program

open Grammar.Spacing (Near near_gap)

variable {keep : Bool} {pre post ts ts' : List Token} {p : Program}

/-- **Tokens with other gaps are the same program**, if they are near. -/
theorem ofTokens_of_near (hs : Near keep ts ts') (h : ofTokens ts = .ok p) :
    ∃ p', ofTokens ts' = .ok p' ∧
      p'.body.relabel id (viewComments keep id) = p.body.relabel id (viewComments keep id) ∧
      p'.span = p.span := by
  obtain ⟨e, he, rfl⟩ := ofTokens_eq_ok_iff.mp h
  obtain ⟨e', he', hk⟩ :=
    Grammar.Spacing.alike_complete (Grammar.Spacing.alike_operandUpTo _) hs he
  have hspan : e.span = e'.span := by simpa using congrArg Expr.span hk
  exact ⟨⟨e', e'.span⟩, ofTokens_eq_ok_iff.mpr
    ⟨e', Grammar.complete_operandUpTo le_rfl he', rfl⟩, hk.symm, hspan.symm⟩

/-- If comments are compared too, the program is the same or there is none on both sides. -/
theorem toOption_ofTokens_of_near (hs : Near true ts ts') :
    (ofTokens ts).toOption = (ofTokens ts').toOption := by
  have hok {ts ts' : List Token} (hs : Near true ts ts') {p : Program}
      (h : ofTokens ts = .ok p) : ofTokens ts' = .ok p := by
    obtain ⟨p', hp', hbody, hspan⟩ := ofTokens_of_near hs h
    rw [viewComments_true_id, Expr.relabel_id, Expr.relabel_id] at hbody
    obtain ⟨body, span⟩ := p
    obtain ⟨body', span'⟩ := p'
    obtain rfl : body' = body := hbody
    obtain rfl : span' = span := hspan
    exact hp'
  cases h : ofTokens ts with
  | ok p => rw [hok hs h]
  | error f =>
    cases h' : ofTokens ts' with
    | ok p => rw [hok hs.symm h'] at h; cases h
    | error f' => rfl

/-! ### Line breaks

A run of line breaks has no comments, so only the tokens that mind a gap are left to be looked
at. -/

/-- **A line break makes no difference**, except behind a token that minds. Line breaks in a row
are no more and no less than one, behind any token. -/
theorem ofTokens_newline (pre post : List Token) (span : Span) :
    ((∀ t ∈ pre.getLast?, t.mindsGap = false) →
      (ofTokens (pre ++ ⟨.newline, span⟩ :: post)).toOption =
        (ofTokens (pre ++ post)).toOption) ∧
    ∀ run : List Token, run ≠ [] → (∀ t ∈ run, t.isNewline = true) →
      (ofTokens (pre ++ (run ++ post))).toOption =
        (ofTokens (pre ++ ⟨.newline, span⟩ :: post)).toOption := by
  have hone : ∀ t ∈ [(⟨.newline, span⟩ : Token)], t.isNewline = true := by simp [Token.isNewline]
  have hnear {vs vs' : List Token} (hvs : ∀ t ∈ vs, t.isNewline = true)
      (hvs' : ∀ t ∈ vs', t.isNewline = true)
      (hgap : ∀ t ∈ pre.getLast?, t.mindsGap = true → (vs = [] ↔ vs' = [])) :
      Near true (pre ++ (vs ++ post)) (pre ++ (vs' ++ post)) := by
    have hnone := Grammar.commentsAhead_of_newlines hvs
    have hnone' := Grammar.commentsAhead_of_newlines hvs'
    exact near_gap pre post (fun t ht => Token.isTrivia_of_isNewline (hvs t ht))
      (fun t ht => Token.isTrivia_of_isNewline (hvs' t ht)) (by rw [hnone, hnone']) hgap
      fun _ _ _ => iff_of_true hnone hnone'
  refine ⟨fun hminds => ?_, fun run hne hrun => ?_⟩
  · refine toOption_ofTokens_of_near (hnear hone (List.forall_mem_nil _) fun t ht hgap => ?_)
    rw [hminds t ht] at hgap
    cases hgap
  · exact toOption_ofTokens_of_near (hnear hrun hone fun _ _ _ => iff_of_false hne (by simp))

/-- The front of `{ a = b; }`, up to the sign behind the name. -/
def bindingFront : List Token :=
  [⟨.symbol .openBrace, onFirstLine 0 1⟩, ⟨.identifier "a", onFirstLine 2 3⟩,
    ⟨.symbol .assign, onFirstLine 4 5⟩]

/-- What is behind it. -/
def bindingBack : List Token :=
  [⟨.identifier "b", onFirstLine 6 7⟩, ⟨.symbol .semicolon, onFirstLine 7 8⟩,
    ⟨.symbol .closeBrace, onFirstLine 9 10⟩, ⟨.endOfInput, onFirstLine 10 10⟩]

/-- Behind the sign there may be a line break, or two. -/
theorem ofTokens_newline_bindingFront :
    (∃ p, ofTokens (bindingFront ++ bindingBack) = .ok p) ∧
    (ofTokens (bindingFront ++ ⟨.newline, default⟩ :: bindingBack)).toOption =
      (ofTokens (bindingFront ++ bindingBack)).toOption ∧
    (ofTokens (bindingFront ++
        ([⟨.newline, default⟩, ⟨.newline, default⟩] ++ bindingBack))).toOption =
      (ofTokens (bindingFront ++ ⟨.newline, default⟩ :: bindingBack)).toOption := by
  obtain ⟨hone, hrun⟩ := ofTokens_newline bindingFront bindingBack default
  exact ⟨⟨_, rfl⟩, hone (by simp [bindingFront, Token.mindsGap]),
    hrun _ (by simp) (by simp [Token.isNewline])⟩

/-! ### Comments

A comment is trivia like a line break, and is kept. -/

/-- One comment more among the tokens is one comment more to be kept, unless the list has ended
before it. -/
theorem commentsOf_insert {t : Token} (ht : t.isTrivia = true)
    (hend : ∀ t ∈ pre, t.isEnd = false) (post : List Token) :
    (commentsOf (pre ++ t :: post) : Multiset Comment) =
      t.comment?.toList + commentsOf (pre ++ post) := by
  induction pre with
  | nil =>
    rw [List.nil_append, commentsOf_cons post (Token.isEnd_of_isTrivia ht),
      t.comments_of_isTrivia ht, Multiset.coe_add, List.nil_append]
  | cons a pre ih =>
    obtain ⟨ha, hpre⟩ := List.forall_mem_cons.mp hend
    rw [List.cons_append, List.cons_append, commentsOf_cons _ ha, commentsOf_cons _ ha,
      ← Multiset.coe_add, ih hpre, ← Multiset.coe_add, add_left_comm]

/-- **A comment makes no difference but for itself**, except behind a token that minds and between
`rec` and its brace. The tree is the same but for comments, and holds one comment more. -/
theorem ofTokens_comment {c : Comment} (hgap : ∀ t ∈ pre.getLast?, t.mindsGap = false)
    (hrec : ∀ t ∈ (pre.filter fun t => !t.isNewline).getLast?, t.keyword? ≠ some .rec_)
    (hend : ∀ t ∈ pre, t.isEnd = false) (h : ofTokens (pre ++ post) = .ok p) :
    ∃ p', ofTokens (pre ++ ⟨.comment c.text c.block, c.span⟩ :: post) = .ok p' ∧
      p'.body.relabel id eraseComments = p.body.relabel id eraseComments ∧ p'.span = p.span ∧
      ((commentLists p'.body.nodes).map Multiset.ofList).sum =
        c ::ₘ ((commentLists p.body.nodes).map Multiset.ofList).sum := by
  have hnear : Near false (pre ++ ([] ++ post))
      (pre ++ ([⟨.comment c.text c.block, c.span⟩] ++ post)) := by
    refine near_gap pre post (by simp) (by simp [Token.isTrivia]) rfl (fun t ht hminds => ?_)
      fun t ht hword => absurd hword (hrec t ht)
    rw [hgap t ht] at hminds
    cases hminds
  -- the tree is the same but for comments, and all comments of the tokens are in it
  obtain ⟨p', hp', hbody, hspan⟩ := ofTokens_of_near hnear h
  refine ⟨p', hp', hbody, hspan, ?_⟩
  rw [(keeps_of_ofTokens hp').all, (keeps_of_ofTokens h).all]
  exact commentsOf_insert rfl hend post

/-- Behind the sign there may be a comment. -/
theorem ofTokens_comment_bindingFront :
    ∃ p p', ofTokens (bindingFront ++ bindingBack) = .ok p ∧
      ofTokens (bindingFront ++ ⟨.comment "c" true, default⟩ :: bindingBack) = .ok p' ∧
      p'.body.relabel id eraseComments = p.body.relabel id eraseComments ∧ p'.span = p.span ∧
      ((commentLists p'.body.nodes).map Multiset.ofList).sum =
        ⟨"c", true, default⟩ ::ₘ ((commentLists p.body.nodes).map Multiset.ofList).sum := by
  have hgap : ∀ t ∈ bindingFront.getLast?, t.mindsGap = false := by
    simp [bindingFront, Token.mindsGap]
  have hrec : ∀ t ∈ (bindingFront.filter fun t => !t.isNewline).getLast?,
      t.keyword? ≠ some .rec_ := by
    simp [bindingFront, Token.isNewline, Token.keyword?]
  have hend : ∀ t ∈ bindingFront, t.isEnd = false := by simp [bindingFront, Token.isEnd]
  obtain ⟨p, hp⟩ : ∃ p, ofTokens (bindingFront ++ bindingBack) = .ok p := ⟨_, rfl⟩
  obtain ⟨p', hp', h⟩ := ofTokens_comment (c := ⟨"c", true, default⟩) hgap hrec hend hp
  exact ⟨p, p', hp, hp', h⟩

/-- **Behind `rec` no comment may stand**: the brace has to be the next token that is no line break.
The tokens are those of `rec /* c */ { }`, with the comment and without it. -/
theorem exists_comment_behind_rec : ∃ (pre post : List Token) (c : Comment) (p : Program),
    (∀ t ∈ pre.getLast?, t.mindsGap = false) ∧ (∀ t ∈ pre, t.isEnd = false) ∧
    ofTokens (pre ++ post) = .ok p ∧
    ∀ p', ofTokens (pre ++ ⟨.comment c.text c.block, c.span⟩ :: post) ≠ .ok p' :=
  ⟨[⟨.keyword .rec_, onFirstLine 0 3⟩],
    [⟨.symbol .openBrace, onFirstLine 12 13⟩, ⟨.symbol .closeBrace, onFirstLine 14 15⟩,
      ⟨.endOfInput, onFirstLine 15 15⟩],
    ⟨" c ", true, onFirstLine 4 11⟩, _, by simp [Token.mindsGap], by simp [Token.isEnd], rfl,
    fun _ h => by cases h⟩

end Program

end NixSyntax
