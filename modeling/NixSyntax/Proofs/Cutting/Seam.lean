import NixSyntax.Proofs.Cutting.Relabel
import NixSyntax.Proofs.Reading.Borders

/-!
# Two readings side by side

A piece of program is read where it stands, with other tokens behind it, and once more on its own,
where nothing follows. In front of the place where the piece ends the tokens of the two readings
look alike. A `Seam` is that place: it holds what follows on either side, and by which positions
the sides are compared.

A rule that stays in front of the seam does the same on both sides. It looks at the token behind
those it takes, and that one may be behind the seam. On the second side there is none, which every
rule takes for a reason to stop. So a rule that stops on the first side stops on the second too.

An operand takes the trivia behind it. Where it is the last one, this takes the first side past the
seam by some trivia. So there are two ways for the sides to correspond (`Seam.Sim`).

## A simulation that looks ahead

That a token was taken is only known afterwards, when what is left is known. So a rule is not
followed step by step from one pair of corresponding tokens to the next. The lemmas here are about
what has been taken in the end: a token that was followed by something in front of the seam is in
front of it too (`Sim.head`). A look at a token that need not be taken gives less. The second side
has ended, or it has the same token (`Sim.peek`).

Of two answers to a look, no is always the same on both sides, since an end is no mark and no
keyword. A yes is the same or an end. This is why repetitions have to treat an end as they treat
what closes them, and they do.

## Which comments are compared

A piece that is read alone has lost the comments around it, while an interpolation has all of its
own. So a seam says whether comments are compared (`keep`). If they are, no comment may follow
directly behind it on the first side, for the operand in front would have taken it along.

## Main definitions

* `Seam`: the two sides of a place
* `Seam.alone`: the place behind a piece that is read alone
* `Seam.Before`, `Seam.Sim`: tokens of the two sides that correspond
* `Seam.Reaches`: not behind the seam, or by trivia only
* `Seam.Crosses`: a rule does the same on both sides
-/

namespace NixSyntax

theorem Token.isTrivia_of_isEnd {t : Token} (h : t.isEnd = true) : t.isTrivia = false := by
  by_contra htrivia
  rw [Token.isEnd_of_isTrivia (by simpa using htrivia)] at h
  cases h

theorem Token.isBrace_iff {kind : TokenKind} {span : Span} :
    Token.isBrace ⟨kind, span⟩ = true ↔ kind = .symbol .openBrace ∨ kind = .symbol .closeBrace := by
  cases kind with
  | symbol mark => cases mark <;> simp [Token.isBrace]
  | _ => simp [Token.isBrace]

namespace Grammar

/-- A comment in front is one of those ahead. A line break is passed. -/
theorem commentsAhead_cons_of_isTrivia {t : Token} (ts : List Token) (h : t.isTrivia = true) :
    commentsAhead (t :: ts) = t.comment?.toList ++ commentsAhead ts := by
  cases hc : t.comment? <;> simp [commentsAhead, h, hc]

theorem commentsAhead_cons_of_not_isTrivia {t : Token} (ts : List Token)
    (h : t.isTrivia = false) : commentsAhead (t :: ts) = [] := by
  simp [commentsAhead, h]

/-- A place behind which nothing follows on the second side. -/
structure Seam where
  /-- The positions of the first side, as they are compared. -/
  f : Position → Position
  /-- The positions of the second side, as they are compared. -/
  f' : Position → Position
  /-- Whether comments are compared. -/
  keep : Bool
  /-- What follows on the first side. -/
  tail : List Token
  /-- What follows on the second side. -/
  tail' : List Token
  /-- If comments are compared, none follows directly. -/
  comments_tail : viewComments keep f (commentsAhead tail) = []
  /-- Nothing follows on the second side. -/
  isEnd_of_mem : ∀ t ∈ tail', t.isEnd = true

namespace Seam

variable (M : Seam)

/-- The comments of the first side, as they are compared. -/
def c : List Comment → List Comment := viewComments M.keep M.f

/-- The comments of the second side, as they are compared. -/
def c' : List Comment → List Comment := viewComments M.keep M.f'

@[simp] theorem c_nil : M.c [] = [] := viewComments_nil _ _

@[simp] theorem c'_nil : M.c' [] = [] := viewComments_nil _ _

@[simp] theorem c_append (cs ds : List Comment) : M.c (cs ++ ds) = M.c cs ++ M.c ds :=
  viewComments_append _ _ cs ds

@[simp] theorem c'_append (cs ds : List Comment) : M.c' (cs ++ ds) = M.c' cs ++ M.c' ds :=
  viewComments_append _ _ cs ds

theorem c_flatMap {α : Type} (g : α → List Comment) (as : List α) :
    M.c (as.flatMap g) = as.flatMap fun a => M.c (g a) :=
  viewComments_flatMap _ _ g as

theorem c'_flatMap {α : Type} (g : α → List Comment) (as : List α) :
    M.c' (as.flatMap g) = as.flatMap fun a => M.c' (g a) :=
  viewComments_flatMap _ _ g as

/-- Where nothing follows, no token follows that is no end. -/
theorem isEnd_of_mem_nil : ∀ t ∈ ([] : List Token), t.isEnd = true := by simp

/-- The seam inside an interpolation: nothing follows on either side. -/
def closed : Seam where
  f := M.f
  f' := M.f'
  keep := M.keep
  tail := []
  tail' := []
  comments_tail := by simp
  isEnd_of_mem := isEnd_of_mem_nil

/-- Two tokens that look alike. -/
def Alike (t t' : Token) : Prop := t.relabel M.f = t'.relabel M.f'

/-- Tokens in front of the seam look alike. -/
inductive Before : List Token → List Token → Prop
  /-- At the seam. -/
  | tail : Before M.tail M.tail'
  | cons {t t' : Token} {ts ts' : List Token} (alike : M.Alike t t') (behind : Before ts ts') :
      Before (t :: ts) (t' :: ts')

/-- The two sides correspond: they are in front of the seam, or the trivia behind it was passed. -/
inductive Sim : List Token → List Token → Prop
  | before {ts ts' : List Token} (h : M.Before ts ts') : Sim ts ts'
  | passed : Sim (skipTrivia M.tail) M.tail'

/-- Nothing behind the seam was taken but trivia. -/
def Reaches (rest : List Token) : Prop := (skipTrivia M.tail).length ≤ rest.length

variable {M : Seam} {ts ts' us rest mid : List Token} {t t' : Token} {n : Nat}

/-! ### Tokens that look alike

What a rule asks of a token has the same answer for both. Marks and keywords are told from all
others by their looks, while a string or an interpolation looks like another if the tokens inside
do. -/

namespace Alike

theorem span (h : M.Alike t t') : t.span.map M.f = t'.span.map M.f' := by
  simpa using congrArg Token.span h

theorem kind (h : M.Alike t t') : t.kind.relabel M.f = t'.kind.relabel M.f' := by
  simpa using congrArg Token.kind h

/-- A token that holds no tokens looks like no others than those of its kind. -/
theorem flat {kind : TokenKind} {span : Span} (hflat : kind.isFlat = true)
    (h : M.Alike ⟨kind, span⟩ t') :
    ∃ span', t' = ⟨kind, span'⟩ ∧ span.map M.f = span'.map M.f' := by
  have hkind := TokenKind.eq_of_relabel_eq h.kind hflat
  have hspan := h.span
  obtain ⟨kind', span'⟩ := t'
  obtain rfl : kind' = kind := hkind
  exact ⟨span', rfl, hspan⟩

theorem symbol {s : Symbol} {span : Span} (h : M.Alike ⟨.symbol s, span⟩ t') :
    ∃ span', t' = ⟨.symbol s, span'⟩ ∧ span.map M.f = span'.map M.f' :=
  h.flat rfl

theorem keyword {k : Keyword} {span : Span} (h : M.Alike ⟨.keyword k, span⟩ t') :
    ∃ span', t' = ⟨.keyword k, span'⟩ ∧ span.map M.f = span'.map M.f' :=
  h.flat rfl

/-- A string looks like a string of the same form whose parts look alike. -/
theorem string {parts : List StringFragment} {multiline : Bool} {span : Span}
    (h : M.Alike ⟨.string parts multiline, span⟩ t') :
    ∃ parts' span', t' = ⟨.string parts' multiline, span'⟩ ∧
      relabelFragments M.f parts = relabelFragments M.f' parts' ∧
      span.map M.f = span'.map M.f' := by
  have hkind := h.kind
  have hspan := h.span
  obtain ⟨kind', span'⟩ := t'
  cases kind' <;> simp only [TokenKind.relabel, reduceCtorEq, TokenKind.string.injEq] at hkind
  obtain ⟨hparts, rfl⟩ := hkind
  exact ⟨_, span', rfl, hparts, hspan⟩

theorem interpolation {tokens : List Token} {span : Span}
    (h : M.Alike ⟨.interpolation tokens, span⟩ t') :
    ∃ tokens' span', t' = ⟨.interpolation tokens', span'⟩ ∧
      relabelTokens M.f tokens = relabelTokens M.f' tokens' ∧ span.map M.f = span'.map M.f' := by
  have hkind := h.kind
  have hspan := h.span
  obtain ⟨kind', span'⟩ := t'
  cases kind' <;>
    simp only [TokenKind.relabel, reduceCtorEq, TokenKind.interpolation.injEq] at hkind
  exact ⟨_, span', rfl, hkind, hspan⟩

/-- What a token looks like apart from places. -/
theorem apply_eq {α : Type} {g : Token → α} (hg : ∀ f t, g (Token.relabel f t) = g t)
    (h : M.Alike t t') : g t' = g t := by
  rw [← hg M.f t, ← hg M.f' t', h]

theorem isTrivia (h : M.Alike t t') : t'.isTrivia = t.isTrivia := h.apply_eq Token.isTrivia_relabel

theorem isNewline (h : M.Alike t t') : t'.isNewline = t.isNewline :=
  h.apply_eq Token.isNewline_relabel

theorem isEnd (h : M.Alike t t') : t'.isEnd = t.isEnd := h.apply_eq Token.isEnd_relabel

theorem binaryOp? (h : M.Alike t t') : t'.binaryOp? = t.binaryOp? :=
  h.apply_eq Token.binaryOp?_relabel

theorem isBrace (h : M.Alike t t') : t'.isBrace = t.isBrace :=
  h.apply_eq fun f t => by
    obtain ⟨kind, span⟩ := t
    rw [Token.relabel, Bool.eq_iff_iff, Token.isBrace_iff, Token.isBrace_iff]
    cases kind <;> simp [TokenKind.relabel]

theorem startsArgument (h : M.Alike t t') :
    Grammar.startsArgument t'.kind = Grammar.startsArgument t.kind := by
  refine h.apply_eq (g := fun t => Grammar.startsArgument t.kind) fun f t => ?_
  rw [Token.kind_relabel]
  cases t.kind <;> simp [TokenKind.relabel, Grammar.startsArgument]

/-- The comment that a token is, as far as it is compared. -/
theorem comment? (h : M.Alike t t') : M.c t.comment?.toList = M.c' t'.comment?.toList := by
  have hcomment :
      t.comment?.map (Comment.relabel M.f) = t'.comment?.map (Comment.relabel M.f') := by
    simpa using congrArg Token.comment? h
  rw [c, c', viewComments_toList, viewComments_toList, hcomment]

end Alike

/-! ### Behind the seam

Nothing is left on the second side but possibly the end of input. What the first side has there is
not known. -/

variable (M) in
/-- An end is no trivia, so nothing is passed. -/
@[simp] theorem skipTrivia_tail' : skipTrivia M.tail' = M.tail' := by
  cases h : M.tail' with
  | nil => rfl
  | cons t us =>
    have hend := M.isEnd_of_mem t (by rw [h]; exact List.mem_cons_self)
    exact skipTrivia_cons_of_not_isTrivia us (Token.isTrivia_of_isEnd hend)

theorem isEnd_of_tail' (h : M.tail' = t :: us) : t.isEnd = true :=
  M.isEnd_of_mem t (by rw [h]; exact List.mem_cons_self)

variable (M) in
theorem atEnd_tail' : atEnd M.tail' = true := by
  cases h : M.tail' with
  | nil => rfl
  | cons t us => exact isEnd_of_tail' h

/-- Rules take tokens from the front, so if the seam was not passed in the end, it was not passed
before. -/
theorem Reaches.of_leaves (h : M.Reaches rest) (hleaves : Leaves n ts rest) : M.Reaches ts := by
  have hlength : (skipTrivia M.tail).length ≤ rest.length := h
  have := hleaves.length_le
  exact show (skipTrivia M.tail).length ≤ ts.length by omega

/-- If something is left that is not behind the seam, the token in front of it was not the first one
behind the seam. -/
theorem Reaches.ne_passed (h : M.Reaches us) : skipTrivia M.tail ≠ t :: us := by
  intro heq
  have hlength : (skipTrivia M.tail).length ≤ us.length := h
  rw [heq, List.length_cons] at hlength
  omega

theorem Before.length_le (h : M.Before ts ts') : M.tail.length ≤ ts.length := by
  induction h with
  | tail => exact le_rfl
  | cons _ _ ih => exact Nat.le_succ_of_le ih

/-- Where only trivia is left on the first side, nothing is left on the second. -/
theorem Sim.eq_tail' (h : M.Sim (skipTrivia M.tail) ts') : ts' = M.tail' := by
  have hlength : (skipTrivia M.tail).length ≤ M.tail.length :=
    (Leaves.length_le leaves_skipTrivia : _ + 0 ≤ _)
  generalize skipTrivia M.tail = ts at h hlength
  cases h with
  | before h =>
    cases h with
    | tail => rfl
    | cons _ behind =>
      have := behind.length_le
      rw [List.length_cons] at hlength
      omega
  | passed => rfl

/-- Tokens that look alike, in front of the seam. -/
theorem before_append (h : relabelTokens M.f ts = relabelTokens M.f' ts') :
    M.Before (ts ++ M.tail) (ts' ++ M.tail') := by
  induction ts generalizing ts' with
  | nil =>
    cases ts' with
    | nil => exact .tail
    | cons t' ts' => simp at h
  | cons t ts ih =>
    cases ts' with
    | nil => simp at h
    | cons t' ts' =>
      obtain ⟨ht, hts⟩ := List.cons.inj (by simpa using h)
      exact .cons ht (ih hts)

/-- The place behind a piece that is read alone. -/
def alone (keep : Bool) (f : Position → Position) (tail : List Token) (stop : Position)
    (htail : viewComments keep id (commentsAhead tail) = []) : Seam where
  f := id
  f' := f
  keep := keep
  tail := tail
  tail' := [⟨.endOfInput, .point stop⟩]
  comments_tail := htail
  isEnd_of_mem _ ht := List.mem_singleton.mp ht ▸ rfl

/-- A piece and what follows it correspond to the piece and an end. -/
theorem before_alone {keep : Bool} {f : Position → Position} {tail : List Token}
    (stop : Position) (htail : viewComments keep id (commentsAhead tail) = [])
    (h : ts = relabelTokens f ts') :
    (alone keep f tail stop htail).Before (ts ++ tail) (ts' ++ [⟨.endOfInput, .point stop⟩]) :=
  before_append ((relabelTokens_id ts).trans h)

/-! ### Looking at both sides -/

namespace Sim

/-- A token that is taken, and is no trivia, is on both sides. -/
theorem head (h : M.Sim (t :: us) ts') (ht : t.isTrivia = false) (hus : M.Reaches us) :
    ∃ t' us', ts' = t' :: us' ∧ M.Alike t t' ∧ M.Before us us' := by
  generalize hts : t :: us = ts at h
  cases h with
  | before h =>
    cases h with
    | tail =>
      refine absurd ?_ (hus.ne_passed (t := t))
      rw [← hts, skipTrivia_cons_of_not_isTrivia us ht]
    | cons alike behind =>
      obtain ⟨rfl, rfl⟩ := List.cons.inj hts
      exact ⟨_, _, rfl, alike, behind⟩
  | passed => exact absurd hts.symm hus.ne_passed

/-- A token of which the first side knows the kind, if it is taken and no trivia. -/
theorem take {kind : TokenKind} {span : Span} (h : M.Sim (⟨kind, span⟩ :: us) ts')
    (hflat : kind.isFlat = true) (ht : Token.isTrivia ⟨kind, span⟩ = false) (hus : M.Reaches us) :
    ∃ span' us', ts' = ⟨kind, span'⟩ :: us' ∧ span.map M.f = span'.map M.f' ∧ M.Before us us' := by
  obtain ⟨t', us', rfl, alike, behind⟩ := h.head ht hus
  obtain ⟨span', rfl, hspan⟩ := alike.flat hflat
  exact ⟨span', us', rfl, hspan, behind⟩

/-- The second side has ended, or the next token is on both sides. -/
theorem peek (h : M.Sim ts ts') : atEnd ts' = true ∨
    ∃ t us t' us', ts = t :: us ∧ ts' = t' :: us' ∧ M.Alike t t' ∧ M.Before us us' := by
  cases h with
  | before h =>
    cases h with
    | tail => exact .inl M.atEnd_tail'
    | cons alike behind => exact .inr ⟨_, _, _, _, rfl, rfl, alike, behind⟩
  | passed => exact .inl M.atEnd_tail'

/-- A token of which the second side knows the kind. -/
theorem back {kind : TokenKind} {span : Span} (hflat : kind.isFlat = true)
    (h : M.Sim ts (⟨kind, span⟩ :: us)) :
    ∃ span' us', ts = ⟨kind, span'⟩ :: us' ∧ M.Before us' us := by
  rcases h.peek with hend | ⟨t, us', t', us'', rfl, heq, alike, behind⟩
  · rw [atEnd, TokenKind.isEnd_of_isFlat hflat] at hend
    cases hend
  · obtain ⟨rfl, rfl⟩ := List.cons.inj heq
    obtain ⟨kind', span'⟩ := t
    obtain rfl : kind' = kind := TokenKind.eq_of_relabel_eq alike.kind.symm hflat
    exact ⟨span', us', rfl, behind⟩

/-- A token of a kind that is not next on the first side is not next on the second. -/
theorem ne_flat {kind : TokenKind} (h : M.Sim ts ts') (hflat : kind.isFlat = true)
    (hts : ∀ span us, ts ≠ ⟨kind, span⟩ :: us) (span : Span) (us : List Token) :
    ts' ≠ ⟨kind, span⟩ :: us := by
  rintro rfl
  obtain ⟨span', us', rfl, -⟩ := h.back hflat
  exact hts _ _ rfl

/-- If the first side has ended, so has the second. -/
theorem atEnd (h : M.Sim ts ts') (hts : Grammar.atEnd ts = true) : Grammar.atEnd ts' = true := by
  rcases h.peek with hend | ⟨t, us, t', us', rfl, rfl, alike, -⟩
  · exact hend
  · exact alike.isEnd.trans hts

/-- The sides correspond behind the trivia if they do in front of it. -/
theorem skip (h : M.Sim ts ts') : M.Sim (skipTrivia ts) (skipTrivia ts') := by
  cases h with
  | before h =>
    induction h with
    | tail =>
      -- here the first side goes past the seam, and the second cannot
      rw [skipTrivia_tail']
      exact .passed
    | @cons t t' ts ts' alike behind ih =>
      cases ht : t.isTrivia with
      | true =>
        rw [skipTrivia_cons_of_isTrivia ts ht,
          skipTrivia_cons_of_isTrivia ts' (alike.isTrivia.trans ht)]
        exact ih
      | false =>
        rw [skipTrivia_cons_of_not_isTrivia ts ht,
          skipTrivia_cons_of_not_isTrivia ts' (alike.isTrivia.trans ht)]
        exact .before (.cons alike behind)
  | passed =>
    rw [skipTrivia_skipTrivia, skipTrivia_tail']
    exact .passed

/-- The comments ahead are the same as far as they are compared. -/
theorem comments (h : M.Sim ts ts') : M.c (commentsAhead ts) = M.c' (commentsAhead ts') := by
  have htail' : commentsAhead M.tail' = [] := by
    rw [← skipTrivia_tail']
    exact commentsAhead_skipTrivia _
  cases h with
  | before h =>
    induction h with
    -- at the seam, what follows on the first side has no comments ahead that are compared
    | tail => exact M.comments_tail.trans (by rw [htail', c'_nil])
    | @cons t t' ts ts' alike behind ih =>
      cases ht : t.isTrivia with
      | true =>
        rw [commentsAhead_cons_of_isTrivia ts ht,
          commentsAhead_cons_of_isTrivia ts' (alike.isTrivia.trans ht), c_append, c'_append,
          alike.comment?, ih]
      | false =>
        rw [commentsAhead_cons_of_not_isTrivia ts ht,
          commentsAhead_cons_of_not_isTrivia ts' (alike.isTrivia.trans ht), c_nil, c'_nil]
  | passed => rw [commentsAhead_skipTrivia, htail', c_nil, c'_nil]

/-! ### Taking a token

Rules skip trivia or line breaks and then ask for a token. If they found it on the first side, they
find it on the second. -/

/-- The first token behind the trivia, if it is taken, is on both sides. -/
theorem next (h : M.Sim ts ts') (hts : skipTrivia ts = t :: us) (hus : M.Reaches us) :
    ∃ t' us', skipTrivia ts' = t' :: us' ∧ M.Alike t t' ∧ M.Before us us' := by
  have hskip := h.skip
  rw [hts] at hskip
  exact hskip.head (not_isTrivia_of_skipTrivia hts) hus

/-- The first token behind the line breaks, if it is taken and no comment. -/
theorem behindNewlines (h : M.Sim ts ts') (ht : t.isTrivia = false)
    (hts : skipNewlines ts = t :: us) (hus : M.Reaches us) :
    ∃ t' us', skipNewlines ts' = t' :: us' ∧ M.Alike t t' ∧ M.Before us us' := by
  -- were the token behind the seam, more would have been taken than trivia
  have hne : skipTrivia ts ≠ skipTrivia M.tail := by
    rw [skipTrivia_of_skipNewlines ht hts]
    exact hus.ne_passed.symm
  cases h with
  | before h =>
    induction h with
    | tail => exact absurd rfl hne
    | @cons a a' ts ts' alike behind ih =>
      cases ha : a.isNewline with
      | true =>
        have ha' := alike.isNewline.trans ha
        rw [skipTrivia_cons_of_isTrivia ts (Token.isTrivia_of_isNewline ha)] at hne
        simp only [skipNewlines, List.dropWhile_cons, ha, ha', if_true] at hts ⊢
        exact ih hts hne
      | false =>
        have ha' := alike.isNewline.trans ha
        simp only [skipNewlines, List.dropWhile_cons, ha, ha', Bool.false_eq_true,
          if_false] at hts ⊢
        obtain ⟨rfl, rfl⟩ := List.cons.inj hts
        exact ⟨_, _, rfl, alike, behind⟩
  | passed => exact absurd (skipTrivia_skipTrivia _) hne

/-- A mark that was asked for and found is found on both sides. -/
theorem expectSymbol {s : Symbol} {span : Span} (h : M.Sim ts ts')
    (hs : expectSymbol s ts = .ok (span, rest)) (hrest : M.Reaches rest) :
    ∃ span' rest', Grammar.expectSymbol s ts' = .ok (span', rest') ∧ M.Before rest rest' ∧
      span.map M.f = span'.map M.f' := by
  obtain ⟨t', rest', hts', alike, behind⟩ :=
    h.behindNewlines rfl (expectSymbol_eq_ok_iff.mp hs) hrest
  obtain ⟨span', rfl, hspan⟩ := alike.symbol
  exact ⟨span', rest', expectSymbol_eq_ok_iff.mpr hts', behind, hspan⟩

theorem expectKeyword {k : Keyword} {span : Span} (h : M.Sim ts ts')
    (hk : expectKeyword k ts = .ok (span, rest)) (hrest : M.Reaches rest) :
    ∃ span' rest', Grammar.expectKeyword k ts' = .ok (span', rest') ∧ M.Before rest rest' ∧
      span.map M.f = span'.map M.f' := by
  obtain ⟨t', rest', hts', alike, behind⟩ :=
    h.behindNewlines rfl (expectKeyword_eq_ok_iff.mp hk) hrest
  obtain ⟨span', rfl, hspan⟩ := alike.keyword
  exact ⟨span', rest', expectKeyword_eq_ok_iff.mpr hts', behind, hspan⟩

/-! ### What decides

Looks ahead by one token. A no is kept, and a yes is kept or becomes an end. -/

/-- A mark that is not next on the first side is not next on the second. -/
theorem nextIsSymbol {s : Symbol} (h : M.Sim ts ts') (hts : nextIsSymbol s ts = false) :
    Grammar.nextIsSymbol s ts' = false :=
  nextIsSymbol_eq_false_iff.mpr (h.skip.ne_flat rfl (nextIsSymbol_eq_false_iff.mp hts))

theorem nextIsKeyword {k : Keyword} (h : M.Sim ts ts') (hts : nextIsKeyword k ts = false) :
    Grammar.nextIsKeyword k ts' = false :=
  nextIsKeyword_eq_false_iff.mpr (h.skip.ne_flat rfl (nextIsKeyword_eq_false_iff.mp hts))

/-- The second side ends where the first does, or has ended before. -/
theorem ended (h : M.Sim ts ts')
    (hts : Grammar.atEnd (skipTrivia ts) = true) : Grammar.atEnd (skipTrivia ts') = true :=
  h.skip.atEnd hts

/-- If something is taken, the second side has not ended. -/
theorem not_ended (h : M.Sim ts ts') (hleaves : Leaves 1 (skipTrivia ts) rest)
    (hrest : M.Reaches rest) (hts : Grammar.atEnd (skipTrivia ts) = false) :
    Grammar.atEnd (skipTrivia ts') = false := by
  have hlength := hleaves.length_le
  cases hskip : skipTrivia ts with
  | nil => simp [hskip] at hlength
  | cons t us =>
    rw [hskip] at hts
    have hus : M.Reaches us := by
      rw [hskip, List.length_cons] at hlength
      exact Nat.le_trans hrest (by omega)
    obtain ⟨t', us', hskip', alike, -⟩ := h.next hskip hus
    rw [hskip']
    exact alike.isEnd.trans hts

/-- A mark that ends a repetition on the first side ends it on the second, unless that has ended. -/
theorem nextIsSymbol_or {s : Symbol} (h : M.Sim ts ts')
    (hts : Grammar.nextIsSymbol s ts = true) :
    Grammar.atEnd (skipTrivia ts') = true ∨ Grammar.nextIsSymbol s ts' = true := by
  obtain ⟨span, us, hskip⟩ := nextIsSymbol_iff.mp hts
  rcases h.skip.peek with hend | ⟨t, us', t', us'', heq, heq', alike, -⟩
  · exact .inl hend
  · obtain ⟨rfl, -⟩ := List.cons.inj (hskip.symm.trans heq)
    obtain ⟨span', rfl, -⟩ := alike.symbol
    exact .inr (nextIsSymbol_iff.mpr ⟨span', us'', heq'⟩)

theorem nextIsKeyword_or {k : Keyword} (h : M.Sim ts ts')
    (hts : Grammar.nextIsKeyword k ts = true) :
    Grammar.atEnd (skipTrivia ts') = true ∨ Grammar.nextIsKeyword k ts' = true := by
  obtain ⟨span, us, hskip⟩ := nextIsKeyword_iff.mp hts
  rcases h.skip.peek with hend | ⟨t, us', t', us'', heq, heq', alike, -⟩
  · exact .inl hend
  · obtain ⟨rfl, -⟩ := List.cons.inj (hskip.symm.trans heq)
    obtain ⟨span', rfl, -⟩ := alike.keyword
    exact .inr (nextIsKeyword_iff.mpr ⟨span', us'', heq'⟩)

end Sim

/-! ### Braces

The one look ahead that has no bound is that for a pattern. It counts braces, and where braces close
on the second side, all of them are in front of the seam, so they close on the first side at the
same place. -/

theorem behindBraces_of_isEnd {ts : List Token} (h : ∀ t ∈ ts, t.isEnd = true) (depth : Nat) :
    behindBraces depth ts = none := by
  induction ts with
  | nil => rw [behindBraces]
  | cons t ts ih =>
    obtain ⟨hend, hts⟩ := List.forall_mem_cons.mp h
    have hbrace : t.isBrace = false := by
      obtain ⟨kind, span⟩ := t
      cases kind <;> simp_all [Token.isEnd, Token.isBrace]
    rw [behindBraces_cons hbrace]
    exact ih hts

/-- Braces that close on the second side close on the first. -/
theorem Before.behindBraces {rest' : List Token} (h : M.Before ts ts') {depth : Nat}
    (hts' : behindBraces depth ts' = some rest') :
    ∃ rest, Grammar.behindBraces depth ts = some rest ∧ M.Before rest rest' := by
  induction h generalizing depth with
  | tail =>
    rw [behindBraces_of_isEnd M.isEnd_of_mem] at hts'
    cases hts'
  | @cons t t' ts ts' alike behind ih =>
    have hkind {kind : TokenKind} (hflat : kind.isFlat = true) (ht' : t'.kind = kind) :
        t.kind = kind := by
      subst ht'
      exact TokenKind.eq_of_relabel_eq alike.kind.symm hflat
    obtain ⟨kind, span⟩ := t
    obtain ⟨kind', span'⟩ := t'
    cases hbrace : Token.isBrace ⟨kind', span'⟩ with
    | false =>
      rw [behindBraces_cons hbrace] at hts'
      rw [behindBraces_cons (alike.isBrace.symm.trans hbrace)]
      exact ih hts'
    | true =>
      -- a brace on the second side is the same brace on the first, so the depths agree
      rcases Token.isBrace_iff.mp hbrace with rfl | rfl
      · obtain rfl : kind = _ := hkind rfl rfl
        exact ih hts'
      · obtain rfl : kind = _ := hkind rfl rfl
        cases depth with
        | zero =>
          obtain rfl := Option.some.inj hts'
          exact ⟨ts, rfl, behind⟩
        | succ depth => exact ih hts'

/-- Braces that are no pattern on the first side are none on the second. -/
theorem Before.opensPattern {named : Bool} (h : M.Before ts ts')
    (hts : opensPattern named ts = false) : Grammar.opensPattern named ts' = false := by
  rw [Grammar.opensPattern]
  cases hts' : Grammar.behindBraces 0 ts' with
  | none => rfl
  | some rest' =>
    obtain ⟨rest, hrest, behind⟩ := h.behindBraces hts'
    rw [Grammar.opensPattern, hrest] at hts
    simp only [Bool.or_eq_false_iff, Bool.and_eq_false_iff] at hts ⊢
    exact ⟨Sim.nextIsSymbol (.before behind) hts.1,
      hts.2.imp_left (Sim.nextIsSymbol (.before behind))⟩

/-! ### Rules

What the rules have to fulfil, and how a repetition fulfils it if each round does. The places and
comments of a result are compared by a map for each side. -/

variable (M) in
/-- The rule `r` on the first side does what `r'` does on the second, where it stays in front of the
seam. The results are compared by `k` and `k'`. -/
def Crosses {α β : Type} (r r' : Rule α) (k k' : α → β) : Prop :=
  ∀ ⦃ts ts' a rest⦄, M.Sim ts ts' → r ts = .ok (a, rest) → M.Reaches rest →
    ∃ a' rest', r' ts' = .ok (a', rest') ∧ M.Sim rest rest' ∧ k a = k' a'

/-- Rounds that were taken on the first side are taken on the second, one by one. -/
theorem Crosses.rounds {α β : Type} {round : Rule (Option α)} {k k' : α → β} {as : List α}
    (hround : M.Crosses round round (Option.map k) (Option.map k'))
    (hleaves : ∀ {ts a rest}, round ts = .ok (some a, rest) → Leaves 1 ts rest)
    (hs : M.Sim ts ts') (h : Rounds round ts as rest) (hrest : M.Reaches rest) :
    ∃ as' rest', Rounds round ts' as' rest' ∧ M.Sim rest rest' ∧ as.map k = as'.map k' := by
  induction h generalizing ts' with
  | nil => exact ⟨[], ts', .nil, hs, rfl⟩
  | cons head tail ih =>
    obtain ⟨a', mid', hhead, hmid, hk⟩ := hround hs head (hrest.of_leaves (tail.leaves hleaves))
    obtain ⟨as', rest', htail, hs', hks⟩ := ih hmid hrest
    cases a' with
    | none => cases hk
    | some a' =>
      exact ⟨a' :: as', rest', .cons hhead htail, hs',
        by rw [List.map_cons, List.map_cons, hks, Option.some.inj hk]⟩

/-- A repetition crosses the seam if its rounds do. -/
theorem Crosses.repeated {α β : Type} {round : Rule (Option α)} {k k' : α → β}
    (hround : M.Crosses round round (Option.map k) (Option.map k')) (hr : Repeatable round)
    (hleaves : ∀ {ts a rest}, round ts = .ok (some a, rest) → Leaves 1 ts rest) :
    M.Crosses (repeated round) (repeated round) (List.map k) (List.map k') := by
  intro ts ts' as rest hs h hrest
  obtain ⟨hrounds, hend⟩ := (repeated_eq_ok_iff hr).mp h
  obtain ⟨as', rest', hrounds', hs', hk⟩ := hround.rounds hleaves hs hrounds hrest
  obtain ⟨a', us, hend', -, hnone⟩ := hround hs' hend hrest
  obtain rfl : a' = none := by simpa using hnone.symm
  obtain rfl := hr.stop hend'
  exact ⟨as', us, (repeated_eq_ok_iff hr).mpr ⟨hrounds', hend'⟩, hs', hk⟩

end Seam

end Grammar

end NixSyntax
