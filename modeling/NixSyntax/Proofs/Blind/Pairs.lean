import NixSyntax.Proofs.Cutting.Seam

/-!
# Tokens that no rule tells apart

Of the tokens a rule looks at the next one, and of that one at its kind. What is inside a string or
an interpolation it knows only as the tree that is read from there. Far ahead it looks in one case,
for the closing brace of a pattern. So if two lists of tokens give the same answers to these
questions, and go on doing so behind each token that is taken, then a rule reads the same from both,
or fails on both.

## What a pairing has to know

A `Pairing` says of which lists this is so. Its fields are those questions: that the lists begin
alike (`abreast`), that faults at their first tokens correspond (`refuse_fault`), and that what is
behind a token corresponds as well. The last of these comes in three, for tokens that are no braces,
for opening and for closing braces, because some lists correspond only up to a brace (`Braced`). For
their sake a pairing counts the braces that are to be closed. A form in braces ends one brace
further out than it begins, so a rule has two such numbers (`Blind`).

A pairing says nothing about what is read. That is the point of it: whoever has two lists that no
rule should tell apart proves the few fields, and gets all rules of the grammar from them.

## Comparing answers

`Agree` compares two answers and, like the rules, is built with `>>=`. The values are the same, and
not only alike: a pairing is about tokens that say the same with other tokens, not about trees up to
something. How alike two faults have to be is up to the pairing. Some know that they are the same,
others only that both are faults.

A repetition counts its rounds down from the number of tokens, which may not be the same on both
sides. Its bound is never felt, and that holds for the rounds that fail as well (`Blind.repeated`).

## Main definitions

* `Resembles`: two tokens that no rule tells apart
* `Pairing`: lists of such tokens
* `Agree`: two answers that are the same, apart from what they leave
* `Blind`: a rule that does not tell the lists of a pairing apart

## Main results

* `Pairing.Paired.opensPattern_eq`, `Pairing.Paired.nextIsSymbol_eq`, …: what the rules ask of the
  tokens
* `Pairing.Paired.behindBraces`: the one question that looks far ahead
* `Blind.repeated`: a repetition tells apart no more than its rounds
-/

namespace NixSyntax

/-- The kinds of tokens that hold tokens. -/
def TokenKind.holdsTokens : TokenKind → Bool
  | .string _ _ => true
  | .interpolation _ => true
  | _ => false

namespace Grammar

variable {α β γ : Type} {fault : Stuck → Stuck → Prop} {S T : List Token → List Token → Prop}
  {ts ts' us us' : List Token} {t t' : Token}

/-! ### Answers

There are two ways to compare, for what is read from inside a token and for what is read from the
tokens in front of the cursor. The first leaves no tokens, so there is nothing to be said about
them. -/

/-- The same value, or faults that correspond. -/
inductive SameValue (fault : Stuck → Stuck → Prop) : Except Stuck γ → Except Stuck γ → Prop
  | ok (c : γ) : SameValue fault (.ok c) (.ok c)
  | error {s s' : Stuck} (h : fault s s') : SameValue fault (.error s) (.error s')

theorem SameValue.refl (hfault : ∀ s, fault s s) (r : Except Stuck γ) : SameValue fault r r := by
  cases r with
  | ok c => exact .ok c
  | error s => exact .error (hfault s)

theorem SameValue.bind {γ' : Type} {r r' : Except Stuck γ} {k k' : γ → Except Stuck γ'}
    (h : SameValue fault r r') (hk : ∀ c, SameValue fault (k c) (k' c)) :
    SameValue fault (r >>= k) (r' >>= k') := by
  cases h with
  | ok c => exact hk c
  | error h => exact .error h

/-- The same value with tokens left that correspond by `S`, or faults that correspond. -/
inductive Agree (fault : Stuck → Stuck → Prop) (S : List Token → List Token → Prop) :
    Except Stuck (α × List Token) → Except Stuck (α × List Token) → Prop
  | ok {a : α} {rest rest' : List Token} (left : S rest rest') :
      Agree fault S (.ok (a, rest)) (.ok (a, rest'))
  | error {s s' : Stuck} (h : fault s s') : Agree fault S (.error s) (.error s')

/-- What follows may use where it begins: behind what was read on either side. -/
theorem Agree.bind_of_eq {r r' : Except Stuck (α × List Token)}
    {k k' : α × List Token → Except Stuck (β × List Token)} (h : Agree fault S r r')
    (hk : ∀ a rest rest', r = .ok (a, rest) → r' = .ok (a, rest') → S rest rest' →
      Agree fault T (k (a, rest)) (k' (a, rest'))) : Agree fault T (r >>= k) (r' >>= k') := by
  cases h with
  | ok left => exact hk _ _ _ rfl rfl left
  | error h => exact .error h

theorem Agree.bind {r r' : Except Stuck (α × List Token)}
    {k k' : α × List Token → Except Stuck (β × List Token)} (h : Agree fault S r r')
    (hk : ∀ a rest rest', S rest rest' → Agree fault T (k (a, rest)) (k' (a, rest'))) :
    Agree fault T (r >>= k) (r' >>= k') :=
  h.bind_of_eq fun a rest rest' _ _ => hk a rest rest'

/-- What is read from inside a token leaves no tokens. -/
theorem SameValue.agree_bind {r r' : Except Stuck γ} {k k' : γ → Except Stuck (β × List Token)}
    (h : SameValue fault r r') (hk : ∀ c, Agree fault T (k c) (k' c)) :
    Agree fault T (r >>= k) (r' >>= k') := by
  cases h with
  | ok c => exact hk c
  | error h => exact .error h

theorem SameValue.stringOf {operand : Context → Rule Operand} {multiline : Bool} {span : Span}
    {fragments fragments' : List StringFragment}
    (h : SameValue fault (partsOf operand fragments) (partsOf operand fragments')) :
    SameValue fault (stringOf operand fragments multiline span)
      (stringOf operand fragments' multiline span) :=
  h.bind fun _ => .ok _

/-! ### Tokens

A string and an interpolation resemble others of which the same is read, at any depth of operands.
All other tokens resemble only themselves. -/

/-- Tokens that no rule tells apart: they are the same, or what is read inside them is. -/
inductive Resembles (fault : Stuck → Stuck → Prop) : Token → Token → Prop
  | same {kind : TokenKind} {span : Span} (h : kind.holdsTokens = false) :
      Resembles fault ⟨kind, span⟩ ⟨kind, span⟩
  | string {fragments fragments' : List StringFragment} {multiline : Bool} {span : Span}
      (parts : ∀ n, SameValue fault (partsOf (operandUpTo n) fragments)
        (partsOf (operandUpTo n) fragments')) :
      Resembles fault ⟨.string fragments multiline, span⟩ ⟨.string fragments' multiline, span⟩
  | interpolation {tokens tokens' : List Token} {span : Span}
      (content : ∀ n, SameValue fault (interpolationOf (operandUpTo n) tokens span)
        (interpolationOf (operandUpTo n) tokens' span)) :
      Resembles fault ⟨.interpolation tokens, span⟩ ⟨.interpolation tokens', span⟩

namespace Resembles

theorem refl (hfault : ∀ s, fault s s) (t : Token) : Resembles fault t t := by
  obtain ⟨kind, span⟩ := t
  cases kind with
  | string fragments multiline => exact .string fun n => .refl hfault _
  | interpolation tokens => exact .interpolation fun n => .refl hfault _
  | _ => exact .same rfl

/-- What is the same for all strings and all interpolations is the same for tokens that resemble
each other. -/
theorem apply_eq {g : Token → γ} (h : Resembles fault t t')
    (hstring : ∀ fragments fragments' multiline span,
      g ⟨.string fragments multiline, span⟩ = g ⟨.string fragments' multiline, span⟩)
    (hinterpolation : ∀ tokens tokens' span,
      g ⟨.interpolation tokens, span⟩ = g ⟨.interpolation tokens', span⟩) : g t = g t' := by
  cases h with
  | same => rfl
  | string => exact hstring _ _ _ _
  | interpolation => exact hinterpolation _ _ _

theorem isEnd_eq (h : Resembles fault t t') : t.isEnd = t'.isEnd :=
  h.apply_eq (fun _ _ _ _ => rfl) fun _ _ _ => rfl

theorem isBrace_eq (h : Resembles fault t t') : t.isBrace = t'.isBrace :=
  h.apply_eq (fun _ _ _ _ => rfl) fun _ _ _ => rfl

theorem isTrivia_eq (h : Resembles fault t t') : t.isTrivia = t'.isTrivia :=
  h.apply_eq (fun _ _ _ _ => rfl) fun _ _ _ => rfl

theorem isNewline_eq (h : Resembles fault t t') : t.isNewline = t'.isNewline :=
  h.apply_eq (fun _ _ _ _ => rfl) fun _ _ _ => rfl

theorem comment?_eq (h : Resembles fault t t') : t.comment? = t'.comment? :=
  h.apply_eq (fun _ _ _ _ => rfl) fun _ _ _ => rfl

theorem binaryOp?_eq (h : Resembles fault t t') : t.binaryOp? = t'.binaryOp? :=
  h.apply_eq (fun _ _ _ _ => rfl) fun _ _ _ => rfl

theorem span_eq (h : Resembles fault t t') : t.span = t'.span :=
  h.apply_eq (fun _ _ _ _ => rfl) fun _ _ _ => rfl

/-- An argument can begin with a string or an interpolation, whatever is inside. -/
theorem startsArgument_eq (h : Resembles fault t t') :
    startsArgument t.kind = startsArgument t'.kind :=
  h.apply_eq (g := fun t => startsArgument t.kind) (fun _ _ _ _ => rfl) fun _ _ _ => rfl

/-- A token that holds no tokens resembles no other. -/
theorem eq_of_isFlat {kind : TokenKind} {span : Span} (h : Resembles fault ⟨kind, span⟩ t')
    (hflat : kind.isFlat = true) : t' = ⟨kind, span⟩ := by
  cases h with
  | same => rfl
  | _ => cases hflat

/-- No other token resembles it. -/
theorem eq_of_isFlat' {kind : TokenKind} {span : Span} (h : Resembles fault t ⟨kind, span⟩)
    (hflat : kind.isFlat = true) : t = ⟨kind, span⟩ := by
  cases h with
  | same => rfl
  | _ => cases hflat

end Resembles

/-- Lists that begin with tokens that resemble each other, or are both empty. -/
inductive Abreast (fault : Stuck → Stuck → Prop) : List Token → List Token → Prop
  | nil : Abreast fault [] []
  | cons {t t' : Token} {us us' : List Token} (resembles : Resembles fault t t') :
      Abreast fault (t :: us) (t' :: us')

/-! ### Pairings

Lists that begin alike, and go on alike behind each token, braces counted. -/

/-- Lists of tokens that no rule tells apart. -/
structure Pairing where
  /-- The faults that correspond. -/
  fault : Stuck → Stuck → Prop
  /-- The lists that correspond where so many braces are to be closed. -/
  Paired : Nat → List Token → List Token → Prop
  /-- A fault at a token that is the same on both sides. -/
  fault_refl : ∀ s, fault s s
  /-- The lists begin alike. -/
  abreast : ∀ {depth ts ts'}, Paired depth ts ts' → Abreast fault ts ts'
  /-- The faults at the first tokens correspond. -/
  refuse_fault : ∀ {depth ts ts'}, Paired depth ts ts' → ∀ cause,
    fault ⟨cause, ts.head?⟩ ⟨cause, ts'.head?⟩
  /-- Behind a token that is no brace the lists correspond. -/
  tail : ∀ {depth t t' us us'}, Paired depth (t :: us) (t' :: us') → t.isBrace = false →
    Paired depth us us'
  /-- Behind an opening brace the lists correspond. -/
  tail_openBrace : ∀ {depth span us us'},
    Paired depth (⟨.symbol .openBrace, span⟩ :: us) (⟨.symbol .openBrace, span⟩ :: us') →
      Paired (depth + 1) us us'
  /-- Behind a closing brace the lists correspond, if there is another brace to be closed. -/
  tail_closeBrace : ∀ {depth span us us'},
    Paired (depth + 1) (⟨.symbol .closeBrace, span⟩ :: us) (⟨.symbol .closeBrace, span⟩ :: us') →
      Paired depth us us'

namespace Pairing

variable {P : Pairing} {depth : Nat}

namespace Paired

theorem front (h : P.Paired depth ts ts') : Abreast P.fault ts ts' := P.abreast h

/-- Both lists are refused at their first tokens. -/
theorem refuse (h : P.Paired depth ts ts') (cause : ParseCause) :
    Agree P.fault T (Grammar.refuse cause ts : Except Stuck (α × List Token))
      (Grammar.refuse cause ts') :=
  .error (P.refuse_fault h cause)

theorem behind (h : P.Paired depth (t :: us) (t' :: us')) (ht : t.isBrace = false) :
    P.Paired depth us us' := P.tail h ht

/-- Behind an opening brace there is one brace more to be closed. -/
theorem inside {span : Span} (h : P.Paired depth (⟨.symbol .openBrace, span⟩ :: us)
    (⟨.symbol .openBrace, span⟩ :: us')) : P.Paired (depth + 1) us us' := P.tail_openBrace h

theorem outside {span : Span} (h : P.Paired (depth + 1) (⟨.symbol .closeBrace, span⟩ :: us)
    (⟨.symbol .closeBrace, span⟩ :: us')) : P.Paired depth us us' := P.tail_closeBrace h

/-- Both lists begin with a token of some kind or none does. -/
theorem front_kind (h : P.Paired depth ts ts') {kind : TokenKind} (hflat : kind.isFlat = true) :
    (∃ span us us', ts = ⟨kind, span⟩ :: us ∧ ts' = ⟨kind, span⟩ :: us') ∨
      (∀ span us, ts ≠ ⟨kind, span⟩ :: us) ∧ ∀ span us, ts' ≠ ⟨kind, span⟩ :: us := by
  cases h.front with
  | nil => exact .inr ⟨nofun, nofun⟩
  | @cons t t' us us' resembles =>
    obtain ⟨kind', span⟩ := t
    by_cases heq : kind' = kind
    · subst heq
      exact .inl ⟨span, us, us', rfl, by rw [resembles.eq_of_isFlat hflat]⟩
    · refine .inr ⟨fun span rest h => heq ?_, fun span rest h => heq ?_⟩
      · exact (Token.mk.inj (List.cons.inj h).1).1
      · obtain ⟨rfl, -⟩ := List.cons.inj h
        exact (Token.mk.inj (resembles.eq_of_isFlat' hflat)).1

theorem front_symbol (h : P.Paired depth ts ts') (s : Symbol) :
    (∃ span us us', ts = ⟨.symbol s, span⟩ :: us ∧ ts' = ⟨.symbol s, span⟩ :: us') ∨
      (∀ span us, ts ≠ ⟨.symbol s, span⟩ :: us) ∧ ∀ span us, ts' ≠ ⟨.symbol s, span⟩ :: us :=
  h.front_kind rfl

theorem front_keyword (h : P.Paired depth ts ts') (k : Keyword) :
    (∃ span us us', ts = ⟨.keyword k, span⟩ :: us ∧ ts' = ⟨.keyword k, span⟩ :: us') ∨
      (∀ span us, ts ≠ ⟨.keyword k, span⟩ :: us) ∧ ∀ span us, ts' ≠ ⟨.keyword k, span⟩ :: us :=
  h.front_kind rfl

/-! ### Looking ahead -/

/-- Trivia of any sort is passed over on both sides. Trivia is no brace, so the count stays. -/
theorem dropWhile {p : Token → Bool} (hp : ∀ t, p t = true → t.isTrivia = true)
    (hresembles : ∀ {t t'}, Resembles P.fault t t' → p t = p t') (h : P.Paired depth ts ts') :
    P.Paired depth (ts.dropWhile p) (ts'.dropWhile p) := by
  induction ts generalizing ts' with
  | nil => cases h.front with | nil => exact h
  | cons t ts ih =>
    cases h.front with
    | cons resembles =>
      cases hpt : p t with
      | false =>
        rw [List.dropWhile_cons_of_neg (by simp [hpt]),
          List.dropWhile_cons_of_neg (by simp [← hresembles resembles, hpt])]
        exact h
      | true =>
        rw [List.dropWhile_cons_of_pos hpt, List.dropWhile_cons_of_pos (hresembles resembles ▸ hpt)]
        exact ih (h.behind (Token.isBrace_of_isTrivia (hp t hpt)))

theorem skipTrivia (h : P.Paired depth ts ts') :
    P.Paired depth (skipTrivia ts) (Grammar.skipTrivia ts') :=
  h.dropWhile (fun _ ht => ht) Resembles.isTrivia_eq

theorem skipNewlines (h : P.Paired depth ts ts') :
    P.Paired depth (skipNewlines ts) (Grammar.skipNewlines ts') :=
  h.dropWhile (fun _ => Token.isTrivia_of_isNewline) Resembles.isNewline_eq

theorem commentsAhead_eq (h : P.Paired depth ts ts') :
    commentsAhead ts = commentsAhead ts' := by
  induction ts generalizing ts' with
  | nil => cases h.front with | nil => rfl
  | cons t ts ih =>
    cases h.front with
    | @cons _ t' _ us' resembles =>
      cases ht : t.isTrivia with
      | true =>
        rw [commentsAhead_cons_of_isTrivia ts ht,
          commentsAhead_cons_of_isTrivia us' (resembles.isTrivia_eq ▸ ht), resembles.comment?_eq,
          ih (h.behind (Token.isBrace_of_isTrivia ht))]
      | false =>
        rw [commentsAhead_cons_of_not_isTrivia ts ht,
          commentsAhead_cons_of_not_isTrivia us' (resembles.isTrivia_eq ▸ ht)]

/-- Both lists have ended, or neither has. -/
theorem atEnd_eq (h : P.Paired depth ts ts') : atEnd ts = atEnd ts' := by
  cases h.front with
  | nil => rfl
  | cons resembles => exact resembles.isEnd_eq

theorem nextIsSymbol_eq (h : P.Paired depth ts ts') (s : Symbol) :
    nextIsSymbol s ts = nextIsSymbol s ts' := by
  rw [Bool.eq_iff_iff, nextIsSymbol_iff, nextIsSymbol_iff]
  rcases h.skipTrivia.front_symbol s with ⟨span, us, us', heq, heq'⟩ | ⟨hne, hne'⟩
  · exact iff_of_true ⟨_, _, heq⟩ ⟨_, _, heq'⟩
  · exact iff_of_false (fun ⟨_, _, heq⟩ => hne _ _ heq) fun ⟨_, _, heq⟩ => hne' _ _ heq

theorem nextIsKeyword_eq (h : P.Paired depth ts ts') (k : Keyword) :
    nextIsKeyword k ts = nextIsKeyword k ts' := by
  rw [Bool.eq_iff_iff, nextIsKeyword_iff, nextIsKeyword_iff]
  rcases h.skipTrivia.front_keyword k with ⟨span, us, us', heq, heq'⟩ | ⟨hne, hne'⟩
  · exact iff_of_true ⟨_, _, heq⟩ ⟨_, _, heq'⟩
  · exact iff_of_false (fun ⟨_, _, heq⟩ => hne _ _ heq) fun ⟨_, _, heq⟩ => hne' _ _ heq

/-- A brace further in closes on both sides or on none. -/
theorem behindBraces {k : Nat} (h : P.Paired (k + depth + 1) ts ts') :
    Option.Rel (P.Paired depth) (behindBraces k ts) (Grammar.behindBraces k ts') := by
  induction ts generalizing k ts' with
  | nil => cases h.front with | nil => exact .none
  | cons t ts ih =>
    cases h.front with
    | cons resembles =>
      cases hbrace : t.isBrace with
      | false =>
        rw [behindBraces_cons hbrace, behindBraces_cons (resembles.isBrace_eq ▸ hbrace)]
        exact ih (h.behind hbrace)
      | true =>
        obtain ⟨kind, span⟩ := t
        rcases Token.isBrace_iff.mp hbrace with rfl | rfl
        · obtain rfl := resembles.eq_of_isFlat rfl
          have hinside := h.inside
          rw [show k + depth + 1 + 1 = k + 1 + depth + 1 by omega] at hinside
          exact ih hinside
        · obtain rfl := resembles.eq_of_isFlat rfl
          cases k with
          | zero =>
            rw [Nat.zero_add] at h
            exact .some h.outside
          | succ k =>
            rw [show k + 1 + depth + 1 = k + depth + 1 + 1 by omega] at h
            exact ih h.outside

/-- Braces further in are a pattern on both sides or on none. -/
theorem opensPattern_eq (h : P.Paired (depth + 1) ts ts') (named : Bool) :
    opensPattern named ts = opensPattern named ts' := by
  rw [← Nat.zero_add depth] at h
  have hbehind := h.behindBraces
  rw [opensPattern, opensPattern]
  generalize Grammar.behindBraces 0 ts = rest, Grammar.behindBraces 0 ts' = rest' at hbehind ⊢
  cases hbehind with
  | none => rfl
  | some hrest => simp only [hrest.nextIsSymbol_eq]

end Paired

end Pairing

/-! ### Rules

The braces that are to be closed are counted at both ends of a rule, and differ by one where a rule
begins behind an opening brace. -/

variable {P : Pairing} {depth : Nat}

/-- A rule that does not tell the lists of a pairing apart. There are `m` braces to be closed where
it begins, and `n` where it ends. -/
def Blind (P : Pairing) (m n : Nat) (r : Rule α) : Prop :=
  ∀ ⦃ts ts'⦄, P.Paired m ts ts' → Agree P.fault (P.Paired n) (r ts) (r ts')

/-- **A repetition tells apart no more than its rounds.** -/
theorem Blind.repeated {round : Rule (Option α)} (hround : Blind P depth depth round)
    (hr : Repeatable round) : Blind P depth depth (repeated round) := by
  -- the lists may differ in length, so each side has a bound of its own
  suffices ∀ m n ts ts', P.Paired depth ts ts' → ts.length ≤ m → ts'.length ≤ n →
      Agree P.fault (P.Paired depth) (rounds round m ts) (rounds round n ts') from
    fun ts ts' h => this _ _ ts ts' h (Nat.le_refl _) (Nat.le_refl _)
  intro m
  induction m with
  | zero =>
    intro n ts ts' h hm _
    obtain rfl := List.length_eq_zero_iff.mp (Nat.le_zero.mp hm)
    cases h.front with
    | nil => rw [rounds_nil hr.nil, rounds_nil hr.nil]; exact .ok h
  | succ m ih =>
    intro n ts ts' h hm hn
    cases n with
    | zero =>
      obtain rfl := List.length_eq_zero_iff.mp (Nat.le_zero.mp hn)
      cases h.front with
      | nil => rw [rounds_nil hr.nil, rounds_nil hr.nil]; exact .ok h
    | succ n =>
      rw [rounds, rounds]
      refine (hround h).bind_of_eq fun a rest rest' hts hts' left => ?_
      cases a with
      | none => exact .ok left
      | some a =>
        have hlt := hr.shrinks hts
        have hlt' := hr.shrinks hts'
        exact (ih n rest rest' left (by omega) (by omega)).bind fun as rest rest' left => .ok left

/-! ### Single tokens

A mark or a keyword that is required is there on both sides or on none. The two braces are the marks
that change the count. -/

theorem expectSymbol_of_ne {s : Symbol}
    (h : ∀ span us, skipNewlines ts ≠ ⟨.symbol s, span⟩ :: us) :
    expectSymbol s ts = refuse (.expected (.symbol s)) (skipNewlines ts) := by
  rw [expectSymbol]
  split
  · rename_i s' span us heq
    exact if_neg fun hs : s' = s => h span us (hs ▸ heq)
  · rfl

theorem expectKeyword_of_ne {k : Keyword}
    (h : ∀ span us, skipNewlines ts ≠ ⟨.keyword k, span⟩ :: us) :
    expectKeyword k ts = refuse (.expected (.keyword k)) (skipNewlines ts) := by
  rw [expectKeyword]
  split
  · rename_i k' span us heq
    exact if_neg fun hk : k' = k => h span us (hk ▸ heq)
  · rfl

/-- A mark that is required, and what is known of the tokens behind it. -/
theorem Pairing.Paired.expectSymbol {s : Symbol} (h : P.Paired depth ts ts')
    (hs : ∀ {span us us'},
      P.Paired depth (⟨.symbol s, span⟩ :: us) (⟨.symbol s, span⟩ :: us') → S us us') :
    Agree P.fault S (expectSymbol s ts) (Grammar.expectSymbol s ts') := by
  have hskip := h.skipNewlines
  rcases hskip.front_symbol s with ⟨span, us, us', heq, heq'⟩ | ⟨hne, hne'⟩
  · rw [heq, heq'] at hskip
    rw [expectSymbol_eq_ok_iff.mpr heq, expectSymbol_eq_ok_iff.mpr heq']
    exact .ok (hs hskip)
  · rw [expectSymbol_of_ne hne, expectSymbol_of_ne hne']
    exact hskip.refuse _

theorem blind_expectSymbol {s : Symbol} (hs : ∀ span, Token.isBrace ⟨.symbol s, span⟩ = false) :
    Blind P depth depth (expectSymbol s) := fun _ _ h => h.expectSymbol fun h => h.behind (hs _)

/-- An opening brace leads one brace further in. -/
theorem blind_openBrace : Blind P depth (depth + 1) (expectSymbol .openBrace) :=
  fun _ _ h => h.expectSymbol Pairing.Paired.inside

/-- A closing brace leads one brace further out. -/
theorem blind_closeBrace : Blind P (depth + 1) depth (expectSymbol .closeBrace) :=
  fun _ _ h => h.expectSymbol Pairing.Paired.outside

theorem blind_expectKeyword (k : Keyword) : Blind P depth depth (expectKeyword k) := by
  intro ts ts' h
  have hskip := h.skipNewlines
  rcases hskip.front_keyword k with ⟨span, us, us', heq, heq'⟩ | ⟨hne, hne'⟩
  · rw [heq, heq'] at hskip
    rw [expectKeyword_eq_ok_iff.mpr heq, expectKeyword_eq_ok_iff.mpr heq']
    exact .ok (hskip.behind rfl)
  · rw [expectKeyword_of_ne hne, expectKeyword_of_ne hne']
    exact hskip.refuse _

end Grammar

end NixSyntax
