import NixSyntax.Fault
import NixSyntax.Proofs.Reading.Origin

/-!
# What a fault of the grammar names

A rule that fails names the token it stands at, and that token is always one that does not fit: it
is not the one that is required, it is no name where a name has to be, and no keyword that could
begin an expression there. So no message says that one thing was expected and the same was found.

A rule may have passed over line breaks before it fails, or over comments as well, and the token it
names is the next one behind them. `FaultsIn` says of a computation what every rule keeps to. It is
closed under `>>=` as long as the first part has left a part of the tokens, and `Leaves` says that
of each rule.

## Keywords that begin a clause

`with` and `assert` begin no form, and yet they are never refused. An operand reads all clauses in
front of its term, and its bound is never what ends them, so no such keyword is left there.

## The end

Where no token is left, the fault is at the end: of the interpolation whose tokens were read, or of
the source. A source has a token for its end. No rule takes that one, so it is there to be named.

## Main definitions

* `ParseCause.Suits`: the tokens that a cause can be about
* `Token.FoundIn`: the tokens that a fault can name
* `Grammar.FaultsIn`: a computation that fails only in the way it should

## Main results

* `Grammar.faultsIn_expression`, …: one lemma for each rule
* `Program.faults_of_ofTokens`: the fault of a source names a token that does not fit
-/

namespace NixSyntax

/-! ### Names of tokens

A message names a token by words, or by the mark in quotes. No other token is called by the name of
a mark or of a keyword. So where a message says that a mark was expected and something else found,
it does not name the same twice. -/

/-- A text can be told from the text in quotes. -/
theorem inQuotes_injective {s s' : String} (h : inQuotes s = inQuotes s') : s = s' := by
  simpa [inQuotes] using h

namespace Symbol

/-- All marks. -/
def all : List Symbol :=
  [openParen, closeParen, openBrace, closeBrace, openBracket, closeBracket, semicolon, dot] ++
    operators

theorem find?_spelling (s : Symbol) : all.find? (fun t => t.spelling == s.spelling) = some s := by
  cases s <;> decide

/-- Two marks are written differently in messages. -/
theorem text_injective {s s' : Symbol} (h : s.text = s'.text) : s = s' := by
  have hspelling : s.spelling = s'.spelling := String.ofList_injective h
  exact Option.some.inj (by rw [← find?_spelling s, hspelling, find?_spelling])

/-- No mark is spelled as a word. -/
theorem text_notMem (s : Symbol) : s.text ∉ ["null", "true", "false"] := by
  cases s <;> decide

end Symbol

namespace TokenKind

/-- The first character of what a message calls a token. -/
def initial : TokenKind → Char
  | .endOfInput => 'e'
  | .newline => 'n'
  | .comment _ _ => 'c'
  | .null | .bool _ | .symbol _ => '\''
  | .string _ _ => 's'
  | .int _ | .identifier _ | .interpolation _ => 'i'
  | .float _ => 'f'
  | .path _ => 'p'
  | .keyword _ => 'k'

theorem head?_describe (kind : TokenKind) : kind.describe.toList.head? = some kind.initial := by
  cases kind <;> simp [describe, initial, inQuotes]

/-- The first character tells most kinds apart. -/
theorem initial_eq {kind kind' : TokenKind} (h : kind.describe = kind'.describe) :
    kind.initial = kind'.initial :=
  Option.some.inj (by rw [← head?_describe, h, head?_describe])

/-- No other token is called by the name of a mark. -/
theorem eq_of_describe_symbol {kind : TokenKind} {s : Symbol}
    (h : (symbol s).describe = kind.describe) : kind = symbol s := by
  have hinitial : '\'' = kind.initial := initial_eq h
  cases kind with
  | symbol s' => rw [Symbol.text_injective (inQuotes_injective h)]
  | null =>
    have htext : s.text = "null" := inQuotes_injective h
    exact absurd s.text_notMem (by simp [htext])
  | bool value =>
    have htext : s.text = if value then "true" else "false" := inQuotes_injective h
    exact absurd s.text_notMem (by cases value <;> simp [htext])
  | _ => simp [initial] at hinitial

/-- No other token is called by the name of a keyword. -/
theorem eq_of_describe_keyword {kind : TokenKind} {k : Keyword}
    (h : (keyword k).describe = kind.describe) : kind = keyword k := by
  have hinitial : 'k' = kind.initial := initial_eq h
  cases kind with
  | keyword k' =>
    rw [Keyword.word_injective (inQuotes_injective ((String.append_right_inj _).mp h))]
  | _ => simp [initial] at hinitial

end TokenKind

/-! ### The token of a fault

A fault names a token of those that the rule was given, or one inside of them. If it names none, the
rule had come to the end, and none of the tokens that it was given can be the end of the input. -/

/-- What the cause of a fault says about the token that the fault names. -/
def ParseCause.Suits (kind : TokenKind) : ParseCause → Prop
  | .expected wanted => wanted.describe ≠ kind.describe
  | .unexpectedToken => True
  | .unexpectedKeyword k =>
    kind = .keyword k ∧ k ∈ [Keyword.in_, .inherit, .or, .then_, .else_]
  | .expectedName =>
    (∀ name, kind ≠ .identifier name) ∧ (∀ parts multiline, kind ≠ .string parts multiline) ∧
      ∀ tokens, kind ≠ .interpolation tokens
  | .expectedSeparator => kind ≠ .symbol .comma ∧ kind ≠ .symbol .closeBrace

/-- The token `t` is one of `ts` at some depth, or the end of an interpolation in one of them. -/
def Token.FoundIn (ts : List Token) (t : Token) : Prop :=
  t ∈ nestedTokens ts ∨
    ∃ u ∈ nestedTokens ts, ∃ i ∈ u.interpolations, t = ⟨.endOfInput, .point i.2.stop⟩

theorem nestedTokens_subset {ts us : List Token} (h : us ⊆ ts) :
    nestedTokens us ⊆ nestedTokens ts := by
  intro t ht
  obtain ⟨u, hu, ht⟩ := mem_nestedTokens_iff.mp ht
  exact mem_nestedTokens_iff.mpr ⟨u, h hu, ht⟩

theorem nestedTokens_subset_of_interpolation {ts : List Token} {u : Token} {i : List Token × Span}
    (hu : u ∈ ts) (hi : i ∈ u.interpolations) : nestedTokens i.1 ⊆ nestedTokens ts := fun _ ht =>
  mem_nestedTokens_iff.mpr ⟨u, hu, Token.mem_nested_iff.mpr (.inr ⟨i, hi, ht⟩)⟩

/-- What is found among some tokens is found among more. -/
theorem Token.FoundIn.of_subset {ts us : List Token} {t : Token} (h : t.FoundIn us)
    (hsub : nestedTokens us ⊆ nestedTokens ts) : t.FoundIn ts := by
  obtain h | ⟨u, hu, i, hi, rfl⟩ := h
  · exact .inl (hsub h)
  · exact .inr ⟨u, hsub hu, i, hi, rfl⟩

namespace Grammar

variable {ts rest : List Token} {α β : Type}

/-- The kind of the next token. Where none is left, that is the end. -/
def nextKind (ts : List Token) : TokenKind :=
  ts.head?.elim .endOfInput Token.kind

/-- The fault `s` names a token of `ts`, or their end if no token of them is the end of the input,
and it says what can be said about that. -/
structure Stuck.Blames (ts : List Token) (s : Stuck) : Prop where
  /-- The token that is named is one of them. -/
  found : ∀ t, s.token = some t → t.FoundIn ts
  /-- Where no token is named, the end of the input is none of them. -/
  unended : s.token = none → ∀ t ∈ ts, t.isEnd = false
  /-- The cause can be about that token. -/
  suits : s.cause.Suits (s.token.elim .endOfInput Token.kind)

/-- A computation that fails only with a fault in `ts`. -/
def FaultsIn (ts : List Token) (x : Except Stuck α) : Prop :=
  ∀ s, x = .error s → s.Blames ts

/-- A fault in what is left is a fault in all there was. -/
theorem FaultsIn.of_leaves {n : Nat} {x : Except Stuck α} (h : FaultsIn rest x)
    (hleaves : Leaves n ts rest) : FaultsIn ts x := by
  intro s hs
  obtain ⟨hfound, hunended, hsuits⟩ := h s hs
  obtain ⟨front, rfl, -, hend⟩ := hleaves
  refine ⟨fun t ht => (hfound t ht).of_subset (nestedTokens_subset (by simp)), fun hnone t ht => ?_,
    hsuits⟩
  rcases List.mem_append.mp ht with ht | ht
  · exact hend t ht
  · exact hunended hnone t ht

theorem FaultsIn.behindTrivia {x : Except Stuck α} (h : FaultsIn (skipTrivia ts) x) :
    FaultsIn ts x := h.of_leaves leaves_skipTrivia

theorem FaultsIn.cons {t : Token} {x : Except Stuck α} (h : FaultsIn ts x)
    (ht : t.isEnd = false) : FaultsIn (t :: ts) x := h.of_leaves ((Leaves.refl ts).cons ht)

theorem faultsIn_ok (a : α) : FaultsIn ts (.ok a : Except Stuck α) := nofun

theorem faultsIn_pure (a : α) : FaultsIn ts (pure a : Except Stuck α) := nofun

/-- A refusal names the token in front, whatever that is. -/
theorem faultsIn_refuse {cause : ParseCause} (h : cause.Suits (nextKind ts)) :
    FaultsIn ts (refuse cause ts : Except Stuck α) := by
  intro s hs
  cases hs
  cases ts with
  | nil => exact ⟨nofun, fun _ => by simp, h⟩
  | cons t ts =>
    refine ⟨fun u hu => ?_, nofun, h⟩
    obtain rfl := Option.some.inj hu
    exact .inl (mem_nestedTokens_of_mem List.mem_cons_self)

/-- One part fails, or the other. -/
theorem FaultsIn.bind {x : Except Stuck α} {f : α → Except Stuck β} (hx : FaultsIn ts x)
    (hf : ∀ a, x = .ok a → FaultsIn ts (f a)) : FaultsIn ts (x >>= f) := by
  intro s hs
  obtain hs | ⟨a, ha, hs⟩ := bind_eq_error_iff.mp hs
  · exact hx s hs
  · exact hf a ha s hs

/-- What follows a rule fails in the tokens that the rule has left. -/
theorem FaultsIn.andThen {n : Nat} {x : Except Stuck (α × List Token)}
    {f : α × List Token → Except Stuck β} (hx : FaultsIn ts x)
    (hleaves : ∀ {a mid}, x = .ok (a, mid) → Leaves n ts mid)
    (hf : ∀ a mid, FaultsIn mid (f (a, mid))) : FaultsIn ts (x >>= f) :=
  hx.bind fun (a, mid) ha => (hf a mid).of_leaves (hleaves ha)

/-- A repetition fails in one of its rounds, and each of them begins in what the ones before have
left. -/
theorem faultsIn_repeated {round : Rule (Option α)} (hround : ∀ ts, FaultsIn ts (round ts))
    (hleaves : ∀ {ts a rest}, round ts = .ok (some a, rest) → Leaves 1 ts rest)
    (ts : List Token) : FaultsIn ts (repeated round ts) := by
  suffices ∀ n ts, FaultsIn ts (rounds round n ts) from this _ ts
  intro n
  induction n with
  | zero => exact fun ts => faultsIn_ok _
  | succ n ih =>
    intro ts
    refine (hround ts).bind fun (a, mid) ha => ?_
    cases a with
    | none => exact faultsIn_pure _
    | some a => exact ((ih mid).bind fun _ _ => faultsIn_pure _).of_leaves (hleaves ha)

/-! ### Single tokens

Asked for a mark, a rule refuses what is there instead, so it never says that the mark was expected
and found. -/

/-- If the tokens do not begin with a token of some kind, the next kind is not that one. -/
theorem nextKind_ne {kind : TokenKind} (hend : kind ≠ .endOfInput)
    (hne : ∀ span us, ts ≠ ⟨kind, span⟩ :: us) : nextKind ts ≠ kind := by
  rcases ts with _ | ⟨⟨kind', span⟩, us⟩
  · exact hend.symm
  · rintro rfl
    exact hne span us rfl

/-- The refusal is behind the line breaks that were passed. -/
theorem faultsIn_expectSymbol (s : Symbol) (ts : List Token) :
    FaultsIn ts (expectSymbol s ts) := by
  have hskip : Leaves 0 ts (skipNewlines ts) := leaves_skipNewlines
  refine FaultsIn.of_leaves ?_ hskip
  rw [expectSymbol]
  split
  · rename_i s' span us hts
    split
    · exact faultsIn_ok _
    · rename_i hs
      refine faultsIn_refuse fun h => nextKind_ne (by simp) (fun span' us' h => hs ?_)
        (TokenKind.eq_of_describe_symbol h)
      exact TokenKind.symbol.inj (Token.mk.inj (List.cons.inj (hts.symm.trans h)).1).1
  · rename_i hts
    exact faultsIn_refuse fun h =>
      nextKind_ne (by simp) (hts s) (TokenKind.eq_of_describe_symbol h)

theorem faultsIn_expectKeyword (k : Keyword) (ts : List Token) :
    FaultsIn ts (expectKeyword k ts) := by
  have hskip : Leaves 0 ts (skipNewlines ts) := leaves_skipNewlines
  refine FaultsIn.of_leaves ?_ hskip
  rw [expectKeyword]
  split
  · rename_i k' span us hts
    split
    · exact faultsIn_ok _
    · rename_i hk
      refine faultsIn_refuse fun h => nextKind_ne (by simp) (fun span' us' h => hk ?_)
        (TokenKind.eq_of_describe_keyword h)
      exact TokenKind.keyword.inj (Token.mk.inj (List.cons.inj (hts.symm.trans h)).1).1
  · rename_i hts
    exact faultsIn_refuse fun h =>
      nextKind_ne (by simp) (hts k) (TokenKind.eq_of_describe_keyword h)

section

variable {operand : Context → Rule Operand} (hadv : Advances operand)
  (hop : ∀ ctx ts, FaultsIn ts (operand ctx ts))
include hadv hop

/-! ### Expressions

Faults of the parts, in the order in which they are read. Only an expression that has to be complete
refuses by itself, if something is left. -/

omit hadv in
theorem faultsIn_link (ts : List Token) : FaultsIn ts (link operand ts) := by
  rcases ts with _ | ⟨t, us⟩
  · exact faultsIn_ok _
  · rw [link]
    split
    · rename_i op hbinary
      exact ((hop .chain us).bind fun _ _ => faultsIn_pure _).cons
        (Token.isEnd_of_binaryOp? hbinary)
    · exact faultsIn_ok _

theorem faultsIn_expression (ts : List Token) : FaultsIn ts (expression operand ts) :=
  (hop .chain ts).andThen (fun h => hadv h) fun _ mid =>
    (faultsIn_repeated (faultsIn_link hop) (leaves_link hadv) mid).bind fun _ _ => faultsIn_pure _

theorem faultsIn_complete (ts : List Token) : FaultsIn ts (complete operand ts) := by
  refine (faultsIn_expression hadv hop ts).andThen (leaves_expression hadv) fun body rest => ?_
  dsimp only
  split
  · exact faultsIn_pure _
  · exact faultsIn_refuse trivial

/-- The tokens of an interpolation end where it does, so there is always a token to be named. -/
theorem faultsIn_interpolationOf {u : Token} {i : List Token × Span} (hu : u ∈ ts)
    (hi : i ∈ u.interpolations) : FaultsIn ts (interpolationOf operand i.1 i.2) := by
  intro s hs
  rw [interpolationOf] at hs
  split at hs
  · cases hs
  · rename_i s' hs'
    cases hs
    obtain ⟨hfound, -, hsuits⟩ := faultsIn_complete hadv hop i.1 s' hs'
    obtain ⟨cause, token⟩ := s'
    cases token with
    | none =>
      refine ⟨fun t ht => ?_, by simp, hsuits⟩
      obtain rfl := Option.some.inj ht
      exact .inr ⟨u, mem_nestedTokens_of_mem hu, i, hi, rfl⟩
    | some t' =>
      refine ⟨fun t ht => ?_, by simp, hsuits⟩
      obtain rfl := Option.some.inj ht
      exact (hfound t' rfl).of_subset (nestedTokens_subset_of_interpolation hu hi)

/-! ### Strings and names

A part of a string fails as the interpolation that it is. Its tokens are inside of the token that
the string is. -/

/-- The interpolations of a string are inside of its token. -/
theorem faultsIn_partsOf {u : Token} (hu : u ∈ ts) {fragments : List StringFragment}
    (hfragments : ∀ i ∈ fragments.filterMap StringFragment.interpolation?,
      i ∈ u.interpolations) : FaultsIn ts (partsOf operand fragments) := by
  induction fragments with
  | nil => exact faultsIn_ok _
  | cons part fragments ih =>
    cases part with
    | text content =>
      exact (ih hfragments).bind fun _ _ => faultsIn_pure _
    | interpolation tokens span =>
      obtain ⟨hi, hmore⟩ := List.forall_mem_cons.mp hfragments
      exact (faultsIn_interpolationOf hadv hop hu hi).bind fun _ _ =>
        (ih hmore).bind fun _ _ => faultsIn_pure _

theorem faultsIn_stringOf {fragments : List StringFragment} {multiline : Bool} {span : Span}
    (h : ⟨.string fragments multiline, span⟩ ∈ ts) :
    FaultsIn ts (stringOf operand fragments multiline span) :=
  (faultsIn_partsOf hadv hop h fun _ hi => hi).bind fun _ _ => faultsIn_pure _

/-- What is no name is refused as such. -/
theorem faultsIn_segment (ts : List Token) : FaultsIn ts (segment operand ts) := by
  unfold segment
  split
  · exact faultsIn_ok _
  · exact (faultsIn_stringOf hadv hop List.mem_cons_self).bind fun _ _ => faultsIn_pure _
  · exact (faultsIn_interpolationOf (i := (_, _)) hadv hop List.mem_cons_self
      (List.mem_singleton.mpr rfl)).bind fun _ _ => faultsIn_pure _
  · rename_i hname hstring hinterpolation
    exact faultsIn_refuse ⟨fun name => nextKind_ne (by nofun) (hname name),
      fun parts multiline => nextKind_ne (by nofun) (hstring parts multiline),
      fun tokens => nextKind_ne (by nofun) (hinterpolation tokens)⟩

theorem faultsIn_dottedSegment (ts : List Token) : FaultsIn ts (dottedSegment operand ts) := by
  unfold dottedSegment
  split
  · exact ((faultsIn_segment hadv hop _).bind fun _ _ => faultsIn_pure _).cons rfl
  · exact faultsIn_ok _

theorem faultsIn_attrPath (ts : List Token) : FaultsIn ts (attrPath operand ts) :=
  (faultsIn_segment hadv hop ts).andThen (fun h => (segment_eq_ok_iff.mp h).leaves) fun _ mid =>
    (faultsIn_repeated (faultsIn_dottedSegment hadv hop) leaves_dottedSegment mid).bind
      fun _ _ => faultsIn_pure _

/-! ### Bindings

A binding fails in its parts, or at a mark that is missing between them or behind. -/

theorem faultsIn_inheritSource (ts : List Token) : FaultsIn ts (inheritSource operand ts) := by
  rw [inheritSource]
  split
  · rename_i start us hskip
    refine FaultsIn.of_leaves ?_ (leaves_of_skipTrivia rfl hskip (.refl us))
    exact (faultsIn_expression hadv hop us).andThen (leaves_expression hadv) fun _ mid =>
      (faultsIn_expectSymbol _ mid).bind fun _ _ => faultsIn_pure _
  · exact faultsIn_ok _

theorem faultsIn_inheritedName (ts : List Token) : FaultsIn ts (inheritedName operand ts) := by
  rw [inheritedName]
  split
  · exact faultsIn_ok _
  · exact ((faultsIn_attrPath hadv hop _).bind fun _ _ => faultsIn_pure _).behindTrivia

theorem faultsIn_inheritance (comments : List Comment) (start : Span) (ts : List Token) :
    FaultsIn ts (inheritance operand comments start ts) :=
  (faultsIn_inheritSource hadv hop ts).andThen (leaves_inheritSource hadv) fun _ mid =>
    (faultsIn_repeated (faultsIn_inheritedName hadv hop) leaves_inheritedName mid).andThen
      (leaves_repeated stop_inheritedName leaves_inheritedName) fun _ _ =>
        ((faultsIn_expectSymbol _ _).bind fun _ _ => faultsIn_pure _).behindTrivia

theorem faultsIn_assignment (comments : List Comment) (ts : List Token) :
    FaultsIn ts (assignment operand comments ts) := by
  refine (faultsIn_attrPath hadv hop ts).andThen leaves_attrPath fun name ts => ?_
  refine FaultsIn.behindTrivia ?_
  refine (faultsIn_expectSymbol _ _).andThen leaves_expectSymbol fun _ ts => ?_
  refine (faultsIn_expression hadv hop ts).andThen (leaves_expression hadv) fun value ts => ?_
  exact (faultsIn_expectSymbol _ ts).bind fun _ _ => faultsIn_pure _

theorem faultsIn_binding (ts : List Token) : FaultsIn ts (binding operand ts) := by
  rw [binding]
  split
  · rename_i start us hskip
    exact (faultsIn_inheritance hadv hop _ start us).of_leaves
      (leaves_of_skipTrivia rfl hskip (.refl us))
  · exact (faultsIn_assignment hadv hop _ _).behindTrivia

theorem faultsIn_bindingUnless (closed : List Token → Bool) (ts : List Token) :
    FaultsIn ts (bindingUnless operand closed ts) := by
  rw [bindingUnless]
  split
  · exact faultsIn_ok _
  · exact (faultsIn_binding hadv hop ts).bind fun _ _ => faultsIn_pure _

theorem faultsIn_bindings (closed : List Token → Bool) (ts : List Token) :
    FaultsIn ts (repeated (bindingUnless operand closed) ts) :=
  faultsIn_repeated (faultsIn_bindingUnless hadv hop closed)
    (fun h => leaves_binding hadv (bindingUnless_eq_some_iff.mp h).2.2) ts

theorem faultsIn_attrSet (recursive : Bool) (start : Span) (ts : List Token) :
    FaultsIn ts (attrSet operand recursive start ts) :=
  (faultsIn_bindings hadv hop _ ts).andThen (leaves_bindings hadv) fun _ _ =>
    ((faultsIn_expectSymbol _ _).bind fun _ _ => faultsIn_pure _).behindTrivia

theorem faultsIn_letIn (start : Span) (ts : List Token) :
    FaultsIn ts (letIn operand start ts) := by
  refine (faultsIn_bindings hadv hop _ ts).andThen (leaves_bindings hadv) fun bindings ts => ?_
  refine FaultsIn.behindTrivia ?_
  refine (faultsIn_expectKeyword _ _).andThen leaves_expectKeyword fun _ ts => ?_
  exact (faultsIn_expression hadv hop ts).bind fun _ _ => faultsIn_pure _

/-! ### Functions

Between the braces of a pattern three marks are looked for, and what is none of them has to be a
name. -/

theorem faultsIn_lambda (parameter : AttrPath) (ts : List Token) :
    FaultsIn ts (lambda operand parameter ts) :=
  (faultsIn_expression hadv hop ts).bind fun _ _ => faultsIn_pure _

theorem faultsIn_formal (comments : List Comment) (ts : List Token) :
    FaultsIn ts (formal operand comments ts) := by
  refine (faultsIn_attrPath hadv hop ts).andThen leaves_attrPath fun name ts => ?_
  dsimp only
  split
  · rename_i start us hskip
    refine FaultsIn.of_leaves ?_ (leaves_of_skipTrivia rfl hskip (.refl us))
    exact (faultsIn_expression hadv hop us).bind fun _ _ => faultsIn_pure _
  · exact faultsIn_pure _

/-- The bound is used up only where no token is left. -/
theorem faultsIn_patternBodyUpTo (n : Nat) (hn : ts.length ≤ n) :
    FaultsIn ts (patternBodyUpTo operand n ts) := by
  induction n generalizing ts with
  | zero =>
    obtain rfl : ts = [] := List.eq_nil_of_length_eq_zero (Nat.le_zero.mp hn)
    exact faultsIn_refuse (by simp [ParseCause.Suits, nextKind])
  | succ n ih =>
    unfold patternBodyUpTo
    split
    · exact faultsIn_ok _
    · exact faultsIn_ok _
    · refine FaultsIn.behindTrivia ((faultsIn_formal hadv hop _ _).bind ?_)
      rintro ⟨f, rest⟩ hf
      have hleaves := leaves_formal hadv hf
      refine FaultsIn.of_leaves ?_ hleaves
      dsimp only
      split
      · rename_i span us
        -- behind a comma there are fewer tokens, so the bound is still enough
        have hlength := (leaves_skipTrivia.trans hleaves).length_le
        simp only [List.length_cons] at hlength
        exact ((ih (by omega)).bind fun _ _ => faultsIn_pure _).cons rfl
      · exact faultsIn_pure _
      · rename_i hcomma hclose
        exact faultsIn_refuse ⟨nextKind_ne (by simp) hcomma, nextKind_ne (by simp) hclose⟩

theorem faultsIn_patternBody (ts : List Token) : FaultsIn ts (patternBody operand ts) :=
  faultsIn_patternBodyUpTo hadv hop _ le_rfl

theorem faultsIn_patternName (ts : List Token) : FaultsIn ts (patternName operand ts) := by
  unfold patternName
  split
  · exact (((faultsIn_attrPath hadv hop _).bind fun _ _ => faultsIn_pure _).behindTrivia).cons rfl
  · exact faultsIn_ok _

theorem faultsIn_patternEnd (front : Option AttrPath) (start stop : Span) (ts : List Token) :
    FaultsIn ts (patternEnd operand front start stop ts) := by
  cases front with
  | some name => exact faultsIn_ok _
  | none => exact (faultsIn_patternName hadv hop ts).bind fun _ _ => faultsIn_pure _

theorem faultsIn_patternLambda (front : Option AttrPath) (start : Span) (ts : List Token) :
    FaultsIn ts (patternLambda operand front start ts) := by
  refine (faultsIn_patternBody hadv hop ts).andThen
    (fun h => ((patternBody_eq_ok_iff hadv).mp h).leaves hadv) fun body ts => ?_
  refine (faultsIn_expectSymbol _ ts).andThen leaves_expectSymbol fun stop ts => ?_
  refine FaultsIn.behindTrivia ?_
  refine (faultsIn_patternEnd hadv hop front start stop _).andThen leaves_patternEnd
    fun (name, span, more) ts => ?_
  refine (faultsIn_expectSymbol _ ts).andThen leaves_expectSymbol fun _ ts => ?_
  exact (faultsIn_expression hadv hop ts).bind fun _ _ => faultsIn_pure _

/-! ### Terms

What begins no term is refused as such, and it is none of the tokens with which one begins. -/

theorem faultsIn_paren (start : Span) (ts : List Token) : FaultsIn ts (paren operand start ts) :=
  (faultsIn_expression hadv hop ts).andThen (leaves_expression hadv) fun _ mid =>
    (faultsIn_expectSymbol _ mid).bind fun _ _ => faultsIn_pure _

omit hadv in
theorem faultsIn_item (ts : List Token) : FaultsIn ts (item operand ts) := by
  rw [item]
  split
  · exact faultsIn_ok _
  · exact (hop .single ts).bind fun _ _ => faultsIn_pure _

theorem faultsIn_list (start : Span) (ts : List Token) : FaultsIn ts (list operand start ts) :=
  (faultsIn_repeated (faultsIn_item hop) (leaves_item hadv) ts).andThen
    (leaves_repeated stop_item (leaves_item hadv)) fun _ _ =>
      ((faultsIn_expectSymbol _ _).bind fun _ _ => faultsIn_pure _).behindTrivia

theorem faultsIn_conditional (start : Span) (ts : List Token) :
    FaultsIn ts (conditional operand start ts) := by
  refine (faultsIn_expression hadv hop ts).andThen (leaves_expression hadv) fun _ ts => ?_
  refine (faultsIn_expectKeyword _ ts).andThen leaves_expectKeyword fun _ ts => ?_
  refine (faultsIn_expression hadv hop ts).andThen (leaves_expression hadv) fun _ ts => ?_
  refine (faultsIn_expectKeyword _ ts).andThen leaves_expectKeyword fun _ ts => ?_
  exact (faultsIn_expression hadv hop ts).bind fun _ _ => faultsIn_pure _

omit hadv in
theorem faultsIn_importOf (start : Span) (ts : List Token) :
    FaultsIn ts (importOf operand start ts) :=
  (hop .single ts).bind fun _ _ => faultsIn_pure _

/-- Of the keywords that begin no clause, those that begin no form either are refused. -/
theorem faultsIn_keywordForm {k : Keyword} (hclause : clauseKind? k = none) (span : Span)
    (ts : List Token) : FaultsIn (⟨.keyword k, span⟩ :: ts) (keywordForm operand k span ts) := by
  cases k with
  | let_ => exact (faultsIn_letIn hadv hop span ts).cons rfl
  | import_ => exact (faultsIn_importOf hop span ts).cons rfl
  | if_ => exact (faultsIn_conditional hadv hop span ts).cons rfl
  | rec_ =>
    exact ((faultsIn_expectSymbol _ ts).andThen leaves_expectSymbol fun _ mid =>
      faultsIn_attrSet hadv hop true span mid).cons rfl
  | with_ | assert => cases hclause
  | _ => exact faultsIn_refuse ⟨rfl, by decide⟩

theorem faultsIn_nameForm (name : String) (span : Span) (ts : List Token) :
    FaultsIn (⟨.identifier name, span⟩ :: ts) (nameForm operand name span ts) := by
  have hpath : FaultsIn (⟨.identifier name, span⟩ :: ts) (do
      let r ← attrPath operand (⟨.identifier name, span⟩ :: ts)
      return (Term.name r.1, r.2)) :=
    (faultsIn_attrPath hadv hop _).bind fun _ _ => faultsIn_pure _
  unfold nameForm
  dsimp only
  split
  · exact ((faultsIn_lambda hadv hop _ _).cons rfl).cons rfl
  · split
    · exact (((faultsIn_patternLambda hadv hop _ _ _).cons rfl).cons rfl).cons rfl
    · exact hpath
  · exact hpath

/-- Of the keywords, those of clauses must not be in front, as they would be refused although they
begin an expression. -/
theorem faultsIn_primary
    (hclause : ∀ k span us, ts = ⟨.keyword k, span⟩ :: us → clauseKind? k = none) :
    FaultsIn ts (primary operand ts) := by
  unfold primary
  split
  · exact faultsIn_ok _
  · exact faultsIn_ok _
  · exact faultsIn_ok _
  · exact faultsIn_ok _
  · exact faultsIn_ok _
  · exact (faultsIn_stringOf hadv hop List.mem_cons_self).bind fun _ _ => faultsIn_pure _
  · exact (faultsIn_interpolationOf (i := (_, _)) hadv hop List.mem_cons_self
      (List.mem_singleton.mpr rfl)).bind fun _ _ => faultsIn_pure _
  · exact (faultsIn_list hadv hop _ _).cons rfl
  · split
    · exact (faultsIn_patternLambda hadv hop _ _ _).cons rfl
    · exact (faultsIn_attrSet hadv hop _ _ _).cons rfl
  · exact (faultsIn_paren hadv hop _ _).cons rfl
  · exact faultsIn_nameForm hadv hop _ _ _
  · exact faultsIn_keywordForm hadv hop (hclause _ _ _ rfl) _ _
  · exact faultsIn_refuse trivial

omit hadv in
theorem faultsIn_unary (ctx : Context) (op : UnaryOp) (start : Span) (ts : List Token) :
    FaultsIn ts (unary operand ctx op start ts) :=
  (hop ctx ts).bind fun _ _ => faultsIn_pure _

theorem faultsIn_termIn (ctx : Context)
    (hclause : ∀ k span us, ts = ⟨.keyword k, span⟩ :: us → clauseKind? k = none) :
    FaultsIn ts (termIn operand ctx ts) := by
  unfold termIn
  split
  · exact (faultsIn_unary hop _ _ _ _).cons rfl
  · split
    · exact faultsIn_ok _
    · exact faultsIn_ok _
    · exact (faultsIn_unary hop _ _ _ _).cons rfl
  · exact faultsIn_primary hadv hop hclause

/-! ### Operands

With all clauses read, the term is read where no keyword of a clause is in front. -/

omit hadv in
theorem faultsIn_argument (ts : List Token) : FaultsIn ts (argument operand ts) := by
  rw [argument]
  split
  · split
    · exact (hop .single ts).bind fun _ _ => faultsIn_pure _
    · exact faultsIn_ok _
  · exact faultsIn_ok _

theorem faultsIn_applied (callee : Term) (ts : List Token) :
    FaultsIn ts (applied operand callee ts) := by
  refine (faultsIn_repeated (faultsIn_argument hop) (leaves_argument hadv) ts).bind
    fun (arguments, rest) _ => ?_
  dsimp only
  split <;> exact faultsIn_pure _

theorem faultsIn_clause (ts : List Token) : FaultsIn ts (clause operand ts) := by
  rw [clause]
  split
  · rename_i k start us hskip
    split
    · refine FaultsIn.of_leaves ?_ (leaves_of_skipTrivia rfl hskip (.refl us))
      exact (faultsIn_expression hadv hop us).andThen (leaves_expression hadv) fun _ mid =>
        (faultsIn_expectSymbol _ mid).bind fun _ _ => faultsIn_pure _
    · exact faultsIn_ok _
  · exact faultsIn_ok _

/-- All clauses in front of a term are read, so no keyword of a clause is left in front of it. -/
theorem faultsIn_operandWith (ctx : Context) (ts : List Token) :
    FaultsIn ts (operandWith operand ctx ts) := by
  have hclauses := faultsIn_repeated (faultsIn_clause hadv hop) (leaves_clause hadv) ts
  refine hclauses.bind fun (clauses, mid) hmid => ?_
  refine FaultsIn.of_leaves ?_ (leaves_repeated stop_clause (leaves_clause hadv) hmid)
  -- the clauses have ended in front of a token that begins none
  have hlast := clause_eq_none_iff.mp (end_of_repeated (repeatable_clause hadv) hmid)
  refine FaultsIn.behindTrivia ?_
  refine (faultsIn_termIn hadv hop ctx hlast.2).andThen
    (fun h => (termIn_eq_ok_iff.mp h).leaves hadv) fun term rest => ?_
  dsimp only
  split
  · exact (faultsIn_applied hadv hop term rest).bind fun _ _ => faultsIn_pure _
  · exact faultsIn_pure _

end

theorem faultsIn_operandUpTo (n : Nat) (ctx : Context) (ts : List Token) :
    FaultsIn ts (operandUpTo n ctx ts) := by
  induction n generalizing ctx ts with
  | zero => exact faultsIn_refuse trivial
  | succ n ih => exact faultsIn_operandWith (advances_operandUpTo n) ih ctx ts

end Grammar

/-- **The fault of a source names a token that does not fit.** It is one of the tokens of the
source, at any depth, or the end of an interpolation, and what the fault says of it is right: it is
called otherwise than the token that is required, it is a keyword that begins no expression, it is
no name where a name is required, or it neither goes on with a pattern nor ends it. -/
theorem Program.faults_of_ofTokens {source : String} {ts : List Token} {f : ParseFault}
    (hts : tokenize source = .ok ts) (h : ofTokens ts = .error f) :
    f.token.FoundIn ts ∧ f.cause.Suits f.token.kind := by
  rw [ofTokens] at h
  split at h
  · cases h
  · rename_i s hs
    cases h
    obtain ⟨hfound, hunended, hsuits⟩ := Grammar.faultsIn_complete
      (Grammar.advances_operandUpTo _) (Grammar.faultsIn_operandUpTo _) ts s hs
    obtain ⟨cause, token⟩ := s
    cases token with
    | some t => exact ⟨hfound t rfl, hsuits⟩
    | none =>
      obtain ⟨body, d, e, last, rfl, -, -, hend, -⟩ := Lexical.run_of_tokenize hts
      have hlast := hunended rfl last (by simp)
      rw [hend] at hlast
      cases hlast

/-- The tokens of `"${(a}"`. -/
def earlyEndTokens : List Token :=
  [⟨.string [.text "", .interpolation
      [⟨.symbol .openParen, ⟨⟨1, 4, 3⟩, ⟨1, 5, 4⟩⟩⟩, ⟨.identifier "a", ⟨⟨1, 5, 4⟩, ⟨1, 6, 5⟩⟩⟩]
      ⟨⟨1, 2, 1⟩, ⟨1, 7, 6⟩⟩, .text ""] false, ⟨⟨1, 1, 0⟩, ⟨1, 8, 7⟩⟩⟩,
    ⟨.endOfInput, .point ⟨1, 8, 7⟩⟩]

/-- Where an interpolation ends too early, its end is named, although the source goes on. -/
theorem Program.faults_of_ofTokens_earlyEnd :
    tokenize "\"$\x7b(a\x7d\"" = .ok earlyEndTokens ∧
    ∃ f, ofTokens earlyEndTokens = .error f ∧ f.token = ⟨.endOfInput, .point ⟨1, 7, 6⟩⟩ ∧
      f.token.FoundIn earlyEndTokens ∧ f.cause.Suits f.token.kind := by
  have hts : tokenize "\"$\x7b(a\x7d\"" = .ok earlyEndTokens := rfl
  have hf : ofTokens earlyEndTokens = .error _ := rfl
  exact ⟨hts, _, hf, rfl, faults_of_ofTokens hts hf⟩

end NixSyntax
