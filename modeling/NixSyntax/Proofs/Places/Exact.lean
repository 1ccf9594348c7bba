import NixSyntax.Proofs.Chain.Tiers
import NixSyntax.Proofs.Places.Standing

/-!
# Places are exact

A rule makes the place of what it reads from the places of two of its parts, and comments stand at
neither end of any part. So the place of every node runs from its first token to its last, whatever
places the tokens have.

The relation between a rule's tokens and its result has two forms. `Finds` says that the significant
tokens which were read are a word of a language. `Locates` says in addition where that word stands.
The parts of a form are one behind the other, and with them their places are joined
(`Locates.mul`); only a part that may be without tokens has no place to join, and it has to stand
between two others (`Locates.enclose`).

## Words and languages

What a rule takes is described by languages of tokens, and words of them are put together as the
rules are: one part behind the other is a product, one form or another is a sum, and a repetition is
a product over the results. The language of a node is computed from the node (`Expr.standing`). So
the statement about a rule reads: the significant tokens that it took are a word of the language of
its result.

With places, the tokens have to stand where the node says. A language of words with a place is
closed under the same operations as long as no part is empty. The rules are such that the first part
of every form has a token, and so has the last.

## Trivia

Trivia is not among the significant tokens, wherever it stands. That is why there are lemmas to skip
it in front of what is read and behind (`of_skipTrivia`, `skipTrivia_right`), and none to say what
it is.

## Main definitions

* `Finds`, `Locates`: a word of a language stands in front of some tokens, and where

## Main results

* `locates_operandWith`: from the operands inside to the operand around them
* `Program.significant_mem_standing`: every node of a program stands where its tokens do
-/

namespace NixSyntax

namespace Grammar

/-- The significant tokens in front of `rest` are a word of the language. -/
def Finds (L : Language Token) (ts rest : List Token) : Prop :=
  ∃ w ∈ L, significant ts = w ++ significant rest

/-- They are, and the word has the given place. -/
def Locates (span : Span) (L : Language Token) (ts rest : List Token) : Prop :=
  ∃ w ∈ L, Ends w span ∧ significant ts = w ++ significant rest

variable {L M N : Language Token} {a b : Span} {ts mid us rest : List Token}

namespace Finds

theorem refl (ts : List Token) : Finds 1 ts ts := ⟨[], Language.nil_mem_one, rfl⟩

/-- A word in front and one behind are a word of the product. -/
theorem mul (h : Finds L ts mid) (h' : Finds M mid rest) : Finds (L * M) ts rest := by
  obtain ⟨w, hw, hts⟩ := h
  obtain ⟨v, hv, hmid⟩ := h'
  exact ⟨w ++ v, Language.append_mem_mul hw hv, by rw [hts, hmid, List.append_assoc]⟩

/-- A word of a smaller language is one of a larger. -/
theorem mono (hle : L ≤ M) (h : Finds L ts rest) : Finds M ts rest := by
  obtain ⟨w, hw, hts⟩ := h
  exact ⟨w, hle hw, hts⟩

/-- Trivia in front may be passed first. -/
theorem of_skipTrivia (h : Finds L (skipTrivia ts) rest) : Finds L ts rest := by
  rwa [Finds, significant_skipTrivia] at h

/-- Trivia behind may be passed too. -/
theorem skipTrivia_right (h : Finds L ts rest) : Finds L ts (skipTrivia rest) := by
  rwa [Finds, significant_skipTrivia]

/-- Tokens that follow trivia, with a word in front of what follows them. -/
theorem of_skipTrivia_eq (h : skipTrivia ts = mid) (h' : Finds L mid rest) : Finds L ts rest :=
  of_skipTrivia (h ▸ h')

end Finds

namespace Locates

/-- The place may be forgotten. -/
theorem finds (h : Locates a L ts rest) : Finds L ts rest := by
  obtain ⟨w, hw, -, hts⟩ := h
  exact ⟨w, hw, hts⟩

/-- A word with a place, something behind it, and a word with a place again. -/
theorem enclose (h : Locates a L ts mid) (h' : Finds M mid us) (h'' : Locates b N us rest) :
    Locates (a.join b) (L * (M * N)) ts rest := by
  obtain ⟨w, hw, hwa, hts⟩ := h
  obtain ⟨v, hv, hmid⟩ := h'
  obtain ⟨u, hu, hub, hus⟩ := h''
  refine ⟨w ++ (v ++ u), Language.append_mem_mul hw (Language.append_mem_mul hv hu),
    hwa.enclose hub, ?_⟩
  rw [hts, hmid, hus, List.append_assoc, List.append_assoc]

theorem mul (h : Locates a L ts mid) (h' : Locates b M mid rest) :
    Locates (a.join b) (L * M) ts rest := by
  simpa only [one_mul] using h.enclose (.refl mid) h'

theorem left (h : Locates a L ts rest) : Locates a (L + M) ts rest := by
  obtain ⟨w, hw, h⟩ := h
  exact ⟨w, .inl hw, h⟩

theorem right (h : Locates a M ts rest) : Locates a (L + M) ts rest := by
  obtain ⟨w, hw, h⟩ := h
  exact ⟨w, .inr hw, h⟩

/-- The word is one of those that have its place. -/
theorem spanning (h : Locates a L ts rest) : Locates a (spanning a L) ts rest := by
  obtain ⟨w, hw, hwa, hts⟩ := h
  exact ⟨w, ⟨hw, hwa⟩, hwa, hts⟩

theorem of_skipTrivia (h : Locates a L (skipTrivia ts) rest) : Locates a L ts rest := by
  rwa [Locates, significant_skipTrivia] at h

theorem skipTrivia_right (h : Locates a L ts rest) : Locates a L ts (skipTrivia rest) := by
  rwa [Locates, significant_skipTrivia]

theorem of_skipTrivia_eq (h : skipTrivia ts = mid) (h' : Locates a L mid rest) :
    Locates a L ts rest :=
  of_skipTrivia (h ▸ h')

end Locates

/-- A token is a word at its own place. -/
theorem locates_token {kind : TokenKind} {span : Span} (hend : Token.isEnd ⟨kind, span⟩ = false)
    (htrivia : Token.isTrivia ⟨kind, span⟩ = false) (h : [⟨kind, span⟩] ∈ L) :
    Locates span L (⟨kind, span⟩ :: ts) ts :=
  ⟨_, h, ends_singleton ⟨kind, span⟩, significant_cons ts hend htrivia⟩

/-- A token of a kind, at any place. -/
theorem locates_placed (kind : TokenKind) (span : Span)
    (hend : Token.isEnd ⟨kind, span⟩ = false) (htrivia : Token.isTrivia ⟨kind, span⟩ = false) :
    Locates span (placed kind) (⟨kind, span⟩ :: ts) ts :=
  locates_token hend htrivia ⟨span, rfl⟩

theorem locates_mark {s : Symbol} {span : Span} :
    Locates span (placedMark s) (⟨.symbol s, span⟩ :: ts) ts :=
  locates_placed (.symbol s) span rfl rfl

theorem locates_keyword {k : Keyword} {span : Span} :
    Locates span (placedKeyword k) (⟨.keyword k, span⟩ :: ts) ts :=
  locates_placed (.keyword k) span rfl rfl

/-- A mark that was asked for stands behind line breaks. -/
theorem locates_expectSymbol {s : Symbol} {span : Span}
    (h : expectSymbol s ts = .ok (span, rest)) : Locates span (placedMark s) ts rest :=
  .of_skipTrivia_eq (skipTrivia_of_expectSymbol h) locates_mark

theorem locates_expectKeyword {k : Keyword} {span : Span}
    (h : expectKeyword k ts = .ok (span, rest)) : Locates span (placedKeyword k) ts rest :=
  .of_skipTrivia_eq (skipTrivia_of_expectKeyword h) locates_keyword

section

variable {α : Type} {round : Rule (Option α)} {as : List α} {f : α → Language Token}
  {place : α → Span}

/-- The words of the rounds, one behind the other. -/
theorem Rounds.finds (hround : ∀ {ts a rest}, round ts = .ok (some a, rest) → Finds (f a) ts rest)
    (h : Rounds round ts as rest) : Finds (as.map f).prod ts rest := by
  induction h with
  | nil => exact .refl _
  | cons head tail ih => exact (hround head).mul ih

/-- Rounds that follow a word carry its place on, each to its own end. -/
theorem Rounds.locates
    (hround : ∀ {ts a rest}, round ts = .ok (some a, rest) →
      ∃ first : Span, Locates (first.join (place a)) (f a) ts rest)
    (h : Rounds round mid as rest) (hhead : Locates a L ts mid) :
    Locates (as.foldl (fun s m => s.join (place m)) a) (L * (as.map f).prod) ts rest := by
  induction h generalizing L a with
  | nil => simpa using hhead
  | cons head tail ih =>
    obtain ⟨first, hfirst⟩ := hround head
    rw [List.foldl_cons, List.map_cons, List.prod_cons, ← mul_assoc]
    have hround := hhead.mul hfirst
    exact ih hround

/-- Only the end of the last place counts. -/
theorem foldl_join_of_getLast? {last : α} (h : as.getLast? = some last) (a : Span) :
    as.foldl (fun s m => s.join (place m)) a = a.join (place last) := by
  have hstart : ∀ (as : List α) (a : Span),
      (as.foldl (fun s m => s.join (place m)) a).start = a.start := by
    intro as
    induction as with
    | nil => exact fun a => rfl
    | cons m as ih => exact fun a => ih (a.join (place m))
  obtain ⟨front, rfl⟩ := List.getLast?_eq_some_iff.mp h
  rw [List.foldl_append, List.foldl_cons, List.foldl_nil, Span.join, hstart]
  rfl

end

variable {operand : Context → Rule Operand}
  (hop : ∀ ⦃ctx ts o rest⦄, operand ctx ts = .ok (o, rest) → Locates o.span o.standing ts rest)
include hop

/-! ### Expressions

A chain stands on its operands and operators in order. The tree over it is built by grafting, and
stands on the same word, since operators reach over their two sides. -/

/-- A link stands on its operator and its operand. -/
theorem finds_link {l : Operator × Operand} (h : link operand ts = .ok (some l, rest)) :
    Finds (linkStanding l) ts rest := by
  obtain ⟨operator, o⟩ := l
  obtain ⟨⟨kind, span⟩, us, op, rfl, hop', rfl, ho⟩ := link_eq_some_iff.mp h
  obtain rfl : kind = op.kind := Token.binaryOp?_eq_some_iff.mp hop'
  have hoperator : Locates span {[⟨op.kind, span⟩]} (⟨op.kind, span⟩ :: us) us := by
    cases op <;> exact locates_token rfl rfl rfl
  exact hoperator.finds.mul (hop ho).finds

/-- A tree stands where its chain was read, if its operators reach over their two sides. -/
theorem locates_chain {e : Expr} (he : e.Joined) (hfirst : Finds e.first.standing ts mid)
    (hlinks : Rounds (link operand) mid e.links rest) : Locates e.span e.standing ts rest := by
  have hchain := hfirst.mul (hlinks.finds (finds_link hop))
  obtain ⟨w, hw, hts⟩ := hchain.mono (Expr.chain_le_standing he)
  exact ⟨w, hw, e.ends_of_mem_standing hw, hts⟩

/-- An expression, from its chain. -/
theorem locates_expression {e : Expr} (h : expression operand ts = .ok (e, rest)) :
    Locates e.span e.standing ts rest := by
  obtain ⟨first, mid, hfirst, links, hlinks, rfl⟩ := expression_eq_ok_iff.mp h
  rw [← first_assemble first links] at hfirst
  refine locates_chain hop (joined_assemble first links) (hop hfirst).finds ?_
  rw [links_assemble]
  exact rounds_of_repeated stop_link hlinks

/-- Behind a complete expression there is nothing significant. -/
theorem significant_of_complete {e : Expr} (h : complete operand ts = .ok e) :
    significant ts ∈ e.standing := by
  obtain ⟨rest, he, hend⟩ := complete_eq_ok_iff.mp h
  obtain ⟨w, hw, -, hts⟩ := locates_expression hop he
  rw [hts, significant_of_atEnd hend, List.append_nil]
  exact hw

/-- All tokens of an interpolation are kept with it, trivia included. -/
theorem mem_inside_of_interpolationOf {span : Span} {c : Interpolation}
    (h : interpolationOf operand ts span = .ok c) : ts ∈ c.inside ∧ c.span = span := by
  obtain ⟨body, hbody, rfl⟩ := interpolationOf_eq_ok_iff.mp h
  exact ⟨significant_of_complete hop hbody, rfl⟩

/-! ### Strings and names

A string is one token, with its parts inside. So its place is that of the token, and what has to be
shown is that the parts fit. -/

/-- Each part of the tree stands on one part of the token. -/
theorem ReadsParts.mem_standing {fragments : List StringFragment} {parts : List StringPart}
    (h : ReadsParts operand fragments parts) : fragments ∈ partsStanding parts := by
  induction h with
  | nil => exact Language.nil_mem_one
  | text _ ih => exact Language.append_mem_mul (a := [_]) rfl ih
  | @interpolation tokens _ _ _ _ hc _ ih =>
    obtain ⟨hinside, rfl⟩ := mem_inside_of_interpolationOf hop hc
    exact Language.append_mem_mul (a := [_]) ⟨tokens, hinside, rfl⟩ ih

theorem locates_stringOf {fragments : List StringFragment} {multiline : Bool} {span : Span}
    {s : StringLiteral} (h : stringOf operand fragments multiline span = .ok s) :
    Locates s.span s.standing (⟨.string fragments multiline, span⟩ :: ts) ts := by
  obtain ⟨parts, hparts, rfl⟩ := stringOf_eq_ok_iff.mp h
  refine locates_token rfl rfl ?_
  rw [StringLiteral.standing]
  exact ⟨fragments, hparts.mem_standing hop, rfl⟩

theorem locates_interpolationOf {tokens : List Token} {span : Span} {c : Interpolation}
    (h : interpolationOf operand tokens span = .ok c) :
    Locates c.span (placedAround c.inside c.span) (⟨.interpolation tokens, span⟩ :: ts) ts := by
  obtain ⟨hinside, rfl⟩ := mem_inside_of_interpolationOf hop h
  exact locates_token rfl rfl ⟨tokens, hinside, rfl⟩

theorem ReadsSegment.locates {s : Segment} {span : Span}
    (h : ReadsSegment operand ts s span rest) : Locates span s.standing ts rest := by
  cases h with
  | name => exact locates_placed (.identifier _) span rfl rfl
  | string hl =>
    obtain ⟨parts, -, rfl⟩ := stringOf_eq_ok_iff.mp hl
    exact locates_stringOf hop hl
  | interpolation hc =>
    obtain ⟨body, -, rfl⟩ := interpolationOf_eq_ok_iff.mp hc
    exact locates_interpolationOf hop hc

theorem locates_dottedSegment {m : Segment × Span}
    (h : dottedSegment operand ts = .ok (some m, rest)) :
    ∃ dot : Span, Locates (dot.join m.2) (placedMark .dot * m.1.standing) ts rest := by
  obtain ⟨s, span⟩ := m
  obtain ⟨dot, us, rfl, hs⟩ := dottedSegment_eq_some_iff.mp h
  exact ⟨dot, locates_mark.mul (hs.locates hop)⟩

/-- A path stands on its first name and on a dot and a name for each other. -/
theorem locates_attrPath {p : AttrPath} (h : attrPath operand ts = .ok (p, rest)) :
    Locates p.span p.standing ts rest := by
  obtain ⟨first, start, mid, hfirst, more, hmore, rfl⟩ := attrPath_eq_ok_iff.mp h
  have hrounds := rounds_of_repeated stop_dottedSegment hmore
  have hpath := hrounds.locates (locates_dottedSegment hop) (hfirst.locates hop)
  rw [AttrPath.standing, dottedStanding_eq, List.map_map]
  exact hpath.spanning

omit hop in
/-- A plain name, as the parameter of a function. -/
theorem locates_plainPath (name : String) (span : Span) (ts : List Token) :
    Locates (AttrPath.span ⟨[.name name], [], span⟩) (AttrPath.standing ⟨[.name name], [], span⟩)
      (⟨.identifier name, span⟩ :: ts) ts := by
  rw [AttrPath.standing, dottedStanding, mul_one, Segment.standing]
  exact (locates_placed (.identifier name) span rfl rfl).spanning

/-! ### Bindings

The place of an inheritance begins with its keyword and that of an assignment with its name, and
both end with a semicolon. Comments are attached later and have no place in this. -/

/-- The source stands on its parentheses and what is in them, or on nothing. -/
theorem finds_inheritSource {source : Option Expr} {cs : List Comment}
    (h : inheritSource operand ts = .ok ((source, cs), rest)) :
    Finds (sourceStanding source) ts rest := by
  rcases inheritSource_eq_ok_iff.mp h with
    ⟨start, us, e, mid, stop, hstart, he, hstop, rfl, -⟩ | ⟨-, rfl, -, rfl⟩
  · rw [sourceStanding]
    exact .of_skipTrivia_eq hstart (locates_mark.mul
      ((locates_expression hop he).mul (locates_expectSymbol hstop))).finds
  · rw [sourceStanding]
    exact .refl _

theorem finds_inheritedName {p : AttrPath}
    (h : inheritedName operand ts = .ok (some p, rest)) : Finds p.standing ts rest := by
  obtain ⟨-, -, name, hname, rfl⟩ := inheritedName_eq_some_iff.mp h
  have hstanding : ({ name with comments := commentsAhead ts } : AttrPath).standing =
      name.standing := by
    obtain ⟨_ | ⟨s, ss⟩, cs, span⟩ := name <;> simp [AttrPath.standing]
  rw [hstanding]
  exact .of_skipTrivia (locates_attrPath hop hname).finds

theorem locates_inheritance {comments : List Comment} {start : Span} {b : Binding}
    (h : inheritance operand comments start ts = .ok (b, rest)) :
    Locates b.span b.standing (⟨.keyword .inherit, start⟩ :: ts) rest := by
  obtain ⟨source, more, ts₁, hsource, names, ts₂, hnames, stop, hstop, rfl⟩ :=
    inheritance_eq_ok_iff.mp h
  have hrounds := rounds_of_repeated stop_inheritedName hnames
  have hinside := (finds_inheritSource hop hsource).mul (hrounds.finds (finds_inheritedName hop))
  rw [Binding.standing, pathsStanding_eq]
  exact (locates_keyword.enclose hinside (.of_skipTrivia (locates_expectSymbol hstop))).spanning

theorem locates_assignment {comments : List Comment} {b : Binding}
    (h : assignment operand comments ts = .ok (b, rest)) :
    Locates b.span b.standing ts rest := by
  obtain ⟨name, ts₁, hname, eq, ts₂, heq, value, ts₃, hvalue, stop, hstop, rfl⟩ :=
    assignment_eq_ok_iff.mp h
  have heq := Locates.of_skipTrivia (locates_expectSymbol heq)
  have hvalue := (locates_expression hop hvalue).mul (locates_expectSymbol hstop)
  rw [Binding.standing]
  exact ((locates_attrPath hop hname).mul (heq.mul hvalue)).spanning

theorem locates_bindingUnless {closed : List Token → Bool} {b : Binding}
    (h : bindingUnless operand closed ts = .ok (some b, rest)) :
    Locates b.span b.standing ts rest := by
  rcases binding_eq_ok_iff.mp (bindingUnless_eq_some_iff.mp h).2.2 with
    ⟨start, us, hstart, hb⟩ | ⟨-, hb⟩
  · exact .of_skipTrivia_eq hstart (locates_inheritance hop hb)
  · exact .of_skipTrivia (locates_assignment hop hb)

/-- Bindings stand on the same words when comments were given to the last of them. -/
theorem finds_bindings {closed : List Token → Bool} {bs : List Binding} (more : List Comment)
    (h : repeated (bindingUnless operand closed) ts = .ok (bs, rest)) :
    Finds (bindingsStanding (attachToLast more bs).1) ts rest := by
  have hrounds := rounds_of_repeated stop_bindingUnless h
  have hmap := map_attachToLast (f := Binding.standing)
    (fun b _ => by cases b <;> simp [Binding.addComments, Binding.standing]) more bs
  rw [bindingsStanding_eq, hmap]
  exact hrounds.finds fun hb => (locates_bindingUnless hop hb).finds

/-- A set that is not recursive stands on its braces and what is between them. -/
theorem locates_attrSet {brace : Span} {t : Term}
    (h : attrSet operand false brace ts = .ok (t, rest)) :
    Locates t.span t.standing (⟨.symbol .openBrace, brace⟩ :: ts) rest := by
  obtain ⟨bs, mid, hbs, stop, hstop, rfl⟩ := attrSet_eq_ok_iff.mp h
  have hclose := Locates.of_skipTrivia (locates_expectSymbol hstop)
  rw [Term.standing, if_neg Bool.false_ne_true, one_mul]
  exact (locates_mark.enclose (finds_bindings hop _ hbs) hclose).spanning

/-- A recursive one has its keyword in front of them. -/
theorem locates_recursive {start brace : Span} {t : Term}
    (hbrace : expectSymbol .openBrace ts = .ok (brace, mid))
    (h : attrSet operand true start mid = .ok (t, rest)) :
    Locates t.span t.standing (⟨.keyword .rec_, start⟩ :: ts) rest := by
  obtain ⟨bs, mid', hbs, stop, hstop, rfl⟩ := attrSet_eq_ok_iff.mp h
  have hclose := Locates.of_skipTrivia (locates_expectSymbol hstop)
  have hbindings := finds_bindings hop (commentsAhead mid') hbs
  have hbraces := (locates_expectSymbol hbrace).enclose hbindings hclose
  rw [Term.standing, if_pos rfl]
  exact (locates_keyword.mul hbraces).spanning

/-- From the keyword up to the end of the body. -/
theorem locates_letIn {start : Span} {t : Term} (h : letIn operand start ts = .ok (t, rest)) :
    Locates t.span t.standing (⟨.keyword .let_, start⟩ :: ts) rest := by
  obtain ⟨bs, ts₁, hbs, stop, ts₂, hstop, body, hbody, rfl⟩ := letIn_eq_ok_iff.mp h
  have hbody := (Locates.of_skipTrivia (locates_expectKeyword hstop)).mul
    (locates_expression hop hbody)
  rw [Term.standing]
  exact (locates_keyword.enclose (finds_bindings hop _ hbs) hbody).spanning

/-! ### Functions

A pattern is three rules, one behind the other, and its place is that of the braces and of the name.
Whether the name is in front or behind decides which end it is. -/

theorem locates_formal {comments : List Comment} {f : Formal}
    (h : formal operand comments ts = .ok (f, rest)) : Locates f.span f.standing ts rest := by
  obtain ⟨name, mid, hname, ⟨start, us, e, hstart, he, rfl⟩ | ⟨-, rfl, rfl⟩⟩ :=
    formal_eq_ok_iff.mp h
  · have hfallback := Locates.of_skipTrivia_eq hstart
      (locates_mark.mul (locates_expression hop he))
    rw [Formal.standing, fallbackStanding]
    exact ((locates_attrPath hop hname).mul hfallback).spanning
  · rw [Formal.standing, fallbackStanding, mul_one]
    exact (locates_attrPath hop hname).spanning.skipTrivia_right

/-- What is between the braces, along the attributes. A comma may stand behind the last. -/
theorem ReadsPattern.finds {body : PatternBody} (h : ReadsPattern operand ts body rest) :
    Finds (formalsStanding body.variadic body.formals) ts rest := by
  induction h with
  | closed =>
    rw [formalsStanding, if_neg Bool.false_ne_true]
    exact (Finds.refl _).skipTrivia_right
  | variadic next =>
    rw [formalsStanding, if_pos rfl]
    exact .of_skipTrivia_eq next locates_mark.finds.skipTrivia_right
  | comma head tail ih =>
    rw [formalsStanding]
    exact (Finds.of_skipTrivia (locates_formal hop head).finds).mul
      ((locates_mark.finds.mul ih).mono le_self_add)
  | last head =>
    rw [formalsStanding]
    exact (Finds.of_skipTrivia (locates_formal hop head).finds).mul
      ((Finds.refl _).mono le_add_self)

/-- A pattern from its opening brace to its closing brace. -/
theorem locates_braces {body : PatternBody} (start : Span) {stop : Span}
    (hbody : patternBody operand ts = .ok (body, mid))
    (hstop : expectSymbol .closeBrace mid = .ok (stop, rest)) :
    Locates (start.join stop)
      (placedMark .openBrace *
        (formalsStanding body.variadic body.formals * placedMark .closeBrace))
      (⟨.symbol .openBrace, start⟩ :: ts) rest :=
  locates_mark.enclose ((readsPattern_of_patternBodyUpTo hbody).finds hop)
    (locates_expectSymbol hstop)

/-- A pattern with a name behind it, or with none. -/
theorem locates_pattern {start : Span} {t : Term}
    (h : patternLambda operand none start ts = .ok (t, rest)) :
    Locates t.span t.standing (⟨.symbol .openBrace, start⟩ :: ts) rest := by
  obtain ⟨body, ts₁, hbody, stop, ts₂, hstop, whole, span, more, ts₃, hend, colon, ts₄, hcolon,
    result, hresult, rfl⟩ := patternLambda_eq_ok_iff.mp h
  have hbraces := locates_braces hop start hbody hstop
  have hresult := (locates_expectSymbol hcolon).mul (locates_expression hop hresult)
  obtain ⟨hwhole, rfl⟩ := patternEnd_none_eq_ok_iff.mp hend
  rw [Term.standing]
  rcases patternName_eq_ok_iff.mp hwhole with
    ⟨at_, us, name, mid, hat, hname, rfl, -, rfl⟩ | ⟨-, rfl, -, rfl⟩
  · have hname := Locates.of_skipTrivia_eq hat
      (locates_mark.mul (Locates.of_skipTrivia (locates_attrPath hop hname)).skipTrivia_right)
    rw [Parameter.standing]
    exact ((hbraces.mul hname).right.spanning.mul hresult).spanning
  · rw [Parameter.standing]
    exact (hbraces.spanning.skipTrivia_right.mul hresult).spanning

/-- A pattern with a name in front of it. -/
theorem locates_namedPattern {name : String} {span atSign start : Span} {t : Term}
    (h : patternLambda operand (some ⟨[.name name], [], span⟩) start ts = .ok (t, rest)) :
    Locates t.span t.standing (⟨.identifier name, span⟩ :: ⟨.symbol .atSign, atSign⟩ ::
      ⟨.symbol .openBrace, start⟩ :: ts) rest := by
  obtain ⟨body, ts₁, hbody, stop, ts₂, hstop, whole, whole_span, more, ts₃, hend, colon, ts₄,
    hcolon, result, hresult, rfl⟩ := patternLambda_eq_ok_iff.mp h
  obtain ⟨⟨rfl, rfl, -⟩, rfl⟩ := by simpa using hend
  have hbraces := locates_braces hop start hbody hstop
  have hresult := (locates_expectSymbol hcolon).mul (locates_expression hop hresult)
  have hname := locates_plainPath name span
    (⟨.symbol .atSign, atSign⟩ :: ⟨.symbol .openBrace, start⟩ :: ts)
  rw [Term.standing, Parameter.standing]
  exact ((hname.mul (locates_mark.mul hbraces)).left.spanning.mul (.of_skipTrivia hresult)).spanning

/-! ### Terms and operands

Each form in brackets runs from the opening one to the closing one. Those that end with an operand
end where it does. -/

theorem locates_list {start : Span} {t : Term} (h : list operand start ts = .ok (t, rest)) :
    Locates t.span t.standing (⟨.symbol .openBracket, start⟩ :: ts) rest := by
  obtain ⟨items, mid, hitems, stop, hstop, rfl⟩ := list_eq_ok_iff.mp h
  have hrounds := rounds_of_repeated stop_item hitems
  have hinside := hrounds.finds fun ho => (hop (item_eq_some_iff.mp ho).2.2).finds
  have hmap := map_passOnComments (f := Operand.standing)
    (fun o _ _ => by cases o; simp [Operand.standing]) [] items
  rw [Term.standing, exprsStanding_map_operand, hmap]
  exact (locates_mark.enclose hinside (.of_skipTrivia (locates_expectSymbol hstop))).spanning

theorem locates_paren {start : Span} {t : Term} (h : paren operand start ts = .ok (t, rest)) :
    Locates t.span t.standing (⟨.symbol .openParen, start⟩ :: ts) rest := by
  obtain ⟨body, mid, hbody, stop, hstop, rfl⟩ := paren_eq_ok_iff.mp h
  rw [Term.standing]
  have hinside := (locates_expression hop hbody).mul (locates_expectSymbol hstop)
  exact (locates_mark.mul hinside).spanning

theorem locates_conditional {start : Span} {t : Term}
    (h : conditional operand start ts = .ok (t, rest)) :
    Locates t.span t.standing (⟨.keyword .if_, start⟩ :: ts) rest := by
  obtain ⟨condition, ts₁, hc, s₁, ts₂, hthen, consequence, ts₃, ha, s₂, ts₄, helse, alternative,
    hb, rfl⟩ := conditional_eq_ok_iff.mp h
  have helse := (locates_expectKeyword helse).mul (locates_expression hop hb)
  have hthen := (locates_expectKeyword hthen).mul ((locates_expression hop ha).mul helse)
  rw [Term.standing]
  exact (locates_keyword.mul ((locates_expression hop hc).mul hthen)).spanning

theorem locates_importOf {start : Span} {t : Term}
    (h : importOf operand start ts = .ok (t, rest)) :
    Locates t.span t.standing (⟨.keyword .import_, start⟩ :: ts) rest := by
  obtain ⟨source, hsource, rfl⟩ := importOf_eq_ok_iff.mp h
  rw [Term.standing, Expr.standing]
  exact (locates_keyword.mul (hop hsource)).spanning

theorem locates_unary {ctx : Context} {op : UnaryOp} {start : Span} {t : Term}
    (h : unary operand ctx op start ts = .ok (t, rest)) :
    Locates t.span t.standing (⟨.symbol op.mark, start⟩ :: ts) rest := by
  obtain ⟨o, ho, rfl⟩ := unary_eq_ok_iff.mp h
  rw [Term.standing, Expr.standing]
  exact (locates_mark.mul (hop ho)).spanning

/-- A term stands on its tokens, by its form. -/
theorem ReadsTerm.locates {ctx : Context} {t : Term} (h : ReadsTerm operand ctx ts t rest) :
    Locates t.span t.standing ts rest := by
  cases h with
  | null => exact (locates_placed .null _ rfl rfl).spanning
  | bool => exact (locates_placed (.bool _) _ rfl rfl).spanning
  | int => exact (locates_placed (.int _) _ rfl rfl).left.spanning
  | float => exact (locates_placed (.float _) _ rfl rfl).left.spanning
  | @negativeInt value start stop =>
    have hvalue : Locates stop (placed (.int value)) (⟨.int value, stop⟩ :: rest) rest :=
      locates_placed (.int value) stop rfl rfl
    rw [Term.standing, Int64.neg_neg]
    exact (locates_mark.mul hvalue).right.spanning
  | @negativeFloat value start stop =>
    have hvalue : Locates stop (placedNegation (-value)) (⟨.float value, stop⟩ :: rest) rest :=
      locates_token rfl rfl ⟨value, stop, rfl, rfl⟩
    rw [Term.standing]
    exact (locates_mark.mul hvalue).right.spanning
  | path => exact (locates_placed (.path _) _ rfl rfl).spanning
  | string hl => exact locates_stringOf hop hl
  | interpolation hc => exact locates_interpolationOf hop hc
  | name _ _ hp => exact locates_attrPath hop hp
  | list h => exact locates_list hop h
  | attrSet _ h => exact locates_attrSet hop h
  | recursive hbrace h => exact locates_recursive hop hbrace h
  | @lambda name span colon ts rest t h =>
    obtain ⟨body, hbody, rfl⟩ := lambda_eq_ok_iff.mp h
    have hname := locates_plainPath name span (⟨.symbol .colon, colon⟩ :: ts)
    rw [Term.standing, Parameter.standing]
    exact (hname.mul (locates_mark.mul (locates_expression hop hbody))).spanning
  | pattern _ h => exact locates_pattern hop h
  | namedPattern _ h => exact locates_namedPattern hop h
  | letIn h => exact locates_letIn hop h
  | import_ h => exact locates_importOf hop h
  | conditional h => exact locates_conditional hop h
  | not h => exact locates_unary hop h
  | negate _ _ h => exact locates_unary hop h
  | paren h => exact locates_paren hop h

/-- Arguments carry the place of their function on to the end of the last of them. -/
theorem locates_withArguments {ctx : Context} {head t : Term}
    (hhead : Locates head.span head.standing ts mid)
    (h : withArguments operand ctx head mid = .ok (t, rest)) :
    Locates t.span t.standing ts rest := by
  rw [withArguments] at h
  split at h
  · obtain ⟨arguments, harguments, ⟨rfl, rfl⟩ | ⟨last, hlast, rfl⟩⟩ := applied_eq_ok_iff.mp h
    · cases rounds_of_repeated stop_argument harguments
      exact hhead
    · have hrounds := rounds_of_repeated stop_argument harguments
      have hargument : ∀ {us o vs}, argument operand us = .ok (some o, vs) →
          ∃ first : Span, Locates (first.join o.span) o.standing us vs := fun {_ o _} ho => by
        obtain ⟨-, -, -, -, ho⟩ := argument_eq_some_iff.mp ho
        exact ⟨o.span, hop ho⟩
      have hcall := hrounds.locates hargument hhead
      rw [foldl_join_of_getLast? hlast] at hcall
      rw [Term.standing, exprsStanding_map_operand]
      exact hcall.spanning
  · obtain ⟨rfl, rfl⟩ := by simpa using h
    exact hhead

/-- A clause begins with its keyword and ends with its semicolon. -/
theorem locates_clause {c : List Comment × Modifier}
    (h : clause operand ts = .ok (some c, rest)) : Locates c.2.span c.2.standing ts rest := by
  obtain ⟨cs, m⟩ := c
  obtain ⟨k, start, us, kind, hstart, hkind, subject, mid, he, stop, hstop, -, rfl⟩ :=
    clause_eq_some_iff.mp h
  obtain rfl := clauseKind?_eq_some_iff.mp hkind
  have hsubject := (locates_expression hop he).mul (locates_expectSymbol hstop)
  rw [Modifier.standing]
  exact .of_skipTrivia_eq hstart (locates_keyword.mul hsubject).spanning

/-- An operand begins with its first clause, if it has one. -/
theorem Rounds.locates_clauses {clauses : List (List Comment × Modifier)} {t : Term}
    (h : Rounds (clause operand) ts clauses mid) (hterm : Locates t.span L mid rest) :
    Locates (operandSpan (clauses.map (·.2)) t)
      (modifiersStanding (clauses.map (·.2)) * L) ts rest := by
  induction h with
  | nil => simpa [modifiersStanding, operandSpan] using hterm
  | @cons ts mid rest c clauses head tail ih =>
    have hall := (locates_clause hop head).mul (ih hterm)
    have hspan : c.2.span.join (operandSpan (clauses.map (·.2)) t) = c.2.span.join t.span := by
      cases clauses <;> rfl
    rw [List.map_cons, modifiersStanding, mul_assoc]
    rwa [hspan] at hall

/-- **An operand stands where it was read, if the operands inside it do.** -/
theorem locates_operandWith {ctx : Context} {o : Operand}
    (h : operandWith operand ctx ts = .ok (o, rest)) : Locates o.span o.standing ts rest := by
  obtain ⟨clauses, ts₁, hclauses, head, ts₂, hhead, t, ts₃, ht, rfl, rfl⟩ :=
    operandWith_eq_ok_iff.mp h
  have hrounds := rounds_of_repeated stop_clause hclauses
  have hterm := locates_withArguments hop ((termIn_eq_ok_iff.mp hhead).locates hop) ht
  rw [Operand.standing]
  exact (hrounds.locates_clauses hop (.of_skipTrivia hterm)).spanning.skipTrivia_right

omit hop in
/-- By induction on the bound. -/
theorem locates_operandUpTo (n : Nat) {ctx : Context} {o : Operand}
    (h : operandUpTo n ctx ts = .ok (o, rest)) : Locates o.span o.standing ts rest := by
  induction n generalizing ctx ts o rest with
  | zero => simp [operandUpTo] at h
  | succ n ih => exact locates_operandWith (fun _ _ _ _ h => ih h) h

end Grammar

namespace Program

variable {ts : List Token} {p : Program}

/-- **Every node stands exactly where its tokens do.** The significant tokens of a program are a
word on which its tree stands, node by node: the place of each node, of each operator and of the
whole program runs from the beginning of the first of its tokens to the end of the last. And every
operator expression reaches from the beginning of its left side to the end of its right side. -/
theorem significant_mem_standing (h : ofTokens ts = .ok p) :
    significant ts ∈ p.body.standing ∧ Ends (significant ts) p.span ∧
      ∀ operator left right span, .expr (.binary operator left right span) ∈ p.body.nodes →
        span = left.span.join right.span := by
  have hmem := Grammar.significant_of_complete
    (fun _ _ _ _ => Grammar.locates_operandUpTo _) (complete_of_ofTokens h)
  refine ⟨hmem, ?_, fun operator left right span hbinary => ?_⟩
  · obtain ⟨body, -, rfl⟩ := ofTokens_eq_ok_iff.mp h
    exact body.ends_of_mem_standing hmem
  · obtain ⟨chain, hchain, hside⟩ := Expr.mem_sides_of_mem_nodes p.body hbinary
    have hjoined : chain.Joined := by
      rw [← assembled_of_mem_chains h hchain]
      exact Grammar.joined_assemble _ _
    exact (Expr.joined_of_mem_sides hjoined hside).1

/-- The tokens of `a + b` between comments, at places in no order. -/
def scatteredTokens : List Token :=
  [⟨.comment "front" true, onFirstLine 20 29⟩, ⟨.identifier "a", onFirstLine 7 8⟩,
    ⟨.newline, onFirstLine 3 4⟩, ⟨.symbol .plus, onFirstLine 11 12⟩,
    ⟨.identifier "b", onFirstLine 0 1⟩, ⟨.comment "behind" false, onFirstLine 40 48⟩,
    ⟨.endOfInput, onFirstLine 5 5⟩]

/-- The tokens are in no order, and the place of the program is made of the first one and the
last. -/
theorem significant_mem_standing_scatteredTokens :
    ∃ p, ofTokens scatteredTokens = .ok p ∧ p.span = onFirstLine 7 1 ∧
      significant scatteredTokens ∈ p.body.standing ∧ Ends (significant scatteredTokens) p.span ∧
      ∀ operator left right span, .expr (.binary operator left right span) ∈ p.body.nodes →
        span = left.span.join right.span :=
  ⟨_, rfl, rfl, @significant_mem_standing scatteredTokens _ rfl⟩

end Program

end NixSyntax
