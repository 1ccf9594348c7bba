import NixSyntax.Proofs.Reading.Depth
import NixSyntax.Proofs.Spelling.Yield
import NixSyntax.Proofs.Tree.Moves

/-!
# A tree spells the tokens it was read from

No rule drops a word or a mark, makes one up, reads one twice or puts two in another order. So the
tokens in front of the end of input, bare, are a spelling of the tree.

A rule is given some tokens and leaves some. What it has read are the bare tokens that the first
list has in front of the second, and they have to be a spelling of the piece of tree
(`Spells`). Rules one behind the other multiply the languages (`Spells.mul`), and looking past line
breaks and comments changes nothing (`Spells.of_skipTrivia`). Many rules start behind the token that
tells the form. Their lemmas put this token back.

## Along the grammar

There is one lemma for each rule, and each has the same shape. The equation of the rule says what it
read, part by part. The language of the piece of tree is a product in the same order, and the lemmas
for the parts are multiplied in that order. Where the tree leaves a choice its language is a sum,
and the proof names the summand (`Spells.left`, `Spells.right`).

That comments were moved from one node to another does not show in a spelling, since it has no
comments. So lists and bindings are spelled as if none had been moved (`map_passOnComments`,
`map_attachToLast`).

A whole program is special only in that nothing is left. Its rest is at the end of input, which is
bare nothing, so all the tokens are the word (`bare_mem_of_complete`).

## Main definitions

* `Spells L ts rest`: a word of `L` stands in `ts` in front of `rest`

## Main results

* `spells_operandWith`: from the operands inside to the operand around them
* `Program.bare_mem_yield`: the tokens of a program are a spelling of its tree
-/

namespace NixSyntax

namespace Grammar

/-- A word of the language stands in front of `rest`, when the tokens are bare. -/
def Spells (L : Language Token) (ts rest : List Token) : Prop :=
  ∃ w ∈ L, bare ts = w ++ bare rest

variable {L M : Language Token} {ts mid rest : List Token}

namespace Spells

/-! ### Words in front of other tokens

How the words of two rules make one, and why trivia can be passed over on either side. -/

theorem refl (ts : List Token) : Spells 1 ts ts := ⟨[], Language.nil_mem_one, rfl⟩

/-- Of two rules one behind the other, the words are one behind the other. -/
theorem mul (h : Spells L ts mid) (h' : Spells M mid rest) : Spells (L * M) ts rest := by
  obtain ⟨w, hw, hts⟩ := h
  obtain ⟨v, hv, hmid⟩ := h'
  exact ⟨w ++ v, Language.append_mem_mul hw hv, by rw [hts, hmid, List.append_assoc]⟩

theorem left (h : Spells L ts rest) : Spells (L + M) ts rest := by
  obtain ⟨w, hw, hts⟩ := h
  exact ⟨w, .inl hw, hts⟩

theorem right (h : Spells M ts rest) : Spells (L + M) ts rest := by
  obtain ⟨w, hw, hts⟩ := h
  exact ⟨w, .inr hw, hts⟩

/-- Trivia in front of a word does not show. -/
theorem of_skipTrivia (h : Spells L (skipTrivia ts) rest) : Spells L ts rest := by
  rwa [Spells, bare_skipTrivia] at h

theorem skipTrivia_right (h : Spells L ts rest) : Spells L ts (skipTrivia rest) := by
  rwa [Spells, bare_skipTrivia]

/-- Tokens that follow trivia, with a word in front of what follows them. -/
theorem of_skipTrivia_eq (h : skipTrivia ts = mid) (h' : Spells L mid rest) : Spells L ts rest :=
  of_skipTrivia (h ▸ h')

end Spells

/-! ### One token -/

/-- A token that is neither trivia nor the end of input is a word of its own. -/
theorem spells_lit (kind : TokenKind) (span : Span) (hend : Token.isEnd ⟨kind, span⟩ = false)
    (htrivia : Token.isTrivia ⟨kind, span⟩ = false) :
    Spells (lit kind.bare) (⟨kind, span⟩ :: ts) ts :=
  ⟨[⟨kind.bare, default⟩], rfl, bare_cons ts hend htrivia⟩

theorem spells_mark {s : Symbol} {span : Span} : Spells (mark s) (⟨.symbol s, span⟩ :: ts) ts :=
  spells_lit (.symbol s) span rfl rfl

theorem spells_keyword {k : Keyword} {span : Span} :
    Spells (keyword k) (⟨.keyword k, span⟩ :: ts) ts :=
  spells_lit (.keyword k) span rfl rfl

/-- The token of an operator. -/
theorem spells_operator {op : BinaryOp} {span : Span} :
    Spells (lit op.kind) (⟨op.kind, span⟩ :: ts) ts := by
  cases op <;> first | exact spells_mark | exact spells_keyword

/-- A mark that was required, with the line breaks in front of it. -/
theorem spells_expectSymbol {s : Symbol} {span : Span}
    (h : expectSymbol s ts = .ok (span, rest)) : Spells (mark s) ts rest :=
  .of_skipTrivia_eq (skipTrivia_of_expectSymbol h) spells_mark

theorem spells_expectKeyword {k : Keyword} {span : Span}
    (h : expectKeyword k ts = .ok (span, rest)) : Spells (keyword k) ts rest :=
  .of_skipTrivia_eq (skipTrivia_of_expectKeyword h) spells_keyword

/-- Rounds spell the product of what each of them spells. -/
theorem Rounds.spells {α : Type} {round : Rule (Option α)} {as : List α} {f : α → Language Token}
    (hround : ∀ {ts a rest}, round ts = .ok (some a, rest) → Spells (f a) ts rest)
    (h : Rounds round ts as rest) : Spells (as.map f).prod ts rest := by
  induction h with
  | nil => exact .refl _
  | cons head tail ih => exact (hround head).mul ih

variable {operand : Context → Rule Operand}
  (hop : ∀ ⦃ctx ts o rest⦄, operand ctx ts = .ok (o, rest) → Spells o.yield ts rest)
include hop

/-! ### Expressions

Here and below, `hop` says that the operands inside spell what they were read from. -/

theorem spells_link {l : Operator × Operand} (h : link operand ts = .ok (some l, rest)) :
    Spells (linkYield l) ts rest := by
  obtain ⟨operator, o⟩ := l
  obtain ⟨⟨kind, span⟩, us, op, rfl, hop', rfl, ho⟩ := link_eq_some_iff.mp h
  obtain rfl : kind = op.kind := Token.binaryOp?_eq_some_iff.mp hop'
  exact spells_operator.mul (hop ho)

/-- An operator tree spells its chain, so it does not matter into which tree the chain was put. -/
theorem spells_expression {e : Expr} (h : expression operand ts = .ok (e, rest)) :
    Spells e.yield ts rest := by
  obtain ⟨first, mid, hfirst, links, hlinks, rfl⟩ := expression_eq_ok_iff.mp h
  have hrounds := rounds_of_repeated stop_link hlinks
  rw [Expr.yield_eq_chain, first_assemble, links_assemble]
  exact (hop hfirst).mul (hrounds.spells (spells_link hop))

/-- All tokens of an expression that is read to the end are one word. -/
theorem bare_mem_of_complete {e : Expr} (h : complete operand ts = .ok e) : bare ts ∈ e.yield := by
  obtain ⟨rest, he, hend⟩ := complete_eq_ok_iff.mp h
  obtain ⟨w, hw, hts⟩ := spells_expression hop he
  rw [hts, bare_of_atEnd hend, List.append_nil]
  exact hw

theorem bare_mem_of_interpolationOf {span : Span} {c : Interpolation}
    (h : interpolationOf operand ts span = .ok c) : bare ts ∈ c.yield := by
  obtain ⟨body, hbody, rfl⟩ := interpolationOf_eq_ok_iff.mp h
  exact bare_mem_of_complete hop hbody

/-! ### Strings and names

A string is one token with lists of tokens inside, and each of these is read to its end. -/

/-- The parts of a string, by induction on them. -/
theorem ReadsParts.bareFragments_mem {fragments : List StringFragment} {parts : List StringPart}
    (h : ReadsParts operand fragments parts) : bareFragments fragments ∈ partsYield parts := by
  induction h with
  | nil =>
    rw [bareFragments_nil, partsYield]
    exact Language.nil_mem_one
  | text _ ih =>
    rw [bareFragments_cons, partsYield]
    exact Language.append_mem_mul (a := [_]) rfl ih
  | interpolation hc _ ih =>
    rw [bareFragments_cons, partsYield]
    exact Language.append_mem_mul (a := [_]) ⟨_, bare_mem_of_interpolationOf hop hc, rfl⟩ ih

theorem spells_stringOf {fragments : List StringFragment} {multiline : Bool} {span : Span}
    {s : StringLiteral} (h : stringOf operand fragments multiline span = .ok s) :
    Spells s.yield (⟨.string fragments multiline, span⟩ :: ts) ts := by
  obtain ⟨parts, hparts, rfl⟩ := stringOf_eq_ok_iff.mp h
  obtain ⟨w, rfl, hts⟩ := spells_lit (.string fragments multiline) span rfl rfl
  exact ⟨_, ⟨_, hparts.bareFragments_mem hop, rfl⟩, hts⟩

/-- An interpolation is one token. -/
theorem spells_interpolationOf {tokens : List Token} {span : Span} {c : Interpolation}
    (h : interpolationOf operand tokens span = .ok c) :
    Spells (interpolated c.yield) (⟨.interpolation tokens, span⟩ :: ts) ts := by
  obtain ⟨w, rfl, hts⟩ := spells_lit (.interpolation tokens) span rfl rfl
  exact ⟨_, ⟨_, bare_mem_of_interpolationOf hop h, rfl⟩, hts⟩

theorem ReadsSegment.spells {s : Segment} {span : Span}
    (h : ReadsSegment operand ts s span rest) : Spells s.yield ts rest := by
  cases h with
  | name => exact spells_lit (.identifier _) _ rfl rfl
  | string hl => exact spells_stringOf hop hl
  | interpolation hc => exact spells_interpolationOf hop hc

theorem spells_dottedSegment {m : Segment × Span}
    (h : dottedSegment operand ts = .ok (some m, rest)) :
    Spells (mark .dot * m.1.yield) ts rest := by
  obtain ⟨s, span⟩ := m
  obtain ⟨dot, us, rfl, hs⟩ := dottedSegment_eq_some_iff.mp h
  exact spells_mark.mul (hs.spells hop)

/-- A name, with its dots. -/
theorem spells_attrPath {p : AttrPath} (h : attrPath operand ts = .ok (p, rest)) :
    Spells p.yield ts rest := by
  obtain ⟨first, start, mid, hfirst, more, hmore, rfl⟩ := attrPath_eq_ok_iff.mp h
  have hrounds := rounds_of_repeated stop_dottedSegment hmore
  have hdotted := hrounds.spells (spells_dottedSegment hop)
  rw [AttrPath.yield, dottedYield_eq, List.map_map]
  exact (hfirst.spells hop).mul hdotted

/-! ### Bindings

The comments of a binding are given to it with the tokens in front, and are no part of its word. -/

theorem spells_inheritSource {source : Option Expr} {cs : List Comment}
    (h : inheritSource operand ts = .ok ((source, cs), rest)) :
    Spells (sourceYield source) ts rest := by
  rcases inheritSource_eq_ok_iff.mp h with
    ⟨start, us, e, mid, stop, hstart, he, hstop, rfl, -⟩ | ⟨-, rfl, -, rfl⟩
  · rw [sourceYield]
    exact .of_skipTrivia_eq hstart
      (spells_mark.mul ((spells_expression hop he).mul (spells_expectSymbol hstop)))
  · rw [sourceYield]
    exact .refl _

theorem spells_inheritedName {p : AttrPath}
    (h : inheritedName operand ts = .ok (some p, rest)) : Spells p.yield ts rest := by
  obtain ⟨-, -, name, hname, rfl⟩ := inheritedName_eq_some_iff.mp h
  -- the comments in front are put into the name
  have hyield : ({ name with comments := commentsAhead ts } : AttrPath).yield = name.yield := by
    obtain ⟨_ | ⟨s, ss⟩, cs, span⟩ := name <;> simp [AttrPath.yield]
  rw [hyield]
  exact .of_skipTrivia (spells_attrPath hop hname)

theorem spells_inheritance {comments : List Comment} {start : Span} {b : Binding}
    (h : inheritance operand comments start ts = .ok (b, rest)) :
    Spells b.yield (⟨.keyword .inherit, start⟩ :: ts) rest := by
  obtain ⟨source, more, ts₁, hsource, names, ts₂, hnames, stop, hstop, rfl⟩ :=
    inheritance_eq_ok_iff.mp h
  have hrounds := rounds_of_repeated stop_inheritedName hnames
  rw [Binding.yield, pathsYield_eq]
  exact spells_keyword.mul ((spells_inheritSource hop hsource).mul
    ((hrounds.spells (spells_inheritedName hop)).mul
      (.of_skipTrivia (spells_expectSymbol hstop))))

theorem spells_assignment {comments : List Comment} {b : Binding}
    (h : assignment operand comments ts = .ok (b, rest)) : Spells b.yield ts rest := by
  obtain ⟨name, ts₁, hname, eq, ts₂, heq, value, ts₃, hvalue, stop, hstop, rfl⟩ :=
    assignment_eq_ok_iff.mp h
  rw [Binding.yield]
  exact (spells_attrPath hop hname).mul ((Spells.of_skipTrivia (spells_expectSymbol heq)).mul
    ((spells_expression hop hvalue).mul (spells_expectSymbol hstop)))

/-- A binding of either kind, behind the gap in front of it. -/
theorem spells_bindingUnless {closed : List Token → Bool} {b : Binding}
    (h : bindingUnless operand closed ts = .ok (some b, rest)) : Spells b.yield ts rest := by
  rcases binding_eq_ok_iff.mp (bindingUnless_eq_some_iff.mp h).2.2 with
    ⟨start, us, hstart, hb⟩ | ⟨-, hb⟩
  · exact .of_skipTrivia_eq hstart (spells_inheritance hop hb)
  · exact .of_skipTrivia (spells_assignment hop hb)

/-- Bindings spell the same when comments were given to the last of them. -/
theorem spells_bindings {closed : List Token → Bool} {bs : List Binding} (more : List Comment)
    (h : repeated (bindingUnless operand closed) ts = .ok (bs, rest)) :
    Spells (bindingsYield (attachToLast more bs).1) ts rest := by
  have hrounds := rounds_of_repeated stop_bindingUnless h
  have hmap := map_attachToLast (f := Binding.yield)
    (fun b _ => by cases b <;> simp [Binding.addComments, Binding.yield]) more bs
  rw [bindingsYield_eq, hmap]
  exact hrounds.spells (spells_bindingUnless hop)

/-- An attribute set has its brace, and its `rec` if it is recursive, in front of what is read. -/
theorem spells_attrSet {recursive : Bool} {start : Span} {t : Term}
    (h : attrSet operand recursive start ts = .ok (t, rest)) :
    ∃ inner, Spells inner ts rest ∧
      t.yield = (if recursive then keyword .rec_ else 1) * (mark .openBrace * inner) := by
  obtain ⟨bs, mid, hbs, stop, hstop, rfl⟩ := attrSet_eq_ok_iff.mp h
  refine ⟨_, (spells_bindings hop (commentsAhead mid) hbs).mul
    (.of_skipTrivia (spells_expectSymbol hstop)), ?_⟩
  rw [Term.yield]

theorem spells_letIn {start : Span} {t : Term} (h : letIn operand start ts = .ok (t, rest)) :
    Spells t.yield (⟨.keyword .let_, start⟩ :: ts) rest := by
  obtain ⟨bs, ts₁, hbs, stop, ts₂, hstop, body, hbody, rfl⟩ := letIn_eq_ok_iff.mp h
  rw [Term.yield]
  exact spells_keyword.mul ((spells_bindings hop (commentsAhead ts₁) hbs).mul
    ((Spells.of_skipTrivia (spells_expectKeyword hstop)).mul (spells_expression hop hbody)))

/-! ### Functions

The commas are where a pattern is open: a last comma may stand in front of the closing brace. The
name of the whole argument is open as well, so there is a lemma for each side it may stand on. -/

theorem spells_formal {comments : List Comment} {f : Formal}
    (h : formal operand comments ts = .ok (f, rest)) : Spells f.yield ts rest := by
  obtain ⟨name, mid, hname, ⟨start, us, e, hstart, he, rfl⟩ | ⟨-, rfl, rfl⟩⟩ :=
    formal_eq_ok_iff.mp h
  · rw [Formal.yield, fallbackYield]
    exact (spells_attrPath hop hname).mul
      (.of_skipTrivia_eq hstart (spells_mark.mul (spells_expression hop he)))
  · rw [Formal.yield, fallbackYield, mul_one]
    exact (spells_attrPath hop hname).skipTrivia_right

/-- The inside of the braces, by induction on the attributes. -/
theorem ReadsPattern.spells {body : PatternBody} (h : ReadsPattern operand ts body rest) :
    Spells (formalsYield body.variadic body.formals) ts rest := by
  induction h with
  | closed =>
    rw [formalsYield, if_neg Bool.false_ne_true]
    exact (Spells.refl _).skipTrivia_right
  | variadic next =>
    rw [formalsYield, if_pos rfl]
    exact .of_skipTrivia_eq next spells_mark.skipTrivia_right
  | comma head tail ih =>
    rw [formalsYield]
    exact (Spells.of_skipTrivia (spells_formal hop head)).mul (spells_mark.mul ih).left
  | last head =>
    rw [formalsYield]
    exact (Spells.of_skipTrivia (spells_formal hop head)).mul (.right (.refl _))

/-- A pattern from its opening brace to its closing brace. -/
theorem spells_braces {body : PatternBody} {stop : Span} (brace : Span)
    (hbody : patternBody operand ts = .ok (body, mid))
    (hstop : expectSymbol .closeBrace mid = .ok (stop, rest)) :
    Spells (mark .openBrace * (formalsYield body.variadic body.formals * mark .closeBrace))
      (⟨.symbol .openBrace, brace⟩ :: ts) rest :=
  spells_mark.mul
    (((readsPattern_of_patternBodyUpTo hbody).spells hop).mul (spells_expectSymbol hstop))

theorem spells_patternName {whole : Option AttrPath} {cs : List Comment}
    (h : patternName operand ts = .ok ((whole, cs), rest)) :
    Spells (whole.elim 1 fun name => mark .atSign * name.yield) ts rest := by
  rcases patternName_eq_ok_iff.mp h with
    ⟨start, us, name, mid, rfl, hname, rfl, -, rfl⟩ | ⟨-, rfl, -, rfl⟩
  · exact spells_mark.mul (Spells.of_skipTrivia (spells_attrPath hop hname)).skipTrivia_right
  · exact .refl _

/-- A pattern with a name behind it, or with none. -/
theorem spells_pattern {start brace : Span} {t : Term}
    (h : patternLambda operand none start ts = .ok (t, rest)) :
    Spells t.yield (⟨.symbol .openBrace, brace⟩ :: ts) rest := by
  obtain ⟨body, ts₁, hbody, stop, ts₂, hstop, whole, span, more, ts₃, hend, colon, ts₄, hcolon,
    result, hresult, rfl⟩ := patternLambda_eq_ok_iff.mp h
  have hbraces := spells_braces hop brace hbody hstop
  have hname := Spells.of_skipTrivia
    (spells_patternName hop (patternEnd_none_eq_ok_iff.mp hend).1)
  have hresult := (spells_expectSymbol hcolon).mul (spells_expression hop hresult)
  rw [Term.yield]
  refine Spells.mul ?_ hresult
  -- without a name there is one language, with a name the sum of two
  cases whole with
  | none =>
    rw [Parameter.yield, ← mul_one (mark .openBrace * _)]
    exact hbraces.mul hname
  | some name =>
    rw [Parameter.yield]
    exact (hbraces.mul hname).right

/-- A pattern with a name in front of it. -/
theorem spells_namedPattern {name : String} {span atSign start brace : Span} {t : Term}
    (h : patternLambda operand (some ⟨[.name name], [], span⟩) start ts = .ok (t, rest)) :
    Spells t.yield (⟨.identifier name, span⟩ :: ⟨.symbol .atSign, atSign⟩ ::
      ⟨.symbol .openBrace, brace⟩ :: ts) rest := by
  obtain ⟨body, ts₁, hbody, stop, ts₂, hstop, whole, whole_span, more, ts₃, hend, colon, ts₄,
    hcolon, result, hresult, rfl⟩ := patternLambda_eq_ok_iff.mp h
  obtain ⟨⟨rfl, -⟩, rfl⟩ := by simpa using hend
  have hbraces := spells_braces hop brace hbody hstop
  have hresult := (spells_expectSymbol hcolon).mul (spells_expression hop hresult)
  have hname : AttrPath.yield ⟨[.name name], [], span⟩ = lit (.identifier name) := by
    simp [AttrPath.yield, dottedYield, Segment.yield]
  rw [Term.yield, Parameter.yield, hname]
  exact Spells.mul ((spells_lit (.identifier name) span rfl rfl).mul
    (spells_mark.mul hbraces)).left (.of_skipTrivia hresult)

/-! ### Terms and operands

The forms, then the choice among them, then what stands around one. -/

/-- The items of a list, with the brackets around them. -/
theorem spells_list {start : Span} {t : Term} (h : list operand start ts = .ok (t, rest)) :
    Spells t.yield (⟨.symbol .openBracket, start⟩ :: ts) rest := by
  obtain ⟨items, mid, hitems, stop, hstop, rfl⟩ := list_eq_ok_iff.mp h
  have hrounds := rounds_of_repeated stop_item hitems
  have hmap := map_passOnComments (f := Operand.yield)
    (fun o _ _ => by cases o; simp [Operand.yield]) [] items
  have hyield : exprsYield ((passOnComments [] items).map .operand) =
      (items.map Operand.yield).prod := by
    rw [exprsYield_eq, List.map_map, ← hmap]
    congr 1
  rw [Term.yield, hyield]
  exact spells_mark.mul ((hrounds.spells fun h => hop (item_eq_some_iff.mp h).2.2).mul
    (.of_skipTrivia (spells_expectSymbol hstop)))

theorem spells_paren {start brace : Span} {t : Term}
    (h : paren operand start ts = .ok (t, rest)) :
    Spells t.yield (⟨.symbol .openParen, brace⟩ :: ts) rest := by
  obtain ⟨body, mid, hbody, stop, hstop, rfl⟩ := paren_eq_ok_iff.mp h
  rw [Term.yield]
  exact spells_mark.mul ((spells_expression hop hbody).mul (spells_expectSymbol hstop))

theorem spells_conditional {start : Span} {t : Term}
    (h : conditional operand start ts = .ok (t, rest)) :
    Spells t.yield (⟨.keyword .if_, start⟩ :: ts) rest := by
  obtain ⟨condition, ts₁, hc, s₁, ts₂, hthen, consequence, ts₃, ha, s₂, ts₄, helse, alternative,
    hb, rfl⟩ := conditional_eq_ok_iff.mp h
  rw [Term.yield]
  exact spells_keyword.mul ((spells_expression hop hc).mul ((spells_expectKeyword hthen).mul
    ((spells_expression hop ha).mul ((spells_expectKeyword helse).mul
      (spells_expression hop hb)))))

theorem spells_importOf {start : Span} {t : Term}
    (h : importOf operand start ts = .ok (t, rest)) :
    Spells t.yield (⟨.keyword .import_, start⟩ :: ts) rest := by
  obtain ⟨source, hsource, rfl⟩ := importOf_eq_ok_iff.mp h
  rw [Term.yield, Expr.yield]
  exact spells_keyword.mul (hop hsource)

theorem spells_unary {ctx : Context} {op : UnaryOp} {start : Span} {t : Term}
    (h : unary operand ctx op start ts = .ok (t, rest)) :
    Spells t.yield (⟨.symbol op.mark, start⟩ :: ts) rest := by
  obtain ⟨o, ho, rfl⟩ := unary_eq_ok_iff.mp h
  rw [Term.yield, Expr.yield]
  exact spells_mark.mul (hop ho)

/-- Every form. A number with its sign is one node, and was two tokens. -/
theorem ReadsTerm.spells {ctx : Context} {t : Term} (h : ReadsTerm operand ctx ts t rest) :
    Spells t.yield ts rest := by
  cases h with
  | null => exact spells_lit .null _ rfl rfl
  | bool => exact spells_lit (.bool _) _ rfl rfl
  | int => exact (spells_lit (.int _) _ rfl rfl).left
  | float => exact (spells_lit (.float _) _ rfl rfl).left
  | @negativeInt value start stop =>
    refine Spells.right (spells_mark.mul ?_)
    -- the number that was read is the negation of the one in the tree
    rw [Int64.neg_neg]
    exact spells_lit (.int value) stop rfl rfl
  | @negativeFloat value start stop =>
    refine Spells.right (spells_mark.mul ?_)
    obtain ⟨w, rfl, hts⟩ := spells_lit (.float value) stop rfl rfl
    exact ⟨_, ⟨value, rfl, rfl⟩, hts⟩
  | path => exact spells_lit (.path _) _ rfl rfl
  | string hl => exact spells_stringOf hop hl
  | interpolation hc => exact spells_interpolationOf hop hc
  | name _ _ hp => exact spells_attrPath hop hp
  | list h => exact spells_list hop h
  | attrSet _ h =>
    obtain ⟨inner, hinner, hyield⟩ := spells_attrSet hop h
    rw [hyield, if_neg Bool.false_ne_true, one_mul]
    exact spells_mark.mul hinner
  | recursive hbrace h =>
    obtain ⟨inner, hinner, hyield⟩ := spells_attrSet hop h
    rw [hyield, if_pos rfl]
    exact spells_keyword.mul ((spells_expectSymbol hbrace).mul hinner)
  | @lambda name span _ _ _ _ h =>
    obtain ⟨body, hbody, rfl⟩ := lambda_eq_ok_iff.mp h
    rw [Term.yield, Parameter.yield, AttrPath.yield, dottedYield, mul_one, Segment.yield]
    exact (spells_lit (.identifier name) span rfl rfl).mul
      (spells_mark.mul (spells_expression hop hbody))
  | pattern _ h => exact spells_pattern hop h
  | namedPattern _ h => exact spells_namedPattern hop h
  | letIn h => exact spells_letIn hop h
  | import_ h => exact spells_importOf hop h
  | conditional h => exact spells_conditional hop h
  | not h => exact spells_unary hop h
  | negate _ _ h => exact spells_unary hop h
  | paren h => exact spells_paren hop h

/-- Arguments go on with what their function has spelled. -/
theorem spells_withArguments {ctx : Context} {head t : Term} (hhead : Spells head.yield ts mid)
    (h : withArguments operand ctx head mid = .ok (t, rest)) : Spells t.yield ts rest := by
  rcases withArguments_cases h with ⟨rfl, rfl⟩ | ⟨arguments, span, hrounds, rfl⟩
  · exact hhead
  · have hspells := hrounds.spells (f := Operand.yield) fun h => by
      obtain ⟨-, -, -, -, ho⟩ := argument_eq_some_iff.mp h
      exact hop ho
    have hyield : exprsYield (arguments.map .operand) = (arguments.map Operand.yield).prod := by
      rw [exprsYield_eq, List.map_map]
      congr 1
    rw [Term.yield, hyield]
    exact hhead.mul hspells

theorem spells_clause {c : List Comment × Modifier}
    (h : clause operand ts = .ok (some c, rest)) : Spells c.2.yield ts rest := by
  obtain ⟨cs, m⟩ := c
  obtain ⟨k, start, us, kind, hstart, hkind, subject, mid, he, stop, hstop, -, rfl⟩ :=
    clause_eq_some_iff.mp h
  obtain rfl := clauseKind?_eq_some_iff.mp hkind
  rw [Modifier.yield]
  exact .of_skipTrivia_eq hstart
    (spells_keyword.mul ((spells_expression hop he).mul (spells_expectSymbol hstop)))

/-- **An operand spells what it was read from, if the operands inside it do.** -/
theorem spells_operandWith {ctx : Context} {o : Operand}
    (h : operandWith operand ctx ts = .ok (o, rest)) : Spells o.yield ts rest := by
  obtain ⟨clauses, ts₁, hclauses, head, ts₂, hhead, t, ts₃, ht, rfl, rfl⟩ :=
    operandWith_eq_ok_iff.mp h
  have hrounds := rounds_of_repeated stop_clause hclauses
  have hterm := spells_withArguments hop ((termIn_eq_ok_iff.mp hhead).spells hop) ht
  rw [Operand.yield, modifiersYield_eq, List.map_map]
  exact (hrounds.spells (spells_clause hop)).mul (Spells.of_skipTrivia hterm).skipTrivia_right

omit hop in
/-- **An operand spells what it was read from**, at any depth. -/
theorem spells_operandUpTo (n : Nat) {ctx : Context} {o : Operand}
    (h : operandUpTo n ctx ts = .ok (o, rest)) : Spells o.yield ts rest := by
  induction n generalizing ctx ts o rest with
  | zero => simp [operandUpTo] at h
  | succ n ih => exact spells_operandWith (fun _ _ _ _ h => ih h) h

end Grammar

namespace Program

/-- **No token is dropped, made up, read twice or moved.** The tokens of a program, bare and up to
the end of input, are a spelling of its tree. -/
theorem bare_mem_yield {ts : List Token} {p : Program} (h : ofTokens ts = .ok p) :
    bare ts ∈ p.body.yield :=
  Grammar.bare_mem_of_complete (fun _ _ _ _ => Grammar.spells_operandUpTo _)
    (complete_of_ofTokens h)

/-- The tokens of `{ a, b, } @ x : -1` with a comment in the pattern, and of a name behind the end
of input. -/
def patternTokens : List Token :=
  [⟨.symbol .openBrace, default⟩, ⟨.identifier "a", default⟩, ⟨.symbol .comma, default⟩,
    ⟨.comment "last" false, default⟩, ⟨.newline, default⟩, ⟨.identifier "b", default⟩,
    ⟨.symbol .comma, default⟩, ⟨.symbol .closeBrace, default⟩, ⟨.symbol .atSign, default⟩,
    ⟨.identifier "x", default⟩, ⟨.symbol .colon, default⟩, ⟨.symbol .minus, default⟩,
    ⟨.int 1, default⟩, ⟨.endOfInput, default⟩, ⟨.identifier "y", default⟩]

/-- The comma in front of the brace and the name behind it are spelled, and what stands behind the
end of input is not. -/
theorem bare_mem_yield_patternTokens :
    ∃ p, ofTokens patternTokens = .ok p ∧ bare patternTokens ∈ p.body.yield :=
  ⟨_, rfl, @bare_mem_yield patternTokens _ rfl⟩

end Program

end NixSyntax
