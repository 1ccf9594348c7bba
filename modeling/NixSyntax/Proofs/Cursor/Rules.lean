import NixSyntax.Proofs.Cursor.Reach

/-!
# No rule leaves the places of the cursor

For each rule of the grammar: made from two rules for operands that agree at the places of the
cursor, it gives the same answer twice, and if it fails, it fails at one of these places.

## The shape of the lemmas

There is one lemma for each rule, and it follows the rule. A rule is a chain of smaller rules, and
each of these is asked where the ones in front of it have left off. So a lemma goes along the chain
by `Confined.andThen`: the rules in front have left some of the tokens, the rules for operands agree
on those, and what is confined there is confined from the beginning. Where a rule looks at a token
and decides, the lemma splits in the same way. A token that is taken is none that ends the input,
since it is a mark, a keyword, a name or a literal, and that is why the place behind it is a place.

Only two kinds of rules go into a token, those for strings and those for interpolations. What they
read is a list of its own, with places of its own (`confined_interpolationOf`).

## From operands to operands

An operand takes a token before it asks for the operands inside it. So there the two rules for
operands need to agree only where fewer tokens are left (`confined_operandWith`). That makes the
step of an induction on the number of tokens: a rule for operands is known everywhere when it is
known what it does with one operand.

## Main results

* `confined_expression`, …: one lemma for each rule
* `confined_primary`, `confined_termIn`: terms, for which it is enough that the rules for operands
  agree inside and behind the first token
* `confined_operandWith`: from the operands inside to the operand around them
-/

namespace NixSyntax

namespace Grammar

variable {operand operand' : Context → Rule Operand} {ts : List Token}

/-! ### Single tokens

These ask for no operand. They only have to fail at a place: the token behind the line breaks, which
is not the one that is wanted. -/

/-- The fault of a missing mark is at the first token behind the line breaks. -/
theorem confined_expectSymbol (s : Symbol) (ts : List Token) :
    Confined ts (expectSymbol s ts) (expectSymbol s ts) := by
  have hskip : Leaves 0 ts (skipNewlines ts) := leaves_skipNewlines
  refine Confined.of_leaves ?_ hskip
  rw [expectSymbol]
  split
  · split
    · exact .ok _
    · exact .refuse _ _
  · exact .refuse _ _

theorem confined_expectKeyword (k : Keyword) (ts : List Token) :
    Confined ts (expectKeyword k ts) (expectKeyword k ts) := by
  have hskip : Leaves 0 ts (skipNewlines ts) := leaves_skipNewlines
  refine Confined.of_leaves ?_ hskip
  rw [expectKeyword]
  split
  · split
    · exact .ok _
    · exact .refuse _ _
  · exact .refuse _ _

variable (hadv : Advances operand)
include hadv

/-! ### Expressions

A chain asks for its operands one behind the other. What ends it, an end of input or another token,
is left in front of the cursor. -/

omit hadv in
/-- An operand is asked for behind an operator, and an operator does not end the input. -/
theorem confined_link (h : Agreeing operand operand' ts) :
    Confined ts (link operand ts) (link operand' ts) := by
  cases ts with
  | nil => exact .ok _
  | cons t us =>
    rw [link, link]
    split
    · rename_i op hop
      have ht : t.isEnd = false := Token.isEnd_of_binaryOp? hop
      exact ((h (.behind ht .refl) .chain).bind fun _ _ => .pure _).cons ht
    · exact .ok _

/-- The second operand is asked for where the first has left off, and so on down the chain. -/
theorem confined_expression (h : Agreeing operand operand' ts) :
    Confined ts (expression operand ts) (expression operand' ts) := by
  refine (h .refl .chain).andThen (fun h => hadv h) fun first ts hts => ?_
  have hlinks : Confined ts (repeated (link operand) ts) (repeated (link operand') ts) :=
    confined_repeated (fun us hus => confined_link ((h.behind hts).behind hus)) (leaves_link hadv)
  exact hlinks.bind fun _ _ => .pure _

/-- If something is left, the fault is at the first token of what is left. -/
theorem confined_complete (h : Agreeing operand operand' ts) :
    Confined ts (complete operand ts) (complete operand' ts) := by
  refine (confined_expression hadv h).andThen (leaves_expression hadv) fun body ts _ => ?_
  dsimp only
  split
  · exact .pure _
  · exact .refuse _ _

/-- Inside an interpolation the cursor faces its tokens, and at their end the end of the
interpolation. -/
theorem confined_interpolationOf {t : Token} {i : List Token × Span} (hi : i ∈ t.interpolations)
    (h : Agreeing operand operand' i.1) :
    Confined (t :: ts) (interpolationOf operand i.1 i.2) (interpolationOf operand' i.1 i.2) := by
  obtain ⟨heq, hstands⟩ := confined_complete hadv h
  refine ⟨by rw [interpolationOf, heq, interpolationOf], fun s hs => ?_⟩
  rw [interpolationOf] at hs
  split at hs
  · cases hs
  · rename_i s' hs'
    cases hs
    exact .within hi (hstands s' hs')

/-! ### Strings and names

The interpolations of a string stand in one token, so a fault in any of them is at a place within
that token. -/

/-- Each interpolation among the parts of a string is read for itself, at the front of its
tokens. -/
theorem confined_partsOf {t : Token} {fragments : List StringFragment}
    (hfragments : ∀ i ∈ fragments.filterMap StringFragment.interpolation?, i ∈ t.interpolations)
    (h : ∀ i ∈ t.interpolations, Agreeing operand operand' i.1) :
    Confined (t :: ts) (partsOf operand fragments) (partsOf operand' fragments) := by
  induction fragments with
  | nil => exact .ok _
  | cons part fragments ih =>
    cases part with
    | text content => exact (ih hfragments).bind fun _ _ => .pure _
    | interpolation tokens span =>
      obtain ⟨hi, hmore⟩ := List.forall_mem_cons.mp hfragments
      refine (confined_interpolationOf hadv hi (h _ hi)).bind fun _ _ => ?_
      exact (ih hmore).bind fun _ _ => .pure _

theorem confined_stringOf {fragments : List StringFragment} {multiline : Bool} {span : Span}
    (h : ∀ i ∈ Token.interpolations ⟨.string fragments multiline, span⟩,
      Agreeing operand operand' i.1) :
    Confined (⟨.string fragments multiline, span⟩ :: ts) (stringOf operand fragments multiline span)
      (stringOf operand' fragments multiline span) :=
  (confined_partsOf (t := ⟨.string fragments multiline, span⟩) hadv (fun _ hi => hi) h).bind
    fun _ _ => .pure _

/-- A segment of a path of names asks for operands only inside its token. -/
theorem confined_segment (h : ∀ t us, ts = t :: us → ∀ i ∈ t.interpolations,
    Agreeing operand operand' i.1) : Confined ts (segment operand ts) (segment operand' ts) := by
  unfold segment
  split
  · exact .ok _
  · exact (confined_stringOf hadv (h _ _ rfl)).bind fun _ _ => .pure _
  · exact (confined_interpolationOf (i := (_, _)) hadv (List.mem_singleton.mpr rfl)
      (h _ _ rfl _ (List.mem_singleton.mpr rfl))).bind fun _ _ => .pure _
  · exact .refuse _ _

omit hadv in
/-- Rules for operands that agree on a list agree inside its first token. -/
theorem Agreeing.front (h : Agreeing operand operand' ts) {t : Token} {us : List Token}
    (hts : ts = t :: us) : ∀ i ∈ t.interpolations, Agreeing operand operand' i.1 := by
  subst hts
  exact fun i hi => h.of_reached (.within hi .refl)

/-- Behind a dot there is one more segment, which may be a string with interpolations. -/
theorem confined_dottedSegment (h : Agreeing operand operand' ts) :
    Confined ts (dottedSegment operand ts) (dottedSegment operand' ts) := by
  unfold dottedSegment
  split
  · rename_i us
    have hus := h.of_reached (.behind rfl .refl)
    exact ((confined_segment hadv fun _ _ => hus.front).bind fun _ _ => .pure _).cons rfl
  · exact .ok _

/-- A path of names, if the rules for operands agree inside its first name and behind it. -/
theorem confined_attrPath_of (hfront : ∀ t us, ts = t :: us → ∀ i ∈ t.interpolations,
      Agreeing operand operand' i.1)
    (h : ∀ us, Leaves 1 ts us → Agreeing operand operand' us) :
    Confined ts (attrPath operand ts) (attrPath operand' ts) := by
  refine (confined_segment hadv hfront).andThen (fun h => (segment_eq_ok_iff.mp h).leaves)
    fun _ ts hts => ?_
  have hmore : Confined ts (repeated (dottedSegment operand) ts)
      (repeated (dottedSegment operand') ts) :=
    confined_repeated (fun us hus => confined_dottedSegment hadv ((h ts hts).behind hus))
      leaves_dottedSegment
  exact hmore.bind fun _ _ => .pure _

/-- Segment by segment, each behind the dot that it needs. -/
theorem confined_attrPath (h : Agreeing operand operand' ts) :
    Confined ts (attrPath operand ts) (attrPath operand' ts) :=
  confined_attrPath_of hadv (fun _ _ => h.front) fun _ hus => h.behind hus

/-! ### Bindings

A binding ends with a semicolon, and a block of bindings with what closes it. Both are marks that
are asked for, and neither asks for an operand. -/

/-- The source of an `inherit` is an expression between parentheses, if there is one. -/
theorem confined_inheritSource (h : Agreeing operand operand' ts) :
    Confined ts (inheritSource operand ts) (inheritSource operand' ts) := by
  rw [inheritSource, inheritSource]
  split
  · rename_i start us hskip
    have hus : Leaves 1 ts us := leaves_of_skipTrivia rfl hskip (.refl us)
    refine Confined.of_leaves ?_ hus
    refine (confined_expression hadv (h.behind hus)).andThen (leaves_expression hadv)
      fun _ ts _ => ?_
    exact (confined_expectSymbol _ ts).bind fun _ _ => .pure _
  · exact .ok _

theorem confined_inheritedName (h : Agreeing operand operand' ts) :
    Confined ts (inheritedName operand ts) (inheritedName operand' ts) := by
  rw [inheritedName, inheritedName]
  split
  · exact .ok _
  · have hname := confined_attrPath hadv (h.behind leaves_skipTrivia)
    exact (hname.bind fun _ _ => .pure _).behindTrivia

/-- The names of an `inherit` are read behind its source, and its semicolon behind the last name. -/
theorem confined_inheritance (comments : List Comment) (start : Span)
    (h : Agreeing operand operand' ts) :
    Confined ts (inheritance operand comments start ts)
      (inheritance operand' comments start ts) := by
  refine (confined_inheritSource hadv h).andThen (leaves_inheritSource hadv)
    fun (source, more) ts hts => ?_
  have hnames : Confined ts (repeated (inheritedName operand) ts)
      (repeated (inheritedName operand') ts) :=
    confined_repeated (fun us hus => confined_inheritedName hadv ((h.behind hts).behind hus))
      leaves_inheritedName
  refine hnames.andThen (leaves_repeated stop_inheritedName leaves_inheritedName) fun _ ts _ => ?_
  exact ((confined_expectSymbol _ _).bind fun _ _ => .pure _).behindTrivia

/-- The value is asked for behind the mark that stands between it and the name. -/
theorem confined_assignment (comments : List Comment) (h : Agreeing operand operand' ts) :
    Confined ts (assignment operand comments ts) (assignment operand' comments ts) := by
  refine (confined_attrPath hadv h).andThen leaves_attrPath fun name ts hts => ?_
  refine Confined.behindTrivia ?_
  refine (confined_expectSymbol _ _).andThen leaves_expectSymbol fun _ us hus => ?_
  have hvalue := h.behind (hts.trans (leaves_skipTrivia.trans hus))
  refine (confined_expression hadv hvalue).andThen (leaves_expression hadv) fun value ts _ => ?_
  exact (confined_expectSymbol _ ts).bind fun _ _ => .pure _

theorem confined_binding (h : Agreeing operand operand' ts) :
    Confined ts (binding operand ts) (binding operand' ts) := by
  rw [binding, binding]
  split
  · rename_i start us hskip
    have hus : Leaves 1 ts us := leaves_of_skipTrivia rfl hskip (.refl us)
    exact (confined_inheritance hadv _ start (h.behind hus)).of_leaves hus
  · exact (confined_assignment hadv _ (h.behind leaves_skipTrivia)).behindTrivia

theorem confined_bindingUnless (closed : List Token → Bool) (h : Agreeing operand operand' ts) :
    Confined ts (bindingUnless operand closed ts) (bindingUnless operand' closed ts) := by
  rw [bindingUnless, bindingUnless]
  split
  · exact .ok _
  · exact (confined_binding hadv h).bind fun _ _ => .pure _

/-- The bindings of a block, whatever ends the block: each takes a token, so a binding is asked for
where fewer are left. -/
theorem confined_bindings (closed : List Token → Bool) (h : Agreeing operand operand' ts) :
    Confined ts (repeated (bindingUnless operand closed) ts)
      (repeated (bindingUnless operand' closed) ts) :=
  confined_repeated (fun _ hus => confined_bindingUnless hadv closed (h.behind hus))
    fun h => leaves_binding hadv (bindingUnless_eq_some_iff.mp h).2.2

theorem confined_attrSet (recursive : Bool) (start : Span) (h : Agreeing operand operand' ts) :
    Confined ts (attrSet operand recursive start ts) (attrSet operand' recursive start ts) :=
  (confined_bindings hadv _ h).andThen (leaves_bindings hadv) fun _ _ _ =>
    ((confined_expectSymbol _ _).bind fun _ _ => .pure _).behindTrivia

/-- The body of a `let` is asked for behind its keyword, and that one behind the last binding. -/
theorem confined_letIn (start : Span) (h : Agreeing operand operand' ts) :
    Confined ts (letIn operand start ts) (letIn operand' start ts) := by
  refine (confined_bindings hadv _ h).andThen (leaves_bindings hadv) fun bindings ts hts => ?_
  refine Confined.behindTrivia ?_
  refine (confined_expectKeyword _ _).andThen leaves_expectKeyword fun _ us hus => ?_
  have hbody := h.behind (hts.trans (leaves_skipTrivia.trans hus))
  exact (confined_expression hadv hbody).bind fun _ _ => .pure _

/-! ### Functions

The body of a function reaches as far as it can, so nothing is asked for behind it. -/

theorem confined_lambda (parameter : AttrPath) (h : Agreeing operand operand' ts) :
    Confined ts (lambda operand parameter ts) (lambda operand' parameter ts) :=
  (confined_expression hadv h).bind fun _ _ => .pure _

/-- A default value is asked for behind the question mark, and only if there is one. -/
theorem confined_formal (comments : List Comment) (h : Agreeing operand operand' ts) :
    Confined ts (formal operand comments ts) (formal operand' comments ts) := by
  refine (confined_attrPath hadv h).andThen leaves_attrPath fun name ts hts => ?_
  dsimp only
  split
  · rename_i start us hskip
    have hus : Leaves 1 ts us := leaves_of_skipTrivia rfl hskip (.refl us)
    refine Confined.of_leaves ?_ hus
    exact (confined_expression hadv ((h.behind hts).behind hus)).bind fun _ _ => .pure _
  · exact .pure _

/-- By induction on the bound for attributes: a comma is taken before the next one is asked for. -/
theorem confined_patternBodyUpTo (n : Nat) (h : Agreeing operand operand' ts) :
    Confined ts (patternBodyUpTo operand n ts) (patternBodyUpTo operand' n ts) := by
  induction n generalizing ts with
  | zero => exact .refuse _ _
  | succ n ih =>
    unfold patternBodyUpTo
    split
    · exact .ok _
    · exact .ok _
    · refine Confined.behindTrivia ?_
      refine (confined_formal hadv _ (h.behind leaves_skipTrivia)).andThen (leaves_formal hadv)
        fun f mid hmid => ?_
      dsimp only
      split
      · rename_i span us
        have hus : Leaves 1 (⟨.symbol .comma, span⟩ :: us) us := (Leaves.refl us).cons rfl
        refine Confined.of_leaves ?_ hus
        have hrest := h.behind (leaves_skipTrivia.trans (hmid.trans hus))
        exact (ih hrest).bind fun _ _ => .pure _
      · exact .pure _
      · exact .refuse _ _

/-- The name behind a pattern stands behind an at sign. -/
theorem confined_patternName (h : Agreeing operand operand' ts) :
    Confined ts (patternName operand ts) (patternName operand' ts) := by
  unfold patternName
  split
  · have hus := (h.of_reached (.behind rfl .refl)).behind leaves_skipTrivia
    exact ((confined_attrPath hadv hus).bind fun _ _ => .pure _).behindTrivia.cons rfl
  · exact .ok _

theorem confined_patternEnd (front : Option AttrPath) (start stop : Span)
    (h : Agreeing operand operand' ts) :
    Confined ts (patternEnd operand front start stop ts)
      (patternEnd operand' front start stop ts) := by
  cases front with
  | some name => exact .ok _
  | none => exact (confined_patternName hadv h).bind fun _ _ => .pure _

/-- The braces, the name on either side of them, the colon and the body, each where the one in front
has left off. -/
theorem confined_patternLambda (front : Option AttrPath) (start : Span)
    (h : Agreeing operand operand' ts) :
    Confined ts (patternLambda operand front start ts) (patternLambda operand' front start ts) := by
  have hbody : Confined ts (patternBody operand ts) (patternBody operand' ts) :=
    confined_patternBodyUpTo hadv _ h
  refine hbody.andThen (fun h => ((patternBody_eq_ok_iff hadv).mp h).leaves hadv)
    fun body ts hts => ?_
  refine (confined_expectSymbol _ ts).andThen leaves_expectSymbol fun stop us hus => ?_
  have h := h.behind (hts.trans (hus.trans leaves_skipTrivia))
  refine Confined.behindTrivia ?_
  refine (confined_patternEnd hadv front start stop h).andThen leaves_patternEnd
    fun (name, span, more) ts hts => ?_
  refine (confined_expectSymbol _ ts).andThen leaves_expectSymbol fun _ us hus => ?_
  exact (confined_expression hadv (h.behind (hts.trans hus))).bind fun _ _ => .pure _

/-! ### Terms

Terms are told apart by their first token. All but single tokens go on behind it, and ask for their
operands there. -/

theorem confined_paren (start : Span) (h : Agreeing operand operand' ts) :
    Confined ts (paren operand start ts) (paren operand' start ts) :=
  (confined_expression hadv h).andThen (leaves_expression hadv) fun _ mid _ =>
    (confined_expectSymbol _ mid).bind fun _ _ => .pure _

omit hadv in
theorem confined_item (h : Agreeing operand operand' ts) :
    Confined ts (item operand ts) (item operand' ts) := by
  rw [item, item]
  split
  · exact .ok _
  · exact (h .refl .single).bind fun _ _ => .pure _

/-- Each item of a list takes a token, so the rounds of the list are confined one after the
other. -/
theorem confined_list (start : Span) (h : Agreeing operand operand' ts) :
    Confined ts (list operand start ts) (list operand' start ts) := by
  have hitems : Confined ts (repeated (item operand) ts) (repeated (item operand') ts) :=
    confined_repeated (fun _ hus => confined_item (h.behind hus)) (leaves_item hadv)
  exact hitems.andThen (leaves_repeated stop_item (leaves_item hadv)) fun _ _ _ =>
    ((confined_expectSymbol _ _).bind fun _ _ => .pure _).behindTrivia

/-- Three expressions, the last two behind the keywords that set them off. -/
theorem confined_conditional (start : Span) (h : Agreeing operand operand' ts) :
    Confined ts (conditional operand start ts) (conditional operand' start ts) := by
  refine (confined_expression hadv h).andThen (leaves_expression hadv) fun _ ts₁ h₁ => ?_
  refine (confined_expectKeyword _ ts₁).andThen leaves_expectKeyword fun _ ts₂ h₂ => ?_
  have h := (h.behind h₁).behind h₂
  refine (confined_expression hadv h).andThen (leaves_expression hadv) fun _ ts₃ h₃ => ?_
  refine (confined_expectKeyword _ ts₃).andThen leaves_expectKeyword fun _ ts₄ h₄ => ?_
  exact (confined_expression hadv ((h.behind h₃).behind h₄)).bind fun _ _ => .pure _

omit hadv in
theorem confined_importOf (start : Span) (h : Agreeing operand operand' ts) :
    Confined ts (importOf operand start ts) (importOf operand' start ts) :=
  (h .refl .single).bind fun _ _ => .pure _

/-- The keyword that a form begins with is taken, and does not end the input. -/
theorem confined_keywordForm (k : Keyword) (span : Span) (h : Agreeing operand operand' ts) :
    Confined (⟨.keyword k, span⟩ :: ts) (keywordForm operand k span ts)
      (keywordForm operand' k span ts) := by
  cases k with
  | let_ => exact (confined_letIn hadv span h).cons rfl
  | import_ => exact (confined_importOf span h).cons rfl
  | if_ => exact (confined_conditional hadv span h).cons rfl
  | rec_ =>
    exact ((confined_expectSymbol _ ts).andThen leaves_expectSymbol fun _ _ hmid =>
      confined_attrSet hadv true span (h.behind hmid)).cons rfl
  | _ => exact .refuse _ _

/-- A name alone asks for nothing. A function, or a pattern with this name, asks behind the colon or
the brace that tells it from a name alone. -/
theorem confined_nameForm (name : String) (span : Span) (h : Agreeing operand operand' ts) :
    Confined (⟨.identifier name, span⟩ :: ts) (nameForm operand name span ts)
      (nameForm operand' name span ts) := by
  have hpath : Confined (⟨.identifier name, span⟩ :: ts) (do
        let r ← attrPath operand (⟨.identifier name, span⟩ :: ts)
        return (Term.name r.1, r.2)) (do
        let r ← attrPath operand' (⟨.identifier name, span⟩ :: ts)
        return (Term.name r.1, r.2)) := by
    refine (confined_attrPath_of hadv ?_ ?_).bind fun _ _ => .pure _
    · rintro t us heq i hi
      obtain ⟨rfl, rfl⟩ := List.cons.inj heq
      simp [Token.interpolations] at hi
    · exact fun us hus => h.behind hus.tail
  unfold nameForm
  dsimp only
  split
  · rename_i us
    exact ((confined_lambda hadv _ (h.of_reached (.behind rfl .refl))).cons rfl).cons rfl
  · rename_i us
    split
    · have hus := h.of_reached (.behind rfl (.behind rfl .refl))
      exact (((confined_patternLambda hadv _ _ hus).cons rfl).cons rfl).cons rfl
    · exact hpath
  · exact hpath

/-- A term takes its first token before it asks for an operand, so it is enough that the rules for
operands agree where fewer tokens are left. -/
theorem confined_primary (h : AgreeingInside operand operand' ts) :
    Confined ts (primary operand ts) (primary operand' ts) := by
  have hbehind : ∀ t us, ts = t :: us → t.isEnd = false → Agreeing operand operand' us := by
    rintro t us rfl ht
    exact h.behind ((Leaves.refl us).cons ht)
  unfold primary
  split
  · exact .ok _
  · exact .ok _
  · exact .ok _
  · exact .ok _
  · exact .ok _
  · exact (confined_stringOf hadv fun _ hi => h.within hi).bind fun _ _ => .pure _
  · exact (confined_interpolationOf (i := (_, _)) hadv (List.mem_singleton.mpr rfl)
      (h.within (List.mem_singleton.mpr rfl))).bind fun _ _ => .pure _
  · exact (confined_list hadv _ (hbehind _ _ rfl rfl)).cons rfl
  · split
    · exact (confined_patternLambda hadv _ _ (hbehind _ _ rfl rfl)).cons rfl
    · exact (confined_attrSet hadv _ _ (hbehind _ _ rfl rfl)).cons rfl
  · exact (confined_paren hadv _ (hbehind _ _ rfl rfl)).cons rfl
  · exact confined_nameForm hadv _ _ (hbehind _ _ rfl rfl)
  · exact confined_keywordForm hadv _ _ (hbehind _ _ rfl rfl)
  · exact .refuse _ _

omit hadv in
theorem confined_unary (ctx : Context) (op : UnaryOp) (start : Span)
    (h : Agreeing operand operand' ts) :
    Confined ts (unary operand ctx op start ts) (unary operand' ctx op start ts) :=
  (h .refl ctx).bind fun _ _ => .pure _

/-- With a sign in front: a number behind a minus is read at once, any other operand is asked for
behind the sign. -/
theorem confined_termIn (ctx : Context) (h : AgreeingInside operand operand' ts) :
    Confined ts (termIn operand ctx ts) (termIn operand' ctx ts) := by
  have hbehind : ∀ t us, ts = t :: us → t.isEnd = false → Agreeing operand operand' us := by
    rintro t us rfl ht
    exact h.behind ((Leaves.refl us).cons ht)
  unfold termIn
  split
  · exact (confined_unary _ _ _ (hbehind _ _ rfl rfl)).cons rfl
  · split
    · exact .ok _
    · exact .ok _
    · exact (confined_unary _ _ _ (hbehind _ _ rfl rfl)).cons rfl
  · exact confined_primary hadv h

/-! ### Operands

Clauses in front, a term, arguments behind it. Each round of the two loops takes a token before it
goes on. -/

omit hadv in
/-- An argument is an operand on its own, and is asked for only where one can begin. -/
theorem confined_argument (h : Agreeing operand operand' ts) :
    Confined ts (argument operand ts) (argument operand' ts) := by
  rw [argument, argument]
  split
  · split
    · exact (h .refl .single).bind fun _ _ => .pure _
    · exact .ok _
  · exact .ok _

theorem confined_applied (callee : Term) (h : Agreeing operand operand' ts) :
    Confined ts (applied operand callee ts) (applied operand' callee ts) := by
  have harguments : Confined ts (repeated (argument operand) ts)
      (repeated (argument operand') ts) :=
    confined_repeated (fun _ hus => confined_argument (h.behind hus)) (leaves_argument hadv)
  refine harguments.bind fun found _ => ?_
  dsimp only
  split <;> exact .pure _

/-- The subject of a clause is asked for behind its keyword. -/
theorem confined_clause (h : AgreeingInside operand operand' ts) :
    Confined ts (clause operand ts) (clause operand' ts) := by
  rw [clause, clause]
  split
  · rename_i k start us hskip
    split
    · have hus : Leaves 1 ts us := leaves_of_skipTrivia rfl hskip (.refl us)
      refine Confined.of_leaves ?_ hus
      refine (confined_expression hadv (h.behind hus)).andThen (leaves_expression hadv)
        fun _ mid _ => ?_
      exact (confined_expectSymbol _ mid).bind fun _ _ => .pure _
    · exact .ok _
  · exact .ok _

/-- **From the operands inside to the operand around them.** -/
theorem confined_operandWith (ctx : Context) (h : AgreeingInside operand operand' ts) :
    Confined ts (operandWith operand ctx ts) (operandWith operand' ctx ts) := by
  have hclauses : Confined ts (repeated (clause operand) ts) (repeated (clause operand') ts) :=
    confined_repeated (fun us hus => confined_clause hadv (h.of_leaves hus)) (leaves_clause hadv)
  refine hclauses.andThen (leaves_repeated stop_clause (leaves_clause hadv))
    fun clauses ts hts => ?_
  have h := (h.of_leaves hts).of_leaves leaves_skipTrivia
  refine Confined.behindTrivia ?_
  refine (confined_termIn hadv ctx h).andThen (fun h => (termIn_eq_ok_iff.mp h).leaves hadv)
    fun term rest hrest => ?_
  dsimp only
  split
  · exact (confined_applied hadv term (h.behind hrest)).bind fun _ _ => .pure _
  · exact .pure _

end Grammar

end NixSyntax
