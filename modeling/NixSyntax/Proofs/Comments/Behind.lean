import NixSyntax.Proofs.Places.Distinct
import NixSyntax.Proofs.Places.Ends
import NixSyntax.Proofs.Tree.Sides

/-!
# Where the comments behind a token go

Every operand takes the comments behind itself, and many can end at one token: in `f !x`, the call,
its argument and what is negated there. The innermost of them has seen the tokens behind, so it has
the comments (`Grammar.exists_behind`). A list gives those of an item to the item that follows it,
but only those of the item itself, and not those that an operand inside of it has taken.

Of the operands of a tree only the items of lists are not as they were read
(`Program.readInside_or_item`). Which tokens one of them was made of is told by its place, since no
two tokens end at the same (`Lexical.Run.eq_of_stop_eq`).

## From a token to an operand

The comments behind a token belong to the operand that ends there, and this is not read off the tree
directly: a tree has places but no tokens. The way there is the reading of the operand. Every
operand of the tree was read somewhere inside the tokens (`Grammar.ReadInside`), and ended at the
last token that it has taken. Its place ends where that token does, and no other token ends there,
so it is the token that was asked about. Behind it the operand has taken the trivia, and the
comments among these are its own (`Grammar.ReadInside.after_eq`).

An operand that ends with another one, such as a function with its body, finds no trivia left, and
has no comments behind itself. What a term may end with is `Term.isOpen`.

The comments of a list item have moved after it was read. If another item follows they are the first
ones in front of that, and else they have stayed (`Grammar.exists_of_passOnComments`).

## Main definitions

* `Expr.ItemBehind`: two items of a list of the tree, one behind the other
* `Grammar.ReadInside`: an operand just as it was read

## Main results

* `Program.readInside_or_item`: the operands of a tree are as they were read, or items of lists
* `Program.comments_behind`: where the comments go that stand behind the end of an operand
* `Program.comments_between_items`: those that stand between the items of a list
-/

namespace NixSyntax

/-- In a list of the tree, the item `next` follows the item `o`. -/
def Expr.ItemBehind (e : Expr) (o next : Operand) : Prop :=
  ∃ front back comments span,
    .term (.list (front ++ .operand o :: .operand next :: back) comments span) ∈ e.nodes

/-- The operands of an expression are its first one and those behind its operators. -/
theorem Expr.mem_operands {e : Expr} {o : Operand} (h : .operand o ∈ e.sides) :
    o = e.first ∨ ∃ l ∈ e.links, l.2 = o := by
  induction e using Expr.sides.induct with
  | case1 operator left right span hleft hright =>
    rcases List.mem_cons.mp h with heq | h
    · cases heq
    · rcases List.mem_append.mp h with h | h
      · rcases hleft h with rfl | ⟨l, hl, heq⟩
        · exact .inl rfl
        · exact .inr ⟨l, List.mem_append_left _ hl, heq⟩
      · rcases hright h with rfl | ⟨l, hl, heq⟩
        · exact .inr ⟨_, List.mem_append_right _ List.mem_cons_self, rfl⟩
        · exact .inr ⟨l, List.mem_append_right _ (List.mem_cons_of_mem _ hl), heq⟩
  | case2 o' =>
    obtain rfl : o = o' := by simpa [Expr.sides] using h
    exact .inl rfl

namespace Grammar

variable {n : Nat} {ts us rest : List Token} {o s next : Operand} {os : List Operand}
  {pending comments : List Comment} {span : Span} {items : List Expr}

/-! ### Comments that move

Items of a list hand on the comments behind themselves, one after the other from the left. -/

/-- The comments that an item took behind itself are its own if it is the last one. Else they are in
front of the next. -/
theorem exists_of_passOnComments {front back : List Operand}
    (h : passOnComments pending os = front ++ s :: back) :
    ∃ o ∈ os, s.term = o.term ∧ s.span = o.span ∧ (back = [] → s.after = o.after) ∧
      ∀ next ∈ back.head?, ∃ more, next.before = o.after ++ more := by
  induction os generalizing pending front with
  | nil => simp [passOnComments] at h
  | cons o os ih =>
    cases front with
    | nil =>
      refine ⟨o, List.mem_cons_self, ?_⟩
      cases os with
      | nil =>
        -- the last item keeps its comments, and any other hands them on
        obtain ⟨rfl, rfl⟩ := List.cons.inj h
        exact ⟨rfl, rfl, fun _ => rfl, by simp⟩
      | cons p os =>
        obtain ⟨rfl, rfl⟩ := List.cons.inj h
        refine ⟨rfl, rfl, fun hback => ?_, fun next hnext => ⟨p.before, ?_⟩⟩
        · cases os <;> cases hback
        · cases os <;> cases hnext <;> rfl
    | cons x front =>
      cases os with
      | nil => simp [passOnComments] at h
      | cons p os =>
        obtain ⟨o', ho', hrest⟩ := ih (List.cons.inj h).2
        exact ⟨o', List.mem_cons_of_mem _ ho', hrest⟩

/-! ### Operands as they were read

An operand is as it was read if nothing has been done to it since. Then it can be asked what was in
front of its rule, and what was left. -/

/-- An operand just as it was read, somewhere inside the tokens. -/
def ReadInside (ts : List Token) (o : Operand) : Prop :=
  ∃ k ctx us rest, Inside us ts ∧ operandUpTo k ctx us = .ok (o, rest)

/-- What a repetition has found was found by one of its rounds, inside the tokens of the whole. -/
theorem Rounds.exists_of_mem {α : Type} {round : Rule (Option α)} {as : List α} {a : α}
    (hround : ∀ {ts a rest}, round ts = .ok (some a, rest) → Leaves 1 ts rest)
    (h : Rounds round ts as rest) (ha : a ∈ as) :
    ∃ us mid, Inside us ts ∧ round us = .ok (some a, mid) := by
  obtain ⟨front, back, rfl⟩ := List.append_of_mem ha
  obtain ⟨us, hfront, hback⟩ := h.split
  cases hback with
  | cons head tail => exact ⟨us, _, Inside.refl.rest (hfront.leaves hround), head⟩

/-- The operands of a chain are held by it as they were read. -/
theorem readInside_of_expression {e : Expr} (hus : Inside us ts)
    (h : expression (operandUpTo n) us = .ok (e, rest)) (ho : .operand o ∈ e.sides) :
    ReadInside ts o := by
  have hadv := advances_operandUpTo n
  obtain ⟨first, mid, hfirst, links, hlinks, rfl⟩ := expression_eq_ok_iff.mp h
  rcases Expr.mem_operands ho with rfl | ⟨l, hl, rfl⟩
  · rw [first_assemble]
    exact ⟨n, _, us, mid, hus, hfirst⟩
  · rw [links_assemble] at hl
    obtain ⟨vs, mid', hvs, hlink⟩ :=
      (rounds_of_repeated stop_link hlinks).exists_of_mem (leaves_link hadv) hl
    obtain ⟨t, ws, op, rfl, -, -, hread⟩ := link_eq_some_iff.mp hlink
    exact ⟨n, _, ws, mid', (hvs.trans (hus.rest (hadv hfirst))).tail, hread⟩

/-- The items of a list were read one by one, and comments have moved between them. -/
theorem exists_items_of_list {start : Span} (hus : Inside us ts)
    (h : list (operandUpTo n) start us = .ok (.list items comments span, rest)) :
    ∃ os, items = (passOnComments [] os).map .operand ∧ ∀ o ∈ os, ReadInside ts o := by
  obtain ⟨os, mid, hos, stop, -, ht⟩ := list_eq_ok_iff.mp h
  obtain ⟨rfl, -, -⟩ := Term.list.inj ht
  refine ⟨os, rfl, fun o ho => ?_⟩
  obtain ⟨vs, mid', hvs, hitem⟩ := (rounds_of_repeated stop_item hos).exists_of_mem
    (leaves_item (advances_operandUpTo n)) ho
  exact ⟨n, _, vs, mid', hvs.trans hus, (item_eq_some_iff.mp hitem).2.2⟩

theorem Made.exists_items (h : Made ts (.term (.list items comments span))) :
    ∃ os, items = (passOnComments [] os).map .operand ∧ ∀ o ∈ os, ReadInside ts o := by
  cases h with
  | term inside reads =>
    cases reads with
    | list h => exact exists_items_of_list inside.tail h
    | attrSet _ h | recursive _ h =>
      obtain ⟨bs, mid, -, stop, -, ht⟩ := attrSet_eq_ok_iff.mp h
      cases ht
    | paren h =>
      obtain ⟨body, mid, -, stop, -, ht⟩ := paren_eq_ok_iff.mp h
      cases ht
    | lambda h => cases isOpen_of_lambda h
    | pattern _ h | namedPattern _ h => cases isOpen_of_patternLambda h
    | letIn h => cases isOpen_of_letIn h
    | import_ h => cases isOpen_of_importOf h
    | conditional h => cases isOpen_of_conditional h
    | not h | negate _ _ h => cases isOpen_of_unary h
  | call _ _ callable h =>
    obtain ⟨arguments, -, ⟨-, rfl⟩ | ⟨last, -, ht⟩⟩ := applied_eq_ok_iff.mp h
    · cases callable
    · cases ht

/-! ### What a node holds

Form by form: the expressions that a node holds were read inside the tokens of the form, and so were
their operands. -/

theorem readInside_of_patternLambda {front : Option AttrPath} {start : Span} {t : Term} {e : Expr}
    (hus : Inside us ts) (h : patternLambda (operandUpTo n) front start us = .ok (t, rest))
    (he : e ∈ t.expressions) (ho : .operand o ∈ e.sides) : ReadInside ts o := by
  have hadv := advances_operandUpTo n
  obtain ⟨body, ts₁, hbody, stop, ts₂, hstop, whole, span, more, ts₃, hend, colon, ts₄, hcolon,
    result, hresult, rfl⟩ := patternLambda_eq_ok_iff.mp h
  obtain rfl := List.mem_singleton.mp he
  have hbraces := (((patternBody_eq_ok_iff hadv).mp hbody).leaves hadv).trans
    (leaves_expectSymbol hstop)
  have hname := (leaves_skipTrivia.trans (leaves_patternEnd hend)).trans
    (leaves_expectSymbol hcolon)
  exact readInside_of_expression ((hus.rest hbraces).rest hname) hresult ho

theorem readInside_of_letIn {start : Span} {t : Term} {e : Expr} (hus : Inside us ts)
    (h : letIn (operandUpTo n) start us = .ok (t, rest)) (he : e ∈ t.expressions)
    (ho : .operand o ∈ e.sides) : ReadInside ts o := by
  obtain ⟨bs, ts₁, hbs, stop, ts₂, hstop, body, hbody, rfl⟩ := letIn_eq_ok_iff.mp h
  obtain rfl := List.mem_singleton.mp he
  have hbindings :=
    (rounds_of_repeated stop_bindingUnless hbs).leaves_bindings (advances_operandUpTo n)
  have hin := leaves_skipTrivia.trans (leaves_expectKeyword hstop)
  exact readInside_of_expression ((hus.rest hbindings).rest hin) hbody ho

theorem readInside_of_conditional {start : Span} {t : Term} {e : Expr} (hus : Inside us ts)
    (h : conditional (operandUpTo n) start us = .ok (t, rest)) (he : e ∈ t.expressions)
    (ho : .operand o ∈ e.sides) : ReadInside ts o := by
  have hadv := advances_operandUpTo n
  obtain ⟨c, ts₁, hc, s₁, ts₂, hthen, a, ts₃, ha, s₂, ts₄, helse, b, hb, rfl⟩ :=
    conditional_eq_ok_iff.mp h
  have hts₂ := (hus.rest (leaves_expression hadv hc)).rest (leaves_expectKeyword hthen)
  have hts₄ := (hts₂.rest (leaves_expression hadv ha)).rest (leaves_expectKeyword helse)
  simp only [Term.expressions, List.mem_cons, List.not_mem_nil, or_false] at he
  obtain rfl | rfl | rfl := he
  · exact readInside_of_expression hus hc ho
  · exact readInside_of_expression hts₂ ha ho
  · exact readInside_of_expression hts₄ hb ho

theorem readInside_of_unary {ctx : Context} {op : UnaryOp} {start : Span} {t : Term} {e : Expr}
    (hus : Inside us ts) (h : unary (operandUpTo n) ctx op start us = .ok (t, rest))
    (he : e ∈ t.expressions) (ho : .operand o ∈ e.sides) : ReadInside ts o := by
  obtain ⟨x, hx, rfl⟩ := unary_eq_ok_iff.mp h
  obtain rfl := List.mem_singleton.mp he
  obtain rfl : o = x := by simpa [Expr.sides] using ho
  exact ⟨n, ctx, us, rest, hus, hx⟩

/-- What a term holds was read as it is, but for the items of a list. -/
theorem ReadsTerm.readInside_or_item {ctx : Context} {t : Term} {e : Expr}
    (h : ReadsTerm (operandUpTo n) ctx us t rest) (hus : Inside us ts) (he : e ∈ t.expressions)
    (ho : .operand o ∈ e.sides) :
    ReadInside ts o ∨
      ∃ items comments span, t = .list items comments span ∧ .operand o ∈ items := by
  have hadv := advances_operandUpTo n
  cases h with
  | null | bool | int | float | negativeInt | negativeFloat | path | string | interpolation
  | name => cases he
  | attrSet _ h | recursive _ h =>
    obtain ⟨bs, mid, -, stop, -, rfl⟩ := attrSet_eq_ok_iff.mp h
    cases he
  | list h =>
    -- the items are the one case where comments have moved
    obtain ⟨os, mid, -, stop, -, rfl⟩ := list_eq_ok_iff.mp h
    obtain ⟨x, hx, rfl⟩ := List.mem_map.mp he
    obtain rfl : o = x := by simpa [Expr.sides] using ho
    exact .inr ⟨_, _, _, rfl, he⟩
  | lambda h =>
    obtain ⟨body, hbody, rfl⟩ := lambda_eq_ok_iff.mp h
    obtain rfl := List.mem_singleton.mp he
    exact .inl (readInside_of_expression hus.tail.tail hbody ho)
  | paren h =>
    obtain ⟨body, mid, hbody, stop, -, rfl⟩ := paren_eq_ok_iff.mp h
    obtain rfl := List.mem_singleton.mp he
    exact .inl (readInside_of_expression hus.tail hbody ho)
  | pattern _ h =>
    exact .inl (readInside_of_patternLambda hus.tail h he ho)
  | namedPattern _ h =>
    exact .inl (readInside_of_patternLambda hus.tail.tail.tail h he ho)
  | letIn h => exact .inl (readInside_of_letIn hus.tail h he ho)
  | import_ h =>
    obtain ⟨source, hsource, rfl⟩ := importOf_eq_ok_iff.mp h
    obtain rfl := List.mem_singleton.mp he
    obtain rfl : o = source := by simpa [Expr.sides] using ho
    exact .inl ⟨n, _, _, _, hus.tail, hsource⟩
  | conditional h =>
    exact .inl (readInside_of_conditional hus.tail h he ho)
  | not h | negate _ _ h =>
    exact .inl (readInside_of_unary hus.tail h he ho)

/-- Comments added to a binding leave its value as it was read. -/
theorem readInside_of_binding {b : Binding} {more : List Comment} {e : Expr} (hus : Inside us ts)
    (h : binding (operandUpTo n) us = .ok (b, rest))
    (he : e ∈ (Node.binding (b.addComments more)).expressions) (ho : .operand o ∈ e.sides) :
    ReadInside ts o := by
  have hadv := advances_operandUpTo n
  rcases binding_eq_ok_iff.mp h with ⟨start, vs, hstart, hb⟩ | ⟨-, hb⟩
  · obtain ⟨source, cs, ts₁, hsource, names, ts₂, -, stop, -, rfl⟩ := inheritance_eq_ok_iff.mp hb
    rcases inheritSource_eq_ok_iff.mp hsource with
      ⟨start', ws, x, mid, stop', hstart', hx, -, rfl, -⟩ | ⟨-, rfl, -, -⟩
    · obtain rfl := List.mem_singleton.mp he
      have hvs := hus.rest (leaves_of_skipTrivia rfl hstart (.refl vs))
      have hws := hvs.rest (leaves_of_skipTrivia rfl hstart' (.refl ws))
      exact readInside_of_expression hws hx ho
    · cases he
  · obtain ⟨name, ts₁, hname, eq, ts₂, heq, value, ts₃, hvalue, stop, -, rfl⟩ :=
      assignment_eq_ok_iff.mp hb
    obtain rfl := List.mem_singleton.mp he
    have hfront := (leaves_skipTrivia.trans (leaves_attrPath hname)).trans
      (leaves_skipTrivia.trans (leaves_expectSymbol heq))
    exact readInside_of_expression (hus.rest hfront) hvalue ho

/-- **What a node holds was read as it is**, but for the items of a list. -/
theorem Made.readInside_or_item {nd : Node} {e : Expr} (h : Made ts nd) (he : e ∈ nd.expressions)
    (ho : .operand o ∈ e.sides) :
    ReadInside ts o ∨
      ∃ items comments span, nd = .term (.list items comments span) ∧ .operand o ∈ items := by
  cases h with
  | expr | operand | string | path | argumentName | named | pattern => cases he
  | modifier inside h =>
    obtain ⟨k, start, vs, kind, hstart, -, subject, mid, hsubject, stop, -, -, hm⟩ :=
      clause_eq_some_iff.mp h
    rw [← hm] at he
    obtain rfl := List.mem_singleton.mp he
    have hvs := inside.rest (leaves_of_skipTrivia rfl hstart (.refl vs))
    exact .inl (readInside_of_expression hvs hsubject ho)
  | term inside h =>
    rcases h.readInside_or_item inside he ho with h | ⟨items, comments, span, rfl, hmem⟩
    · exact .inl h
    · exact .inr ⟨items, comments, span, rfl, hmem⟩
  | call inside reads callable h =>
    obtain ⟨arguments, harguments, ⟨rfl, rfl⟩ | ⟨last, -, rfl⟩⟩ := applied_eq_ok_iff.mp h
    · rcases reads.readInside_or_item inside he ho with h | ⟨items, comments, span, rfl, -⟩
      · exact .inl h
      · -- what is called is a term that can be called, and a list is none
        cases callable
    · obtain ⟨x, hx, rfl⟩ := List.mem_map.mp he
      obtain rfl : o = x := by simpa [Expr.sides] using ho
      obtain ⟨vs, mid, hvs, hargument⟩ := (rounds_of_repeated stop_argument harguments).exists_of_mem
        (leaves_argument (advances_operandUpTo _)) hx
      obtain ⟨-, -, -, -, hread⟩ := argument_eq_some_iff.mp hargument
      have hmid := inside.rest (reads.leaves (advances_operandUpTo _))
      exact .inl ⟨_, _, vs, mid, hvs.trans hmid, hread⟩
  | interpolation inside mem h =>
    obtain ⟨body, hbody, rfl⟩ := interpolationOf_eq_ok_iff.mp h
    obtain ⟨rest, hbody, -⟩ := complete_eq_ok_iff.mp hbody
    obtain rfl := List.mem_singleton.mp he
    exact .inl (readInside_of_expression ((Inside.within mem .refl).trans inside) hbody ho)
  | binding inside h => exact .inl (readInside_of_binding inside h he ho)
  | formal inside h =>
    obtain ⟨name, mid, hname, ⟨start, vs, fallback, hstart, hfallback, rfl⟩ | ⟨-, -, rfl⟩⟩ :=
      formal_eq_ok_iff.mp h
    · obtain rfl := List.mem_singleton.mp he
      have hvs := (leaves_attrPath hname).trans (leaves_of_skipTrivia rfl hstart (.refl vs))
      exact .inl (readInside_of_expression (inside.rest hvs) hfallback ho)
    · cases he

/-! ### Behind the end of an operand

Here the place of an operand is turned into the token at its end. -/

/-- Where a token ends, an operand ends that has the comments behind that token, unless it ends with
another one. -/
theorem ReadInside.after_eq {source : String} {t : Token} (h : ReadInside ts o)
    (htokens : tokenize source = .ok ts) (ho : o.term.isOpen = false) (ht : t.isEnd = false)
    (hus : Inside (t :: us) ts) (hstop : o.span.stop = t.span.stop) :
    o.after = commentsAhead us := by
  obtain ⟨k, ctx, vs, rest, hvs, hread⟩ := h
  obtain ⟨t', us', ht', hleaves, hstop', hafter⟩ := exists_behind hread ho
  obtain ⟨d, hrun⟩ := Program.exists_run htokens
  have heq := hrun.eq_of_stop_eq ht ht' hus (hvs.rest hleaves) (by rw [← hstop, hstop'])
  rw [hafter, (List.cons.inj heq).2]

end Grammar

namespace Program

open Grammar (Inside commentsAhead)

variable {ts : List Token} {p : Program} {o : Operand}

/-- **The operands of a tree are as they were read**, but for the items of lists. -/
theorem readInside_or_item (h : ofTokens ts = .ok p) (ho : .expr (.operand o) ∈ p.body.nodes) :
    Grammar.ReadInside ts o ∨ ∃ items comments span,
      .term (.list items comments span) ∈ p.body.nodes ∧ .operand o ∈ items := by
  obtain ⟨c, hc, hside⟩ := Expr.mem_sides_of_mem_nodes p.body ho
  rcases List.mem_cons.mp hc with rfl | hc
  · obtain ⟨rest, hbody, -⟩ := Grammar.complete_eq_ok_iff.mp (complete_of_ofTokens h)
    exact .inl (Grammar.readInside_of_expression .refl hbody hside)
  · obtain ⟨nd, hnd, hc⟩ := List.mem_flatMap.mp hc
    rcases (made_of_mem_nodes h hnd).readInside_or_item hc hside with
      hread | ⟨items, comments, span, rfl, hitem⟩
    · exact .inl hread
    · exact .inr ⟨items, comments, span, hnd, hitem⟩

/-- An operand that ends with no operand inside of it ends with a token of its own. -/
theorem isOpen_of_innermost (h : ofTokens ts = .ok p) (ho : .expr (.operand o) ∈ p.body.nodes)
    (hinner : ∀ i, .expr (.operand i) ∈ o.inside → i.span.stop ≠ o.span.stop) :
    o.term.isOpen = false := by
  cases made_of_mem_nodes h ho with
  | @expr k ctx us mid rest _ first inside first_eq same =>
    by_contra hopen
    replace same : o = { first with before := o.before, after := o.after } := same
    rw [same] at hopen hinner
    obtain ⟨i, hi, hstop⟩ := Grammar.exists_inside_of_isOpen first_eq (by simpa using hopen)
    exact hinner i hi hstop

variable {source : String} {t : Token} {us : List Token}

/-- The items of a list are as they were read, but for the comments that have moved. -/
theorem exists_item {front back : List Expr} {comments : List Comment} {span : Span}
    (h : ofTokens ts = .ok p)
    (hlist : .term (.list (front ++ .operand o :: back) comments span) ∈ p.body.nodes) :
    ∃ o', Grammar.ReadInside ts o' ∧ o.term = o'.term ∧ o.span = o'.span ∧
      (back = [] → o.after = o'.after) ∧
      ∀ e ∈ back.head?, ∃ next more, e = .operand next ∧ next.before = o'.after ++ more := by
  obtain ⟨os, hos, hread⟩ := (made_of_mem_nodes h hlist).exists_items
  obtain ⟨front', tail, heq, -, htail⟩ := List.map_eq_append_iff.mp hos.symm
  obtain ⟨s, back', rfl, hs, rfl⟩ := List.map_eq_cons_iff.mp htail
  obtain rfl := Expr.operand.inj hs
  obtain ⟨o', ho', hterm, hspan, hlast, hnext⟩ := Grammar.exists_of_passOnComments heq
  refine ⟨o', hread o' ho', hterm, hspan, fun hback => hlast (List.map_eq_nil_iff.mp hback), ?_⟩
  intro e he
  obtain ⟨next, hmem, rfl⟩ := by simpa using he
  obtain ⟨more, hmore⟩ := hnext next hmem
  exact ⟨next, more, rfl, hmore⟩

/-- **Where the comments go that stand behind the end of an operand.** Let `o` be the innermost of
the operands that end at a token. If it is an item of a list and another follows it, the comments
behind the token are in front of that one. Else they are behind `o`. -/
theorem comments_behind (htokens : tokenize source = .ok ts) (h : ofText source = .ok p)
    (ht : t.isEnd = false) (hus : Inside (t :: us) ts) (ho : .expr (.operand o) ∈ p.body.nodes)
    (hstop : o.span.stop = t.span.stop)
    (hinner : ∀ i, .expr (.operand i) ∈ o.inside → i.span.stop ≠ o.span.stop) :
    (∀ next, p.body.ItemBehind o next → ∃ more, next.before = commentsAhead us ++ more) ∧
      ((∀ next, ¬ p.body.ItemBehind o next) → o.after = commentsAhead us) := by
  obtain ⟨ts', htokens', hp⟩ := ofText_eq_ok_iff.mp h
  obtain rfl : ts = ts' := Except.ok.inj (htokens.symm.trans htokens')
  have hclosed := isOpen_of_innermost hp ho hinner
  constructor
  · rintro next ⟨front, back, comments, span, hlist⟩
    obtain ⟨o', hread, hterm, hspan, -, hnext⟩ := exists_item hp hlist
    obtain ⟨_, more, heq, hmore⟩ := hnext _ rfl
    obtain rfl := Expr.operand.inj heq
    exact ⟨more, by
      rw [hmore, hread.after_eq htokens (hterm ▸ hclosed) ht hus (hspan ▸ hstop)]⟩
  · intro hitem
    rcases readInside_or_item hp ho with hread | ⟨items, comments, span, hlist, hmem⟩
    · exact hread.after_eq htokens hclosed ht hus hstop
    · -- an item, and the last one
      obtain ⟨front, back, rfl⟩ := List.append_of_mem hmem
      obtain ⟨o', hread, hterm, hspan, hlast, hnext⟩ := exists_item hp hlist
      cases back with
      | nil =>
        rw [hlast rfl]
        exact hread.after_eq htokens (hterm ▸ hclosed) ht hus (hspan ▸ hstop)
      | cons e back =>
        obtain ⟨next, -, rfl, -⟩ := hnext e rfl
        exact absurd ⟨front, back, comments, span, hlist⟩ (hitem next)

/-- The text `[-x /*c*/ y /*d*/ z]`, with a comment behind each item but the last. -/
def mixedText : String := "[-x /*c*/ y /*d*/ z]"

@[inherit_doc mixedText]
def mixedTokens : List Token :=
  [⟨.symbol .openBracket, onFirstLine 0 1⟩, ⟨.symbol .minus, onFirstLine 1 2⟩,
    ⟨.identifier "x", onFirstLine 2 3⟩, ⟨.comment "c" true, onFirstLine 4 9⟩,
    ⟨.identifier "y", onFirstLine 10 11⟩, ⟨.comment "d" true, onFirstLine 12 17⟩,
    ⟨.identifier "z", onFirstLine 18 19⟩, ⟨.symbol .closeBracket, onFirstLine 19 20⟩,
    ⟨.endOfInput, .point ⟨1, 21, 20⟩⟩]

/-- A plain name with comments around it. -/
def nameBetween (before : List Comment) (name : String) (span : Span) (after : List Comment) :
    Operand :=
  ⟨[], before, after, .name ⟨[.name name], [], span⟩, span⟩

/-- What is negated in the first item of `mixedText`. It has the comment behind it. -/
def mixedInside : Operand := nameBetween [] "x" (onFirstLine 2 3) [⟨"c", true, onFirstLine 4 9⟩]

/-- The first item of `mixedText`. -/
def mixedFirst : Operand :=
  ⟨[], [], [], .unary .negate (.operand mixedInside) (onFirstLine 1 3), onFirstLine 1 3⟩

/-- The second item of `mixedText`. -/
def mixedSecond : Operand := nameBetween [] "y" (onFirstLine 10 11) []

/-- The third item of `mixedText`. It has the comment in front of it. -/
def mixedThird : Operand := nameBetween [⟨"d", true, onFirstLine 12 17⟩] "z" (onFirstLine 18 19) []

/-- The list that `mixedText` is. -/
def mixedList : Operand :=
  ⟨[], [], [], .list [.operand mixedFirst, .operand mixedSecond, .operand mixedThird] []
    (onFirstLine 0 20), onFirstLine 0 20⟩

theorem tokenize_mixedText : tokenize mixedText = .ok mixedTokens := rfl

theorem ofText_mixedText : ofText mixedText = .ok ⟨.operand mixedList, onFirstLine 0 20⟩ :=
  ofText_eq_ok_iff.mpr ⟨_, tokenize_mixedText, rfl⟩

theorem nodes_mixedList : (Expr.operand mixedList).nodes =
    [.expr (.operand mixedList), .operand mixedList, .term mixedList.term,
      .expr (.operand mixedFirst), .operand mixedFirst, .term mixedFirst.term,
      .expr (.operand mixedInside), .operand mixedInside] ++ mixedInside.term.nodes ++
      [.expr (.operand mixedSecond), .operand mixedSecond] ++ mixedSecond.term.nodes ++
      [.expr (.operand mixedThird), .operand mixedThird] ++ mixedThird.term.nodes := by
  simp [mixedList, mixedFirst, mixedInside, mixedSecond, mixedThird, nameBetween, Expr.nodes,
    Operand.nodes, modifiersNodes, Term.nodes, exprsNodes]

theorem list_mem_mixedList : .term mixedList.term ∈ (Expr.operand mixedList).nodes := by
  simp [nodes_mixedList]

/-- There is no other list in it. -/
theorem items_of_mem_mixedList {items : List Expr} {comments : List Comment} {span : Span}
    (h : .term (.list items comments span) ∈ (Expr.operand mixedList).nodes) :
    items = [.operand mixedFirst, .operand mixedSecond, .operand mixedThird] := by
  rw [nodes_mixedList] at h
  have hlist : items = [.operand mixedFirst, .operand mixedSecond, .operand mixedThird] ∧
      comments = [] ∧ span = onFirstLine 0 20 := by
    simpa [mixedList, mixedFirst, mixedInside, mixedSecond, mixedThird,
      nameBetween, Term.nodes, AttrPath.nodes, segmentsNodes, Segment.nodes] using h
  exact hlist.1

/-- A name has no operand in it. -/
theorem not_mem_inside_nameBetween (before : List Comment) (name : String) (span : Span)
    (after : List Comment) (i : Operand) :
    .expr (.operand i) ∉ (nameBetween before name span after).inside := by
  simp [nameBetween, Operand.inside, modifiersNodes, Term.nodes, AttrPath.nodes, segmentsNodes,
    Segment.nodes]

/-- The comment behind the second item is in front of the third. The one behind the first item has
stayed with what is negated there, which is no item. -/
theorem comments_behind_mixedText :
    (Expr.operand mixedList).ItemBehind mixedSecond mixedThird ∧
    (∃ more, mixedThird.before = [⟨"d", true, onFirstLine 12 17⟩] ++ more) ∧
    mixedInside.after = [⟨"c", true, onFirstLine 4 9⟩] := by
  have hsecond := comments_behind (o := mixedSecond) tokenize_mixedText ofText_mixedText
    (t := ⟨.identifier "y", onFirstLine 10 11⟩) rfl (.append [_, _, _, _] .refl)
    (by simp [nodes_mixedList]) rfl
    fun i hi => absurd hi (not_mem_inside_nameBetween _ _ _ _ i)
  have hinside := comments_behind (o := mixedInside) tokenize_mixedText ofText_mixedText
    (t := ⟨.identifier "x", onFirstLine 2 3⟩) rfl (.append [_, _] .refl)
    (by simp [nodes_mixedList]) rfl
    fun i hi => absurd hi (not_mem_inside_nameBetween _ _ _ _ i)
  have hitem : (Expr.operand mixedList).ItemBehind mixedSecond mixedThird :=
    ⟨[.operand mixedFirst], [], [], onFirstLine 0 20, list_mem_mixedList⟩
  refine ⟨hitem, hsecond.1 mixedThird hitem, hinside.2 ?_⟩
  rintro next ⟨front, back, comments, span, hlist⟩
  have hmem : .operand mixedInside ∈ front ++ .operand mixedInside :: .operand next :: back := by
    simp
  rw [items_of_mem_mixedList hlist] at hmem
  simp [mixedInside, mixedFirst, mixedSecond, mixedThird, nameBetween] at hmem

/-- **Comments between the items of a list.** Those behind an item are in front of the next, and
behind the last item they are its own, if the item ends with a token of its own. -/
theorem comments_between_items {items : List Expr} {comments : List Comment} {span : Span}
    (htokens : tokenize source = .ok ts) (h : ofText source = .ok p)
    (hlist : .term (.list items comments span) ∈ p.body.nodes) (hclosed : o.term.isOpen = false)
    (ht : t.isEnd = false) (hus : Inside (t :: us) ts) (hstop : o.span.stop = t.span.stop) :
    (∀ front e back, items = front ++ .operand o :: e :: back →
      ∃ next more, e = .operand next ∧ next.before = commentsAhead us ++ more) ∧
    ∀ front, items = front ++ [.operand o] → o.after = commentsAhead us := by
  obtain ⟨ts', htokens', hp⟩ := ofText_eq_ok_iff.mp h
  obtain rfl : ts = ts' := Except.ok.inj (htokens.symm.trans htokens')
  constructor
  · rintro front e back rfl
    obtain ⟨o', hread, hterm, hspan, -, hnext⟩ := exists_item hp hlist
    obtain ⟨next, more, rfl, hmore⟩ := hnext e rfl
    refine ⟨next, more, rfl, ?_⟩
    rw [hmore, hread.after_eq htokens (hterm ▸ hclosed) ht hus (hspan ▸ hstop)]
  · rintro front rfl
    obtain ⟨o', hread, hterm, hspan, hlast, -⟩ := exists_item hp hlist
    rw [hlast rfl]
    exact hread.after_eq htokens (hterm ▸ hclosed) ht hus (hspan ▸ hstop)

/-- The second item of `mixedText` ends with a token of its own, and passes its comment on. -/
theorem comments_between_items_mixedText :
    mixedSecond.term.isOpen = false ∧
    ∃ next more, Expr.operand mixedThird = .operand next ∧
      next.before = [⟨"d", true, onFirstLine 12 17⟩] ++ more := by
  have hsecond := comments_between_items (o := mixedSecond) tokenize_mixedText ofText_mixedText
    list_mem_mixedList rfl (t := ⟨.identifier "y", onFirstLine 10 11⟩) rfl
    (.append [_, _, _, _] .refl) rfl
  exact ⟨rfl, hsecond.1 [.operand mixedFirst] _ [] rfl⟩

/-- Its first item ends with what is negated. The comment behind that is not in front of the second
item. -/
theorem exists_comment_behind_negation :
    ofText mixedText = .ok ⟨.operand mixedList, onFirstLine 0 20⟩ ∧
    (Expr.operand mixedList).ItemBehind mixedFirst mixedSecond ∧
    ∃ us, Inside (⟨.identifier "x", onFirstLine 2 3⟩ :: us) mixedTokens ∧
      mixedFirst.span.stop = (onFirstLine 2 3).stop ∧
      commentsAhead us = [⟨"c", true, onFirstLine 4 9⟩] ∧ mixedSecond.before = [] :=
  ⟨ofText_mixedText, ⟨[], [.operand mixedThird], [], onFirstLine 0 20, list_mem_mixedList⟩,
    _, .append [_, _] .refl, rfl, rfl, rfl⟩

end Program

end NixSyntax
