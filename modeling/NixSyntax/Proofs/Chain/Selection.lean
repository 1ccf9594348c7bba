import NixSyntax.Proofs.Comments.Behind
import NixSyntax.Proofs.Printing.Follow

/-!
# What a selection selects

In a path of names, each dot stands directly behind a name. Any other dot is an operator like all
the others, and behind it any operand may stand: in `(f).a b` that is the call `a b`, and `(f).[]`
selects a list. No rule asks for a name there. So whether a name is selected is a question about the
tokens behind the dot.

Three things can name an attribute: a string, an interpolation, and a path of names that is no
function's argument. Of these only the path takes arguments, and it takes all that there are.

## From the tokens to the operand

The rule for an operand in a chain passes the trivia in front of it, reads clauses, a term, and the
arguments of the term. The operand is a name if there is no clause, the term is one of the three,
and no argument follows. Each of these can be read off the tokens: a clause begins with a word of
its own, the first token of a term tells its form but for the name in front of a function, and an
argument is taken wherever one can begin. So `isName_iff_of_operandUpTo` is an equivalence, and a
dot behind which its right side fails has some other operand to its right.

The operand that is read behind a dot is the first one of the right side in the tree
(`exists_operand_right`, for any operator). Which dot of the text this is, is known by its place,
since no two tokens end at one place. Whether the side goes on behind its first operand is a matter
of tiers and no part of the question.

## Main definitions

* `Operand.IsName`, `Operand.IsNameCall`: a name with nothing around it, and one with arguments
* `Grammar.opensFunction`: whether the name in front of some tokens is a function's argument
* `Grammar.startsName`, `Grammar.startsNameCall`: the same two, of tokens

## Main results

* `Grammar.ReadsTerm.name_cases`: the terms that are names, and those that are not
* `Grammar.isName_iff_of_operandUpTo`: the tokens decide whether an operand in a chain is a name
* `Program.isName_right_of_select`: what stands on the right of a dot
-/

namespace NixSyntax

/-- A name, a string or an interpolation, each of which can name an attribute. -/
def Term.isName : Term → Bool
  | .name _ => true
  | .string _ => true
  | .interpolation _ => true
  | _ => false

/-- A path of names with arguments behind it. -/
def Term.isNameCall : Term → Bool
  | .call (.name _) _ _ => true
  | _ => false

/-- A call of anything but a path of names, such as a parenthesis, selects no name. -/
theorem Term.isNameCall_call {callee : Term} (arguments : List Expr) (span : Span)
    (h : callee.isName = false) : (Term.call callee arguments span).isNameCall = false := by
  cases callee <;> first | rfl | cases h

/-- A name without clauses in front of it and without arguments behind it. -/
structure Operand.IsName (o : Operand) : Prop where
  bare : o.modifiers = []
  name : o.term.isName = true

/-- A path of names with arguments behind it, and without clauses in front. -/
structure Operand.IsNameCall (o : Operand) : Prop where
  bare : o.modifiers = []
  call : o.term.isNameCall = true

namespace Grammar

variable {operand : Context → Rule Operand} {n : Nat} {ctx : Context} {ts rest : List Token}
  {t callee : Term} {o : Operand}

/-! ### Names among the tokens -/

/-- Whether a name in front of the tokens is the argument of a function. -/
def opensFunction : List Token → Bool
  | ⟨.symbol .colon, _⟩ :: _ => true
  | ⟨.symbol .atSign, _⟩ :: ⟨.symbol .openBrace, _⟩ :: ts => opensPattern true ts
  | _ => false

/-- The tokens behind the path of names whose first name is in front of the tokens. -/
def behindDots : List Token → List Token
  | ⟨.symbol .dot, _⟩ :: _ :: ts => behindDots ts
  | ts => ts

/-- Whether the tokens begin with a name. -/
def startsName : List Token → Bool
  | ⟨.string _ _, _⟩ :: _ => true
  | ⟨.interpolation _, _⟩ :: _ => true
  | ⟨.identifier _, _⟩ :: ts => !opensFunction ts
  | _ => false

/-- Whether the tokens begin with a path of names and an argument behind it. -/
def startsNameCall : List Token → Bool
  | ⟨.identifier _, _⟩ :: ts => !opensFunction ts && argumentAhead (behindDots ts)
  | _ => false

/-- The two conditions under which the rule for a term reads a name as a name. -/
theorem opensFunction_eq_false (no_colon : ∀ colon us, ts ≠ ⟨.symbol .colon, colon⟩ :: us)
    (no_pattern : ∀ atSign start us,
      ts = ⟨.symbol .atSign, atSign⟩ :: ⟨.symbol .openBrace, start⟩ :: us →
        opensPattern true us = false) : opensFunction ts = false := by
  unfold opensFunction
  split
  · exact absurd rfl (no_colon _ _)
  · exact no_pattern _ _ _ rfl
  · rfl

theorem behindDots_eq_self (h : ∀ dot us, ts ≠ ⟨.symbol .dot, dot⟩ :: us) :
    behindDots ts = ts := by
  unfold behindDots
  split
  · exact absurd rfl (h _ _)
  · rfl

/-- Dots with a name behind each, as many as there are, are what `behindDots` passes. -/
theorem eq_behindDots_of_rounds {names : List (Segment × Span)}
    (h : Rounds (dottedSegment operand) ts names rest)
    (hend : dottedSegment operand rest = .ok (none, rest)) : rest = behindDots ts := by
  induction h with
  | nil => exact (behindDots_eq_self (dottedSegment_eq_none_iff.mp hend).2).symm
  | @cons ts mid rest name names head tail ih =>
    obtain ⟨segment, span⟩ := name
    obtain ⟨dot, us, rfl, hsegment⟩ := dottedSegment_eq_some_iff.mp head
    cases hsegment with
    | name | string _ | interpolation _ => exact ih hend

/-- A path of names takes its first name, and all dots with a name behind each. -/
theorem eq_behindDots_of_attrPath {name : String} {span : Span} {path : AttrPath}
    (h : attrPath operand (⟨.identifier name, span⟩ :: ts) = .ok (path, rest)) :
    rest = behindDots ts := by
  obtain ⟨first, start, mid, hfirst, names, hnames, -⟩ := attrPath_eq_ok_iff.mp h
  obtain ⟨hrounds, hend⟩ := (repeated_eq_ok_iff repeatable_dottedSegment).mp hnames
  cases hfirst
  exact eq_behindDots_of_rounds hrounds hend

/-! ### Terms and operands -/

/-- **The terms that are names, and those that are not.** A path of names is told by the tokens, and
so is whether any other term is a name. -/
theorem ReadsTerm.name_cases (h : ReadsTerm operand ctx ts t rest) :
    (∃ name span us path, ts = ⟨.identifier name, span⟩ :: us ∧ opensFunction us = false ∧
        t = .name path ∧ rest = behindDots us) ∨
      (t.isName = startsName ts ∧ startsNameCall ts = false ∧ t.isNameCall = false ∧
        (t.isCallable && t.isName) = false) := by
  -- the first token decides, except where an identifier may begin a function
  cases h with
  | name no_colon no_pattern hpath =>
    exact .inl ⟨_, _, _, _, rfl, opensFunction_eq_false no_colon no_pattern, rfl,
      eq_behindDots_of_attrPath hpath⟩
  | null | bool | int | float | negativeInt | negativeFloat | path | string | interpolation =>
    exact .inr ⟨rfl, rfl, rfl, rfl⟩
  | list h =>
    obtain ⟨items, mid, -, stop, -, rfl⟩ := list_eq_ok_iff.mp h
    exact .inr ⟨rfl, rfl, rfl, rfl⟩
  | attrSet _ h | recursive _ h =>
    obtain ⟨bs, mid, -, stop, -, rfl⟩ := attrSet_eq_ok_iff.mp h
    exact .inr ⟨rfl, rfl, rfl, rfl⟩
  | lambda h =>
    obtain ⟨body, -, rfl⟩ := lambda_eq_ok_iff.mp h
    exact .inr ⟨rfl, rfl, rfl, rfl⟩
  | pattern _ h =>
    obtain ⟨body, ts₁, -, stop, ts₂, -, whole, span, more, ts₃, -, colon, ts₄, -, result, -, rfl⟩ :=
      patternLambda_eq_ok_iff.mp h
    exact .inr ⟨rfl, rfl, rfl, rfl⟩
  | namedPattern opens h =>
    obtain ⟨body, ts₁, -, stop, ts₂, -, whole, span, more, ts₃, -, colon, ts₄, -, result, -, rfl⟩ :=
      patternLambda_eq_ok_iff.mp h
    refine .inr ⟨?_, ?_, rfl, rfl⟩
    · simp [startsName, opensFunction, opens, Term.isName]
    · simp [startsNameCall, opensFunction, opens]
  | letIn h =>
    obtain ⟨bs, ts₁, -, stop, ts₂, -, body, -, rfl⟩ := letIn_eq_ok_iff.mp h
    exact .inr ⟨rfl, rfl, rfl, rfl⟩
  | import_ h =>
    obtain ⟨source, -, rfl⟩ := importOf_eq_ok_iff.mp h
    exact .inr ⟨rfl, rfl, rfl, rfl⟩
  | conditional h =>
    obtain ⟨c, ts₁, -, s₁, ts₂, -, a, ts₃, -, s₂, ts₄, -, b, -, rfl⟩ := conditional_eq_ok_iff.mp h
    exact .inr ⟨rfl, rfl, rfl, rfl⟩
  | not h | negate _ _ h =>
    obtain ⟨x, -, rfl⟩ := unary_eq_ok_iff.mp h
    exact .inr ⟨rfl, rfl, rfl, rfl⟩
  | paren h =>
    obtain ⟨body, mid, -, stop, -, rfl⟩ := paren_eq_ok_iff.mp h
    exact .inr ⟨rfl, rfl, rfl, rfl⟩

/-- A term that takes arguments is called exactly if there is one. -/
theorem applied_cases (hop : Advances operand) (h : applied operand callee ts = .ok (t, rest)) :
    (argumentAhead ts = false ∧ t = callee) ∨
      (argumentAhead ts = true ∧ ∃ arguments span, t = .call callee arguments span) := by
  obtain ⟨arguments, harguments, hshape⟩ := applied_eq_ok_iff.mp h
  obtain ⟨hrounds, hend⟩ := (repeated_eq_ok_iff (repeatable_argument hop)).mp harguments
  cases hrounds with
  | nil =>
    rcases hshape with ⟨-, rfl⟩ | ⟨last, hlast, -⟩
    · exact .inl ⟨(argument_eq_none_iff_ahead.mp hend).2, rfl⟩
    · cases hlast
  | cons head tail =>
    obtain ⟨first, us, hskip, hstarts, -⟩ := argument_eq_some_iff.mp head
    rcases hshape with ⟨hnil, -⟩ | ⟨last, -, rfl⟩
    · cases hnil
    · exact .inr ⟨by rw [argumentAhead_of_eq hskip, hstarts], _, _, rfl⟩

/-- With its arguments, where it can have some, a term in a chain is a name or the call of one
exactly if the tokens say so. -/
theorem name_eq_of_withArguments {head : Term} {us mid : List Token} (hop : Advances operand)
    (hhead : ReadsTerm operand .chain us head mid)
    (h : withArguments operand .chain head mid = .ok (t, rest)) :
    t.isName = (startsName us && !startsNameCall us) ∧ t.isNameCall = startsNameCall us := by
  cases hcallable : head.isCallable with
  | false =>
    obtain ⟨rfl, -⟩ : head = t ∧ mid = rest := by simpa [withArguments, hcallable] using h
    rcases hhead.name_cases with ⟨name, span, vs, path, -, -, rfl, -⟩ | ⟨hname, hcall, hnone, -⟩
    · cases hcallable
    · simp [hname, hcall, hnone]
  | true =>
    have happlied : applied operand head mid = .ok (t, rest) := by
      simpa [withArguments, hcallable] using h
    rcases hhead.name_cases with ⟨name, span, vs, path, rfl, hopens, rfl, rfl⟩ |
      ⟨hname, hcall, hnone, hboth⟩
    · rcases applied_cases hop happlied with ⟨hahead, rfl⟩ | ⟨hahead, arguments, at_, rfl⟩
      · simp [startsName, startsNameCall, hopens, hahead, Term.isName, Term.isNameCall]
      · simp [startsName, startsNameCall, hopens, hahead, Term.isName, Term.isNameCall]
    · have hother : head.isName = false := by simpa [hcallable] using hboth
      rw [hcall, ← hname, hother]
      rcases applied_cases hop happlied with ⟨-, rfl⟩ | ⟨-, arguments, at_, rfl⟩
      · exact ⟨hother, hnone⟩
      · exact ⟨rfl, Term.isNameCall_call arguments at_ hother⟩

/-- **Whether an operand in a chain is a name** is decided by the tokens it begins with. -/
theorem isName_iff_of_operandUpTo (h : operandUpTo n .chain ts = .ok (o, rest)) :
    (o.IsName ↔ startsName (skipTrivia ts) = true ∧ startsNameCall (skipTrivia ts) = false) ∧
      (o.IsNameCall ↔ startsNameCall (skipTrivia ts) = true) := by
  cases n with
  | zero => simp [operandUpTo] at h
  | succ n =>
    obtain ⟨clauses, ts₁, hclauses, head, ts₂, hhead, t, ts₃, ht, -, rfl⟩ :=
      operandWith_eq_ok_iff.mp h
    cases rounds_of_repeated stop_clause hclauses with
    | nil =>
      obtain ⟨hname, hcall⟩ :=
        name_eq_of_withArguments (advances_operandUpTo n) (termIn_eq_ok_iff.mp hhead) ht
      constructor
      · rw [← Bool.not_eq_true', ← Bool.and_eq_true, ← hname]
        exact ⟨Operand.IsName.name, fun h => ⟨rfl, h⟩⟩
      · rw [← hcall]
        exact ⟨Operand.IsNameCall.call, fun h => ⟨rfl, h⟩⟩
    | cons head tail =>
      -- a clause begins with a keyword, which is no name
      obtain ⟨k, start, us, kind, hskip, -⟩ := clause_eq_some_iff.mp head
      rw [hskip]
      constructor
      · refine iff_of_false (fun h => ?_) (fun h => ?_)
        · cases h.bare
        · cases h.1
      · refine iff_of_false (fun h => ?_) (fun h => ?_)
        · cases h.bare
        · cases h

end Grammar

namespace Program

open Grammar

variable {source : String} {ts : List Token} {p : Program} {operator : Operator}
  {left right : Expr} {span : Span}

/-- Behind the token of an operator stands the first operand of its right side. -/
theorem exists_operand_right (h : ofTokens ts = .ok p)
    (he : .expr (.binary operator left right span) ∈ p.body.nodes) :
    ∃ us, Inside (⟨operator.op.kind, operator.span⟩ :: us) ts ∧
      ∃ k rest, operandUpTo k .chain us = .ok (right.first, rest) := by
  cases made_of_mem_nodes h he with
  | @expr k ctx us mid rest _ first inside first_eq same links =>
    have hmem : (operator, right.first) ∈ (Expr.binary operator left right span).links := by
      simp [Expr.links]
    obtain ⟨vs, mid', hvs, hlink⟩ :=
      links.exists_of_mem (leaves_link (advances_operandUpTo k)) hmem
    obtain ⟨t, us', op, rfl, hop, rfl, hread⟩ := link_eq_some_iff.mp hlink
    obtain ⟨kind, place⟩ := t
    obtain rfl : kind = op.kind := Token.binaryOp?_eq_some_iff.mp hop
    exact ⟨us', hvs.trans (inside.rest (advances_operandUpTo k first_eq)), k, mid', hread⟩

/-- **What stands on the right of a dot.** It is the operand that is read behind the dot, of whatever
form, as behind any other operator. Past line breaks and comments, it is a name if the tokens begin
with one that no argument follows, and a call of a path of names if one follows. Else it is
something else. -/
theorem isName_right_of_select (htokens : tokenize source = .ok ts) (h : ofText source = .ok p)
    (he : .expr (.binary operator left right span) ∈ p.body.nodes)
    (hop : operator.op = .select) :
    ∃ us, (∀ vs, Inside (⟨.symbol .dot, operator.span⟩ :: vs) ts ↔ vs = us) ∧
      (∃ k rest, operandUpTo k .chain us = .ok (right.first, rest)) ∧
      (right.first.IsName ↔
        startsName (skipTrivia us) = true ∧ startsNameCall (skipTrivia us) = false) ∧
      (right.first.IsNameCall ↔ startsNameCall (skipTrivia us) = true) := by
  obtain ⟨ts', htokens', hp⟩ := ofText_eq_ok_iff.mp h
  obtain rfl : ts = ts' := Except.ok.inj (htokens.symm.trans htokens')
  obtain ⟨us, hus, k, rest, hread⟩ := exists_operand_right hp he
  rw [hop] at hus
  refine ⟨us, fun vs => ⟨fun hvs => ?_, ?_⟩, ⟨k, rest, hread⟩, isName_iff_of_operandUpTo hread⟩
  · -- no two tokens end at one place
    obtain ⟨d, hrun⟩ := exists_run htokens
    exact (List.cons.inj (hrun.eq_of_stop_eq rfl rfl hvs hus rfl)).2
  · rintro rfl
    exact hus

/-- The tokens of `(f).` in front of others. -/
def selectionTokens (behind : List Token) : List Token :=
  ⟨.symbol .openParen, onFirstLine 0 1⟩ :: ⟨.identifier "f", onFirstLine 1 2⟩ ::
    ⟨.symbol .closeParen, onFirstLine 2 3⟩ :: ⟨.symbol .dot, onFirstLine 3 4⟩ :: behind

/-- The tree of `(f).` with an operand behind the dot. -/
def selectionOf (right : Operand) : Expr :=
  .joined ⟨.select, onFirstLine 3 4⟩
    (.operand ⟨[], [], [], .paren (.operand (nameBetween [] "f" (onFirstLine 1 2) []))
      (onFirstLine 0 3), onFirstLine 0 3⟩) (.operand right)

theorem selectionOf_mem_nodes (right : Operand) :
    .expr (selectionOf right) ∈ (selectionOf right).nodes := by
  simp [selectionOf, Expr.joined, Expr.nodes]

/-- The operand `a b` behind the dot of `(f).a b`. -/
def selectedCall : Operand :=
  ⟨[], [], [], .call (.name ⟨[.name "a"], [], onFirstLine 4 5⟩)
    [.operand (nameBetween [] "b" (onFirstLine 6 7) [])] (onFirstLine 4 7), onFirstLine 4 7⟩

/-- Behind the dot of `(f).a b` there is a call, because an argument follows the name. -/
theorem isName_right_of_select_call :
    ofText "(f).a b" = .ok ⟨selectionOf selectedCall, onFirstLine 0 7⟩ ∧
    (∃ k rest, operandUpTo k .chain [⟨.identifier "a", onFirstLine 4 5⟩,
      ⟨.identifier "b", onFirstLine 6 7⟩, ⟨.endOfInput, .point ⟨1, 8, 7⟩⟩] =
        .ok (selectedCall, rest)) ∧
    selectedCall.IsNameCall := by
  have htokens : tokenize "(f).a b" = .ok (selectionTokens [⟨.identifier "a", onFirstLine 4 5⟩,
      ⟨.identifier "b", onFirstLine 6 7⟩, ⟨.endOfInput, .point ⟨1, 8, 7⟩⟩]) := rfl
  have htree : ofText "(f).a b" = .ok ⟨selectionOf selectedCall, onFirstLine 0 7⟩ :=
    ofText_eq_ok_iff.mpr ⟨_, htokens, rfl⟩
  obtain ⟨us, hus, hread, -, hcall⟩ :=
    isName_right_of_select htokens htree (selectionOf_mem_nodes selectedCall) rfl
  obtain rfl := (hus _).mp (.append [_, _, _] .refl)
  exact ⟨htree, hread, hcall.mpr rfl⟩

/-- The operand `[]` behind the dot of `(f).[]`. -/
def selectedList : Operand := ⟨[], [], [], .list [] [] (onFirstLine 4 6), onFirstLine 4 6⟩

/-- In `(f).[]`, an empty list stands on the right of the dot. -/
theorem exists_select_list :
    ofText "(f).[]" = .ok ⟨selectionOf selectedList, onFirstLine 0 6⟩ ∧
    ∃ operator left right span,
      .expr (.binary operator left right span) ∈ (selectionOf selectedList).nodes ∧
      operator.op = .select ∧ right.first = selectedList ∧ ¬ right.first.IsName := by
  have htokens : tokenize "(f).[]" = .ok (selectionTokens [⟨.symbol .openBracket, onFirstLine 4 5⟩,
      ⟨.symbol .closeBracket, onFirstLine 5 6⟩, ⟨.endOfInput, .point ⟨1, 7, 6⟩⟩]) := rfl
  refine ⟨ofText_eq_ok_iff.mpr ⟨_, htokens, rfl⟩, _, _, _, _,
    selectionOf_mem_nodes selectedList, rfl, rfl, fun h => ?_⟩
  cases h.name

end Program

end NixSyntax
