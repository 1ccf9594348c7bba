import NixSyntax.Proofs.Reading.Borders
import NixSyntax.Proofs.Reading.Making
import NixSyntax.Proofs.Tree.Moves

/-!
# The normal form of trees

The types of a tree allow for more than is ever read. A call without arguments, a call among the
items of a list, or a `let` block that keeps comments although it has bindings would all be values
of their types. `Node.Normal` says what a node looks like that was read, and every node of a
program is normal.

A node is the result of one rule, so each clause is shown of that rule alone. What is said about
comments comes from the operand that stands last in a form: it has taken all comments behind
itself, and none are left for the form.

## Comments

A comment is kept by the operand in front of it, if there is one that ends there, and this decides
most of what is said about comments. A form like `a: b` ends with an operand, and that operand has
looked past all trivia before the form is done, so the form finds none (`IsForm.border`). A form
like a list ends with a token, and the comments behind it are the form's own.

In a list or a set the comments in front of the closing token are kept by the list or set only if it
is empty. Otherwise the last item has them, or the last binding gets them.

## Calls

A call is made where an operand is read that may have arguments. The items of a list, the arguments
of a call and what is imported are read as operands that may not, so none of them is a call. To know
this of the operands inside, the same is assumed of them one level further in, and the induction is
in `isCall_of_single`.

## Main definitions

* `Term.isCall`, `Term.isOpen`: calls, and the terms that end with an operand
* `Node.Normal`: what a node of a program looks like

## Main results

* `Program.normal_of_mem_nodes`: every node of a program is normal
-/

namespace NixSyntax

/-! ### Normal nodes

The promises, type by type. A type that is not mentioned has none to keep. -/

/-- Whether a term is a call. -/
def Term.isCall : Term → Bool
  | .call _ _ _ => true
  | _ => false

/-- Whether a term ends with an operand, which has then taken the comments behind it. -/
def Term.isOpen : Term → Bool
  | .call _ _ _ => true
  | .unary _ _ _ => true
  | .lambda _ _ _ => true
  | .letIn _ _ _ _ => true
  | .import_ _ _ => true
  | .conditional _ _ _ _ => true
  | _ => false

/-- An operand of which the given property holds. -/
def Expr.IsOperand (P : Operand → Prop) (e : Expr) : Prop :=
  ∃ o, e = .operand o ∧ P o

/-- What a term looks like. -/
def Term.Normal : Term → Prop
  | .name p => p.comments = []
  | .list items comments _ =>
    (comments ≠ [] → items = []) ∧ (∀ e ∈ items, e.IsOperand fun o => o.term.isCall = false) ∧
      ∀ e ∈ items.dropLast, e.IsOperand fun o => o.after = []
  | .attrSet _ bindings comments _ => comments ≠ [] → bindings = []
  | .letIn bindings comments _ _ => comments ≠ [] → bindings = []
  | .call callee arguments _ =>
    callee.isCallable = true ∧ arguments ≠ [] ∧
      ∀ e ∈ arguments, e.IsOperand fun o => o.term.isCall = false ∧ o.modifiers = []
  | .import_ source _ => source.IsOperand fun o => o.term.isCall = false
  | .unary _ argument _ => argument.IsOperand fun _ => True
  | _ => True

/-- What a node looks like. Of the names with dots, only those in an `inherit` have comments. -/
def Node.Normal : Node → Prop
  | .operand o => o.term.isOpen = true → o.after = []
  | .term t => t.Normal
  | .path p => p.segments ≠ []
  | .binding (.assign name _ _ _) => name.comments = []
  | .parameter (.named name) => name.comments = []
  | .parameter (.pattern _ _ whole _ _) => ∀ name ∈ whole, name.comments = []
  | .formal f => f.name.comments = []
  | _ => True

namespace Grammar

variable {operand : Context → Rule Operand} {n : Nat} {ts mid rest : List Token}

/-! ### Comments that move

Where the comments of a set or of a list end up. -/

/-- The last binding takes all comments. -/
theorem attachToLast_cons (more : List Comment) (b : Binding) (bs : List Binding) :
    (attachToLast more (b :: bs)).2 = [] := by
  induction bs generalizing b with
  | nil => rfl
  | cons c bs ih => exact ih c

/-- Comments are left over only where there is no binding. -/
theorem attachToLast_of_ne_nil {more : List Comment} {bs : List Binding}
    (h : (attachToLast more bs).2 ≠ []) : (attachToLast more bs).1 = [] := by
  cases bs with
  | nil => rfl
  | cons b bs => exact absurd (attachToLast_cons more b bs) h

/-- Behind an item that another one follows no comment stays. -/
theorem after_of_mem_dropLast {pending : List Comment} {os : List Operand} {o : Operand}
    (h : o ∈ (passOnComments pending os).dropLast) : o.after = [] := by
  induction os generalizing pending with
  | nil => simp [passOnComments] at h
  | cons p os ih =>
    cases os with
    | nil => simp [passOnComments] at h
    | cons q os =>
      rw [passOnComments, List.dropLast_cons_of_ne_nil (by cases os <;> simp [passOnComments])] at h
      rcases List.mem_cons.mp h with rfl | h
      · rfl
      · exact ih h

/-! ### Terms that end with an operand

By the equations of the rules. -/

theorem isOpen_of_lambda {parameter : AttrPath} {t : Term}
    (h : lambda operand parameter ts = .ok (t, rest)) : t.isOpen = true := by
  obtain ⟨body, -, rfl⟩ := lambda_eq_ok_iff.mp h
  rfl

/-- A function with a pattern ends with its body. -/
theorem isOpen_of_patternLambda {front : Option AttrPath} {start : Span} {t : Term}
    (h : patternLambda operand front start ts = .ok (t, rest)) : t.isOpen = true := by
  obtain ⟨body, ts₁, -, stop, ts₂, -, whole, span, more, ts₃, -, colon, ts₄, -, result, -, rfl⟩ :=
    patternLambda_eq_ok_iff.mp h
  rfl

theorem isOpen_of_letIn {start : Span} {t : Term} (h : letIn operand start ts = .ok (t, rest)) :
    t.isOpen = true := by
  obtain ⟨bs, ts₁, -, stop, ts₂, -, body, -, rfl⟩ := letIn_eq_ok_iff.mp h
  rfl

theorem isOpen_of_importOf {start : Span} {t : Term}
    (h : importOf operand start ts = .ok (t, rest)) : t.isOpen = true := by
  obtain ⟨source, -, rfl⟩ := importOf_eq_ok_iff.mp h
  rfl

theorem isOpen_of_conditional {start : Span} {t : Term}
    (h : conditional operand start ts = .ok (t, rest)) : t.isOpen = true := by
  obtain ⟨c, ts₁, -, s₁, ts₂, -, a, ts₃, -, s₂, ts₄, -, b, -, rfl⟩ := conditional_eq_ok_iff.mp h
  rfl

theorem isOpen_of_unary {op : UnaryOp} {ctx : Context} {start : Span} {t : Term}
    (h : unary operand ctx op start ts = .ok (t, rest)) : t.isOpen = true := by
  obtain ⟨o, -, rfl⟩ := unary_eq_ok_iff.mp h
  rfl

/-! ### Forms

One lemma for each form. A form that ends with a token has nothing to say about what is left. -/

/-- What holds of a form, and of the tokens behind it. A call is no form: it takes the arguments
behind one. -/
structure IsForm (t : Term) (rest : List Token) : Prop where
  normal : t.Normal
  not_call : t.isCall = false
  /-- A form that ends with an operand leaves no trivia. -/
  border : t.isOpen = true → skipTrivia rest = rest

/-- A name. Its comments are in the operand around it. -/
theorem isForm_attrPath {p : AttrPath} (h : attrPath operand ts = .ok (p, rest)) :
    IsForm (.name p) rest := by
  obtain ⟨first, start, mid, -, more, -, rfl⟩ := attrPath_eq_ok_iff.mp h
  exact ⟨rfl, rfl, by rintro ⟨⟩⟩

theorem isForm_attrSet {recursive : Bool} {start : Span} {t : Term}
    (h : attrSet operand recursive start ts = .ok (t, rest)) : IsForm t rest := by
  obtain ⟨bs, mid, -, stop, -, rfl⟩ := attrSet_eq_ok_iff.mp h
  exact ⟨attachToLast_of_ne_nil, rfl, by rintro ⟨⟩⟩

theorem isForm_paren {start : Span} {t : Term} (h : paren operand start ts = .ok (t, rest)) :
    IsForm t rest := by
  obtain ⟨body, mid, -, stop, -, rfl⟩ := paren_eq_ok_iff.mp h
  exact ⟨trivial, rfl, by rintro ⟨⟩⟩

/-- Local bindings. The comments in front of `in` are the block's only if it has no bindings. -/
theorem isForm_letIn {start : Span} {t : Term}
    (h : letIn (operandUpTo n) start ts = .ok (t, rest)) : IsForm t rest := by
  obtain ⟨bs, ts₁, -, stop, ts₂, -, body, hbody, rfl⟩ := letIn_eq_ok_iff.mp h
  exact ⟨attachToLast_of_ne_nil, rfl, fun _ => skipTrivia_of_expression hbody⟩

theorem isForm_lambda {parameter : AttrPath} {t : Term}
    (h : lambda (operandUpTo n) parameter ts = .ok (t, rest)) : IsForm t rest := by
  obtain ⟨body, hbody, rfl⟩ := lambda_eq_ok_iff.mp h
  exact ⟨trivial, rfl, fun _ => skipTrivia_of_expression hbody⟩

theorem isForm_patternLambda {front : Option AttrPath} {start : Span} {t : Term}
    (h : patternLambda (operandUpTo n) front start ts = .ok (t, rest)) : IsForm t rest := by
  obtain ⟨body, ts₁, -, stop, ts₂, -, whole, span, more, ts₃, -, colon, ts₄, -, result, hresult,
    rfl⟩ := patternLambda_eq_ok_iff.mp h
  exact ⟨trivial, rfl, fun _ => skipTrivia_of_expression hresult⟩

theorem isForm_conditional {start : Span} {t : Term}
    (h : conditional (operandUpTo n) start ts = .ok (t, rest)) : IsForm t rest := by
  obtain ⟨c, ts₁, -, s₁, ts₂, -, a, ts₃, -, s₂, ts₄, -, b, hb, rfl⟩ := conditional_eq_ok_iff.mp h
  exact ⟨trivial, rfl, fun _ => skipTrivia_of_expression hb⟩

/-- An operator and its operand. -/
theorem isForm_unary {ctx : Context} {op : UnaryOp} {start : Span} {t : Term}
    (h : unary (operandUpTo n) ctx op start ts = .ok (t, rest)) : IsForm t rest := by
  obtain ⟨o, ho, rfl⟩ := unary_eq_ok_iff.mp h
  exact ⟨⟨o, rfl, trivial⟩, rfl, fun _ => skipTrivia_of_operandUpTo ho⟩

section

/- Operands in no chain have no arguments, so a list, an import and the arguments of a call get no
call from them. This is shown one level further in, with the forms of the operands. -/
variable (hop : ∀ {ts o rest}, operandUpTo n .single ts = .ok (o, rest) → o.term.isCall = false)
include hop

theorem isForm_list {start : Span} {t : Term}
    (h : list (operandUpTo n) start ts = .ok (t, rest)) : IsForm t rest := by
  obtain ⟨items, mid, hitems, stop, -, rfl⟩ := list_eq_ok_iff.mp h
  have hrounds := rounds_of_repeated stop_item hitems
  refine ⟨⟨fun hcomments => ?_, ?_, ?_⟩, rfl, by rintro ⟨⟩⟩
  · -- behind an item no trivia is left, so there are no comments in front of the bracket
    by_contra hitems
    have hmid := hrounds.behind_of_ne_nil (P := fun ts => skipTrivia ts = ts)
      (fun ho => skipTrivia_of_operandUpTo (item_eq_some_iff.mp ho).2.2)
      (by rintro rfl; exact hitems rfl)
    rw [← hmid] at hcomments
    exact hcomments (commentsAhead_skipTrivia mid)
  · have hcall := hrounds.forall_mem fun ho => hop (item_eq_some_iff.mp ho).2.2
    rw [← forall_mem_passOnComments (fun _ _ _ => Iff.rfl) []] at hcall
    simpa [Expr.IsOperand] using hcall
  · intro e he
    rw [← List.map_dropLast] at he
    obtain ⟨o, ho, rfl⟩ := List.mem_map.mp he
    exact ⟨o, rfl, after_of_mem_dropLast ho⟩

theorem isForm_importOf {start : Span} {t : Term}
    (h : importOf (operandUpTo n) start ts = .ok (t, rest)) : IsForm t rest := by
  obtain ⟨source, hsource, rfl⟩ := importOf_eq_ok_iff.mp h
  exact ⟨⟨source, rfl, hop hsource⟩, rfl, fun _ => skipTrivia_of_operandUpTo hsource⟩

/-- **Every term that a rule makes is a form**, if operands in no chain are no calls. -/
theorem ReadsTerm.isForm {ctx : Context} {t : Term}
    (h : ReadsTerm (operandUpTo n) ctx ts t rest) : IsForm t rest := by
  cases h with
  | name _ _ h => exact isForm_attrPath h
  | list h => exact isForm_list hop h
  | attrSet _ h => exact isForm_attrSet h
  | recursive _ h => exact isForm_attrSet h
  | lambda h => exact isForm_lambda h
  | pattern _ h => exact isForm_patternLambda h
  | namedPattern _ h => exact isForm_patternLambda h
  | letIn h => exact isForm_letIn h
  | import_ h => exact isForm_importOf hop h
  | conditional h => exact isForm_conditional h
  | not h => exact isForm_unary h
  | negate _ _ h => exact isForm_unary h
  | paren h => exact isForm_paren h
  | _ => exact ⟨trivial, rfl, by rintro ⟨⟩⟩

end

/-! ### Operands

An operand is a form with its arguments, so what was said about forms is carried over to calls. -/

/-- An operand in no chain is no call. -/
theorem isCall_of_single {o : Operand} (h : operandUpTo n .single ts = .ok (o, rest)) :
    o.term.isCall = false := by
  induction n generalizing ts o rest with
  | zero => simp [operandUpTo] at h
  | succ n ih =>
    obtain ⟨clauses, ts₁, -, head, ts₂, hhead, t, ts₃, ht, -, rfl⟩ := operandWith_eq_ok_iff.mp h
    obtain ⟨rfl, -⟩ : head = t ∧ ts₂ = ts₃ := by simpa [withArguments] using ht
    exact ((termIn_eq_ok_iff.mp hhead).isForm ih).not_call

/-- A form with arguments behind it is as normal as the form, and if it has some, or the form ends
with an operand itself, then no trivia is left. -/
theorem IsForm.applied {callee t : Term} (hcallee : IsForm callee ts)
    (hcallable : callee.isCallable = true)
    (h : applied (operandUpTo n) callee ts = .ok (t, rest)) :
    t.Normal ∧ (t.isOpen = true → skipTrivia rest = rest) := by
  obtain ⟨arguments, harguments, hshape⟩ := applied_eq_ok_iff.mp h
  have hrounds := rounds_of_repeated stop_argument harguments
  rcases hshape with ⟨rfl, rfl⟩ | ⟨last, hlast, rfl⟩
  · cases hrounds
    exact ⟨hcallee.normal, hcallee.border⟩
  · -- a call has a last argument, so it has one
    have hne : arguments ≠ [] := by
      rintro rfl
      cases hlast
    have hplain := hrounds.forall_mem (P := fun o => o.term.isCall = false ∧ o.modifiers = [])
      fun ho => by
        obtain ⟨t, us, hskip, hstarts, ho⟩ := argument_eq_some_iff.mp ho
        exact ⟨isCall_of_single ho,
          modifiers_of_argumentAhead ho ((argumentAhead_of_eq hskip).trans hstarts)⟩
    exact ⟨⟨hcallable, by simpa using hne, by simpa [Expr.IsOperand] using hplain⟩,
      fun _ => hrounds.behind_of_ne_nil (P := fun ts => skipTrivia ts = ts)
        skipTrivia_of_argument hne⟩

/-- An operand whose term ends with another operand has no comments behind it. -/
theorem after_of_isOpen {ctx : Context} {o : Operand}
    (h : operandUpTo n ctx ts = .ok (o, rest)) (hopen : o.term.isOpen = true) : o.after = [] := by
  cases n with
  | zero => simp [operandUpTo] at h
  | succ n =>
    obtain ⟨clauses, ts₁, -, head, ts₂, hhead, t, ts₃, ht, -, rfl⟩ := operandWith_eq_ok_iff.mp h
    have hform := (termIn_eq_ok_iff.mp hhead).isForm isCall_of_single
    suffices skipTrivia ts₃ = ts₃ from this ▸ commentsAhead_skipTrivia ts₃
    rw [withArguments] at ht
    split at ht
    · next hcallable =>
      exact (hform.applied (Bool.and_eq_true_iff.mp hcallable).2 ht).2 hopen
    · obtain ⟨rfl, rfl⟩ := by simpa using ht
      exact hform.border hopen

/-- A name has at least one part. -/
theorem segments_of_attrPath {p : AttrPath} (h : attrPath operand ts = .ok (p, rest)) :
    p.segments ≠ [] := by
  obtain ⟨first, start, mid, -, more, -, rfl⟩ := attrPath_eq_ok_iff.mp h
  exact List.cons_ne_nil _ _

theorem comments_of_attrPath {p : AttrPath} (h : attrPath operand ts = .ok (p, rest)) :
    p.comments = [] :=
  (isForm_attrPath h).normal

/-- The comments in front of a binding are the binding's, and none are its name's. -/
theorem normal_of_binding {b : Binding} (h : binding operand ts = .ok (b, rest))
    (more : List Comment) : (Node.binding (b.addComments more)).Normal := by
  rcases binding_eq_ok_iff.mp h with ⟨start, us, -, h⟩ | ⟨-, h⟩
  · obtain ⟨source, cs, ts₁, -, names, ts₂, -, stop, -, rfl⟩ := inheritance_eq_ok_iff.mp h
    trivial
  · obtain ⟨name, ts₁, hname, eq, ts₂, -, value, ts₃, -, stop, -, rfl⟩ :=
      assignment_eq_ok_iff.mp h
    exact comments_of_attrPath hname

/-- The name of a pattern has no comments, wherever it stands. The pattern has them. -/
theorem normal_of_patternLambda {front : Option AttrPath} {start span : Span} {body : Expr}
    {parameter : Parameter}
    (hfront : ∀ p ∈ front, ∃ name span, p = ⟨[.name name], [], span⟩)
    (h : patternLambda operand front start ts = .ok (.lambda parameter body span, rest)) :
    (Node.parameter parameter).Normal := by
  obtain ⟨body, ts₁, -, stop, ts₂, -, whole, whole_span, more, ts₃, hend, colon, ts₄, -, result, -,
    ht⟩ := patternLambda_eq_ok_iff.mp h
  obtain ⟨rfl, -⟩ := Term.lambda.inj ht
  refine forall_mem_of_patternEnd hend (fun p hp => ?_) comments_of_attrPath
  obtain ⟨name, span, rfl⟩ := hfront p hp
  rfl

/-- **What a rule makes is normal.** -/
theorem Made.normal {nd : Node} (h : Made ts nd) : nd.Normal := by
  cases h with
  | expr => trivial
  | operand _ ho hafter =>
    intro hopen
    have := after_of_isOpen ho hopen
    rcases hafter with rfl | rfl
    · exact this
    · rfl
  | modifier => trivial
  | term _ reads => exact (reads.isForm isCall_of_single).normal
  | call _ reads callable h => exact ((reads.isForm isCall_of_single).applied callable h).1
  | string => trivial
  | interpolation => trivial
  | @path _ _ _ p _ _ h =>
    have hsegments : p.segments ≠ [] := segments_of_attrPath h
    exact hsegments
  | argumentName => exact List.cons_ne_nil _ _
  | binding _ h => exact normal_of_binding h _
  | named => rfl
  | pattern _ hfront h => exact normal_of_patternLambda hfront h
  | formal _ h =>
    obtain ⟨name, mid, hname, ⟨-, -, -, -, -, rfl⟩ | ⟨-, -, rfl⟩⟩ := formal_eq_ok_iff.mp h
    · exact comments_of_attrPath hname
    · exact comments_of_attrPath hname

end Grammar

namespace Program

variable {ts : List Token} {p : Program}

/-- **Every node of a program is normal.** -/
theorem normal_of_mem_nodes (h : ofTokens ts = .ok p) {nd : Node} (hnd : nd ∈ p.body.nodes) :
    nd.Normal :=
  (made_of_mem_nodes h hnd).normal

/-- The tokens of a call of `f` in a list, with a comment on each side of the list. -/
def listedTokens : List Token :=
  [⟨.comment "front" true, onFirstLine 0 9⟩, ⟨.symbol .openBracket, onFirstLine 9 10⟩,
    ⟨.symbol .openParen, onFirstLine 10 11⟩, ⟨.identifier "f", onFirstLine 11 12⟩,
    ⟨.int 1, onFirstLine 13 14⟩, ⟨.symbol .closeParen, onFirstLine 14 15⟩,
    ⟨.symbol .closeBracket, onFirstLine 15 16⟩, ⟨.comment "behind" false, onFirstLine 16 23⟩,
    ⟨.endOfInput, onFirstLine 23 23⟩]

theorem normal_of_mem_nodes_listedTokens :
    ∃ p, ofTokens listedTokens = .ok p ∧ p.body.nodes.length = 14 ∧
      ∀ nd ∈ p.body.nodes, nd.Normal :=
  ⟨_, rfl, by rfl, fun _ hnd => @normal_of_mem_nodes listedTokens _ rfl _ hnd⟩

end Program

end NixSyntax
