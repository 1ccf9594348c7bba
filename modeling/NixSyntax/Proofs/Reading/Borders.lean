import NixSyntax.Proofs.Printing.Follow
import NixSyntax.Proofs.Reading.Depth

/-!
# Where operands begin and end

An operand takes all line breaks and comments on both of its sides. Those in front of it decide
nothing but which comments it has. Behind it none are left, so neither are they behind a form that
ends with an operand.

Whether an operand is in a chain makes a difference only if an argument follows it.

## Trivia is read by whoever comes first

An operand takes the trivia behind it, so a rule that comes next finds none in front. Some rules
skip trivia themselves where they begin, and for these it makes no difference whether an operand has
done so before. Others ask for a token directly, and there it does: they can stand behind an
operand, and behind a name only if nothing is between.

## The context

An operand that is an item of a list or an argument is read in no chain, which has one consequence:
it takes no arguments. If none follows, it is the same operand that a chain would begin with. This
is used where something is read in one context and then again in another.

## Main results

* `skipTrivia_of_operandUpTo`: behind an operand no trivia is left
* `operandUpTo_skipTrivia`: an operand without the trivia in front of it
* `operandUpTo_chain`: an operand in no chain that no argument follows
-/

namespace NixSyntax

namespace Grammar

variable {operand : Context → Rule Operand} {n : Nat} {ctx : Context} {ts rest : List Token}
  {o : Operand}

/-! ### Behind an operand

The last step of the rule for an operand takes all trivia. What ends with an operand ends behind the
trivia, and so does every repetition of operands. -/

/-- Behind an operand no trivia is left. -/
theorem skipTrivia_of_operandUpTo (h : operandUpTo n ctx ts = .ok (o, rest)) :
    skipTrivia rest = rest := by
  cases n with
  | zero => simp [operandUpTo] at h
  | succ n =>
    obtain ⟨clauses, ts₁, -, head, ts₂, -, t, ts₃, -, rfl, -⟩ := operandWith_eq_ok_iff.mp h
    exact skipTrivia_skipTrivia ts₃

/-- Behind a chain of links, if there was none in front. -/
theorem skipTrivia_of_links {links : List (Operator × Operand)}
    (h : Rounds (link (operandUpTo n)) ts links rest) (hts : skipTrivia ts = ts) :
    skipTrivia rest = rest := by
  refine h.behind (P := fun ts => skipTrivia ts = ts) (fun {_ l _} hl => ?_) hts
  obtain ⟨operator, o⟩ := l
  obtain ⟨t, us, op, -, -, -, ho⟩ := link_eq_some_iff.mp hl
  exact skipTrivia_of_operandUpTo ho

/-- Behind an expression, which ends with an operand. -/
theorem skipTrivia_of_expression {e : Expr} (h : expression (operandUpTo n) ts = .ok (e, rest)) :
    skipTrivia rest = rest := by
  obtain ⟨first, mid, hfirst, links, hlinks, -⟩ := expression_eq_ok_iff.mp h
  exact skipTrivia_of_links (rounds_of_repeated stop_link hlinks) (skipTrivia_of_operandUpTo hfirst)

theorem skipTrivia_of_argument (h : argument (operandUpTo n) ts = .ok (some o, rest)) :
    skipTrivia rest = rest := by
  obtain ⟨-, -, -, -, ho⟩ := argument_eq_some_iff.mp h
  exact skipTrivia_of_operandUpTo ho

/-! ### In front of an operand

A clause is looked for behind the trivia, and so is a term. What stood in front are the first
comments of the operand. -/

/-- A clause does not begin like an argument. -/
theorem begins_of_clause {c : List Comment × Modifier}
    (h : clause operand ts = .ok (some c, rest)) :
    ∃ first us, skipTrivia ts = first :: us ∧ startsArgument first.kind = false := by
  obtain ⟨cs, m⟩ := c
  obtain ⟨k, start, us, kind, hstart, hkind, -⟩ := clause_eq_some_iff.mp h
  refine ⟨_, _, hstart, ?_⟩
  cases k <;> first | rfl | cases hkind

/-- **An operand without the trivia in front of it** has other comments in front, and is the same
in everything else. -/
theorem operandUpTo_skipTrivia (h : operandUpTo n ctx ts = .ok (o, rest)) :
    ∃ before, operandUpTo n ctx (skipTrivia ts) = .ok ({ o with before }, rest) := by
  cases n with
  | zero => simp [operandUpTo] at h
  | succ n =>
    have hr := repeatable_clause (advances_operandUpTo n)
    obtain ⟨clauses, ts₁, hclauses, head, ts₂, hhead, t, ts₃, ht, rfl, rfl⟩ :=
      operandWith_eq_ok_iff.mp h
    obtain ⟨hrounds, hend⟩ := (repeated_eq_ok_iff hr).mp hclauses
    cases hrounds with
    | nil =>
      have hnone := clause_eq_none_iff.mp hend
      have hclauses' : repeated (clause (operandUpTo n)) (skipTrivia ts) =
          .ok ([], skipTrivia ts) := by
        refine (repeated_eq_ok_iff hr).mpr ⟨.nil, clause_eq_none_iff.mpr ⟨rfl, ?_⟩⟩
        rw [skipTrivia_skipTrivia]
        exact hnone.2
      refine ⟨_, operandWith_eq_ok_iff.mpr ⟨[], _, hclauses', head, ts₂, ?_, t, ts₃, ht, rfl, rfl⟩⟩
      rwa [skipTrivia_skipTrivia]
    | @cons _ mid _ c clauses first more =>
      obtain ⟨cs, m⟩ := c
      obtain ⟨k, start, us, kind, hstart, hkind, subject, mid, he, stop, hstop, -, rfl⟩ :=
        clause_eq_some_iff.mp first
      have hfirst := clause_eq_some_iff.mpr ⟨k, start, us, kind,
        (skipTrivia_skipTrivia ts).trans hstart, hkind, subject, mid, he, stop, hstop, rfl, rfl⟩
      have hclauses' := (repeated_eq_ok_iff hr).mpr ⟨.cons hfirst more, hend⟩
      exact ⟨_, operandWith_eq_ok_iff.mpr
        ⟨_, ts₁, hclauses', head, ts₂, hhead, t, ts₃, ht, rfl, rfl⟩⟩

/-- What follows an operand follows its first token, which is no trivia. -/
theorem leaves_of_operandUpTo (h : operandUpTo n ctx ts = .ok (o, rest)) :
    Leaves 1 (skipTrivia ts) rest := by
  obtain ⟨before, h'⟩ := operandUpTo_skipTrivia h
  exact advances_operandUpTo n h'

/-- An operand that begins like an argument has no clauses. -/
theorem modifiers_of_argumentAhead (h : operandUpTo n ctx ts = .ok (o, rest))
    (harg : argumentAhead ts = true) : o.modifiers = [] := by
  cases n with
  | zero => simp [operandUpTo] at h
  | succ n =>
    obtain ⟨clauses, ts₁, hclauses, head, ts₂, -, t, ts₃, -, -, rfl⟩ := operandWith_eq_ok_iff.mp h
    cases rounds_of_repeated stop_clause hclauses with
    | nil => rfl
    | cons head tail =>
      obtain ⟨first, us, hfirst, hnot⟩ := begins_of_clause head
      rw [argumentAhead_of_eq hfirst, hnot] at harg
      cases harg

/-! ### In a chain and in none

The context reaches the operand behind a unary operator, and the arguments, and nothing else. -/

/-- Where no argument is ahead, a repetition of arguments reads nothing. -/
theorem repeated_argument_of_ahead (hop : Advances operand) (h : argumentAhead ts = false) :
    repeated (argument operand) ts = .ok ([], ts) := by
  exact (repeated_eq_ok_iff (repeatable_argument hop)).mpr
    ⟨.nil, argument_eq_none_iff_ahead.mpr ⟨rfl, h⟩⟩

/-- A term takes no arguments where none are ahead. -/
theorem withArguments_of_ahead (hop : Advances operand) (t : Term)
    (h : argumentAhead ts = false) : withArguments operand ctx t ts = .ok (t, ts) := by
  rw [withArguments]
  split
  · exact applied_eq_ok_iff.mpr ⟨[], repeated_argument_of_ahead hop h, .inl ⟨rfl, rfl⟩⟩
  · rfl

/-- The context of a term matters only behind the operators in front of it. -/
theorem ReadsTerm.chain {t : Term} (h : ReadsTerm operand .single ts t rest)
    (hunary : ∀ {us o}, operand .single us = .ok (o, rest) → operand .chain us = .ok (o, rest)) :
    ReadsTerm operand .chain ts t rest := by
  cases h with
  | null => exact .null
  | bool => exact .bool
  | int => exact .int
  | float => exact .float
  | negativeInt => exact .negativeInt
  | negativeFloat => exact .negativeFloat
  | path => exact .path
  | string literal_eq => exact .string literal_eq
  | interpolation content_eq => exact .interpolation content_eq
  | name no_colon no_pattern path_eq => exact .name no_colon no_pattern path_eq
  | list list_eq => exact .list list_eq
  | attrSet no_pattern attrSet_eq => exact .attrSet no_pattern attrSet_eq
  | recursive brace_eq attrSet_eq => exact .recursive brace_eq attrSet_eq
  | lambda lambda_eq => exact .lambda lambda_eq
  | pattern opens lambda_eq => exact .pattern opens lambda_eq
  | namedPattern opens lambda_eq => exact .namedPattern opens lambda_eq
  | letIn letIn_eq => exact .letIn letIn_eq
  | import_ import_eq => exact .import_ import_eq
  | conditional conditional_eq => exact .conditional conditional_eq
  | not unary_eq =>
    obtain ⟨o, ho, rfl⟩ := unary_eq_ok_iff.mp unary_eq
    exact .not (unary_eq_ok_iff.mpr ⟨o, hunary ho, rfl⟩)
  | negate no_int no_float unary_eq =>
    obtain ⟨o, ho, rfl⟩ := unary_eq_ok_iff.mp unary_eq
    exact .negate no_int no_float (unary_eq_ok_iff.mpr ⟨o, hunary ho, rfl⟩)
  | paren paren_eq => exact .paren paren_eq

/-- **An operand in no chain that no argument follows** is the same operand in a chain. -/
theorem operandUpTo_chain (h : operandUpTo n .single ts = .ok (o, rest))
    (harg : argumentAhead rest = false) : operandUpTo n .chain ts = .ok (o, rest) := by
  induction n generalizing ts o rest with
  | zero => simp [operandUpTo] at h
  | succ n ih =>
    obtain ⟨clauses, ts₁, hclauses, head, ts₂, hhead, t, ts₃, ht, rfl, rfl⟩ :=
      operandWith_eq_ok_iff.mp h
    obtain ⟨rfl, rfl⟩ : head = t ∧ ts₂ = ts₃ := by simpa [withArguments] using ht
    have hnone : argumentAhead ts₂ = false := by simpa [argumentAhead] using harg
    have hhead' := (termIn_eq_ok_iff.mp hhead).chain fun ho => ih ho hnone
    exact operandWith_eq_ok_iff.mpr ⟨clauses, ts₁, hclauses, head, ts₂,
      termIn_eq_ok_iff.mpr hhead', head, ts₂,
      withArguments_of_ahead (advances_operandUpTo n) head hnone, rfl, rfl⟩

end Grammar

end NixSyntax
