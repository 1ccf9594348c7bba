import NixSyntax.Proofs.Chain.Assembled
import NixSyntax.Proofs.Lexing.Nested
import NixSyntax.Proofs.Printing.Braces
import NixSyntax.Proofs.Reading.Depth
import Mathlib.Data.List.Forall2

/-!
# Where a node comes from

Each node of a tree is the result of one rule, applied somewhere to the tokens. `Made` says which
rule that was for each type of node, and `Inside` where it can have been applied: behind some of
the tokens, or behind some tokens of an interpolation in them, at any depth. What is to be shown of
all nodes of a type is then shown of the results of one rule.

A few nodes are not what a rule returned. A list moves comments from one of its items to the next, a
set adds comments to its last binding, an `inherit` gives comments to a name, and a name in front of
a colon or a pattern is taken from its token. An operator expression can be a side of what was read.
It was assembled from a part of the chain then.

`Makes` is made for induction over the rules: from the tokens in front of `rest`, these nodes were
made. It keeps account of two more things that every rule passes on to the next. The braces in front
of `rest` match. And the interpolations among the tokens and those among the nodes correspond, one
to one and in the same order.

## Nested tokens

What is inside of an interpolation was read from its own list of tokens, of which nothing is left in
the end. `Inside` reaches there with a step for each interpolation that is entered. It relates lists
of tokens and not tokens, since a rule is given all that is behind a place.

## Main definitions

* `interpolationsOf`: the interpolations of some tokens, at every depth
* `Inside`: what a rule may have been applied to
* `Made`: the rule that a node is the result of
* `ReadAs`: an interpolation of the tokens was read as one of the tree
* `Makes`: the nodes that were made from the tokens in front of some others
-/

namespace NixSyntax

/-! ### The interpolations of tokens

They are listed in the order in which they begin in the text. The end of input ends the list, as no
rule goes past it. -/

mutual

/-- The interpolations of some tokens up to the end of input, each in front of those inside it. -/
def interpolationsOf : List Token → List (List Token × Span)
  | [] => []
  | t :: ts => if t.isEnd then [] else t.allInterpolations ++ interpolationsOf ts

/-- The interpolations of a token, each in front of those inside it. -/
def Token.allInterpolations : Token → List (List Token × Span)
  | ⟨.interpolation tokens, span⟩ => (tokens, span) :: interpolationsOf tokens
  | ⟨.string parts _, _⟩ => fragmentsInterpolations parts
  | _ => []

/-- The interpolations among some parts of a string, each in front of those inside it. -/
def fragmentsInterpolations : List StringFragment → List (List Token × Span)
  | [] => []
  | part :: parts => part.allInterpolations ++ fragmentsInterpolations parts

/-- The interpolation that a part of a string is, in front of those inside it. -/
def StringFragment.allInterpolations : StringFragment → List (List Token × Span)
  | .text _ => []
  | .interpolation tokens span => (tokens, span) :: interpolationsOf tokens

end

@[simp] theorem interpolationsOf_nil : interpolationsOf [] = [] := by simp [interpolationsOf]

/-- The interpolations of the first token stand in front. -/
theorem interpolationsOf_cons {t : Token} (ts : List Token) (h : t.isEnd = false) :
    interpolationsOf (t :: ts) = t.allInterpolations ++ interpolationsOf ts := by
  simp [interpolationsOf, h]

theorem interpolationsOf_of_atEnd {ts : List Token} (h : Grammar.atEnd ts = true) :
    interpolationsOf ts = [] := by
  cases ts with
  | nil => exact interpolationsOf_nil
  | cons t ts => rw [interpolationsOf, if_pos (by simpa [Grammar.atEnd] using h)]

/-- Most tokens have none. -/
theorem Token.allInterpolations_of_isFlat {t : Token} (h : t.kind.isFlat = true) :
    t.allInterpolations = [] := by
  obtain ⟨kind, span⟩ := t
  cases kind <;> simp_all [TokenKind.isFlat, Token.allInterpolations]

/-- The interpolation that a node is. -/
def Node.interpolation? : Node → Option Interpolation
  | .interpolation c => some c
  | _ => none

/-- The interpolations of a tree, each in front of those inside it. -/
def Expr.interpolations (e : Expr) : List Interpolation := e.nodes.filterMap Node.interpolation?

namespace Grammar

/-! ### Where a rule was applied

One step goes behind a token, another into an interpolation of it. -/

/-- The tokens `us` are what is left of `ts`, or of the tokens of an interpolation in `ts`. -/
inductive Inside (us : List Token) : List Token → Prop
  | refl : Inside us us
  | behind {t : Token} {ts : List Token} (h : Inside us ts) : Inside us (t :: ts)
  | within {t : Token} {ts : List Token} {i : List Token × Span} (mem : i ∈ t.interpolations)
      (h : Inside us i.1) : Inside us (t :: ts)

theorem Inside.trans {us vs ts : List Token} (h : Inside us vs) (h' : Inside vs ts) :
    Inside us ts := by
  induction h' with
  | refl => exact h
  | behind _ ih => exact .behind ih
  | within mem _ ih => exact .within mem ih

theorem Inside.append {us ts : List Token} (front : List Token) (h : Inside us ts) :
    Inside us (front ++ ts) := by
  induction front with
  | nil => exact h
  | cons t front ih => exact .behind ih

theorem Leaves.inside {n : Nat} {us ts rest : List Token} (h : Leaves n ts rest)
    (h' : Inside us rest) : Inside us ts := by
  obtain ⟨front, rfl, -, -⟩ := h
  exact h'.append front

theorem Inside.tail {t : Token} {us ts : List Token} (h : Inside (t :: us) ts) : Inside us ts :=
  (Inside.behind .refl).trans h

/-- What a rule leaves is inside of what it was applied to. -/
theorem Inside.rest {n : Nat} {us ts rest : List Token} (h : Inside us ts)
    (h' : Leaves n us rest) : Inside rest ts :=
  (h'.inside .refl).trans h

/-! ### Which rule made a node

Each constructor has the rule as an equation, with whatever bound it was applied at. What is to be
known of the node follows from the lemma on that rule. -/

/-- A node and the rule that it is the result of, applied somewhere inside the tokens `ts`. -/
inductive Made (ts : List Token) : Node → Prop
  /-- An operator expression is assembled from operands with links between them. Where it is one
  operand, comments may have moved. -/
  | expr {k : Nat} {ctx : Context} {us mid rest : List Token} {e : Expr} {first : Operand}
      (inside : Inside us ts) (first_eq : operandUpTo k ctx us = .ok (first, mid))
      (same : e.first = { first with before := e.first.before, after := e.first.after })
      (links : Rounds (link (operandUpTo k)) mid e.links rest) (assembled : e.Assembled)
      (chain : ctx = .chain ∨ e.links = []) :
      Made ts (.expr e)
  /-- Comments of an operand may have moved: those behind it are its own or have gone, and in front
  of it there may be others. -/
  | operand {k : Nat} {ctx : Context} {us rest : List Token} {o : Operand}
      {before after : List Comment} (inside : Inside us ts)
      (operand_eq : operandUpTo k ctx us = .ok (o, rest))
      (after_eq : after = o.after ∨ after = []) :
      Made ts (.operand { o with before, after })
  | modifier {k : Nat} {us rest : List Token} {c : List Comment × Modifier} (inside : Inside us ts)
      (clause_eq : clause (operandUpTo k) us = .ok (some c, rest)) :
      Made ts (.modifier c.2)
  | term {k : Nat} {ctx : Context} {us rest : List Token} {t : Term} (inside : Inside us ts)
      (reads : ReadsTerm (operandUpTo k) ctx us t rest) :
      Made ts (.term t)
  | call {k : Nat} {us mid rest : List Token} {callee t : Term} (inside : Inside us ts)
      (reads : ReadsTerm (operandUpTo k) .chain us callee mid) (callable : callee.isCallable = true)
      (applied_eq : applied (operandUpTo k) callee mid = .ok (t, rest)) :
      Made ts (.term t)
  | string {k : Nat} {us : List Token} {fragments : List StringFragment} {multiline : Bool}
      {span : Span} {s : StringLiteral}
      (inside : Inside (⟨.string fragments multiline, span⟩ :: us) ts)
      (string_eq : stringOf (operandUpTo k) fragments multiline span = .ok s) :
      Made ts (.string s)
  | interpolation {k : Nat} {t : Token} {us : List Token} {i : List Token × Span}
      {c : Interpolation} (inside : Inside (t :: us) ts) (mem : i ∈ t.interpolations)
      (interpolation_eq : interpolationOf (operandUpTo k) i.1 i.2 = .ok c) :
      Made ts (.interpolation c)
  /-- A path of names has no comments, or those that an `inherit` gave it. -/
  | path {k : Nat} {us rest : List Token} {p : AttrPath} {comments : List Comment}
      (inside : Inside us ts) (path_eq : attrPath (operandUpTo k) us = .ok (p, rest)) :
      Made ts (.path { p with comments })
  /-- The name of a function's argument, in front of a colon or of a pattern. -/
  | argumentName {name : String} {span : Span} :
      Made ts (.path ⟨[.name name], [], span⟩)
  /-- A binding may have got more comments. -/
  | binding {k : Nat} {us rest : List Token} {b : Binding} {more : List Comment}
      (inside : Inside us ts) (binding_eq : binding (operandUpTo k) us = .ok (b, rest)) :
      Made ts (.binding (b.addComments more))
  | named {name : String} {span : Span} :
      Made ts (.parameter (.named ⟨[.name name], [], span⟩))
  | pattern {k : Nat} {us rest : List Token} {front : Option AttrPath} {start : Span}
      {parameter : Parameter} {body : Expr} {span : Span} (inside : Inside us ts)
      (front_plain : ∀ p ∈ front, ∃ name span, p = ⟨[.name name], [], span⟩)
      (lambda_eq : patternLambda (operandUpTo k) front start us =
        .ok (.lambda parameter body span, rest)) :
      Made ts (.parameter parameter)
  | formal {k : Nat} {us rest : List Token} {comments : List Comment} {f : Formal}
      (inside : Inside us ts)
      (formal_eq : formal (operandUpTo k) comments us = .ok (f, rest)) :
      Made ts (.formal f)

/-- What is made inside some tokens is made inside the tokens around them. -/
theorem Made.of_inside {us ts : List Token} {nd : Node} (h : Made us nd) (h' : Inside us ts) :
    Made ts nd := by
  cases h with
  | expr inside first_eq same links assembled chain =>
    exact .expr (inside.trans h') first_eq same links assembled chain
  | operand inside operand_eq after_eq => exact .operand (inside.trans h') operand_eq after_eq
  | modifier inside clause_eq => exact .modifier (inside.trans h') clause_eq
  | term inside reads => exact .term (inside.trans h') reads
  | call inside reads callable applied_eq =>
    exact .call (inside.trans h') reads callable applied_eq
  | string inside string_eq => exact .string (inside.trans h') string_eq
  | interpolation inside mem interpolation_eq =>
    exact .interpolation (inside.trans h') mem interpolation_eq
  | path inside path_eq => exact .path (inside.trans h') path_eq
  | argumentName => exact .argumentName
  | binding inside binding_eq => exact .binding (inside.trans h') binding_eq
  | named => exact .named
  | pattern inside front_plain lambda_eq =>
    exact .pattern (inside.trans h') front_plain lambda_eq
  | formal inside formal_eq => exact .formal (inside.trans h') formal_eq

/-! ### What was made of some tokens

The relation is composed along a rule, part by part. A part that makes no nodes is a mark, a
keyword, or trivia. -/

/-- The tokens of an interpolation, at its place, were read as an interpolation of the tree. -/
def ReadAs (i : List Token × Span) (c : Interpolation) : Prop :=
  ∃ k, interpolationOf (operandUpTo k) i.1 i.2 = .ok c

/-- From the tokens `ts` in front of `rest` the given nodes were made. -/
structure Makes (ts : List Token) (nodes : List Node) (rest : List Token) : Prop where
  /-- The tokens behind are left, and the input does not end in front of them. -/
  leaves : Leaves 0 ts rest
  /-- The braces that open in front of `rest` close there too, and no others do. -/
  level : ∀ depth, behindBraces depth ts = behindBraces depth rest
  /-- Each node is the result of a rule. -/
  made : ∀ nd ∈ nodes, Made ts nd
  /-- The interpolations of the tokens were read as those of the nodes, in their order. -/
  matched : ∃ is, interpolationsOf ts = is ++ interpolationsOf rest ∧
    List.Forall₂ ReadAs is (nodes.filterMap Node.interpolation?)

variable {ts mid rest : List Token} {ns ns' : List Node}

namespace Makes

theorem refl (ts : List Token) : Makes ts [] ts :=
  ⟨.refl ts, fun _ => rfl, by simp, [], rfl, .nil⟩

/-- One part behind the other. -/
theorem trans (h : Makes ts ns mid) (h' : Makes mid ns' rest) : Makes ts (ns ++ ns') rest where
  leaves := h.leaves.trans h'.leaves
  level depth := (h.level depth).trans (h'.level depth)
  made nd hnd := by
    rcases List.mem_append.mp hnd with hnd | hnd
    · exact h.made nd hnd
    · exact (h'.made nd hnd).of_inside (h.leaves.inside .refl)
  matched := by
    obtain ⟨is, his, hmatch⟩ := h.matched
    obtain ⟨is', his', hmatch'⟩ := h'.matched
    refine ⟨is ++ is', by rw [his, his', List.append_assoc], ?_⟩
    rw [List.filterMap_append]
    exact List.rel_append hmatch hmatch'

/-- What is behind a part may make nothing, as its closing mark does. -/
theorem then_none (h : Makes ts ns mid) (h' : Makes mid [] rest) : Makes ts ns rest := by
  simpa using h.trans h'

theorem none_then (h : Makes ts [] mid) (h' : Makes mid ns rest) : Makes ts ns rest := by
  simpa using h.trans h'

/-- The node around those that were made. -/
theorem node {nd : Node} (hnd : Made ts nd) (hi : nd.interpolation? = none)
    (h : Makes ts ns rest) : Makes ts (nd :: ns) rest where
  leaves := h.leaves
  level := h.level
  made := List.forall_mem_cons.mpr ⟨hnd, h.made⟩
  matched := by
    obtain ⟨is, his, hmatch⟩ := h.matched
    exact ⟨is, his, by simpa [hi] using hmatch⟩

/-- A token, with the nodes made of its interpolations. -/
theorem token {t : Token} (hend : t.isEnd = false) (hbrace : t.isBrace = false)
    (hmade : ∀ nd ∈ ns, Made (t :: ts) nd)
    (hmatched : List.Forall₂ ReadAs t.allInterpolations (ns.filterMap Node.interpolation?)) :
    Makes (t :: ts) ns ts where
  leaves := ((Leaves.refl ts).cons hend).mono (Nat.zero_le _)
  level _ := behindBraces_cons hbrace
  made := hmade
  matched := ⟨_, interpolationsOf_cons ts hend, hmatched⟩

/-- A token that holds no tokens. -/
theorem flat {t : Token} (hflat : t.kind.isFlat = true) (hbrace : t.isBrace = false) :
    Makes (t :: ts) [] ts := by
  obtain ⟨kind, span⟩ := t
  refine token (TokenKind.isEnd_of_isFlat hflat span) hbrace (by simp) ?_
  rw [Token.allInterpolations_of_isFlat hflat]
  exact .nil

end Makes

theorem Token.isFlat_of_isTrivia {t : Token} (h : t.isTrivia = true) : t.kind.isFlat = true := by
  obtain ⟨kind, span⟩ := t
  cases kind <;> first | rfl | cases h

theorem makes_dropWhile {p : Token → Bool} (hp : ∀ t, p t = true → t.isTrivia = true)
    (ts : List Token) : Makes ts [] (ts.dropWhile p) := by
  induction ts with
  | nil => exact .refl []
  | cons t ts ih =>
    cases ht : p t with
    | true =>
      rw [List.dropWhile_cons_of_pos ht]
      exact (Makes.flat (Token.isFlat_of_isTrivia (hp t ht))
        (Token.isBrace_of_isTrivia (hp t ht))).none_then ih
    | false =>
      rw [List.dropWhile_cons_of_neg (by simp [ht])]
      exact .refl _

/-- Nothing is made of trivia. -/
theorem makes_skipTrivia (ts : List Token) : Makes ts [] (skipTrivia ts) :=
  makes_dropWhile (fun _ h => h) ts

namespace Makes

theorem of_skipTrivia (h : Makes (skipTrivia ts) ns rest) : Makes ts ns rest :=
  (makes_skipTrivia ts).none_then h

theorem skipTrivia_right (h : Makes ts ns rest) : Makes ts ns (skipTrivia rest) :=
  h.then_none (makes_skipTrivia rest)

/-- Tokens that follow trivia, with the nodes made of them. -/
theorem of_skipTrivia_eq (h : skipTrivia ts = mid) (h' : Makes mid ns rest) : Makes ts ns rest :=
  of_skipTrivia (h ▸ h')

end Makes

/-- A mark that is no brace. -/
theorem makes_mark {s : Symbol} {span : Span} (h : Token.isBrace ⟨.symbol s, span⟩ = false) :
    Makes (⟨.symbol s, span⟩ :: ts) [] ts :=
  .flat rfl h

theorem makes_keyword {k : Keyword} {span : Span} : Makes (⟨.keyword k, span⟩ :: ts) [] ts :=
  .flat rfl rfl

/-- Nothing is made of a mark. A brace has to be met by another one, and is left out here. -/
theorem makes_expectSymbol {s : Symbol} {span : Span}
    (hs : Token.isBrace ⟨.symbol s, span⟩ = false)
    (h : expectSymbol s ts = .ok (span, rest)) : Makes ts [] rest :=
  .of_skipTrivia_eq (skipTrivia_of_expectSymbol h) (makes_mark hs)

theorem makes_expectKeyword {k : Keyword} {span : Span}
    (h : expectKeyword k ts = .ok (span, rest)) : Makes ts [] rest :=
  .of_skipTrivia_eq (skipTrivia_of_expectKeyword h) makes_keyword

/-- An opening brace, what is made of the tokens behind it, and the closing brace. -/
theorem Makes.braces {open_ close : Span} (h : Makes ts ns mid)
    (h' : skipTrivia mid = ⟨.symbol .closeBrace, close⟩ :: rest) :
    Makes (⟨.symbol .openBrace, open_⟩ :: ts) ns rest where
  leaves := by
    have hclose := h.skipTrivia_right.leaves
    rw [h'] at hclose
    exact ((hclose.cons rfl).trans ((Leaves.refl rest).cons rfl)).mono (Nat.zero_le _)
  level depth := by
    have hinside := h.skipTrivia_right.level (depth + 1)
    rw [h'] at hinside
    simpa [behindBraces] using hinside
  made nd hnd := (h.made nd hnd).of_inside (.behind .refl)
  matched := by
    obtain ⟨is, his, hmatch⟩ := h.skipTrivia_right.matched
    rw [h', interpolationsOf_cons _ rfl] at his
    refine ⟨is, ?_, hmatch⟩
    rw [interpolationsOf_cons _ rfl, his]
    simp [Token.allInterpolations]

/-- Rounds make what each of them makes. -/
theorem Rounds.makes {α : Type} {round : Rule (Option α)} {as : List α} {f : α → List Node}
    (hround : ∀ {ts a rest}, round ts = .ok (some a, rest) → Makes ts (f a) rest)
    (h : Rounds round ts as rest) : Makes ts (as.flatMap f) rest := by
  induction h with
  | nil => exact .refl _
  | cons head tail ih =>
    rw [List.flatMap_cons]
    exact (hround head).trans ih

end Grammar

end NixSyntax
