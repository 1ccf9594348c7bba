import NixSyntax.Proofs.Spelling.Yield
import NixSyntax.Proofs.Tree.Sides
import Mathlib.Order.CompletePartialOrder

/-!
# Where the nodes of a tree stand

`Expr.yield` says which words and marks a tree is made of. `Expr.standing` says the same of tokens
that have their places, and demands one thing more of every node: its place begins where its own
first token begins and has ended where its own last token has. The tokens of a node are those that
its form is made of, so comments around it count for nothing, and neither do line breaks.

Some nodes are made of a part of a token only. The place of an interpolation inside a string is
that of the string's part. What stands between the braces of an interpolation is a list of tokens
of its own, and the expression stands on the significant tokens of that list.

## A mirror of the yield

The definitions follow those of the yield, one for each type of node, with the place as an
additional condition. Where the yield has a choice, so has this: the tokens of a node do not follow
from the node alone. A number may be written with a sign of its own, a comma behind the last
attribute of a pattern may stand or be missing, and the tokens inside of an interpolation may have
trivia among them.

For an operator there is one more demand. Its token is at the place of the operator, and its place
reaches from its left side to its right. The demand is on the tree, without tokens, and is separate
here (`Expr.Joined`), because it has to be shown of trees that are built by grafting.

## Main definitions

* `significant`: the tokens that are neither line breaks nor comments, up to the end of input
* `Ends`: a place begins with the first token of a word and ends with the last
* `spanning`: the words of a language that have a given place
* `Expr.standing`, `Term.standing`, …: the words on which a node stands
* `Expr.Joined`: every operator stands between the beginning of its left side and the end of its
  right side
-/

namespace NixSyntax

/-- The tokens that are neither line breaks nor comments, up to the end of input. -/
def significant (ts : List Token) : List Token :=
  (ts.takeWhile fun t => !t.isEnd).filter fun t => !t.isTrivia

theorem significant_cons {t : Token} (ts : List Token) (hend : t.isEnd = false)
    (htrivia : t.isTrivia = false) : significant (t :: ts) = t :: significant ts := by
  simp [significant, hend, htrivia]

/-- Trivia is left out. -/
theorem significant_cons_of_isTrivia {t : Token} (ts : List Token) (h : t.isTrivia = true) :
    significant (t :: ts) = significant ts := by
  simp [significant, h, Token.isEnd_of_isTrivia h]

/-- Nothing is left where the input has ended. -/
theorem significant_of_atEnd {ts : List Token} (h : Grammar.atEnd ts = true) :
    significant ts = [] := by
  cases ts with
  | nil => rfl
  | cons t ts =>
    have hend : t.isEnd = true := by simpa [Grammar.atEnd] using h
    simp [significant, hend]

/-- Skipping trivia skips nothing significant. -/
@[simp] theorem significant_skipTrivia (ts : List Token) :
    significant (Grammar.skipTrivia ts) = significant ts := by
  induction ts with
  | nil => rfl
  | cons t ts ih =>
    cases ht : t.isTrivia with
    | true => rw [Grammar.skipTrivia_cons_of_isTrivia ts ht, ih, significant_cons_of_isTrivia ts ht]
    | false => rw [Grammar.skipTrivia_cons_of_not_isTrivia ts ht]

/-! ### Words with a place

A place knows its two ends and nothing between. So the condition on a word is about its first token
and its last. -/

/-- The place begins where the first token of the word begins, and has ended where the last one
has. -/
structure Ends (w : List Token) (span : Span) : Prop where
  start : w.head?.map (·.span.start) = some span.start
  stop : w.getLast?.map (·.span.stop) = some span.stop

/-- A single token is at both ends. -/
theorem ends_singleton (t : Token) : Ends [t] t.span := ⟨rfl, rfl⟩

/-- Of two words, one behind the other, the first begins and the second ends. Others may stand
between them. -/
theorem Ends.enclose {w v u : List Token} {a b : Span} (h : Ends w a) (h' : Ends u b) :
    Ends (w ++ (v ++ u)) (a.join b) where
  start := by
    rw [List.head?_append]
    cases hw : w.head? with
    | none => simpa [hw] using h.start
    | some t => simpa [hw] using h.start
  stop := by
    rw [List.getLast?_append, List.getLast?_append]
    cases hu : u.getLast? with
    | none => simpa [hu] using h'.stop
    | some t => simpa [hu] using h'.stop

/-- The words of a language that have the given place. -/
def spanning (span : Span) (L : Language Token) : Language Token := {w | w ∈ L ∧ Ends w span}

/-- The words of one token of the given kind, wherever it stands. -/
def placed (kind : TokenKind) : Language Token := {w | ∃ span, w = [⟨kind, span⟩]}

/-- The words of one mark. -/
def placedMark (s : Symbol) : Language Token := placed (.symbol s)

/-- The words of one keyword. -/
def placedKeyword (k : Keyword) : Language Token := placed (.keyword k)

/-- The words of one number whose negation is given. -/
def placedNegation (value : Float) : Language Token :=
  {w | ∃ x span, -x = value ∧ w = [⟨.float x, span⟩]}

/-- The words of one interpolation at the given place, around the given words. -/
def placedAround (inner : Language Token) (span : Span) : Language Token :=
  {w | ∃ tokens ∈ inner, w = [⟨.interpolation tokens, span⟩]}

mutual

/-- The words on which an expression stands. The token of an operator has the operator's place. -/
def Expr.standing : Expr → Language Token
  | .binary operator left right span =>
    spanning span (left.standing * ({[⟨operator.op.kind, operator.span⟩]} * right.standing))
  | .operand o => o.standing

/-- The words on which an operand stands. -/
def Operand.standing : Operand → Language Token
  | ⟨modifiers, _, _, term, span⟩ => spanning span (modifiersStanding modifiers * term.standing)

/-- The words on which some clauses stand. -/
def modifiersStanding : List Modifier → Language Token
  | [] => 1
  | m :: ms => m.standing * modifiersStanding ms

/-- The words on which a clause stands. -/
def Modifier.standing : Modifier → Language Token
  | ⟨kind, subject, span⟩ =>
    spanning span (placedKeyword kind.word * (subject.standing * placedMark .semicolon))

/-- The words on which a term stands. A number may have its sign in front of it. -/
def Term.standing : Term → Language Token
  | .null span => spanning span (placed .null)
  | .bool value span => spanning span (placed (.bool value))
  | .int value span =>
    spanning span (placed (.int value) + placedMark .minus * placed (.int (-value)))
  | .float value span =>
    spanning span (placed (.float value) + placedMark .minus * placedNegation value)
  | .string literal => literal.standing
  | .path value span => spanning span (placed (.path value))
  | .interpolation content => placedAround content.inside content.span
  | .name p => p.standing
  | .list items _ span =>
    spanning span (placedMark .openBracket * (exprsStanding items * placedMark .closeBracket))
  | .attrSet recursive bindings _ span =>
    spanning span ((if recursive then placedKeyword .rec_ else 1) *
      (placedMark .openBrace * (bindingsStanding bindings * placedMark .closeBrace)))
  | .lambda parameter body span =>
    spanning span (parameter.standing * (placedMark .colon * body.standing))
  | .call callee arguments span => spanning span (callee.standing * exprsStanding arguments)
  | .letIn bindings _ body span =>
    spanning span (placedKeyword .let_ *
      (bindingsStanding bindings * (placedKeyword .in_ * body.standing)))
  | .import_ source span => spanning span (placedKeyword .import_ * source.standing)
  | .conditional condition consequence alternative span =>
    spanning span (placedKeyword .if_ * (condition.standing * (placedKeyword .then_ *
      (consequence.standing * (placedKeyword .else_ * alternative.standing)))))
  | .unary op argument span => spanning span (placedMark op.mark * argument.standing)
  | .paren body span =>
    spanning span (placedMark .openParen * (body.standing * placedMark .closeParen))

/-- The words on which some expressions stand, one behind the other. -/
def exprsStanding : List Expr → Language Token
  | [] => 1
  | e :: es => e.standing * exprsStanding es

/-- The words on which a string stands. They are one token each, at the string's place. -/
def StringLiteral.standing : StringLiteral → Language Token
  | ⟨parts, multiline, span⟩ =>
    {w | ∃ fragments ∈ partsStanding parts, w = [⟨.string fragments multiline, span⟩]}

/-- The parts of the tokens on which the parts of a string stand. -/
def partsStanding : List StringPart → Language StringFragment
  | [] => 1
  | part :: parts => part.standing * partsStanding parts

/-- The part of a token on which a part of a string stands. An interpolation has its place. -/
def StringPart.standing : StringPart → Language StringFragment
  | .text content => {[.text content]}
  | .interpolation content =>
    {w | ∃ tokens ∈ content.inside, w = [.interpolation tokens content.span]}

/-- The tokens between the braces of an interpolation, line breaks and comments included. -/
def Interpolation.inside : Interpolation → Language Token
  | ⟨body, _⟩ => {tokens | significant tokens ∈ body.standing}

/-- The words on which a path of names stands. -/
def AttrPath.standing : AttrPath → Language Token
  | ⟨[], _, _⟩ => 0
  | ⟨s :: ss, _, span⟩ => spanning span (s.standing * dottedStanding ss)

/-- The words on which some names stand, with a dot in front of each. -/
def dottedStanding : List Segment → Language Token
  | [] => 1
  | s :: ss => placedMark .dot * s.standing * dottedStanding ss

/-- The words on which a name of a path stands. -/
def Segment.standing : Segment → Language Token
  | .name name => placed (.identifier name)
  | .string literal => literal.standing
  | .interpolation content => placedAround content.inside content.span

/-- The words on which some paths of names stand, one behind the other. -/
def pathsStanding : List AttrPath → Language Token
  | [] => 1
  | p :: ps => p.standing * pathsStanding ps

/-- The words on which some bindings stand. -/
def bindingsStanding : List Binding → Language Token
  | [] => 1
  | b :: bs => b.standing * bindingsStanding bs

/-- The words on which a binding stands. -/
def Binding.standing : Binding → Language Token
  | .assign name value _ span =>
    spanning span (name.standing * (placedMark .assign * (value.standing * placedMark .semicolon)))
  | .inherit source names _ span =>
    spanning span (placedKeyword .inherit *
      (sourceStanding source * pathsStanding names * placedMark .semicolon))

/-- The words on which that stands which names are taken from. -/
def sourceStanding : Option Expr → Language Token
  | none => 1
  | some e => placedMark .openParen * (e.standing * placedMark .closeParen)

/-- The words on which a parameter stands. A pattern begins with its name or with its opening brace
and ends with its closing brace or with its name. -/
def Parameter.standing : Parameter → Language Token
  | .named name => name.standing
  | .pattern formals variadic none _ span =>
    spanning span (placedMark .openBrace *
      (formalsStanding variadic formals * placedMark .closeBrace))
  | .pattern formals variadic (some name) _ span =>
    spanning span (name.standing * (placedMark .atSign * (placedMark .openBrace *
        (formalsStanding variadic formals * placedMark .closeBrace))) +
      placedMark .openBrace * (formalsStanding variadic formals * placedMark .closeBrace) *
        (placedMark .atSign * name.standing))

/-- The words on which that stands which is between the braces of a pattern. Behind the last
attribute there may be a comma, and there must be one in front of `...`. -/
def formalsStanding (variadic : Bool) : List Formal → Language Token
  | [] => if variadic then placedMark .ellipsis else 1
  | f :: fs =>
    f.standing * (placedMark .comma * formalsStanding variadic fs +
      if fs.isEmpty && !variadic then 1 else 0)

/-- The words on which an attribute of a pattern stands. -/
def Formal.standing : Formal → Language Token
  | ⟨name, fallback, _, span⟩ => spanning span (name.standing * fallbackStanding fallback)

/-- The words on which a fallback stands. -/
def fallbackStanding : Option Expr → Language Token
  | none => 1
  | some e => placedMark .question * e.standing

end

/-! ### The words of several

What is read by repetition is a list in the tree, and its words are a product over the list. -/

section

attribute [local simp] Expr.standing Operand.standing modifiersStanding Modifier.standing
  Term.standing exprsStanding StringLiteral.standing partsStanding StringPart.standing
  Interpolation.inside AttrPath.standing dottedStanding Segment.standing pathsStanding
  bindingsStanding Binding.standing sourceStanding Parameter.standing formalsStanding
  Formal.standing fallbackStanding

theorem exprsStanding_eq (es : List Expr) :
    exprsStanding es = (es.map Expr.standing).prod := by
  induction es with
  | nil => simp
  | cons e es ih => simp [ih]

theorem exprsStanding_map_operand (os : List Operand) :
    exprsStanding (os.map .operand) = (os.map Operand.standing).prod := by
  simp [exprsStanding_eq, Function.comp_def]

theorem dottedStanding_eq (ss : List Segment) :
    dottedStanding ss = (ss.map fun s => placedMark .dot * s.standing).prod := by
  induction ss with
  | nil => simp
  | cons s ss ih => simp [ih]

theorem pathsStanding_eq (ps : List AttrPath) :
    pathsStanding ps = (ps.map AttrPath.standing).prod := by
  induction ps with
  | nil => simp
  | cons p ps ih => simp [ih]

theorem bindingsStanding_eq (bs : List Binding) :
    bindingsStanding bs = (bs.map Binding.standing).prod := by
  induction bs with
  | nil => simp
  | cons b bs ih => simp [ih]

end

/-! ### Chains

A tree of operators stands on the words of its chain, provided that places are joined. Grafting
rebuilds the nodes along the right spine of the tree and joins their places anew. -/

/-- The place of an operator expression is that of its words. -/
theorem Expr.ends_of_mem_standing {e : Expr} {w : List Token} (h : w ∈ e.standing) :
    Ends w e.span := by
  cases e with
  | binary operator left right span =>
    rw [Expr.standing] at h
    exact h.2
  | operand o =>
    obtain ⟨modifiers, before, after, term, span⟩ := o
    rw [Expr.standing, Operand.standing] at h
    exact h.2

/-- Every operator expression reaches from the beginning of its left side to the end of its right
side. -/
def Expr.Joined : Expr → Prop
  | .binary _ left right span => span = left.span.join right.span ∧ left.Joined ∧ right.Joined
  | .operand _ => True

/-- What is joined is so at every operator below. -/
theorem Expr.joined_of_mem_sides {e x : Expr} (h : e.Joined) (hx : x ∈ e.sides) : x.Joined := by
  induction e using Expr.sides.induct with
  | case1 operator left right span hleft hright =>
    rcases List.mem_cons.mp hx with rfl | hx
    · exact h
    · rcases List.mem_append.mp hx with hx | hx
      · exact hleft h.2.1 hx
      · exact hright h.2.2 hx
  | case2 o =>
    obtain rfl := List.mem_singleton.mp hx
    exact h

/-- A graft joins the places on its way. -/
theorem Grammar.joined_graft {operator : Operator} {right e : Expr} (hright : right.Joined)
    (he : e.Joined) (depth : Nat) : (graft operator right depth e).Joined := by
  fun_induction graft operator right depth e with
  | case1 => exact ⟨rfl, trivial, hright⟩
  | case2 op l r span => exact ⟨rfl, he.2.1, rfl, he.2.2, hright⟩
  | case3 depth op l r span ih => exact ⟨rfl, he.2.1, ih he.2.2⟩

/-- One more operator leaves all of them joined. -/
theorem Grammar.Spine.joined_push (s : Spine) (h : s.root.Joined) (operator : Operator)
    (o : Operand) : (s.push operator o).root.Joined := by
  rw [Spine.push]
  split
  · exact ⟨rfl, h, trivial⟩
  · have ho : (Expr.operand o).Joined := trivial
    exact joined_graft ho h s.depth

/-- **Operators reach over their two sides**, however they were grafted. -/
theorem Grammar.joined_assemble (first : Operand) (links : List (Operator × Operand)) :
    (assemble first links).Joined := by
  suffices ∀ s : Spine, s.root.Joined →
      (links.foldl (fun s link => s.push link.1 link.2) s).root.Joined from
    this (.single first) trivial
  induction links with
  | nil => exact fun s h => h
  | cons link links ih => exact fun s h => ih _ (s.joined_push h link.1 link.2)

/-- The words on which an operator and the operand behind it stand. -/
def linkStanding (l : Operator × Operand) : Language Token :=
  {[⟨l.1.op.kind, l.1.span⟩]} * l.2.standing

/-- Where operators reach over their two sides, an expression stands on the words of its chain. -/
theorem Expr.chain_le_standing {e : Expr} (h : e.Joined) :
    e.first.standing * (e.links.map linkStanding).prod ≤ e.standing := by
  induction e using Expr.sides.induct with
  | case2 o => simp [Expr.standing]
  | case1 operator left right span ihl ihr =>
    obtain ⟨rfl, hleft, hright⟩ := h
    calc left.first.standing *
          ((left.links ++ (operator, right.first) :: right.links).map linkStanding).prod
        = left.first.standing * (left.links.map linkStanding).prod *
            ({[⟨operator.op.kind, operator.span⟩]} *
              (right.first.standing * (right.links.map linkStanding).prod)) := by
          simp [linkStanding, mul_assoc]
      _ ≤ left.standing * ({[⟨operator.op.kind, operator.span⟩]} * right.standing) :=
          mul_le_mul' (ihl hleft) (mul_le_mul_right (ihr hright) _)
      _ ≤ (Expr.binary operator left right (left.span.join right.span)).standing := by
          rw [Expr.standing]
          rintro w hw
          obtain ⟨l, hl, v, ⟨o, ho, r, hr, rfl⟩, rfl⟩ := hw
          exact ⟨⟨l, hl, _, ⟨o, ho, r, hr, rfl⟩, rfl⟩,
            (left.ends_of_mem_standing hl).enclose (right.ends_of_mem_standing hr)⟩

end NixSyntax
