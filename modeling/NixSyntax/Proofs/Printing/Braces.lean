import NixSyntax.Proofs.Printing.Printer

/-!
# Braces match in what is printed

Whether braces begin a pattern is decided by the token behind the closing brace that matches, and
`behindBraces` finds that brace by counting. It finds the right one in what is printed, since every
piece of tree has as many closing braces as opening ones and never more of them so far. Tokens
inside an interpolation are not counted, they belong to one token.

## Along the tree

The lemmas follow the printer, one for each type of node, and each is the sum of those for its
parts. Braces are printed in two places, around a set and around a pattern, and `Balanced.braces` is
for these. Everything else is in front, behind or between.

`Balanced` is a statement about any depth and any tokens behind. So it says more than that as many
braces close as open: counting from some depth through balanced tokens never comes below that depth,
for else the count would stop among them.

## Main definitions

* `Balanced`: counting braces through these tokens changes nothing

## Main results

* `Expr.balanced_print`, `Term.balanced_print`, …: what is printed is balanced
* `opensPattern_print`: so the token behind printed braces is looked at
-/

namespace NixSyntax

/-- Braces are all that is counted. -/
def Token.isBrace : Token → Bool
  | ⟨.symbol .openBrace, _⟩ => true
  | ⟨.symbol .closeBrace, _⟩ => true
  | _ => false

/-- Trivia is not counted. -/
theorem Token.isBrace_of_isTrivia {t : Token} (h : t.isTrivia = true) : t.isBrace = false := by
  obtain ⟨kind, span⟩ := t
  cases kind <;> first | rfl | cases h

namespace Grammar

variable {ts us rest : List Token} {depth : Nat}

/-- A token that is no brace is passed. -/
theorem behindBraces_cons {t : Token} (h : t.isBrace = false) :
    behindBraces depth (t :: ts) = behindBraces depth ts := by
  obtain ⟨kind, span⟩ := t
  cases kind with
  | symbol mark => cases mark <;> cases depth <;> simp_all [behindBraces, Token.isBrace]
  | _ => cases depth <;> simp [behindBraces]

/-- Counting braces through these tokens changes nothing. -/
def Balanced (ts : List Token) : Prop :=
  ∀ depth rest, behindBraces depth (ts ++ rest) = behindBraces depth rest

namespace Balanced

theorem nil : Balanced [] := fun _ _ => rfl

/-- Balanced tokens, one behind the other. -/
theorem append (h : Balanced ts) (h' : Balanced us) : Balanced (ts ++ us) := by
  intro depth rest
  rw [List.append_assoc, h, h']

/-- A token that is no brace changes nothing in front. -/
theorem cons {t : Token} (ht : t.isBrace = false) (h : Balanced ts) : Balanced (t :: ts) := by
  intro depth rest
  rw [List.cons_append, behindBraces_cons ht, h]

theorem single {t : Token} (ht : t.isBrace = false) : Balanced [t] := nil.cons ht

/-- The tokens between two braces, and those behind the second. -/
theorem braces (h : Balanced ts) (h' : Balanced us) :
    Balanced (Symbol.openBrace.token :: (ts ++ Symbol.closeBrace.token :: us)) := by
  intro depth rest
  calc behindBraces depth
        (Symbol.openBrace.token :: (ts ++ Symbol.closeBrace.token :: us) ++ rest)
      = behindBraces (depth + 1) (ts ++ Symbol.closeBrace.token :: (us ++ rest)) := by
        simp [behindBraces, TokenKind.token]
    _ = behindBraces (depth + 1) (Symbol.closeBrace.token :: (us ++ rest)) := h _ _
    _ = behindBraces depth (us ++ rest) := by simp [behindBraces, TokenKind.token]
    _ = behindBraces depth rest := h' _ _

end Balanced

/-- The token behind printed braces decides whether they begin a pattern. -/
theorem opensPattern_print (named : Bool) (h : Balanced ts) :
    opensPattern named (ts ++ Symbol.closeBrace.token :: rest) =
      (nextIsSymbol .colon rest || (nextIsSymbol .atSign rest && !named)) := by
  rw [opensPattern]
  rw [h]
  simp [behindBraces, TokenKind.token]

end Grammar

open Grammar (Balanced)

theorem isBrace_operator (op : BinaryOp) : op.kind.token.isBrace = false := by
  cases op <;> rfl

theorem isBrace_unary (op : UnaryOp) : op.mark.token.isBrace = false := by
  cases op <;> rfl

theorem isBrace_clause (kind : ModifierKind) : kind.word.token.isBrace = false := by
  cases kind <;> rfl

/-- A string is a token, whatever braces are in it. -/
theorem StringLiteral.isBrace_print (s : StringLiteral) : s.print.isBrace = false := by
  cases s
  rw [StringLiteral.print]
  rfl

theorem Segment.isBrace_print (s : Segment) : s.print.isBrace = false := by
  cases s with
  | name => rfl
  | string literal =>
    rw [Segment.print]
    exact literal.isBrace_print
  | interpolation => rfl

theorem balanced_printDotted (ss : List Segment) : Balanced (printDotted ss) := by
  induction ss with
  | nil =>
    rw [printDotted]
    exact .nil
  | cons s ss ih =>
    rw [printDotted]
    exact (ih.cons s.isBrace_print).cons rfl

/-- There are no braces in a path, for those of an interpolation in it are in a token. -/
theorem AttrPath.balanced_print (p : AttrPath) : Balanced p.print := by
  obtain ⟨_ | ⟨s, ss⟩, cs, span⟩ := p
  · rw [AttrPath.print]
    exact .nil
  · rw [AttrPath.print]
    exact (balanced_printDotted ss).cons s.isBrace_print

theorem balanced_printPaths (ps : List AttrPath) : Balanced (printPaths ps) := by
  induction ps with
  | nil =>
    rw [printPaths]
    exact .nil
  | cons p ps ih =>
    rw [printPaths]
    exact p.balanced_print.append ih

theorem balanced_printWhole (p : Option AttrPath) : Balanced (printWhole p) := by
  cases p with
  | none =>
    rw [printWhole]
    exact .nil
  | some p =>
    rw [printWhole]
    exact p.balanced_print.cons rfl

/-! ### Nodes with expressions in them

The recursion is that of the printer. -/

mutual

/-- An operator stands between its two sides, with a line break in front. -/
theorem Expr.balanced_print : (e : Expr) → Balanced e.print
  | .binary operator left right _ => by
    rw [Expr.print]
    exact left.balanced_print.append
      ((right.balanced_print.cons (isBrace_operator operator.op)).cons rfl)
  | .operand o => by
    rw [Expr.print]
    exact o.balanced_print

theorem Operand.balanced_print : (o : Operand) → Balanced o.print
  | ⟨modifiers, _, _, term, _⟩ => by
    rw [Operand.print]
    exact (balanced_printModifiers modifiers).append term.balanced_print

theorem balanced_printModifiers : (ms : List Modifier) → Balanced (printModifiers ms)
  | [] => by
    rw [printModifiers]
    exact .nil
  | m :: ms => by
    rw [printModifiers]
    exact m.balanced_print.append (balanced_printModifiers ms)

theorem Modifier.balanced_print : (m : Modifier) → Balanced m.print
  | ⟨kind, subject, _⟩ => by
    rw [Modifier.print]
    exact (subject.balanced_print.append (.single rfl)).cons (isBrace_clause kind)

/-- A term, by its form. -/
theorem Term.balanced_print : (t : Term) → Balanced t.print
  | .null _ => .single rfl
  | .bool _ _ => .single rfl
  | .int _ _ => .single rfl
  | .float _ _ => .single rfl
  | .string literal => .single literal.isBrace_print
  | .path _ _ => .single rfl
  | .interpolation _ => .single rfl
  | .name p => p.balanced_print
  | .list items _ _ => by
    rw [Term.print]
    exact ((balanced_printExprs items).append (.single rfl)).cons rfl
  | .attrSet recursive bindings _ _ => by
    rw [Term.print]
    have hbraces := (balanced_printBindings bindings).braces .nil
    cases recursive with
    | true => exact hbraces.cons rfl
    | false => exact hbraces
  | .lambda parameter body _ => by
    rw [Term.print]
    exact parameter.balanced_print.append (body.balanced_print.cons rfl)
  | .call callee arguments _ => by
    rw [Term.print]
    exact callee.balanced_print.append (balanced_printExprs arguments)
  | .letIn bindings _ body _ => by
    rw [Term.print]
    exact ((balanced_printBindings bindings).append (body.balanced_print.cons rfl)).cons rfl
  | .import_ source _ => by
    rw [Term.print]
    exact source.balanced_print.cons rfl
  | .conditional condition consequence alternative _ => by
    rw [Term.print]
    exact (condition.balanced_print.append ((consequence.balanced_print.append
      (alternative.balanced_print.cons rfl)).cons rfl)).cons rfl
  | .unary op argument _ => by
    rw [Term.print]
    exact (argument.balanced_print.cons rfl).cons (isBrace_unary op)
  | .paren body _ => by
    rw [Term.print]
    exact (body.balanced_print.append (.single rfl)).cons rfl

theorem balanced_printExprs : (es : List Expr) → Balanced (printExprs es)
  | [] => by
    rw [printExprs]
    exact .nil
  | e :: es => by
    rw [printExprs]
    exact e.balanced_print.append (balanced_printExprs es)

theorem balanced_printBindings : (bs : List Binding) → Balanced (printBindings bs)
  | [] => by
    rw [printBindings]
    exact .nil
  | b :: bs => by
    rw [printBindings]
    exact b.balanced_print.append (balanced_printBindings bs)

theorem Binding.balanced_print : (b : Binding) → Balanced b.print
  | .assign name value _ _ => by
    rw [Binding.print]
    exact name.balanced_print.append ((value.balanced_print.append (.single rfl)).cons rfl)
  | .inherit source names _ _ => by
    rw [Binding.print]
    exact ((balanced_printSource source).append
      ((balanced_printPaths names).append (.single rfl))).cons rfl

theorem balanced_printSource : (e : Option Expr) → Balanced (printSource e)
  | none => by
    rw [printSource]
    exact .nil
  | some e => by
    rw [printSource]
    exact (e.balanced_print.append (.single rfl)).cons rfl

/-- A pattern has its braces, and its name behind them. -/
theorem Parameter.balanced_print : (p : Parameter) → Balanced p.print
  | .named name => by
    rw [Parameter.print]
    exact name.balanced_print
  | .pattern formals variadic whole _ _ => by
    rw [Parameter.print]
    exact (balanced_printFormals variadic formals).braces (balanced_printWhole whole)

theorem balanced_printFormals (variadic : Bool) :
    (as : List Formal) → Balanced (printFormals variadic as)
  | [] => by
    rw [printFormals]
    split
    · exact .single rfl
    · exact .nil
  | a :: as => by
    rw [printFormals]
    refine a.balanced_print.append ?_
    split
    · exact .nil
    · exact (balanced_printFormals variadic as).cons rfl

theorem Formal.balanced_print : (a : Formal) → Balanced a.print
  | ⟨name, fallback, _, _⟩ => by
    rw [Formal.print]
    exact name.balanced_print.append (balanced_printFallback fallback)

theorem balanced_printFallback : (e : Option Expr) → Balanced (printFallback e)
  | none => by
    rw [printFallback]
    exact .nil
  | some e => by
    rw [printFallback]
    exact e.balanced_print.cons rfl

end

end NixSyntax
