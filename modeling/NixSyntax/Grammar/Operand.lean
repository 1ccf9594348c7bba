import NixSyntax.Grammar.Binding
import NixSyntax.Grammar.Function

/-!
# Terms and operands

Every form that an operand can have, and the operand with all that belongs to it: the clauses and
comments in front of it, the arguments behind it, and the comments behind those.

## Implementation notes

Most rules start behind the token that tells the form, and are given its place. Where a name is
followed by a colon or an `@`, and where a minus sign is followed by a number, the next token alone
decides; nothing may stand between the two.

A list gives the comments between two items to the second, although the first item took them.

## Main definitions

* `paren`, `list`, `conditional`, `importOf`: the forms that no other module has
* `primary`, `termIn`: any form, and the same with operators in front
* `operandWith`: an operand
-/

namespace NixSyntax

namespace Grammar

/-- Whether a token can begin an argument. -/
def startsArgument : TokenKind → Bool
  | .null => true
  | .bool _ => true
  | .string _ _ => true
  | .int _ => true
  | .float _ => true
  | .path _ => true
  | .identifier _ => true
  | .interpolation _ => true
  | .keyword .rec_ => true
  | .symbol .openParen => true
  | .symbol .openBrace => true
  | .symbol .openBracket => true
  | .symbol .bang => true
  | _ => false

/-- The clause that a keyword begins. -/
def clauseKind? : Keyword → Option ModifierKind
  | .with_ => some .with_
  | .assert => some .assert
  | _ => none

/-- Gives the comments that an operand took behind itself to the operand that follows. `pending`
are the comments that the first operand is given. -/
def passOnComments : List Comment → List Operand → List Operand
  | _, [] => []
  | pending, [o] => [{ o with before := pending ++ o.before }]
  | pending, o :: p :: os =>
    { o with before := pending ++ o.before, after := [] } :: passOnComments o.after (p :: os)

variable (operand : Context → Rule Operand)

/-! ### Forms -/

/-- An expression in parentheses, behind the opening one. -/
def paren (start : Span) : Rule Term := fun ts => do
  let (body, ts) ← expression operand ts
  let (stop, ts) ← expectSymbol .closeParen ts
  return (.paren body (start.join stop), ts)

/-- An item of a list. -/
def item : Rule (Option Operand) := fun ts =>
  if atEnd (skipTrivia ts) || nextIsSymbol .closeBracket ts then .ok (none, ts)
  else do
    let (o, ts) ← operand .single ts
    return (some o, ts)

/-- A list, behind the opening bracket. -/
def list (start : Span) : Rule Term := fun ts => do
  let (items, ts) ← repeated (item operand) ts
  let comments := commentsAhead ts
  let (stop, ts) ← expectSymbol .closeBracket (skipTrivia ts)
  return (.list ((passOnComments [] items).map .operand) comments (start.join stop), ts)

/-- A choice, behind its `if`. -/
def conditional (start : Span) : Rule Term := fun ts => do
  let (condition, ts) ← expression operand ts
  let (_, ts) ← expectKeyword .then_ ts
  let (consequence, ts) ← expression operand ts
  let (_, ts) ← expectKeyword .else_ ts
  let (alternative, ts) ← expression operand ts
  return (.conditional condition consequence alternative (start.join alternative.span), ts)

/-- An import, behind its keyword. -/
def importOf (start : Span) : Rule Term := fun ts => do
  let (source, ts) ← operand .single ts
  return (.import_ (.operand source) (start.join source.span), ts)

/-! ### Terms -/

/-- The form that a keyword begins, behind the keyword. -/
def keywordForm (k : Keyword) (span : Span) (ts : List Token) : Except Stuck (Term × List Token) :=
  match k with
  | .let_ => letIn operand span ts
  | .import_ => importOf operand span ts
  | .if_ => conditional operand span ts
  | .rec_ => do
    let (_, ts) ← expectSymbol .openBrace ts
    attrSet operand true span ts
  | _ => refuse (.unexpectedKeyword k) (⟨.keyword k, span⟩ :: ts)

/-- The form that a name begins, behind the name: a function, or a path of names. -/
def nameForm (name : String) (span : Span) (ts : List Token) :
    Except Stuck (Term × List Token) :=
  let parameter : AttrPath := ⟨[.name name], [], span⟩
  let path : Except Stuck (Term × List Token) := do
    let (p, rest) ← attrPath operand (⟨.identifier name, span⟩ :: ts)
    return (.name p, rest)
  match ts with
  | ⟨.symbol .colon, _⟩ :: rest => lambda operand parameter rest
  | ⟨.symbol .atSign, _⟩ :: ⟨.symbol .openBrace, start⟩ :: rest =>
    if opensPattern true rest then patternLambda operand (some parameter) start rest else path
  | _ => path

/-- A term without operators in front. -/
def primary : Rule Term
  | ⟨.null, span⟩ :: ts => .ok (.null span, ts)
  | ⟨.bool value, span⟩ :: ts => .ok (.bool value span, ts)
  | ⟨.int value, span⟩ :: ts => .ok (.int value span, ts)
  | ⟨.float value, span⟩ :: ts => .ok (.float value span, ts)
  | ⟨.path value, span⟩ :: ts => .ok (.path value span, ts)
  | ⟨.string fragments multiline, span⟩ :: ts => do
    let literal ← stringOf operand fragments multiline span
    return (.string literal, ts)
  | ⟨.interpolation tokens, span⟩ :: ts => do
    let content ← interpolationOf operand tokens span
    return (.interpolation content, ts)
  | ⟨.symbol .openBracket, span⟩ :: ts => list operand span ts
  | ⟨.symbol .openBrace, span⟩ :: ts =>
    if opensPattern false ts then patternLambda operand none span ts
    else attrSet operand false span ts
  | ⟨.symbol .openParen, span⟩ :: ts => paren operand span ts
  | ⟨.identifier name, span⟩ :: ts => nameForm operand name span ts
  | ⟨.keyword k, span⟩ :: ts => keywordForm operand k span ts
  | ts => refuse .unexpectedToken ts

/-- An operator in front of an operand, behind the operator. -/
def unary (ctx : Context) (op : UnaryOp) (start : Span) : Rule Term := fun ts => do
  let (o, ts) ← operand ctx ts
  return (.unary op (.operand o) (start.join o.span), ts)

/-- A term, with the operators in front of it. A minus sign directly in front of a number is a
part of the number. -/
def termIn (ctx : Context) : Rule Term
  | ⟨.symbol .bang, start⟩ :: ts => unary operand ctx .not start ts
  | ⟨.symbol .minus, start⟩ :: ts =>
    match ts with
    | ⟨.int value, stop⟩ :: rest => .ok (.int (-value) (start.join stop), rest)
    | ⟨.float value, stop⟩ :: rest => .ok (.float (-value) (start.join stop), rest)
    | _ => unary operand ctx .negate start ts
  | ts => primary operand ts

/-! ### Operands -/

/-- An argument. -/
def argument : Rule (Option Operand) := fun ts =>
  match skipTrivia ts with
  | t :: _ =>
    if startsArgument t.kind then do
      let (o, ts) ← operand .single ts
      return (some o, ts)
    else .ok (none, ts)
  | [] => .ok (none, ts)

/-- A term with the arguments behind it. -/
def applied (callee : Term) : Rule Term := fun ts => do
  let (arguments, ts) ← repeated (argument operand) ts
  match arguments.getLast? with
  | some last =>
    return (.call callee (arguments.map .operand) (callee.span.join last.span), ts)
  | none => return (callee, ts)

/-- A `with` or `assert` clause, and the comments in front of it. -/
def clause : Rule (Option (List Comment × Modifier)) := fun ts =>
  match skipTrivia ts with
  | ⟨.keyword k, start⟩ :: rest =>
    match clauseKind? k with
    | some kind => do
      let (subject, rest) ← expression operand rest
      let (stop, rest) ← expectSymbol .semicolon rest
      return (some (commentsAhead ts, ⟨kind, subject, start.join stop⟩), rest)
    | none => .ok (none, ts)
  | _ => .ok (none, ts)

/-- Where an operand stands: from its first clause, or else from its term, to its term. -/
def operandSpan (modifiers : List Modifier) (term : Term) : Span :=
  match modifiers with
  | m :: _ => m.span.join term.span
  | [] => term.span

/-- An operand. -/
def operandWith (ctx : Context) : Rule Operand := fun ts => do
  let (clauses, ts) ← repeated (clause operand) ts
  let (term, rest) ← termIn operand ctx (skipTrivia ts)
  let (term, rest) ←
    if ctx = .chain && term.isCallable then applied operand term rest else pure (term, rest)
  let modifiers := clauses.map (·.2)
  let before := clauses.flatMap (·.1) ++ commentsAhead ts
  return (⟨modifiers, before, commentsAhead rest, term, operandSpan modifiers term⟩,
    skipTrivia rest)

end Grammar

end NixSyntax
