import NixSyntax.Grammar.Name

/-!
# Functions

A function names its argument, or takes it apart with a pattern in braces.

## Telling patterns from attribute sets

Braces at the place of an operand may begin either. `opensPattern` decides it in advance: it goes
to the closing brace that matches, counting braces and nothing else, and looks at the token behind
it. It does not stop at the end of input, which no list of tokens from a source text has in its
middle.

## Main definitions

* `opensPattern`: whether braces are a function's pattern
* `lambda`, `patternLambda`: the two forms of functions
-/

namespace NixSyntax

namespace Grammar

/-- The tokens behind the closing brace of which `depth` closing braces are in front. -/
def behindBraces : Nat → List Token → Option (List Token)
  | _, [] => none
  | depth, ⟨.symbol .openBrace, _⟩ :: ts => behindBraces (depth + 1) ts
  | 0, ⟨.symbol .closeBrace, _⟩ :: ts => some ts
  | depth + 1, ⟨.symbol .closeBrace, _⟩ :: ts => behindBraces depth ts
  | depth, _ :: ts => behindBraces depth ts

/-- Whether an opening brace, in front of the given tokens, begins the pattern of a function. It
does when a colon follows the closing brace that matches, or an `@`, unless the pattern is named
already. Nothing else about the tokens matters, and they are looked at to their very end. -/
def opensPattern (named : Bool) (ts : List Token) : Bool :=
  match behindBraces 0 ts with
  | some rest => nextIsSymbol .colon rest || (nextIsSymbol .atSign rest && !named)
  | none => false

variable (operand : Context → Rule Operand)

/-- A function of a named argument, behind the colon. -/
def lambda (parameter : AttrPath) : Rule Term := fun ts => do
  let (body, ts) ← expression operand ts
  return (.lambda (.named parameter) body (parameter.span.join body.span), ts)

/-- An attribute that a pattern asks for, with the comments in front of it. -/
def formal (comments : List Comment) : Rule Formal := fun ts => do
  let (name, ts) ← attrPath operand ts
  let comments := comments ++ commentsAhead ts
  match skipTrivia ts with
  | ⟨.symbol .question, _⟩ :: rest =>
    let (fallback, rest) ← expression operand rest
    return (⟨name, some fallback, comments, name.span.join fallback.span⟩, rest)
  | rest => return (⟨name, none, comments, name.span⟩, rest)

/-- What stands between the braces of a pattern. -/
structure PatternBody where
  /-- The attributes the pattern asks for. -/
  formals : List Formal
  /-- Whether other attributes may be there. -/
  variadic : Bool
  /-- The comments in front of the closing brace. -/
  comments : List Comment

/-- The inside of a pattern, up to its closing brace. At most `n` tokens are left. -/
def patternBodyUpTo : Nat → Rule PatternBody
  | 0, ts => refuse .expectedName ts
  | n + 1, ts =>
    match skipTrivia ts with
    | ⟨.symbol .closeBrace, span⟩ :: rest =>
      .ok (⟨[], false, commentsAhead ts⟩, ⟨.symbol .closeBrace, span⟩ :: rest)
    | ⟨.symbol .ellipsis, _⟩ :: rest =>
      .ok (⟨[], true, commentsAhead ts ++ commentsAhead rest⟩, skipTrivia rest)
    | inner => do
      let (f, rest) ← formal operand (commentsAhead ts) inner
      match rest with
      | ⟨.symbol .comma, _⟩ :: rest =>
        let (body, rest) ← patternBodyUpTo n rest
        return ({ body with formals := f :: body.formals }, rest)
      | ⟨.symbol .closeBrace, span⟩ :: rest =>
        return (⟨[f], false, []⟩, ⟨.symbol .closeBrace, span⟩ :: rest)
      | rest => refuse .expectedSeparator rest

/-- The inside of a pattern, up to its closing brace. -/
def patternBody : Rule PatternBody := fun ts =>
  patternBodyUpTo operand ts.length ts

/-- The name behind a pattern, with the comments around it. -/
def patternName : Rule (Option AttrPath × List Comment)
  | ⟨.symbol .atSign, _⟩ :: ts => do
    let (name, rest) ← attrPath operand (skipTrivia ts)
    return ((some name, commentsAhead ts ++ commentsAhead rest), skipTrivia rest)
  | ts => .ok ((none, []), ts)

/-- The name of a pattern's argument, the place of the pattern with that name, and the comments
around the name. Braces from `start` to `stop` were read, perhaps with a name in front of them. -/
def patternEnd (front : Option AttrPath) (start stop : Span) :
    Rule (Option AttrPath × Span × List Comment) := fun ts =>
  match front with
  | some name => .ok ((some name, name.span.join stop, []), ts)
  | none => do
    let ((name, comments), ts) ← patternName operand ts
    let stop := match name with
      | some name => name.span
      | none => stop
    return ((name, start.join stop, comments), ts)

/-- A function that takes its argument apart, behind the opening brace. Its argument may have got
a name in front of the pattern. -/
def patternLambda (front : Option AttrPath) (start : Span) : Rule Term := fun ts => do
  let (body, ts) ← patternBody operand ts
  let (stop, ts) ← expectSymbol .closeBrace ts
  let ((name, span, more), rest) ← patternEnd operand front start stop (skipTrivia ts)
  let (_, rest) ← expectSymbol .colon rest
  let (result, rest) ← expression operand rest
  let comments := body.comments ++ commentsAhead ts ++ more
  return (.lambda (.pattern body.formals body.variadic name comments span) result
    (span.join result.span), rest)

end Grammar

end NixSyntax
