import NixSyntax.Decimal.Layout
import NixSyntax.Token.Basic

/-!
# Naming tokens in messages

What a message calls a token. A token with one spelling is called by it, in single quotes; any
other by what it is, with its content if that is short.

## Main definitions

* `TokenKind.fixedText?`: the spelling of a token that has only one
* `TokenKind.describe`: what a message calls a token
-/

namespace NixSyntax

/-- Numbers in messages never have an exponent, and a whole number has no fraction. -/
def messageNumbers : NumberLayout := ⟨"", fun _ => false⟩

/-- A text in single quotes. -/
def inQuotes (s : String) : String := "'" ++ s ++ "'"

namespace TokenKind

/-- The spelling of a token that is a mark or the word `null`. -/
def fixedText? : TokenKind → Option String
  | null => some "null"
  | symbol s => some s.text
  | _ => none

/-- What a message calls a token. -/
def describe : TokenKind → String
  | endOfInput => "end of input"
  | newline => "newline"
  | comment _ _ => "comment"
  | null => inQuotes "null"
  | bool value => inQuotes (if value then "true" else "false")
  | string _ _ => "string"
  | int value => "integer " ++ inQuotes (toString value.toInt)
  | float value => "float " ++ inQuotes (messageNumbers.write value)
  | path value => "path " ++ inQuotes value
  | keyword k => "keyword " ++ inQuotes k.word
  | identifier name => "identifier " ++ inQuotes name
  | symbol s => inQuotes s.text
  | interpolation _ => "interpolation"

end TokenKind

end NixSyntax
