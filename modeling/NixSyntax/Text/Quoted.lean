import NixSyntax.Text.Visible

/-!
# Text in double quotes

A text written so that every character of it can be seen: in double quotes, with a backslash in
front of what would otherwise be misread, and with the number of a character in place of one that
does not show.

## Main definitions

* `quotedChar`: how one character is written
* `quoted`: how a text is written
-/

namespace NixSyntax

/-- How a character is written between double quotes. -/
def quotedChar (c : Char) : List Char :=
  match c with
  | '\x00' => ['\\', '0']
  | '\t' => ['\\', 't']
  | '\r' => ['\\', 'r']
  | '\n' => ['\\', 'n']
  | '"' => ['\\', '"']
  | '\\' => ['\\', '\\']
  | c =>
    if isVisible c then [c]
    else '\\' :: 'u' :: '{' :: (Nat.toDigits 16 c.toNat ++ ['}'])

/-- A text in double quotes. -/
def quoted (s : String) : String :=
  String.ofList ('"' :: (s.toList.flatMap quotedChar ++ ['"']))

end NixSyntax
