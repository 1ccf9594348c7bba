import NixSyntax.Main
import NixSyntax.Proofs.Braced.Alias
import NixSyntax.Proofs.Braced.Lookahead
import NixSyntax.Proofs.Chain.Loop
import NixSyntax.Proofs.Chain.Selection
import NixSyntax.Proofs.Comments.Kept
import NixSyntax.Proofs.Composing.Ended
import NixSyntax.Proofs.Composing.Interpolated
import NixSyntax.Proofs.Composing.Juxtaposition
import NixSyntax.Proofs.Cursor.Discipline
import NixSyntax.Proofs.Cutting.Interpolations
import NixSyntax.Proofs.Cutting.Stretches
import NixSyntax.Proofs.Lexing.Concatenation
import NixSyntax.Proofs.Lexing.Escapes
import NixSyntax.Proofs.Lexing.Faults
import NixSyntax.Proofs.Lexing.Longest
import NixSyntax.Proofs.Lexing.Respacing
import NixSyntax.Proofs.Lexing.Tiling
import NixSyntax.Proofs.Moving.LineEndings
import NixSyntax.Proofs.Printing.Operands
import NixSyntax.Proofs.Reading.Borders
import NixSyntax.Proofs.Reading.Faults
import NixSyntax.Proofs.Reading.Numbers
import NixSyntax.Proofs.Reading.Turns
import NixSyntax.Proofs.Running.Lines
import NixSyntax.Proofs.Spacing.Insertion
import NixSyntax.Proofs.Spelling.Faithful
import NixSyntax.Proofs.Tree.Normal
