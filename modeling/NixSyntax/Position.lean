/-!
# Places in a source text

A `Position` says where a character stands in three ways at once: by line, by column and by byte
offset. A `Span` is a stretch between two of them. Every token and every node of a syntax tree
carries one, and every fault is reported at one.

## The counting rule

Positions are never searched for. A reader that starts at `Position.start` and walks the text
with `Position.next`, one character at a time, is at the right line, column and offset at every
step. Only the line feed opens a line, so a carriage return in front of it needs no rule of its
own: it takes one column of the line it ends.

## Main definitions

* `Position.next`, `Position.advance`: the place behind one character, behind a stretch of text
* `Span.point`, `Span.join`: the empty stretch, and the stretch from one span to another

## Implementation notes

No invariant ties the three coordinates together, nor the two ends of a span. Tokens may come
from elsewhere than a source text, with any spans at all, and everything said about spans here
holds for those too.
-/

namespace NixSyntax

/-- A place in a source text. Lines and columns count from one, columns in characters, and
`offset` is the number of bytes in front of the place when the text is written in UTF-8. -/
structure Position where
  /-- The line, from one. -/
  line : Nat
  /-- The column, from one, in characters. -/
  column : Nat
  /-- The number of UTF-8 bytes in front. -/
  offset : Nat
deriving Repr, DecidableEq, Inhabited

namespace Position

/-- The front of a text. -/
def start : Position := ⟨1, 1, 0⟩

/-- The place behind the character `c` when `c` stands at `p`. -/
def next (p : Position) (c : Char) : Position :=
  if c = '\n' then ⟨p.line + 1, 1, p.offset + c.utf8Size⟩
  else ⟨p.line, p.column + 1, p.offset + c.utf8Size⟩

/-- The place behind the text `cs` when `cs` stands at `p`. -/
def advance (p : Position) (cs : List Char) : Position :=
  cs.foldl next p

@[simp] theorem advance_nil (p : Position) : p.advance [] = p := rfl

@[simp] theorem advance_cons (p : Position) (c : Char) (cs : List Char) :
    p.advance (c :: cs) = (p.next c).advance cs := rfl

/-- A text read in two stretches ends where it ends in one. -/
theorem advance_append (p : Position) (cs ds : List Char) :
    p.advance (cs ++ ds) = (p.advance cs).advance ds := by
  simp [advance]

/-- Positions stand in the order of their lines, then of their columns, then of their offsets. -/
instance : Ord Position where
  compare p q :=
    (compare p.line q.line).then ((compare p.column q.column).then (compare p.offset q.offset))

end Position

/-- The stretch of text from `start` up to, and without, `stop`. -/
structure Span where
  /-- Where the stretch begins. -/
  start : Position
  /-- Where the stretch has ended. -/
  stop : Position
deriving Repr, DecidableEq, Inhabited

namespace Span

/-- The stretch without width at `p`. -/
def point (p : Position) : Span := ⟨p, p⟩

/-- The stretch from the beginning of `a` to the end of `b`. -/
def join (a b : Span) : Span := ⟨a.start, b.stop⟩

@[simp] theorem start_point (p : Position) : (point p).start = p := rfl

@[simp] theorem stop_point (p : Position) : (point p).stop = p := rfl

@[simp] theorem start_join (a b : Span) : (a.join b).start = a.start := rfl

@[simp] theorem stop_join (a b : Span) : (a.join b).stop = b.stop := rfl

/-- Nothing is gained by joining a stretch with itself. -/
@[simp] theorem join_self (a : Span) : a.join a = a := rfl

end Span

end NixSyntax
