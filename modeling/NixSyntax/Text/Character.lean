/-!
# Classes of characters

Which characters are blank, which make up names and numbers, which may stand in a path, and
which begin an operator. All classes but the first are classes of ASCII characters, as the
language has them; blanks are those of the Unicode property `White_Space`.

## Main definitions

* `inRanges`: the characters of a table of stretches of code points
* `isBlank`: the characters with the property `White_Space`
* `isNameStart`, `isNameChar`: the characters of names and keywords
* `isPathStart`, `isPathChar`: the characters of a path that need no backslash
* `isOperatorStart`: the characters an operator begins with
* `startsLineBreak`: whether a text goes on with a line break
-/

namespace NixSyntax

/-- Whether the code point of `c` lies in one of the given stretches, both ends included. -/
def inRanges (ranges : List (Nat × Nat)) (c : Char) : Bool :=
  ranges.any fun (first, last) => first ≤ c.toNat && c.toNat ≤ last

/-- The stretches of code points that make up the Unicode property `White_Space`. -/
def blankRanges : List (Nat × Nat) :=
  [(0x9, 0xD), (0x20, 0x20), (0x85, 0x85), (0xA0, 0xA0), (0x1680, 0x1680), (0x2000, 0x200A),
   (0x2028, 0x2029), (0x202F, 0x202F), (0x205F, 0x205F), (0x3000, 0x3000)]

/-- The characters with the Unicode property `White_Space`, line breaks included. -/
def isBlank (c : Char) : Bool :=
  inRanges blankRanges c

/-- The characters a name or a keyword may begin with. -/
def isNameStart (c : Char) : Bool :=
  c.isAlpha || c == '_'

/-- The characters a name or a keyword may go on with. -/
def isNameChar (c : Char) : Bool :=
  c.isAlphanum || c == '_' || c == '\'' || c == '-'

/-- The characters a path may begin with. -/
def isPathStart (c : Char) : Bool :=
  c == '.' || c == '/' || c == '~'

/-- The characters that a path may go on with as they are. Any other character has to stand
behind a backslash. -/
def isPathChar (c : Char) : Bool :=
  c.isAlphanum || c == '_' || c == '@' || c == '.' || c == '-' || c == '$' || c == '/' || c == '~'

/-- The characters an operator may begin with. -/
def isOperatorStart (c : Char) : Bool :=
  ['=', '!', '+', '-', '*', '/', '<', '>', ':', '@', '.', ',', '?', '|', '&'].contains c

/-- Whether a text goes on with a line break: a line feed, or a carriage return and a line
feed. A carriage return on its own is no line break. -/
def startsLineBreak : List Char → Bool
  | '\n' :: _ => true
  | '\r' :: '\n' :: _ => true
  | _ => false

/-- A name goes on with every character that it may begin with, and with some more. -/
theorem isNameChar_of_isNameStart {c : Char} (h : isNameStart c = true) : isNameChar c = true := by
  simp only [isNameStart, Bool.or_eq_true] at h
  rcases h with h | h <;> simp [isNameChar, Char.isAlphanum, h]

theorem isBlank_of_isAlphanum {c : Char} (h : c.isAlphanum = true) : isBlank c = false := by
  have hrange : 0x20 < c.toNat ∧ c.toNat < 0x85 := by
    delta Char.isAlphanum Char.isAlpha Char.isUpper Char.isLower at h
    simp [Char.isDigit, UInt32.le_iff_toNat_le] at h
    omega
  simp [isBlank, inRanges, blankRanges]
  omega

theorem isBlank_of_isDigit {c : Char} (h : c.isDigit = true) : isBlank c = false :=
  isBlank_of_isAlphanum (by simp [Char.isAlphanum, h])

/-- No name goes on with a blank. -/
theorem isBlank_of_isNameChar {c : Char} (h : isNameChar c = true) : isBlank c = false := by
  simp only [isNameChar, Bool.or_eq_true, beq_iff_eq] at h
  rcases h with ((h | rfl) | rfl) | rfl
  · exact isBlank_of_isAlphanum h
  all_goals decide

/-- No path goes on with a blank, unless there is a backslash in front of it. -/
theorem isBlank_of_isPathChar {c : Char} (h : isPathChar c = true) : isBlank c = false := by
  simp only [isPathChar, Bool.or_eq_true, beq_iff_eq] at h
  rcases h with ((((((h | rfl) | rfl) | rfl) | rfl) | rfl) | rfl) | rfl
  · exact isBlank_of_isAlphanum h
  all_goals decide

end NixSyntax
