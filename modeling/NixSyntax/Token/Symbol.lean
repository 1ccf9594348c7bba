/-!
# Symbols

Brackets, separators and operators: the tokens that are spelled with punctuation and have one
spelling each.

Brackets, the semicolon and the single dot are read on their own. The others make up the table
`Symbol.operators`, in which the reader looks for the longest entry the text goes on with.

## Main definitions

* `Symbol`: the marks of the language
* `Symbol.spelling`, `Symbol.text`: the characters of a mark, and the same as a string
* `Symbol.operators`: the marks that are read by their longest match
* `Symbol.ofSpelling?`: the mark of that table with the given spelling

## Main statements

* `Symbol.ofSpelling?_eq_some_iff`: reading finds exactly the mark with that spelling
-/

namespace NixSyntax

/-- The marks of the language. -/
inductive Symbol where
  | openParen
  | closeParen
  | openBrace
  | closeBrace
  | openBracket
  | closeBracket
  | semicolon
  | question
  | atSign
  | colon
  | assign
  | equal
  | notEqual
  | bang
  | less
  | lessEqual
  | greater
  | greaterEqual
  | plus
  | minus
  | star
  | slash
  | arrow
  | update
  | concat
  | or
  | and
  | dot
  | comma
  | ellipsis
deriving Repr, DecidableEq

namespace Symbol

/-- The characters of a mark. -/
def spelling : Symbol → List Char
  | openParen => ['(']
  | closeParen => [')']
  | openBrace => ['{']
  | closeBrace => ['}']
  | openBracket => ['[']
  | closeBracket => [']']
  | semicolon => [';']
  | question => ['?']
  | atSign => ['@']
  | colon => [':']
  | assign => ['=']
  | equal => ['=', '=']
  | notEqual => ['!', '=']
  | bang => ['!']
  | less => ['<']
  | lessEqual => ['<', '=']
  | greater => ['>']
  | greaterEqual => ['>', '=']
  | plus => ['+']
  | minus => ['-']
  | star => ['*']
  | slash => ['/']
  | arrow => ['-', '>']
  | update => ['/', '/']
  | concat => ['+', '+']
  | or => ['|', '|']
  | and => ['&', '&']
  | dot => ['.']
  | comma => [',']
  | ellipsis => ['.', '.', '.']

/-- The spelling of a mark. -/
def text (s : Symbol) : String :=
  String.ofList s.spelling

/-- The marks that are read by their longest match. The brackets, the semicolon and the single
dot are not among them: each of those is told by its first character, the dot also by the next. -/
def operators : List Symbol :=
  [assign, equal, notEqual, bang, plus, minus, star, slash, arrow, update, concat, less, greater,
   lessEqual, greaterEqual, colon, atSign, ellipsis, comma, question, or, and]

/-- The mark of the table `operators` with the given spelling, if there is one. -/
def ofSpelling? (cs : List Char) : Option Symbol :=
  operators.find? fun s => s.spelling == cs

theorem ofSpelling?_spelling : ∀ s ∈ operators, ofSpelling? s.spelling = some s := by
  decide

/-- Reading a spelling finds a mark exactly when it is a mark of the table with that spelling. -/
theorem ofSpelling?_eq_some_iff {cs : List Char} {s : Symbol} :
    ofSpelling? cs = some s ↔ s ∈ operators ∧ s.spelling = cs := by
  constructor
  · intro h
    exact ⟨List.mem_of_find?_eq_some h, by simpa using List.find?_some h⟩
  · rintro ⟨hs, rfl⟩
    exact ofSpelling?_spelling s hs

end Symbol

end NixSyntax
