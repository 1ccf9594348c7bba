/-!
# Keywords

The eleven reserved words. Each has one spelling, `Keyword.word`, and `Keyword.ofWord?` finds the
keyword back from it, so there is one table and no second list to keep in step.

`or` is on the list although it is no prefix of any construct: between two operands it acts as
an operator.

## Main definitions

* `Keyword`: the reserved words
* `Keyword.word`, `Keyword.ofWord?`: spelling a keyword, and reading one

## Main statements

* `Keyword.ofWord?_eq_some_iff`: reading finds exactly the keyword with that spelling
-/

namespace NixSyntax

/-- The reserved words of the language. -/
inductive Keyword where
  | let_
  | in_
  | rec_
  | with_
  | inherit
  | assert
  | or
  | import_
  | if_
  | then_
  | else_
deriving Repr, DecidableEq

namespace Keyword

/-- The spelling of a keyword. -/
def word : Keyword → String
  | let_ => "let"
  | in_ => "in"
  | rec_ => "rec"
  | with_ => "with"
  | inherit => "inherit"
  | assert => "assert"
  | or => "or"
  | import_ => "import"
  | if_ => "if"
  | then_ => "then"
  | else_ => "else"

/-- All keywords. -/
def all : List Keyword :=
  [let_, in_, rec_, with_, inherit, assert, or, import_, if_, then_, else_]

/-- The keyword with the given spelling, if there is one. -/
def ofWord? (w : String) : Option Keyword :=
  all.find? fun k => k.word == w

@[simp] theorem ofWord?_word (k : Keyword) : ofWord? k.word = some k := by
  cases k <;> decide

/-- Reading a word finds a keyword exactly when the word is its spelling. -/
theorem ofWord?_eq_some_iff {w : String} {k : Keyword} : ofWord? w = some k ↔ k.word = w := by
  constructor
  · intro h
    simpa using List.find?_some h
  · rintro rfl
    exact ofWord?_word k

theorem word_injective {j k : Keyword} (h : j.word = k.word) : j = k :=
  Option.some.inj (by rw [← ofWord?_word j, h, ofWord?_word])

end Keyword

end NixSyntax
