/-!
# Outlines

A nested value laid out over many lines, one part of it to a line. An `Outline` says what the
parts are, and `render` how they stand: each nested part four spaces further in, with a comma
behind it, and the closing bracket below the line that opened it.

## Main definitions

* `Outline`: a word, a list, or a named value with positional or named parts
* `Outline.render`: the text of an outline

## Implementation notes

Words are written as they are. A word with a line break in it would spoil the layout, so texts
have to be quoted before they become words.
-/

namespace NixSyntax

/-- A nested value to be shown. -/
inductive Outline where
  /-- A value in one word. -/
  | word (text : String)
  /-- A list of values. -/
  | list (items : List Outline)
  /-- A value with a name and parts that have none. -/
  | tuple (name : String) (parts : List Outline)
  /-- A value with a name and parts with names. -/
  | record (name : String) (fields : List (String × Outline))

namespace Outline

/-- The beginning of a line at the given depth. -/
def margin (depth : Nat) : String :=
  String.ofList (List.replicate (4 * depth) ' ')

/-- The parts of a value between its brackets, each on a line of its own. -/
def enclose (depth : Nat) (start stop : String) (parts : List String) : String :=
  if parts.isEmpty then start ++ stop
  else start ++ "\n" ++ String.join (parts.map fun p => margin (depth + 1) ++ p ++ ",\n") ++
    margin depth ++ stop

mutual

/-- The text of an outline whose first line stands at the given depth. -/
def renderAt (depth : Nat) : Outline → String
  | word text => text
  | list items => enclose depth "[" "]" (renderItems (depth + 1) items)
  | tuple name parts => enclose depth (name ++ "(") ")" (renderItems (depth + 1) parts)
  | record name fields => enclose depth (name ++ " \x7b") "\x7d" (renderFields (depth + 1) fields)

/-- The texts of some outlines at the given depth. -/
def renderItems (depth : Nat) : List Outline → List String
  | [] => []
  | o :: os => o.renderAt depth :: renderItems depth os

/-- The texts of some named outlines at the given depth, behind their names. -/
def renderFields (depth : Nat) : List (String × Outline) → List String
  | [] => []
  | (name, o) :: fields => (name ++ ": " ++ o.renderAt depth) :: renderFields depth fields

end

/-- The text of an outline. -/
def render (o : Outline) : String := o.renderAt 0

end Outline

end NixSyntax
