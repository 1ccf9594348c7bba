import NixSyntax.Proofs.Chain.Tiers
import NixSyntax.Proofs.Lexing.Turns
import NixSyntax.Proofs.Reading.Making

/-!
# Strings in a tree take turns

A string of the tree is made from a string token part by part, so text and interpolations take turns
in it as they do in the token. And since a part of text has text on neither side, a string without
interpolations is a single part of text.

## Tokens first

That text and interpolations take turns is known of the tokens (`Lexical.Reads.alternates`), at
every depth. The tree is not read off the text again. A string of it was made of a string token by a
rule that keeps the order and the sort of the parts, so what is known of all string tokens is known
of all strings.

## Main definitions

* `Token.TakesTurns`, `StringLiteral.TakesTurns`: what is promised of tokens and of strings

## Main results

* `Grammar.ReadsParts.map_isText`: what is made of a part of a string is of its sort
* `StringLiteral.isSome_plain?_iff`: the strings that consist of text alone
* `turns_of_tokenize`: the strings and the interpolations of a text, at every depth
-/

namespace NixSyntax

/-- Whether a part of a string is text. -/
def StringPart.isText : StringPart → Bool
  | .text _ => true
  | .interpolation _ => false

/-- Who takes the turns does not matter, only who is a text. -/
theorem alternates_map_iff {α β : Type} {isText : β → Bool} {f : α → β} {parts : List α} :
    Alternates isText (parts.map f) ↔ Alternates (isText ∘ f) parts := by
  fun_induction Alternates (isText ∘ f) parts with
  | case1 => rfl
  | case2 part => rfl
  | case3 part other parts ih => simp [Alternates, ih]

/-- **A string consists of text alone where none of its parts is an interpolation.** -/
theorem StringLiteral.isSome_plain?_iff {s : StringLiteral}
    (h : Alternates StringPart.isText s.parts) :
    s.plain?.isSome = true ↔ ∀ part ∈ s.parts, part.isText = true := by
  obtain ⟨parts, multiline, span⟩ := s
  dsimp only at h ⊢
  fun_cases Alternates StringPart.isText parts with
  | case1 => cases h
  | case2 part =>
    cases part with
    | text content => simp [plain?, StringPart.isText]
    | interpolation content => cases h
  | case3 part other parts =>
    obtain ⟨-, hother, -⟩ := h
    simp [plain?, hother]

namespace Grammar

variable {operand : Context → Rule Operand}

/-- A part of a string becomes a part of the same sort. -/
theorem ReadsParts.map_isText {fragments : List StringFragment} {parts : List StringPart}
    (h : ReadsParts operand fragments parts) :
    parts.map StringPart.isText = fragments.map StringFragment.isText := by
  induction h with
  | nil => rfl
  | text _ ih => simp [ih, StringPart.isText, StringFragment.isText]
  | interpolation _ _ ih => simp [ih, StringPart.isText, StringFragment.isText]

theorem alternates_stringOf {fragments : List StringFragment} {multiline : Bool} {span : Span}
    {s : StringLiteral} (hturns : Alternates StringFragment.isText fragments)
    (h : stringOf operand fragments multiline span = .ok s) :
    Alternates StringPart.isText s.parts := by
  obtain ⟨parts, hparts, rfl⟩ := stringOf_eq_ok_iff.mp h
  have hsorts := hparts.map_isText
  have hbools : Alternates id (fragments.map StringFragment.isText) :=
    alternates_map_iff.mpr hturns
  rw [← hsorts] at hbools
  exact alternates_map_iff.mp hbools

/-- The token that a rule was applied to is one of the tokens, at some depth. -/
theorem Inside.mem_nestedTokens {t : Token} {us ts : List Token} (h : Inside (t :: us) ts) :
    t ∈ nestedTokens ts := by
  induction h with
  | refl => exact mem_nestedTokens_iff.mpr ⟨t, by simp, Token.mem_nested_iff.mpr (.inl rfl)⟩
  | behind _ ih =>
    obtain ⟨s, hs, ht⟩ := mem_nestedTokens_iff.mp ih
    exact mem_nestedTokens_iff.mpr ⟨s, List.mem_cons_of_mem _ hs, ht⟩
  | within mem _ ih =>
    exact mem_nestedTokens_iff.mpr
      ⟨_, List.mem_cons_self .., Token.mem_nested_iff.mpr (.inr ⟨_, mem, ih⟩)⟩

/-- A string of the tree was made from a string token. -/
theorem Made.exists_string {ts : List Token} {s : StringLiteral} (h : Made ts (.string s)) :
    ∃ k fragments multiline span, ⟨.string fragments multiline, span⟩ ∈ nestedTokens ts ∧
      stringOf (operandUpTo k) fragments multiline span = .ok s := by
  cases h with
  | string inside string_eq => exact ⟨_, _, _, _, inside.mem_nestedTokens, string_eq⟩

end Grammar

/-- What is promised of a token, and of those inside it. -/
structure Token.TakesTurns (t : Token) : Prop where
  /-- In a string, text and interpolations take turns. -/
  alternates : ∀ parts multiline, t.kind = .string parts multiline →
    Alternates StringFragment.isText parts
  /-- The end of the text is not inside an interpolation. -/
  unended : ∀ i ∈ t.interpolations, ∀ u ∈ i.1, u.isEnd = false
  /-- The braces among the tokens of an interpolation match. -/
  bracesMatch : ∀ i ∈ t.interpolations, BracesMatch i.1

/-- What is promised of a string of a tree. -/
structure StringLiteral.TakesTurns (s : StringLiteral) : Prop where
  /-- Text and interpolations take turns. -/
  alternates : Alternates StringPart.isText s.parts
  /-- It consists of text alone where it has no interpolation. -/
  isSome_plain_iff : s.plain?.isSome = true ↔ ∀ part ∈ s.parts, part.isText = true

section

variable {source : String} {ts : List Token}

theorem takesTurns_of_mem_nestedTokens (h : tokenize source = .ok ts) {t : Token}
    (ht : t ∈ nestedTokens ts) : t.TakesTurns := by
  obtain ⟨c, d, -, hread⟩ := Lexical.reads_of_mem_nestedTokens h ht
  exact ⟨fun _ _ => hread.alternates, hread.unended, hread.bracesMatch⟩

theorem takesTurns_of_mem_nodes (h : tokenize source = .ok ts) {p : Program}
    (hp : Program.ofTokens ts = .ok p) {s : StringLiteral} (hs : .string s ∈ p.body.nodes) :
    s.TakesTurns := by
  obtain ⟨k, fragments, multiline, span, hmem, hstring⟩ :=
    (Program.made_of_mem_nodes hp hs).exists_string
  have hfragments := (takesTurns_of_mem_nestedTokens h hmem).alternates _ _ rfl
  have hturns := Grammar.alternates_stringOf hfragments hstring
  exact ⟨hturns, StringLiteral.isSome_plain?_iff hturns⟩

/-- **In every string of a text, text and interpolations take turns, and between the braces of every
interpolation the braces match**, however deep they stand. The strings of the tree take turns in the
same way, so those without an interpolation consist of text alone. -/
theorem turns_of_tokenize (h : tokenize source = .ok ts) :
    (∀ t ∈ nestedTokens ts, t.TakesTurns) ∧
      ∀ p, Program.ofText source = .ok p → ∀ s, .string s ∈ p.body.nodes → s.TakesTurns := by
  refine ⟨fun t ht => takesTurns_of_mem_nestedTokens h ht, fun p hp s hs => ?_⟩
  obtain ⟨us, hus, hp⟩ := Program.ofText_eq_ok_iff.mp hp
  obtain rfl : ts = us := Except.ok.inj (h.symm.trans hus)
  exact takesTurns_of_mem_nodes h hp hs

end

open Program (onFirstLine)

/-- The tokens of a string around a set that has a brace in a string of its own. -/
def bracedTokens : List Token :=
  [⟨.string [.text "", .interpolation
      [⟨.symbol .openBrace, onFirstLine 3 4⟩, ⟨.identifier "a", onFirstLine 4 5⟩,
        ⟨.symbol .assign, onFirstLine 5 6⟩, ⟨.string [.text "\x7d"] false, onFirstLine 6 9⟩,
        ⟨.symbol .semicolon, onFirstLine 9 10⟩, ⟨.symbol .closeBrace, onFirstLine 10 11⟩]
      (onFirstLine 1 12), .text ""] false, onFirstLine 0 13⟩,
    ⟨.endOfInput, onFirstLine 13 13⟩]

/-- Of the three closing braces of this text, the first is text, and the second belongs to the
set. -/
theorem turns_of_tokenize_braced :
    tokenize "\"$\x7b\x7ba=\"\x7d\";\x7d\x7d\"" = .ok bracedTokens ∧
      (∀ t ∈ nestedTokens bracedTokens, t.TakesTurns) ∧
      ∃ p, Program.ofText "\"$\x7b\x7ba=\"\x7d\";\x7d\x7d\"" = .ok p ∧
        ∀ s, .string s ∈ p.body.nodes → s.TakesTurns := by
  have h : tokenize "\"$\x7b\x7ba=\"\x7d\";\x7d\x7d\"" = .ok bracedTokens := rfl
  have hp : Program.ofText "\"$\x7b\x7ba=\"\x7d\";\x7d\x7d\"" = .ok _ :=
    Program.ofText_eq_ok_iff.mpr ⟨_, h, rfl⟩
  exact ⟨h, (turns_of_tokenize h).1, _, hp, (turns_of_tokenize h).2 _ hp⟩

end NixSyntax
