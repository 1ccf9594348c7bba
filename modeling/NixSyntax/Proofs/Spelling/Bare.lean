import NixSyntax.Proofs.Reading.Progress

/-!
# Bare tokens

What a tree is made of are words and marks. Where they stand, how the lines are broken and what the
comments say makes no difference to it, and nothing behind the end of input is read. `bare` takes
all of that away from a list of tokens, inside interpolations too, where a list of its own ends at
an end of its own. Two lists spell the same if they are the same bare.

Bare tokens are tokens again. They all stand at one place, which is no place in particular.

## Equality up to layout

To say that a tree accounts for every token, one has to say which tokens. With places left in, no
two sources would have a token in common, and a line break or a comment is a token that no tree has
to account for. So tokens are compared bare, and since bare tokens are tokens, a statement on them
is an equality of lists or membership in a language, with no relation of its own to carry along.

Interpolations are the reason why `bare` is a recursion through four types. Their tokens are in a
token, and have to be bared as well.

The tables from operators and clauses to tokens are the converses of those that the rules use. They
are tables of their own, and it is proved that they are converses.

## Main definitions

* `bare`: the bare tokens of a list
* `BinaryOp.kind`, `UnaryOp.mark`, `ModifierKind.word`: the words and marks that trees hold
-/

namespace NixSyntax

mutual

/-- The bare tokens of a list: without places, line breaks and comments, up to the end of input. -/
def bare : List Token → List Token
  | [] => []
  | t :: ts => if t.isEnd then [] else if t.isTrivia then bare ts else t.bare :: bare ts

/-- A token without its place. -/
def Token.bare : Token → Token
  | ⟨kind, _⟩ => ⟨kind.bare, default⟩

/-- What a token is, with bare tokens inside. -/
def TokenKind.bare : TokenKind → TokenKind
  | .string parts multiline => .string (bareFragments parts) multiline
  | .interpolation tokens => .interpolation (NixSyntax.bare tokens)
  | kind => kind

/-- The parts of a string, with bare tokens inside. -/
def bareFragments : List StringFragment → List StringFragment
  | [] => []
  | part :: parts => part.bare :: bareFragments parts

/-- A part of a string, with bare tokens inside. -/
def StringFragment.bare : StringFragment → StringFragment
  | .text content => .text content
  | .interpolation tokens _ => .interpolation (NixSyntax.bare tokens) default

end

@[simp] theorem bare_nil : bare [] = [] := by simp [bare]

@[simp] theorem bareFragments_nil : bareFragments [] = [] := by simp [bareFragments]

@[simp] theorem bareFragments_cons (part : StringFragment) (parts : List StringFragment) :
    bareFragments (part :: parts) = part.bare :: bareFragments parts := by
  simp [bareFragments]

/-- Trivia is dropped. -/
theorem bare_cons_of_isTrivia {t : Token} (ts : List Token) (h : t.isTrivia = true) :
    bare (t :: ts) = bare ts := by
  simp [bare, h, Token.isEnd_of_isTrivia h]

/-- Any other token is kept, as long as the list has not ended. -/
theorem bare_cons {t : Token} (ts : List Token) (hend : t.isEnd = false)
    (htrivia : t.isTrivia = false) : bare (t :: ts) = t.bare :: bare ts := by
  simp [bare, hend, htrivia]

/-- Nothing is left where the input has ended. -/
theorem bare_of_atEnd {ts : List Token} (h : Grammar.atEnd ts = true) : bare ts = [] := by
  cases ts with
  | nil => exact bare_nil
  | cons t ts => rw [bare, if_pos (by simpa [Grammar.atEnd] using h)]

@[simp] theorem bare_skipTrivia (ts : List Token) : bare (Grammar.skipTrivia ts) = bare ts := by
  induction ts with
  | nil => rfl
  | cons t ts ih =>
    cases ht : t.isTrivia with
    | true =>
      rw [Grammar.skipTrivia_cons_of_isTrivia ts ht, ih, bare_cons_of_isTrivia ts ht]
    | false => rw [Grammar.skipTrivia_cons_of_not_isTrivia ts ht]

/-! ### Operators and clauses

A tree holds an operator or the kind of a clause, and the token was a mark or a word. -/

/-- The token that an operator is. -/
def BinaryOp.kind : BinaryOp → TokenKind
  | .select => .symbol .dot
  | .has => .symbol .question
  | .concat => .symbol .concat
  | .mul => .symbol .star
  | .div => .symbol .slash
  | .add => .symbol .plus
  | .sub => .symbol .minus
  | .update => .symbol .update
  | .less => .symbol .less
  | .lessEqual => .symbol .lessEqual
  | .greater => .symbol .greater
  | .greaterEqual => .symbol .greaterEqual
  | .equal => .symbol .equal
  | .notEqual => .symbol .notEqual
  | .and => .symbol .and
  | .or => .symbol .or
  | .implies => .symbol .arrow
  | .fallback => .keyword .or

/-- A token is an operator exactly when it is that operator's token. -/
theorem Token.binaryOp?_eq_some_iff {t : Token} {op : BinaryOp} :
    t.binaryOp? = some op ↔ t.kind = op.kind := by
  constructor
  · intro h
    unfold Token.binaryOp? at h
    split at h
    · next s _ =>
      cases s <;> simp only [Symbol.binaryOp?, Option.some.injEq, reduceCtorEq] at h <;>
        (subst h; rfl)
    · obtain rfl := Option.some.inj h
      rfl
    · cases h
  · intro h
    obtain ⟨kind, span⟩ := t
    obtain rfl : kind = op.kind := h
    cases op <;> rfl

/-- The mark of an operator in front of an operand. -/
def UnaryOp.mark : UnaryOp → Symbol
  | .not => .bang
  | .negate => .minus

/-- The word that begins a clause. -/
def ModifierKind.word : ModifierKind → Keyword
  | .with_ => .with_
  | .assert => .assert

/-- A word begins a clause exactly when it is the word of that clause. -/
theorem clauseKind?_eq_some_iff {k : Keyword} {kind : ModifierKind} :
    Grammar.clauseKind? k = some kind ↔ k = kind.word := by
  cases k <;> cases kind <;> simp [Grammar.clauseKind?, ModifierKind.word]

end NixSyntax
