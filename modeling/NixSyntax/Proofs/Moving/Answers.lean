import NixSyntax.Proofs.Cutting.Seam
import NixSyntax.Proofs.Tree.Recast

/-!
# Answers at other places

No rule looks at a position, and none looks at a text. If the tokens stand at other positions and
have other texts, at every depth, a rule takes as many of them as before and reads the same tree
with the other positions and texts, or fails for the same cause at the same token. In short, every
rule commutes with `recastTokens`.

The rules are built with `>>=` from smaller ones, and so is the argument: `Moves.bind` is its only
step, taken once for each line of a rule. What is left are the places where a rule looks at the
next token. It asks for a mark or a keyword there, and neither holds a text (`front_symbol_recast`).

## Equations

Both readings have the same shape, and so the statement is an equation: reading the changed tokens
is changing what was read. It covers answers and faults at once, and no rule has to be taken apart
by its outcomes. The tokens that a rule leaves are changed too, so the next rule begins with changed
tokens again, and the equation goes through a bind.

## What is not changed

A text is changed by any function, and two texts may become the same. A rule that compared texts
would then answer differently. What the rules do compare is kinds, marks and keywords, none of which
has a text that is changed. The name of a keyword belongs to its kind.

## Main definitions

* `moved`: an answer with other positions and texts
* `Moves`: two rules that answer alike for tokens with other positions and texts

## Main results

* `Moves.bind`, `Moves.repeated`: rules that are built from others
* `skipTrivia_recast`, `nextIsSymbol_recast`, …: what the rules ask of the tokens
-/

namespace NixSyntax

/-- No token is added or lost, so the bounds of loops are the same. -/
@[simp] theorem length_recastTokens (f : Position → Position) (g : String → String)
    (ts : List Token) : (recastTokens f g ts).length = ts.length := by
  simp [recastTokens_eq_map]

/-- A brace is one at any place. -/
@[simp] theorem Token.isBrace_recast (f : Position → Position) (g : String → String) (t : Token) :
    (t.recast f g).isBrace = t.isBrace := by
  obtain ⟨kind, span⟩ := t
  cases kind with
  | symbol s => rw [Token.recast_mk, TokenKind.recast_symbol]; cases s <;> rfl
  | _ => simp [TokenKind.recast, TokenKind.relabel, TokenKind.reword, isBrace]

namespace Grammar

variable {α β γ δ : Type} {f : Position → Position} {g : String → String} {v : α → β} {v' : γ → δ}

/-! ### Answers with other positions and texts

A fault carries the token at which the rule was stuck, and that token is changed like all others. -/

/-- An answer with other positions and texts: the value is changed by `v`, and of a fault the
token. -/
def moved (f : Position → Position) (g : String → String) (v : α → β) :
    Except Stuck α → Except Stuck β
  | .ok a => .ok (v a)
  | .error s => .error ⟨s.cause, s.token.map (Token.recast f g)⟩

@[simp] theorem moved_ok (a : α) : moved f g v (.ok a) = .ok (v a) := rfl

@[simp] theorem moved_pure (a : α) : moved f g v (pure a) = pure (v a) := rfl

/-- What follows a changed answer is changed, if the continuation is. -/
theorem bind_moved {x : Except Stuck α} {k : α → Except Stuck γ} {k' : β → Except Stuck δ}
    (hk : ∀ a, k' (v a) = moved f g v' (k a)) : moved f g v x >>= k' = moved f g v' (x >>= k) := by
  cases x with
  | ok a => exact hk a
  | error s => rfl

/-- A refusal is at the changed token. -/
theorem refuse_recast (cause : ParseCause) (ts : List Token) :
    refuse cause (recastTokens f g ts) = moved f g v (refuse cause ts) := by
  cases ts <;> simp [refuse, moved]

/-- For tokens with other positions and texts the rule `r'` answers as `r`, with the other
positions and texts. -/
def Moves (f : Position → Position) (g : String → String) (v : α → β) (r : Rule α) (r' : Rule β) :
    Prop :=
  ∀ ts, r' (recastTokens f g ts) = moved f g (Prod.map v (recastTokens f g)) (r ts)

/-- A rule that goes on behind another one. It is used for every line of every rule. -/
theorem Moves.bind {r : Rule α} {r' : Rule β} {ts : List Token}
    {k : α × List Token → Except Stuck γ} {k' : β × List Token → Except Stuck δ}
    (hr : Moves f g v r r')
    (hk : ∀ a rest, k' (v a, recastTokens f g rest) = moved f g v' (k (a, rest))) :
    r' (recastTokens f g ts) >>= k' = moved f g v' (r ts >>= k) := by
  rw [hr]
  exact bind_moved fun (a, rest) => hk a rest

/-- Rounds are taken as often, by induction on the bound. -/
theorem Moves.rounds {r : Rule (Option α)} {r' : Rule (Option β)}
    (hr : Moves f g (Option.map v) r r') (n : Nat) :
    Moves f g (List.map v) (rounds r n) (Grammar.rounds r' n) := by
  induction n with
  | zero => exact fun ts => rfl
  | succ n ih =>
    intro ts
    refine hr.bind fun a rest => ?_
    cases a with
    | none => rfl
    | some a => exact ih.bind fun as rest => rfl

/-- The bound of a repetition is the number of tokens, which is the same. -/
theorem Moves.repeated {r : Rule (Option α)} {r' : Rule (Option β)}
    (hr : Moves f g (Option.map v) r r') :
    Moves f g (List.map v) (repeated r) (Grammar.repeated r') := by
  intro ts
  rw [Grammar.repeated, length_recastTokens]
  exact hr.rounds ts.length ts

/-! ### Looking ahead

The rules look at the next token that is no trivia, and ask whether it is a given mark or keyword.
For the look ahead of a pattern they count braces. -/

/-- Trivia is told by its kind. -/
theorem skipTrivia_recast (ts : List Token) :
    skipTrivia (recastTokens f g ts) = recastTokens f g (skipTrivia ts) := by
  simp [skipTrivia, recastTokens_eq_map, List.dropWhile_map, Function.comp_def]

theorem skipNewlines_recast (ts : List Token) :
    skipNewlines (recastTokens f g ts) = recastTokens f g (skipNewlines ts) := by
  simp [skipNewlines, recastTokens_eq_map, List.dropWhile_map, Function.comp_def]

/-- The comments ahead are changed with the tokens that they are. -/
theorem commentsAhead_recast (ts : List Token) :
    commentsAhead (recastTokens f g ts) = recastComments f g (commentsAhead ts) := by
  simp [commentsAhead, recastTokens_eq_map, List.takeWhile_map, List.filterMap_map,
    List.map_filterMap, Function.comp_def]

@[simp] theorem atEnd_recast (ts : List Token) : atEnd (recastTokens f g ts) = atEnd ts := by
  cases ts <;> simp [atEnd]

/-- The token in front is the given one on both sides or on none, if it holds no text. -/
theorem front_recast {kind : TokenKind}
    (hkind : ∀ {kind' : TokenKind}, kind'.recast f g = kind ↔ kind' = kind) (ts : List Token) :
    (∃ span rest, ts = ⟨kind, span⟩ :: rest ∧
        recastTokens f g ts = ⟨kind, span.map f⟩ :: recastTokens f g rest) ∨
      (∀ span rest, ts ≠ ⟨kind, span⟩ :: rest) ∧
        ∀ span rest, recastTokens f g ts ≠ ⟨kind, span⟩ :: rest := by
  cases ts with
  | nil => exact .inr ⟨nofun, by simp⟩
  | cons t ts =>
    obtain ⟨kind', span'⟩ := t
    by_cases heq : kind' = kind
    · refine .inl ⟨span', ts, by rw [heq], ?_⟩
      rw [recastTokens_cons, Token.recast_mk, hkind.mpr heq]
    · refine .inr ⟨fun span rest h => heq ?_, fun span rest h => heq ?_⟩
      · exact (Token.mk.inj (List.cons.inj h).1).1
      · rw [recastTokens_cons, Token.recast_mk] at h
        exact hkind.mp (Token.mk.inj (List.cons.inj h).1).1

/-- A mark is in front on both sides or on none. -/
theorem front_symbol_recast (f : Position → Position) (g : String → String) (s : Symbol)
    (ts : List Token) :
    (∃ span rest, ts = ⟨.symbol s, span⟩ :: rest ∧
        recastTokens f g ts = ⟨.symbol s, span.map f⟩ :: recastTokens f g rest) ∨
      (∀ span rest, ts ≠ ⟨.symbol s, span⟩ :: rest) ∧
        ∀ span rest, recastTokens f g ts ≠ ⟨.symbol s, span⟩ :: rest :=
  front_recast (TokenKind.recast_eq_symbol_iff f g) ts

theorem front_keyword_recast (f : Position → Position) (g : String → String) (k : Keyword)
    (ts : List Token) :
    (∃ span rest, ts = ⟨.keyword k, span⟩ :: rest ∧
        recastTokens f g ts = ⟨.keyword k, span.map f⟩ :: recastTokens f g rest) ∨
      (∀ span rest, ts ≠ ⟨.keyword k, span⟩ :: rest) ∧
        ∀ span rest, recastTokens f g ts ≠ ⟨.keyword k, span⟩ :: rest :=
  front_recast (TokenKind.recast_eq_keyword_iff f g) ts

theorem nextIsSymbol_recast (s : Symbol) (ts : List Token) :
    nextIsSymbol s (recastTokens f g ts) = nextIsSymbol s ts := by
  rw [Bool.eq_iff_iff, nextIsSymbol_iff, nextIsSymbol_iff, skipTrivia_recast]
  rcases front_symbol_recast f g s (skipTrivia ts) with ⟨span, rest, heq, heq'⟩ | ⟨hne, hne'⟩
  · exact iff_of_true ⟨_, _, heq'⟩ ⟨_, _, heq⟩
  · exact iff_of_false (fun ⟨_, _, heq⟩ => hne' _ _ heq) fun ⟨_, _, heq⟩ => hne _ _ heq

theorem nextIsKeyword_recast (k : Keyword) (ts : List Token) :
    nextIsKeyword k (recastTokens f g ts) = nextIsKeyword k ts := by
  rw [Bool.eq_iff_iff, nextIsKeyword_iff, nextIsKeyword_iff, skipTrivia_recast]
  rcases front_keyword_recast f g k (skipTrivia ts) with ⟨span, rest, heq, heq'⟩ | ⟨hne, hne'⟩
  · exact iff_of_true ⟨_, _, heq'⟩ ⟨_, _, heq⟩
  · exact iff_of_false (fun ⟨_, _, heq⟩ => hne' _ _ heq) fun ⟨_, _, heq⟩ => hne _ _ heq

/-- Braces close at the same token. -/
theorem behindBraces_recast (depth : Nat) (ts : List Token) :
    behindBraces depth (recastTokens f g ts) =
      (behindBraces depth ts).map (recastTokens f g) := by
  induction ts generalizing depth with
  | nil => simp [behindBraces]
  | cons t ts ih =>
    by_cases hbrace : t.isBrace = true
    · obtain ⟨kind, span⟩ := t
      rcases Token.isBrace_iff.mp hbrace with rfl | rfl
      · simpa [behindBraces] using ih (depth + 1)
      · cases depth with
        | zero => simp [behindBraces]
        | succ depth => simpa [behindBraces] using ih depth
    · rw [Bool.not_eq_true] at hbrace
      rw [recastTokens_cons, behindBraces_cons hbrace, behindBraces_cons, ih]
      rw [Token.isBrace_recast, hbrace]

/-- A pattern is seen in both or in none. -/
theorem opensPattern_recast (named : Bool) (ts : List Token) :
    opensPattern named (recastTokens f g ts) = opensPattern named ts := by
  rw [opensPattern, opensPattern, behindBraces_recast]
  cases behindBraces 0 ts with
  | none => rfl
  | some rest => simp [nextIsSymbol_recast]

/-! ### Single tokens

Asking for a mark or a keyword either finds it in front or refuses at what is there. -/

theorem moves_expectSymbol (s : Symbol) :
    Moves f g (Span.map f) (expectSymbol s) (expectSymbol s) := by
  intro ts
  rw [expectSymbol, expectSymbol, skipNewlines_recast]
  rcases skipNewlines ts with _ | ⟨⟨kind, span⟩, us⟩
  · exact refuse_recast _ []
  · rw [recastTokens_cons, Token.recast_mk]
    cases kind with
    | symbol s' => by_cases hs : s' = s <;> simp [hs, refuse, moved]
    | _ => simp [TokenKind.recast, TokenKind.relabel, TokenKind.reword, refuse, moved]

theorem moves_expectKeyword (k : Keyword) :
    Moves f g (Span.map f) (expectKeyword k) (expectKeyword k) := by
  intro ts
  rw [expectKeyword, expectKeyword, skipNewlines_recast]
  rcases skipNewlines ts with _ | ⟨⟨kind, span⟩, us⟩
  · exact refuse_recast _ []
  · rw [recastTokens_cons, Token.recast_mk]
    cases kind with
    | keyword k' => by_cases hk : k' = k <;> simp [hk, refuse, moved]
    | _ => simp [TokenKind.recast, TokenKind.relabel, TokenKind.reword, refuse, moved]

end Grammar

end NixSyntax
