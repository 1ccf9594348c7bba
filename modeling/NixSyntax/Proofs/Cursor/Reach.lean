import NixSyntax.Proofs.Lexing.Nested
import NixSyntax.Proofs.Reading.Progress

/-!
# Where the cursor can be

A rule is given the tokens from the cursor on. The cursor of the rule that reads a list begins at
its front and moves behind one token after the other, and each interpolation among these tokens has
a cursor of its own, at the front of its tokens. No cursor moves behind a token that ends the input.
`Reached` says of a list which tokens a cursor can have in front of it, in the list or in an
interpolation at any depth.

## Two ways to keep to the places

That a rule keeps to these places is shown in two ways. If it fails, its fault names what a cursor
has in front of it at one of them (`Stuck.StandsIn`). And two rules for operands that give the same
answers there are the same to it, whatever they do anywhere else, so it asks for an operand at no
other place. `Confined` says both of two answers. It is closed under `>>=` where the first part has
left a part of the tokens.

The second way is how a statement about one run can say what the run does not look at. A rule is a
function, and a function of a list of tokens has no places at which it was called. But what it does
with the rule for operands inside it can be told by changing that rule: if the answer stays the same
when it is changed at a place, then it was not asked there, or did not use what it was told.

## The end of the tokens

At the end of its tokens a cursor has no token in front of it, and a fault there names none. An
interpolation gives a name to its own end before the fault leaves it: an end of input of no width,
where the interpolation ends. So the token of a fault is not always the first token of a place, and
`Faces` is a relation of its own, along the same steps as `Reached`.

## Main definitions

* `Reached`: the places of a cursor
* `Faces`: what a cursor has in front of it at one of its places
* `Stuck.StandsIn`: a fault that names what the cursor faces
* `Confined`: two answers that are the same, and that name nothing else if they are faults
* `Agreeing`, `AgreeingInside`: two rules for operands that give such answers

## Main results

* `Reached.countTokens_le`: from place to place the tokens do not become more
* `Faces.of_leaves`: what is faced behind some tokens is faced from in front of them
* `Confined.andThen`: what stands behind a confined rule may ask wherever the rule has left off
* `confined_repeated`: repetitions of confined rounds are confined
-/

namespace NixSyntax

namespace Grammar

variable {α β : Type} {us vs ts mid rest : List Token} {m n : Nat} {s : Stuck}

/-! ### Places

The two relations have the same steps. A cursor goes on from place to place behind tokens that do
not end the input (`behind`), and one of its own begins inside each token that holds tokens
(`within`). -/

/-- A cursor on the tokens `ts` can get to where it has the tokens `us` in front of it, and so can
one on the tokens of an interpolation in `ts`. -/
inductive Reached (us : List Token) : List Token → Prop
  | refl : Reached us us
  | behind {t : Token} {ts : List Token} (goes_on : t.isEnd = false) (h : Reached us ts) :
      Reached us (t :: ts)
  | within {t : Token} {ts : List Token} {i : List Token × Span} (mem : i ∈ t.interpolations)
      (h : Reached us i.1) : Reached us (t :: ts)

/-- A place of a place is a place. -/
theorem Reached.trans (h : Reached us vs) (h' : Reached vs ts) : Reached us ts := by
  induction h' with
  | refl => exact h
  | behind goes_on _ ih => exact .behind goes_on ih
  | within mem _ ih => exact .within mem ih

/-- What a rule leaves is a place. -/
theorem Leaves.reached (h : Leaves n ts rest) : Reached rest ts := by
  obtain ⟨front, rfl, -, hend⟩ := h
  clear n
  induction front with
  | nil => exact .refl
  | cons t front ih =>
    obtain ⟨ht, hfront⟩ := List.forall_mem_cons.mp hend
    exact .behind ht (ih hfront)

/-- A token counts for more than the tokens inside it, since it counts itself. -/
theorem countTokens_lt_of_mem_interpolations {t : Token} {i : List Token × Span}
    (h : i ∈ t.interpolations) : countTokens i.1 < t.count := by
  obtain ⟨kind, span⟩ := t
  cases kind with
  | interpolation tokens =>
    obtain rfl : i = (tokens, span) := by simpa [Token.interpolations] using h
    simp [Token.count, TokenKind.innerCount]
  | string parts multiline =>
    have hparts : countTokens i.1 ≤ countFragments parts := by
      replace h : i ∈ parts.filterMap StringFragment.interpolation? := h
      induction parts with
      | nil => simp at h
      | cons part parts ih =>
        rw [countFragments]
        cases part with
        | text content =>
          have := ih (by simpa [StringFragment.interpolation?] using h)
          omega
        | interpolation tokens span' =>
          rcases List.mem_cons.mp h with rfl | h
          · simp [StringFragment.count]
          · have := ih h
            omega
    simp [Token.count, TokenKind.innerCount]
    omega
  | _ => simp [Token.interpolations] at h

/-- From place to place the tokens do not become more. Tokens inside other tokens are counted, so
this goes for places inside an interpolation as well. -/
theorem Reached.countTokens_le (h : Reached us ts) : countTokens us ≤ countTokens ts := by
  induction h with
  | refl => exact Nat.le_refl _
  | behind _ _ ih =>
    rw [countTokens_cons]
    omega
  | within mem _ ih =>
    have := countTokens_lt_of_mem_interpolations mem
    rw [countTokens_cons]
    omega

/-- A cursor that starts in front of the tokens can come to face `x`. It faces the token in front of
it, and none at the end of the tokens. At the end of an interpolation it faces the end of input that
stands where the interpolation ends. -/
inductive Faces : Option Token → List Token → Prop
  | front (ts : List Token) : Faces ts.head? ts
  | behind {x : Option Token} {t : Token} {ts : List Token} (goes_on : t.isEnd = false)
      (h : Faces x ts) : Faces x (t :: ts)
  | within {x : Option Token} {t : Token} {ts : List Token} {i : List Token × Span}
      (mem : i ∈ t.interpolations) (h : Faces x i.1) :
      Faces (some (x.getD ⟨.endOfInput, .point i.2.stop⟩)) (t :: ts)

/-- The fault names what the cursor faces at one of its places. -/
def Stuck.StandsIn (ts : List Token) (s : Stuck) : Prop := Faces s.token ts

/-- What is faced from a place that a rule leaves is faced from where it began. -/
theorem Faces.of_leaves {x : Option Token} (h : Faces x rest) (hleaves : Leaves n ts rest) :
    Faces x ts := by
  obtain ⟨front, rfl, -, hend⟩ := hleaves
  clear n
  induction front with
  | nil => exact h
  | cons t front ih =>
    obtain ⟨ht, hfront⟩ := List.forall_mem_cons.mp hend
    exact .behind ht (ih hfront)

/-! ### Answers

Both parts of `Confined` are about the same run, and are proved together: that a fault is at a
place, and that the answer does not change when the rule for operands does at other places. Each
lemma below says for one way to put rules together that it keeps both. -/

/-- Two answers that are the same, and that are a fault at a place in `ts` if they are one. -/
structure Confined (ts : List Token) (x x' : Except Stuck α) : Prop where
  /-- The answers are the same. -/
  eq : x = x'
  /-- A fault is at a place of the cursor. -/
  stands : ∀ s, x = .error s → s.StandsIn ts

namespace Confined

variable {x x' : Except Stuck α}

theorem ok (a : α) : Confined ts (.ok a : Except Stuck α) (.ok a) := ⟨rfl, nofun⟩

theorem pure (a : α) : Confined ts (pure a : Except Stuck α) (Pure.pure a) := ⟨rfl, nofun⟩

/-- A rule that fails at the first token in front of it fails at a place. -/
theorem refuse (cause : ParseCause) (ts : List Token) :
    Confined ts (refuse cause ts : Except Stuck α) (Grammar.refuse cause ts) := by
  refine ⟨rfl, fun s hs => ?_⟩
  cases hs
  exact .front ts

/-- What is confined behind some tokens is confined from in front of them. -/
theorem of_leaves (h : Confined rest x x') (h' : Leaves n ts rest) : Confined ts x x' :=
  ⟨h.eq, fun s hs => Faces.of_leaves (h.stands s hs) h'⟩

theorem behindTrivia (h : Confined (skipTrivia ts) x x') : Confined ts x x' :=
  h.of_leaves leaves_skipTrivia

theorem cons {t : Token} (h : Confined ts x x') (ht : t.isEnd = false) : Confined (t :: ts) x x' :=
  h.of_leaves ((Leaves.refl ts).cons ht)

/-- The second part may have to be looked at only behind what the first has read. -/
theorem bind {f f' : α → Except Stuck β} (hx : Confined ts x x')
    (hf : ∀ a, x = .ok a → Confined ts (f a) (f' a)) : Confined ts (x >>= f) (x' >>= f') := by
  obtain ⟨rfl, hstands⟩ := hx
  cases x with
  | error s =>
    refine ⟨rfl, fun s' hs' => ?_⟩
    cases hs'
    exact hstands s rfl
  | ok a => exact hf a rfl

/-- What follows a rule is confined to the tokens that the rule has left. -/
theorem andThen {x x' : Except Stuck (α × List Token)} {f f' : α × List Token → Except Stuck β}
    (hx : Confined ts x x') (hleaves : ∀ {a mid}, x = .ok (a, mid) → Leaves n ts mid)
    (hf : ∀ a mid, Leaves n ts mid → Confined mid (f (a, mid)) (f' (a, mid))) :
    Confined ts (x >>= f) (x' >>= f') :=
  hx.bind fun (a, mid) ha => (hf a mid (hleaves ha)).of_leaves (hleaves ha)

end Confined

/-- Rounds that are confined wherever the one before has left off are so as a whole. -/
theorem confined_repeated {round round' : Rule (Option α)}
    (hround : ∀ us, Leaves 0 ts us → Confined us (round us) (round' us))
    (hleaves : ∀ {us a rest}, round us = .ok (some a, rest) → Leaves 1 us rest) :
    Confined ts (repeated round ts) (repeated round' ts) := by
  suffices ∀ n us, Leaves 0 ts us → Confined us (rounds round n us) (rounds round' n us) from
    this _ ts (.refl ts)
  intro n
  induction n with
  | zero => exact fun us _ => .ok _
  | succ n ih =>
    intro us hus
    refine (hround us hus).bind fun (a, mid) ha => ?_
    cases a with
    | none => exact .pure _
    | some a =>
      have hmid := hleaves ha
      refine Confined.of_leaves ?_ hmid
      exact (ih mid ((hus.trans hmid).mono (Nat.zero_le _))).bind fun _ _ => .pure _

/-! ### Rules for operands

All rules of the grammar are given a rule for the operands inside them. Two such rules that agree at
the places of a list are as good as one for every rule that reads the list. An operand itself needs
less: it takes a token before it asks for another operand, so they have to agree only where fewer
tokens are left. -/

/-- Two rules for operands that give the same answers at each place in `ts`, each confined to the
places from there. -/
def Agreeing (operand operand' : Context → Rule Operand) (ts : List Token) : Prop :=
  ∀ ⦃us⦄, Reached us ts → ∀ ctx, Confined us (operand ctx us) (operand' ctx us)

/-- Two rules for operands that do so at each place in `ts` with fewer tokens. -/
def AgreeingInside (operand operand' : Context → Rule Operand) (ts : List Token) : Prop :=
  ∀ ⦃us⦄, Reached us ts → countTokens us < countTokens ts →
    ∀ ctx, Confined us (operand ctx us) (operand' ctx us)

variable {operand operand' : Context → Rule Operand}

/-- The places of a place are places, so rules that agree on a list agree on all that a cursor can
get to. -/
theorem Agreeing.of_reached (h : Agreeing operand operand' ts) (h' : Reached us ts) :
    Agreeing operand operand' us := fun _ hvs => h (hvs.trans h')

theorem Agreeing.behind (h : Agreeing operand operand' ts) (h' : Leaves n ts rest) :
    Agreeing operand operand' rest := h.of_reached h'.reached

theorem AgreeingInside.of_leaves (h : AgreeingInside operand operand' ts)
    (h' : Leaves 0 ts rest) : AgreeingInside operand operand' rest := fun us hus hlt ctx => by
  have := h'.countTokens_le
  exact h (hus.trans h'.reached) (by omega) ctx

/-- Behind the first token there are fewer tokens. -/
theorem AgreeingInside.behind (h : AgreeingInside operand operand' ts) (h' : Leaves 1 ts rest) :
    Agreeing operand operand' rest := fun us hus ctx => by
  have := hus.countTokens_le
  have := h'.countTokens_le
  exact h (hus.trans h'.reached) (by omega) ctx

/-- Inside the first token there are fewer tokens. -/
theorem AgreeingInside.within {t : Token} {i : List Token × Span}
    (h : AgreeingInside operand operand' (t :: ts)) (hi : i ∈ t.interpolations) :
    Agreeing operand operand' i.1 := fun us hus ctx => by
  have := hus.countTokens_le
  have := countTokens_lt_of_mem_interpolations hi
  exact h (.within hi hus) (by rw [countTokens_cons]; omega) ctx

end Grammar

end NixSyntax
