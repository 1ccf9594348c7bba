import NixSyntax.Proofs.Blind.Rules
import NixSyntax.Proofs.Composing.Brackets

/-!
# What stands behind the end of input

A list of tokens may have a token for the end of input in its middle, although no source has such
tokens. Nothing behind that token has a part in the tree. This is not for want of looking there: the
test for a pattern looks for a closing brace to the very end of the list, and it may find one behind
the end of input. So there may be a pattern with the tokens behind the end and none without them.
But where braces are not closed in front of the end, neither a pattern nor a set can be read. And
where a name is read that stands in front of an `@`, no form goes on.

So the end of input closes an expression as a mark does, and an expression in front of it is read as
on its own. The other way round, no rule takes the token, so it can be cut off with what is behind
it.

The same holds inside interpolations, and inside those of strings, at every depth. The tokens of an
interpolation have a part in the rest of the tree only by the expression that they are. Tokens that
are the same expression may be exchanged (`Interchangeable.replaced`).

## Main definitions

* `Replaced`: lists with different tokens in one place, which may be inside interpolations
* `Interchangeable`: tokens that are the same expression

## Main results

* `interchangeable_ended`: tokens with the end of input behind them, and anything behind that
* `Program.ofTokens_ended`: what stands behind the end of input has no part in the program
-/

namespace NixSyntax

/-- The list `us` has the tokens `ys` in the place of the tokens `xs` of `ts`. These are the whole
list, or the tokens of an interpolation in it, of one inside that, and so on. -/
inductive Replaced (xs ys : List Token) : List Token → List Token → Prop
  /-- The whole list. -/
  | here : Replaced xs ys xs ys
  /-- Inside a token that is an interpolation. -/
  | interpolation {ts us : List Token} (front back : List Token) (span : Span)
      (inner : Replaced xs ys ts us) :
      Replaced xs ys (front ++ ⟨.interpolation ts, span⟩ :: back)
        (front ++ ⟨.interpolation us, span⟩ :: back)
  /-- Inside an interpolation of a string. -/
  | string {ts us : List Token} (front back : List Token) (before behind : List StringFragment)
      (multiline : Bool) (inside span : Span) (inner : Replaced xs ys ts us) :
      Replaced xs ys
        (front ++ ⟨.string (before ++ .interpolation ts inside :: behind) multiline, span⟩ :: back)
        (front ++ ⟨.string (before ++ .interpolation us inside :: behind) multiline, span⟩ :: back)

namespace Grammar

variable {ts us xs ys : List Token} {stop : Token}

/-! ### Exchanging the tokens of an interpolation

What is read inside an interpolation can be refused in two ways, at one token or another, and
nothing is said of which. So all faults count as the same here. -/

/-- Tokens that are the same expression or none, however deep the nesting may be. -/
def Interchangeable (ts us : List Token) : Prop :=
  ∀ n e, complete (operandUpTo n) ts = .ok e ↔ complete (operandUpTo n) us = .ok e

/-- Any two faults. -/
def anyFault (_ _ : Stuck) : Prop := True

/-- Lists of tokens with strings and interpolations that may have other tokens inside. -/
def exchange : Pairing where
  fault := anyFault
  Paired _ := List.Forall₂ (Resembles anyFault)
  fault_refl _ := trivial
  abreast h := by
    cases h with
    | nil => exact .nil
    | cons resembles => exact .cons resembles
  refuse_fault _ _ := trivial
  tail h _ := (List.forall₂_cons.mp h).2
  tail_openBrace h := (List.forall₂_cons.mp h).2
  tail_closeBrace h := (List.forall₂_cons.mp h).2

namespace Interchangeable

/-- Lists of tokens that resemble each other are the same expression. -/
theorem of_forall₂ (h : List.Forall₂ (Resembles anyFault) ts us) : Interchangeable ts us := by
  intro n e
  have hpaired : exchange.Paired 0 ts us := h
  have hagree := blind_expression (blind_operandUpTo n) hpaired
  rw [complete_eq_ok_iff, complete_eq_ok_iff]
  generalize expression (operandUpTo n) ts = r, expression (operandUpTo n) us = r' at hagree ⊢
  cases hagree with
  | ok left => simp [left.atEnd_eq]
  | error => simp

variable (h : Interchangeable ts us)
include h

/-- What is read from the tokens of an interpolation is the same, or both are refused. -/
theorem interpolationOf (n : Nat) (span : Span) :
    SameValue anyFault (interpolationOf (operandUpTo n) ts span)
      (Grammar.interpolationOf (operandUpTo n) us span) := by
  rw [Grammar.interpolationOf, Grammar.interpolationOf]
  cases hts : complete (operandUpTo n) ts with
  | ok body =>
    rw [(h n body).mp hts]
    exact .ok _
  | error s =>
    cases hus : complete (operandUpTo n) us with
    | ok body =>
      rw [(h n body).mpr hus] at hts
      cases hts
    | error s' => exact .error trivial

/-- A string with one other interpolation in it, in any place among its parts. -/
theorem partsOf (n : Nat) (before behind : List StringFragment) (span : Span) :
    SameValue anyFault (partsOf (operandUpTo n) (before ++ .interpolation ts span :: behind))
      (Grammar.partsOf (operandUpTo n) (before ++ .interpolation us span :: behind)) := by
  induction before with
  | nil => exact (h.interpolationOf n span).bind fun _ => .refl (fun _ => trivial) _
  | cons fragment before ih =>
    cases fragment with
    | text content => exact ih.bind fun _ => .ok _
    | interpolation tokens span' =>
      exact (SameValue.refl (fun _ => trivial) _).bind fun _ => ih.bind fun _ => .ok _

omit h in
/-- A token among others that are the same. -/
theorem of_resembles {t t' : Token} (ht : Resembles anyFault t t') (front back : List Token) :
    Interchangeable (front ++ t :: back) (front ++ t' :: back) := by
  have hrefl (ts : List Token) : List.Forall₂ (Resembles anyFault) ts ts :=
    List.forall₂_same.mpr fun t _ => .refl (fun _ => trivial) t
  exact of_forall₂ (List.rel_append (hrefl front) (.cons ht (hrefl back)))

end Interchangeable

/-- **The tokens of an interpolation may be exchanged** for others that are the same expression. -/
theorem Interchangeable.replaced (h : Interchangeable xs ys) (hw : Replaced xs ys ts us) :
    Interchangeable ts us := by
  induction hw with
  | here => exact h
  | interpolation front back span _ ih =>
    exact of_resembles (Resembles.interpolation fun n => ih.interpolationOf n span) front back
  | string front back before behind multiline inside span _ ih =>
    exact of_resembles (Resembles.string fun n => ih.partsOf n before behind inside) front back

/-- Whole lists of tokens that are the same expression are the same program. -/
theorem Interchangeable.ofTokens (h : Interchangeable ts us) {p : Program}
    (hp : Program.ofTokens ts = .ok p) : Program.ofTokens us = .ok p := by
  obtain ⟨body, hbody, rfl⟩ := Program.ofTokens_eq_ok_iff.mp hp
  exact Program.ofTokens_eq_ok_iff.mpr
    ⟨body, complete_operandUpTo le_rfl ((h _ body).mp hbody), rfl⟩

/-! ### The end of input

Two directions, and each has its reason. With the end of input an expression reads on as it does
without, since the end closes it. Without it, what was read in front of the end is read again, since
no rule has taken the end. -/

/-- Where nothing or an end of input follows on tokens that are no such, that is the first. -/
theorem dropWhile_append_of_atEnd (hts : ∀ t ∈ ts, t.isEnd = false) (hus : atEnd us = true) :
    (ts ++ us).dropWhile (!·.isEnd) = us := by
  rw [List.dropWhile_append_of_pos fun t ht => by simp [hts t ht]]
  cases us with
  | nil => rfl
  | cons t us =>
    have ht : t.isEnd = true := hus
    exact List.dropWhile_cons_of_neg (by simp [ht])

/-- **The end of input, and anything behind it, can be put there and cut off again.** -/
theorem interchangeable_ended (hts : ∀ t ∈ ts, t.isEnd = false) (hstop : stop.isEnd = true)
    (us : List Token) : Interchangeable ts (ts ++ stop :: us) := by
  have hc : Closing (stop :: us) := by
    obtain ⟨kind, span⟩ := stop
    cases kind <;> first | exact ⟨_, _, rfl, rfl⟩ | cases hstop
  have hended : atEnd (stop :: us) = true := hstop
  intro n e
  rw [complete_eq_ok_iff, complete_eq_ok_iff]
  constructor
  · rintro ⟨rest, he, hend⟩
    obtain ⟨front, rfl, -, -⟩ := leaves_expression (advances_operandUpTo n) he
    -- no end of input is left, so nothing is
    cases rest with
    | nil => exact ⟨stop :: us, extends_expression hc (extends_operandUpTo hc n) he rfl, hended⟩
    | cons t rest =>
      rw [atEnd, hts t (by simp)] at hend
      cases hend
  · rintro ⟨rest, he, hend⟩
    obtain ⟨front, hfront, -, hends⟩ := leaves_expression (advances_operandUpTo n) he
    obtain rfl : stop :: us = rest :=
      calc stop :: us
          = (ts ++ stop :: us).dropWhile (!·.isEnd) := (dropWhile_append_of_atEnd hts hended).symm
        _ = (front ++ rest).dropWhile (!·.isEnd) := by rw [hfront]
        _ = rest := dropWhile_append_of_atEnd hends hend
    exact ⟨[], retract_expression hc he, rfl⟩

end Grammar

namespace Program

open Grammar

/-- **What stands behind the end of input has no part in the program.** With a token for the end of
input behind some tokens, and anything behind that, they are the same program as without, or are
none in both cases. This is so of a whole list of tokens, and of those inside an interpolation at
any depth, whatever the other tokens are. -/
theorem ofTokens_ended {front back ts us : List Token} {stop : Token}
    (hfront : ∀ t ∈ front, t.isEnd = false) (hstop : stop.isEnd = true)
    (hw : Replaced front (front ++ stop :: back) ts us) (p : Program) :
    ofTokens us = .ok p ↔ ofTokens ts = .ok p := by
  have h := (interchangeable_ended hfront hstop back).replaced hw
  exact ⟨Interchangeable.ofTokens fun n e => (h n e).symm, h.ofTokens⟩

/-- The tokens of `x@{`. -/
def openTokens : List Token :=
  [⟨.identifier "x", default⟩, ⟨.symbol .atSign, default⟩, ⟨.symbol .openBrace, default⟩]

/-- The tokens of `}: x`. -/
def closingTokens : List Token :=
  [⟨.symbol .closeBrace, default⟩, ⟨.symbol .colon, default⟩, ⟨.identifier "x", default⟩]

/-- The tokens of a string with one interpolation. -/
def stringTokens (inside : List Token) : List Token :=
  [⟨.string [.text "", .interpolation inside default, .text ""] false, default⟩]

/-- The end of input stands in front of the brace that would make a pattern, and the test for a
pattern does find it. -/
theorem ofTokens_ended_openTokens :
    opensPattern true (⟨.endOfInput, default⟩ :: closingTokens) = true ∧
      (∃ p, ofTokens (stringTokens (openTokens ++ closingTokens)) = .ok p) ∧
      (∀ t ∈ openTokens, t.isEnd = false) ∧
      ∀ p, ofTokens (stringTokens (openTokens ++ ⟨.endOfInput, default⟩ :: closingTokens)) = .ok p ↔
        ofTokens (stringTokens openTokens) = .ok p := by
  have hfront : ∀ t ∈ openTokens, t.isEnd = false := by decide
  have hstop : Token.isEnd ⟨.endOfInput, default⟩ = true := rfl
  have hw : Replaced openTokens (openTokens ++ ⟨.endOfInput, default⟩ :: closingTokens)
      (stringTokens openTokens) (stringTokens _) :=
    .string [] [] [.text ""] [.text ""] false default default .here
  exact ⟨rfl, ⟨_, rfl⟩, hfront, ofTokens_ended hfront hstop hw⟩

end Program

end NixSyntax
