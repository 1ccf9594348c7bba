import NixSyntax.Proofs.Blind.Pairs

/-!
# What stands behind a closing brace

Inside braces no rule looks past the brace that closes them. So if two lists of tokens are the same
up to a closing brace, a rule reads the same from both, or fails for the same cause at the same
token, whatever stands behind that brace. Only the test for a pattern looks far ahead, and it looks
for a brace that stands further in.

`Braced` is the relation of two such lists. It counts how many braces are to be closed in front of
that last one, since a form in braces begins one brace further in than it ends.

## How the braces are counted

At depth zero the next closing brace is the last one, and it is behind this one that the lists may
differ. Opening braces are passed as well, by the sets and patterns inside, and each leads one brace
further in. A list ends at depth zero with the closing brace, so a closing brace at any other depth
leads one brace further out.

The tokens up to that brace are the same on both sides, and not only alike. So faults are the same
as well, and the pairing has equality for them.

## Main definitions

* `Braced`: lists that are the same up to a closing brace
* `Braced.pairing`: no rule tells them apart, as long as it stays in front of that brace
-/

namespace NixSyntax

namespace Grammar

/-- Lists that are the same up to a closing brace and go on with `x` and with `y` behind it. In
front of it, `depth` more braces are closed than opened. -/
inductive Braced (x y : List Token) : Nat → List Token → List Token → Prop
  /-- The closing brace. -/
  | close {span : Span} :
      Braced x y 0 (⟨.symbol .closeBrace, span⟩ :: x) (⟨.symbol .closeBrace, span⟩ :: y)
  /-- A closing brace in front of it. -/
  | leave {depth : Nat} {span : Span} {ts ts' : List Token} (outside : Braced x y depth ts ts') :
      Braced x y (depth + 1) (⟨.symbol .closeBrace, span⟩ :: ts)
        (⟨.symbol .closeBrace, span⟩ :: ts')
  /-- An opening brace. -/
  | enter {depth : Nat} {span : Span} {ts ts' : List Token}
      (inside : Braced x y (depth + 1) ts ts') :
      Braced x y depth (⟨.symbol .openBrace, span⟩ :: ts) (⟨.symbol .openBrace, span⟩ :: ts')
  /-- Any other token. -/
  | cons {depth : Nat} {t : Token} {ts ts' : List Token} (ht : t.isBrace = false)
      (behind : Braced x y depth ts ts') : Braced x y depth (t :: ts) (t :: ts')

variable {x y ts ts' us us' : List Token} {depth : Nat} {t t' : Token}

/-- Tokens whose last one is the closing brace of the braces they stand in. -/
theorem braced_append (h : behindBraces depth ts = some []) (x y : List Token) :
    Braced x y depth (ts ++ x) (ts ++ y) := by
  induction ts generalizing depth with
  | nil => simp [behindBraces] at h
  | cons t ts ih =>
    cases hbrace : t.isBrace with
    | false =>
      rw [behindBraces_cons hbrace] at h
      exact .cons hbrace (ih h)
    | true =>
      obtain ⟨kind, span⟩ := t
      rcases Token.isBrace_iff.mp hbrace with rfl | rfl
      · exact .enter (ih h)
      · cases depth with
        | zero =>
          obtain rfl := Option.some.inj h
          exact .close
        | succ depth => exact .leave (ih h)

namespace Braced

/-- Neither list is empty, and both begin with the same token. -/
theorem front (h : Braced x y depth ts ts') : ∃ t us us', ts = t :: us ∧ ts' = t :: us' := by
  cases h <;> exact ⟨_, _, _, rfl, rfl⟩

/-- A token that is no brace is passed at the depth at which it stands. -/
theorem behind (h : Braced x y depth (t :: us) (t' :: us')) (ht : t.isBrace = false) :
    Braced x y depth us us' := by
  cases h with
  | cons _ behind => exact behind
  | _ => cases ht

theorem inside {span : Span} (h : Braced x y depth (⟨.symbol .openBrace, span⟩ :: us)
    (⟨.symbol .openBrace, span⟩ :: us')) : Braced x y (depth + 1) us us' := by
  cases h with
  | enter inside => exact inside
  | cons ht => cases ht

theorem outside {span : Span} (h : Braced x y (depth + 1) (⟨.symbol .closeBrace, span⟩ :: us)
    (⟨.symbol .closeBrace, span⟩ :: us')) : Braced x y depth us us' := by
  cases h with
  | leave outside => exact outside
  | cons ht => cases ht

/-- Behind the closing brace the lists are `x` and `y`. -/
theorem eq_of_close {span : Span} (h : Braced x y 0 (⟨.symbol .closeBrace, span⟩ :: us)
    (⟨.symbol .closeBrace, span⟩ :: us')) : us = x ∧ us' = y := by
  cases h with
  | close => exact ⟨rfl, rfl⟩
  | cons ht => cases ht

/-- **No rule looks past the closing brace** of the braces it stands in. Its faults are the same. -/
def pairing (x y : List Token) : Pairing where
  fault s s' := s = s'
  Paired := Braced x y
  fault_refl _ := rfl
  abreast h := by
    obtain ⟨t, us, us', rfl, rfl⟩ := h.front
    exact .cons (.refl (fun _ => rfl) t)
  refuse_fault h cause := by
    obtain ⟨t, us, us', rfl, rfl⟩ := h.front
    rfl
  tail := behind
  tail_openBrace := inside
  tail_closeBrace := outside

end Braced

end Grammar

end NixSyntax
