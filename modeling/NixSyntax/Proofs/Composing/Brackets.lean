import NixSyntax.Proofs.Composing.Extension
import NixSyntax.Proofs.Cutting.Rules

/-!
# Forms in brackets

A form in brackets ends at its closing bracket, so it reads the same whatever stands behind that.
What is between the brackets is in front of a token that closes, and tokens like that may be taken
away and put there again: without the closing bracket, and all behind it, what is inside is read as
on its own (`retract_expression`, `retract_items`, `retract_bindings`), and with the bracket and
anything else behind it, it is read like that again.

## Taking the bracket away and putting it back

A rule inside the brackets stops in front of the closing one. It has seen it, and that it has
stopped there is known. What it would do with other tokens behind the bracket cannot be seen from
that: it might be a rule that looks further. So the bracket is first taken away, which by the theory
of seams changes nothing that was read, and then put back with the new tokens behind it. A bracket
closes, so in front of it every rule stops that stops at the end of its tokens (`Closing`).

At this seam both sides have the same tokens, comments and places included. Nothing is compared in
part, so that what crosses it is equal and not only alike (`Seam.c_inside`).

## Main definitions

* `Seam.inside`: the place in front of a token that closes, as a seam

## Main results

* `paren_append`, `list_append`, `attrSet_append`: any tokens behind a closing bracket
-/

namespace NixSyntax

namespace Grammar

variable {tail ts rest : List Token} {n : Nat}

/-! ### Without the token that closes

The second side of this seam is the first one without its tail. -/

/-- The place in front of a token that closes. Nothing is compared in part. -/
def Seam.inside (hc : Closing tail) : Seam where
  f := id
  f' := id
  keep := true
  tail := tail
  tail' := []
  comments_tail := by
    rw [← List.nil_append tail, hc.commentsAhead_append]
    exact viewComments_nil _ _
  isEnd_of_mem := isEnd_of_mem_nil

theorem Seam.c_inside (hc : Closing tail) : (Seam.inside hc).c = id := viewComments_true_id

theorem Seam.before_inside (hc : Closing tail) (ts : List Token) :
    (Seam.inside hc).Before (ts ++ tail) ts := by
  have h : (Seam.inside hc).Before (ts ++ tail) (ts ++ []) := (Seam.inside hc).before_append rfl
  rwa [List.append_nil] at h

theorem Seam.eq_append_of_before {hc : Closing tail} {ts ts' : List Token}
    (h : (Seam.inside hc).Before ts ts') : ts = ts' ++ tail := by
  induction h with
  | tail => rfl
  | @cons t t' _ _ alike _ ih =>
    have ht : t.relabel id = t'.relabel id := alike
    rw [t.relabel_id, t'.relabel_id] at ht
    rw [ht, ih, List.cons_append]

/-- Where the sides correspond, the first is the second with the tail behind it. -/
theorem Seam.eq_append_of_sim {hc : Closing tail} {ts ts' : List Token}
    (h : (Seam.inside hc).Sim ts ts') : ts = ts' ++ tail := by
  cases h with
  | before h => exact Seam.eq_append_of_before h
  | passed => exact hc.skipTrivia_eq

/-- A rule that crosses the seam reads the same without the token that closes. -/
theorem Seam.Crosses.retract {α : Type} {hc : Closing tail} {r : Rule α} {k k' : α → α} {a : α}
    (hr : (Seam.inside hc).Crosses r r k k') (hk : k = id) (hk' : k' = id)
    (h : r (ts ++ tail) = .ok (a, rest ++ tail)) : r ts = .ok (a, rest) := by
  have hreaches : (Seam.inside hc).Reaches (rest ++ tail) := by
    have hskip : (Seam.inside hc).tail = tail := rfl
    rw [Seam.Reaches, hskip, hc.skipTrivia_eq, List.length_append]
    omega
  obtain ⟨a', rest', h', hsim, heq⟩ := hr (.before (Seam.before_inside hc ts)) h hreaches
  obtain rfl : rest = rest' := List.append_cancel_right (Seam.eq_append_of_sim hsim)
  subst hk hk'
  obtain rfl : a = a' := heq
  exact h'

/-- An expression in front of a token that closes is the whole of what is in front of it. -/
theorem retract_expression (hc : Closing tail) {e : Expr}
    (h : expression (operandUpTo n) (ts ++ tail) = .ok (e, rest ++ tail)) :
    expression (operandUpTo n) ts = .ok (e, rest) := by
  have hid : Expr.relabel id (Seam.inside hc).c = id := by
    rw [Seam.c_inside]
    exact funext Expr.relabel_id
  exact (Seam.crosses_expression (Seam.crosses_operandUpTo n)).retract hid hid h

theorem retract_items (hc : Closing tail) {items : List Operand}
    (h : repeated (item (operandUpTo n)) (ts ++ tail) = .ok (items, rest ++ tail)) :
    repeated (item (operandUpTo n)) ts = .ok (items, rest) := by
  have hadv := advances_operandUpTo n
  have hid : List.map (Operand.relabel id (Seam.inside hc).c) = id := by
    rw [Seam.c_inside, show Operand.relabel id id = id from funext Operand.relabel_id]
    exact funext List.map_id
  exact ((Seam.crosses_item (Seam.crosses_operandUpTo n)).repeated (repeatable_item hadv)
    (leaves_item hadv)).retract hid hid h

theorem retract_bindings (hc : Closing tail) {bs : List Binding}
    (h : repeated (bindingUnless (operandUpTo n) (nextIsSymbol .closeBrace)) (ts ++ tail) =
      .ok (bs, rest ++ tail)) :
    repeated (bindingUnless (operandUpTo n) (nextIsSymbol .closeBrace)) ts = .ok (bs, rest) := by
  have hadv := advances_operandUpTo n
  have hid : List.map (Binding.relabel id (Seam.inside hc).c) = id := by
    rw [Seam.c_inside, show Binding.relabel id id = id from funext Binding.relabel_id]
    exact funext List.map_id
  exact ((Seam.crosses_bindingUnless (Seam.crosses_operandUpTo n)
    Seam.watches_closeBrace).repeated (repeatable_bindingUnless hadv)
    fun h => leaves_binding hadv (bindingUnless_eq_some_iff.mp h).2.2).retract hid hid h

/-! ### With other tokens behind it

What is between the brackets is read on its own first, and then with the bracket and any tokens
behind it. -/

/-- The tokens in front of a mark that is required, with the trivia in front of the mark. -/
theorem exists_append_of_expectSymbol {s : Symbol} {span : Span} {mid : List Token} {m : Nat}
    (h : expectSymbol s (skipTrivia mid) = .ok (span, rest)) (hmid : Leaves m ts mid) :
    ∃ front gap, ts = front ++ gap ++ ⟨.symbol s, span⟩ :: rest ∧
      mid = gap ++ ⟨.symbol s, span⟩ :: rest ∧ skipTrivia gap = [] := by
  obtain ⟨front, rfl, -, -⟩ := hmid
  have hnext := skipTrivia_of_expectSymbol h
  rw [skipTrivia_skipTrivia] at hnext
  have hgap : mid = mid.takeWhile Token.isTrivia ++ ⟨.symbol s, span⟩ :: rest := by
    rw [← hnext]
    exact List.takeWhile_append_dropWhile.symm
  refine ⟨front, _, ?_, hgap, List.dropWhile_eq_nil_iff.mpr fun t => List.mem_takeWhile_imp⟩
  rw [List.append_assoc, ← hgap]

/-- **Any tokens behind a parenthesis that closes.** -/
theorem paren_append {start : Span} {t : Term}
    (h : paren (operandUpTo n) start ts = .ok (t, rest)) (tail : List Token) :
    paren (operandUpTo n) start (ts ++ tail) = .ok (t, rest ++ tail) := by
  obtain ⟨body, mid, hbody, stop, hstop, rfl⟩ := paren_eq_ok_iff.mp h
  have hmid := skipTrivia_of_expectSymbol hstop
  rw [skipTrivia_of_expression hbody] at hmid
  subst hmid
  obtain ⟨front, rfl, -, -⟩ := leaves_expression (advances_operandUpTo n) hbody
  have hc : Closing (⟨.symbol .closeParen, stop⟩ :: rest) := ⟨_, _, rfl, rfl⟩
  have hc' : Closing (⟨.symbol .closeParen, stop⟩ :: (rest ++ tail)) := ⟨_, _, rfl, rfl⟩
  have hinside : expression (operandUpTo n) front = .ok (body, []) := retract_expression hc hbody
  have hbody' := extends_expression hc' (extends_operandUpTo hc' n) hinside rfl
  rw [List.append_assoc]
  exact paren_eq_ok_iff.mpr ⟨body, _, hbody', stop, expectSymbol_eq_ok_iff.mpr rfl, rfl⟩

/-- **Any tokens behind a bracket that closes.** -/
theorem list_append {start : Span} {t : Term}
    (h : list (operandUpTo n) start ts = .ok (t, rest)) (tail : List Token) :
    list (operandUpTo n) start (ts ++ tail) = .ok (t, rest ++ tail) := by
  obtain ⟨items, mid, hitems, stop, hstop, rfl⟩ := list_eq_ok_iff.mp h
  have hadv := advances_operandUpTo n
  have hrounds := ((repeated_eq_ok_iff (repeatable_item hadv)).mp hitems).1
  obtain ⟨front, gap, rfl, rfl, hgap⟩ :=
    exists_append_of_expectSymbol hstop (hrounds.leaves (leaves_item hadv))
  have hc : Closing (⟨.symbol .closeBracket, stop⟩ :: rest) := ⟨_, _, rfl, rfl⟩
  have hc' : Closing (⟨.symbol .closeBracket, stop⟩ :: (rest ++ tail)) := ⟨_, _, rfl, rfl⟩
  have hinside := retract_items hc hitems
  have hat : NoAtSign gap := nextIsSymbol_eq_false_iff.mpr (by simp [hgap])
  have hnext : skipTrivia (gap ++ ⟨.symbol .closeBracket, stop⟩ :: (rest ++ tail)) =
      ⟨.symbol .closeBracket, stop⟩ :: (rest ++ tail) := by
    rw [hc'.skipTrivia_append, hgap]
    rfl
  have hitems' := extend_items hc' (extends_operandUpTo hc' n) hinside hat
    (nextIsSymbol_iff.mpr ⟨_, _, hnext⟩)
  rw [List.append_assoc]
  refine list_eq_ok_iff.mpr ⟨items, _, hitems', stop, ?_, ?_⟩
  · rw [hnext]
    exact expectSymbol_eq_ok_iff.mpr rfl
  · rw [hc.commentsAhead_append, hc'.commentsAhead_append]

/-- **Any tokens behind a brace that closes.** -/
theorem attrSet_append {recursive : Bool} {start : Span} {t : Term}
    (h : attrSet (operandUpTo n) recursive start ts = .ok (t, rest)) (tail : List Token) :
    attrSet (operandUpTo n) recursive start (ts ++ tail) = .ok (t, rest ++ tail) := by
  obtain ⟨bs, mid, hbs, stop, hstop, rfl⟩ := attrSet_eq_ok_iff.mp h
  have hadv := advances_operandUpTo n
  have hrounds := ((repeated_eq_ok_iff (repeatable_bindingUnless hadv)).mp hbs).1
  obtain ⟨front, gap, rfl, rfl, hgap⟩ :=
    exists_append_of_expectSymbol hstop (hrounds.leaves_bindings hadv)
  have hc : Closing (⟨.symbol .closeBrace, stop⟩ :: rest) := ⟨_, _, rfl, rfl⟩
  have hc' : Closing (⟨.symbol .closeBrace, stop⟩ :: (rest ++ tail)) := ⟨_, _, rfl, rfl⟩
  have hinside := retract_bindings hc hbs
  have hnext : skipTrivia (gap ++ ⟨.symbol .closeBrace, stop⟩ :: (rest ++ tail)) =
      ⟨.symbol .closeBrace, stop⟩ :: (rest ++ tail) := by
    rw [hc'.skipTrivia_append, hgap]
    rfl
  have hbs' := extend_bindings hc' (extends_operandUpTo hc' n)
    (fun ts hts => hc'.nextIsSymbol_append_of_not_atEnd hts _) hinside
    (nextIsSymbol_iff.mpr ⟨_, _, hnext⟩)
  rw [List.append_assoc]
  refine attrSet_eq_ok_iff.mpr ⟨bs, _, hbs', stop, ?_, ?_⟩
  · rw [hnext]
    exact expectSymbol_eq_ok_iff.mpr rfl
  · rw [hc.commentsAhead_append, hc'.commentsAhead_append]

end Grammar

end NixSyntax
