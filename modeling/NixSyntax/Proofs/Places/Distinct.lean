import NixSyntax.Proofs.Lexing.Tiling
import NixSyntax.Proofs.Reading.Origin

/-!
# No two tokens end at one place

A node of a tree has a place, and no more to tell which tokens it was made of. In a text this is
enough. A token takes something of the text, and the tokens of an interpolation end in front of its
closing brace. So two tokens that end at one place are the same, at whatever depth they stand, and
what is behind them is the same too.

The induction is on where the first token stands. Where the two stand apart, one behind the other or
one inside the other, one of their ends comes before the other (`Run.bounds_of_inside`).

## Why the end and not the beginning

What is wanted of a node that has a place is what stands behind it, and that is found from the end.
A closing brace stands between the end of a token and the ends of the tokens inside of it, and one
token behind another takes something of the text, so all ends are different. The end of input takes
nothing, and stands where the last token ends if no blank is behind that one. So it is left out.

Places are compared by their offsets here. That a position is determined by its offset is a fact
about texts and positions, and not needed for this.

## Main results

* `Lexical.Run.eq_of_stop_eq`: a token of a text is told by its end
-/

namespace NixSyntax

/-- Of spans in a row, one ends in front of the other. -/
theorem InOrder.eq_or_le {α : Type} {place : α → Span} {as : List α} {a b : α} {first last : Nat}
    (h : InOrder first (as.map place) last) (ha : a ∈ as) (hb : b ∈ as) :
    a = b ∨ (place a).stop.offset ≤ (place b).start.offset ∨
      (place b).stop.offset ≤ (place a).start.offset := by
  have hfirst : ∀ {as : List α} {first : Nat}, InOrder first (as.map place) last →
      ∀ a ∈ as, first ≤ (place a).start.offset := by
    intro as
    induction as with
    | nil => simp
    | cons x as ih =>
      intro first h
      obtain ⟨hstart, hstop, h⟩ := inOrder_cons.mp h
      exact List.forall_mem_cons.mpr ⟨hstart, fun a ha => (hstart.trans hstop).trans (ih h a ha)⟩
  induction as generalizing first with
  | nil => cases ha
  | cons x as ih =>
    obtain ⟨-, -, h⟩ := inOrder_cons.mp h
    rcases List.mem_cons.mp ha with rfl | hmem <;> rcases List.mem_cons.mp hb with rfl | hmem'
    · exact .inl rfl
    · exact .inr (.inl (hfirst h b hmem'))
    · exact .inr (.inr (hfirst h a hmem))
    · exact ih h hmem hmem'

namespace Lexical

open Grammar (Inside)

variable {c d : Cursor} {t u : Token} {ts us vs : List Token}

/-- A token ends where its reader does, and has taken something. -/
theorem Reads.stop_eq (h : Reads c t d) :
    t.span.stop = d.pos ∧ (t.isEnd = false → c.pos.offset < d.pos.offset) := by
  obtain ⟨text, htext, hspan, hne⟩ := h.stands.passes
  refine ⟨by rw [hspan], fun hend => ?_⟩
  rw [if_neg (by simp [hend])] at hne
  have hblanks := (passes_skipBlanks c).reaches.offset_le
  have hpos : String.utf8Len text ≠ 0 := mt String.utf8Len_eq_zero.mp hne
  have hoffset := htext.offset
  omega

/-- The tokens of an interpolation stand in a row, and end in front of its closing brace. -/
theorem Encloses.exists_run_lt (h : Encloses c ts d) :
    ∃ a b, c.pos.offset ≤ a.pos.offset ∧ Run a ts b ∧ b.pos.offset < d.pos.offset := by
  obtain ⟨mid, ⟨kind, span⟩, hrun, hclose, rfl⟩ := h.closes
  exact ⟨_, mid, (passes_opening h.opens).reaches.offset_le, hrun, hclose.stop_eq.2 rfl⟩

/-- **Tokens end where the row ends that they stand in, or before.** -/
theorem Run.bounds_of_inside (h : Run c ts d) (ht : t.isEnd = false) (hus : Inside (t :: us) ts) :
    c.pos.offset < t.span.stop.offset ∧ t.span.stop.offset ≤ d.pos.offset := by
  induction hus generalizing c d with
  | refl =>
    cases h with
    | cons head tail =>
      obtain ⟨hstop, hlt⟩ := head.stop_eq
      rw [hstop]
      exact ⟨hlt ht, tail.reaches.offset_le⟩
  | behind _ ih =>
    cases h with
    | cons head tail =>
      obtain ⟨hlt, hle⟩ := ih tail
      exact ⟨head.reaches.offset_le.trans_lt hlt, hle⟩
  | within mem _ ih =>
    cases h with
    | cons head tail =>
      obtain ⟨a, b, ha, henc, hb, -⟩ := head.stands.of_mem_interpolations _ mem
      obtain ⟨a', b', ha', hrun, hb'⟩ := henc.exists_run_lt
      obtain ⟨hlt, hle⟩ := ih hrun
      have hblanks := (passes_skipBlanks c).reaches.offset_le
      have hca := ha.offset_le
      have hbd := hb.offset_le
      have htail := tail.reaches.offset_le
      omega

/-- What stands inside an interpolation of a token ends inside of it, and in front of the end of the
token. -/
theorem Reads.bounds_of_inside {i : List Token × Span} (h : Reads c u d)
    (hi : i ∈ u.interpolations) (ht : t.isEnd = false) (hus : Inside (t :: us) i.1) :
    i.2.start.offset < t.span.stop.offset ∧ t.span.stop.offset < i.2.stop.offset ∧
      i.2.stop.offset ≤ u.span.stop.offset := by
  obtain ⟨a, b, -, henc, hb, hspan⟩ := h.stands.of_mem_interpolations i hi
  obtain ⟨a', b', ha', hrun, hb'⟩ := henc.exists_run_lt
  obtain ⟨hlt, hle⟩ := hrun.bounds_of_inside ht hus
  have hbd := hb.offset_le
  rw [hspan, h.stop_eq.1]
  dsimp only
  omega

/-- **No two tokens end at one place**, and what is behind them is the same. -/
theorem Run.eq_of_stop_eq {t' : Token} {us' : List Token} (h : Run c ts d) (ht : t.isEnd = false)
    (ht' : t'.isEnd = false) (hus : Inside (t :: us) ts) (hus' : Inside (t' :: us') ts)
    (hstop : t.span.stop.offset = t'.span.stop.offset) : t :: us = t' :: us' := by
  -- a token behind ends later and one inside ends before it, so each stop is met once
  induction hus generalizing c d with
  | refl =>
    cases h with
    | cons head tail =>
      cases hus' with
      | refl => rfl
      | behind h' =>
        have hlt := (tail.bounds_of_inside ht' h').1
        rw [← head.stop_eq.1] at hlt
        omega
      | within mem h' =>
        have hlt := head.bounds_of_inside mem ht' h'
        omega
  | behind hinside ih =>
    cases h with
    | cons head tail =>
      have hlt := (tail.bounds_of_inside ht hinside).1
      rw [← head.stop_eq.1] at hlt
      cases hus' with
      | refl => omega
      | behind h' => exact ih tail h'
      | within mem h' =>
        have hlt' := head.bounds_of_inside mem ht' h'
        omega
  | @within _ _ i mem hinside ih =>
    cases h with
    | cons head tail =>
      have hlt := head.bounds_of_inside mem ht hinside
      cases hus' with
      | refl => omega
      | behind h' =>
        have hlt' := (tail.bounds_of_inside ht' h').1
        rw [← head.stop_eq.1] at hlt'
        omega
      | @within _ _ j mem' h' =>
        have hlt' := head.bounds_of_inside mem' ht' h'
        obtain rfl | hle | hle := head.stands.inOrder.eq_or_le mem mem'
        · obtain ⟨a, b, -, henc, -, -⟩ := head.stands.of_mem_interpolations i mem
          obtain ⟨a', b', -, hrun, -⟩ := henc.exists_run_lt
          exact ih hrun h'
        · omega
        · omega

end Lexical

end NixSyntax
