import NixSyntax.Proofs.Lexing.Nested

/-!
# Taking turns, and matching braces

Two things can be told of the tokens of a text by looking at one string or one interpolation alone.
In a string, text and interpolations take turns. And between the braces of an interpolation the
braces match: reading them from the depth at which an interpolation begins, one never gets behind
its closing brace, and ends at the same depth again. A brace in a string, in a comment or in an
interpolation further inside is no brace among these tokens.

What the reader of an interpolation keeps is one number, the depth, so this is the form in which
its loop keeps the law (`depthBehind`). That the braces match is read off at the end.

## Counting to the end

That braces match can be said in two ways. One is the count: as many are closed as were opened, and
never more on the way. The other is the scan, which keeps the depth and fails when it would go below
zero. Readers scan, and what is said of tokens is said by counting. The two are equivalent
(`bracesMatch_of_depthBehind`, `depthBehind_of_bracesMatch`), and proofs about readers use the scan.

Only the tokens of one level are looked at. A brace in an interpolation further inside belongs to
that one, and is counted there.

## Main definitions

* `Alternates`: texts and other things take turns
* `depthBehind`: the depth behind some tokens
* `BracesMatch`: as many braces close as open, and no more of them so far

## Main results

* `Lexical.Fragments.alternates`: the parts of a string take turns
* `Lexical.depthBehind_of_untilBrace`: a round up to a closing brace keeps count
* `Lexical.Reads.bracesMatch`: the braces of an interpolation match
-/

namespace NixSyntax

/-- Texts and other things take turns, beginning and ending with a text. -/
def Alternates {α : Type} (isText : α → Bool) : List α → Prop
  | [] => False
  | [part] => isText part = true
  | part :: other :: parts => isText part = true ∧ isText other = false ∧ Alternates isText parts

/-- Whether a part of a string is text. -/
def StringFragment.isText : StringFragment → Bool
  | .text _ => true
  | .interpolation _ _ => false

/-- Whether a token is the given mark. -/
def Token.isMark (mark : Symbol) : Token → Bool
  | ⟨.symbol found, _⟩ => found == mark
  | _ => false

/-- The number of times that a mark is among some tokens. Those inside them are not looked at. -/
def countMark (mark : Symbol) (ts : List Token) : Nat := ts.countP (Token.isMark mark)

/-- As many braces close as open, and in front of any token no more of them have. -/
structure BracesMatch (ts : List Token) : Prop where
  total : countMark .openBrace ts = countMark .closeBrace ts
  so_far : ∀ front, front <+: ts → countMark .closeBrace front ≤ countMark .openBrace front

/-- The depth behind some tokens at the given depth inside an interpolation, unless the brace that
closes it is among them. -/
def depthBehind (depth : Nat) (ts : List Token) : Option Nat :=
  ts.foldlM (fun depth t => t.kind.braceDepth depth) depth

section

variable {depth depth' : Nat} {t : Token} {ts : List Token}

@[simp] theorem depthBehind_nil : depthBehind depth [] = some depth := rfl

theorem depthBehind_cons :
    depthBehind depth (t :: ts) = (t.kind.braceDepth depth).bind fun d => depthBehind d ts := rfl

/-- The depth behind all is the depth behind the second part, begun at that behind the first. -/
theorem depthBehind_append (ts us : List Token) :
    depthBehind depth (ts ++ us) = (depthBehind depth ts).bind fun d => depthBehind d us := by
  simp [depthBehind, List.foldlM_append]

@[simp] theorem countMark_nil (mark : Symbol) : countMark mark [] = 0 := rfl

/-- A mark is counted where it stands. -/
theorem countMark_cons (mark : Symbol) (t : Token) (ts : List Token) :
    countMark mark (t :: ts) = countMark mark ts + (t.isMark mark).toNat := by
  cases h : t.isMark mark <;> simp [countMark, h]

/-- A token changes the depth by what it counts for. -/
theorem depth_of_braceDepth (h : t.kind.braceDepth depth = some depth') :
    depth + (t.isMark .openBrace).toNat = depth' + (t.isMark .closeBrace).toNat := by
  obtain ⟨kind, span⟩ := t
  cases kind with
  | symbol mark =>
    cases mark with
    | openBrace =>
      cases h
      rfl
    | closeBrace =>
      -- At depth zero there is no depth behind the brace.
      cases depth <;> cases h
      rfl
    | _ => cases depth <;> cases h <;> rfl
  | _ => cases depth <;> cases h <;> rfl

/-- As much as the depth has risen, more braces have been opened than closed. -/
theorem depth_of_depthBehind (h : depthBehind depth ts = some depth') :
    depth + countMark .openBrace ts = depth' + countMark .closeBrace ts := by
  induction ts generalizing depth with
  | nil => simpa using h
  | cons t ts ih =>
    rw [depthBehind_cons, Option.bind_eq_some_iff] at h
    obtain ⟨mid, hmid, h⟩ := h
    have hhead := depth_of_braceDepth hmid
    have htail := ih h
    rw [countMark_cons, countMark_cons]
    omega

/-- **Where the depth is the same again, the braces match.** -/
theorem bracesMatch_of_depthBehind (h : depthBehind 0 ts = some 0) : BracesMatch ts where
  total := by simpa using depth_of_depthBehind h
  so_far := by
    rintro front ⟨back, rfl⟩
    rw [depthBehind_append, Option.bind_eq_some_iff] at h
    obtain ⟨mid, hmid, -⟩ := h
    have hfront := depth_of_depthBehind hmid
    omega

/-- Where no more braces have closed so far than were open, there is a depth. -/
theorem exists_depthBehind (h : ∀ front, front <+: ts →
    countMark .closeBrace front ≤ depth + countMark .openBrace front) :
    ∃ depth', depthBehind depth ts = some depth' := by
  induction ts generalizing depth with
  | nil => exact ⟨depth, rfl⟩
  | cons t ts ih =>
    rw [depthBehind_cons]
    cases hhead : t.kind.braceDepth depth with
    | none =>
      -- the brace that closes the interpolation is one too many
      obtain ⟨hkind, rfl⟩ := TokenKind.braceDepth_eq_none_iff.mp hhead
      obtain ⟨kind, span⟩ := t
      obtain rfl : kind = .symbol .closeBrace := hkind
      have hone : 1 ≤ 0 := h [⟨.symbol .closeBrace, span⟩] ⟨ts, rfl⟩
      exact absurd hone (by decide)
    | some mid =>
      have hmid := depth_of_braceDepth hhead
      refine ih fun front hfront => ?_
      have hle := h (t :: front) (List.cons_prefix_cons.mpr ⟨rfl, hfront⟩)
      rw [countMark_cons, countMark_cons] at hle
      omega

/-- **Where the braces match, the depth is the same again.** -/
theorem depthBehind_of_bracesMatch (h : BracesMatch ts) : depthBehind 0 ts = some 0 := by
  obtain ⟨depth, hdepth⟩ : ∃ depth, depthBehind 0 ts = some depth :=
    exists_depthBehind (by simpa using h.so_far)
  have htotal := depth_of_depthBehind hdepth
  rw [h.total] at htotal
  obtain rfl : depth = 0 := by omega
  exact hdepth

end

namespace Lexical

variable {inner : TokenReader} {bound k depth : Nat} {start : Position} {c d : Cursor} {t : Token}
  {ts : List Token} {multiline : Bool} {parts : List StringFragment}

/-! ### Strings

By the relation between parts and text there is a text in front of every interpolation and one at
the end. -/

/-- **In a string, text and interpolations take turns.** -/
theorem Fragments.alternates (h : Fragments multiline c parts d) :
    Alternates StringFragment.isText parts := by
  induction h with
  | last => rfl
  | interpolation _ _ ih => exact ⟨rfl, rfl, ih⟩

theorem Reads.alternates (h : Reads c t d) (ht : t.kind = .string parts multiline) :
    Alternates StringFragment.isText parts := by
  cases h.stands with
  | string opens hparts =>
    cases ht
    exact hparts.alternates
  | plain _ _ _ hkind =>
    have hflat := isFlat_plainToken hkind
    dsimp only at ht
    rw [ht] at hflat
    cases hflat
  | _ => cases ht

/-! ### Interpolations

The reader of an interpolation keeps the depth and stops where none is left, so the tokens in front
of the last brace come back to it. -/

/-- **Up to the brace that closes an interpolation, its depth is kept count of.** -/
theorem depthBehind_of_untilBrace (h : untilBrace inner start k depth c = .ok (ts, d)) :
    depthBehind depth ts = some 0 := by
  induction k generalizing depth c ts with
  | zero => cases h
  | succ k ih =>
    obtain ⟨t, e, -, -, ⟨hclose, rfl, rfl⟩ | ⟨depth', us, hdepth, hus, rfl⟩⟩ :=
      untilBrace_succ_eq_ok_iff.mp h
    · obtain ⟨-, rfl⟩ := TokenKind.braceDepth_eq_none_iff.mp hclose
      rfl
    · rw [depthBehind_cons, hdepth]
      exact ih hus

/-- An interpolation comes back to the depth at which it begins. -/
theorem depthBehind_of_interpolation {span : Span}
    (h : interpolation bound inner c = .ok (ts, span, d)) : depthBehind 0 ts = some 0 :=
  depthBehind_of_untilBrace (interpolation_eq_ok_iff.mp h).1

/-- So does each one in a string. -/
theorem depthBehind_of_stringFragments
    (h : stringFragments bound inner multiline start k c = .ok (parts, d)) :
    ∀ i ∈ parts.filterMap StringFragment.interpolation?, depthBehind 0 i.1 = some 0 := by
  induction k generalizing c parts with
  | zero => cases h
  | succ k ih =>
    rcases stringFragments_succ_eq_ok_iff.mp h with
      ⟨-, us, span, e, more, hus, hmore, rfl⟩ | ⟨-, -, rfl, -⟩
    · simp only [List.filterMap_cons, StringFragment.interpolation?, List.forall_mem_cons]
      exact ⟨depthBehind_of_interpolation hus, ih hmore⟩
    · simp [StringFragment.interpolation?]

/-- Between the braces of its interpolations, a token keeps the depth. -/
theorem depthBehind_of_tokenAt (h : tokenAt bound inner c = .ok (t, d)) :
    ∀ i ∈ t.interpolations, depthBehind 0 i.1 = some 0 := by
  cases hcs : c.rest with
  | nil =>
    rw [tokenAt, hcs] at h
    cases h
    simp [Token.interpolations]
  | cons ch cs =>
    rcases (tokenAt_eq_ok_iff hcs).mp h with
      ⟨-, us, span, hus, rfl⟩ | ⟨-, multiline, -, h⟩ | ⟨-, -, h⟩
    · simpa [Token.interpolations] using depthBehind_of_interpolation hus
    · obtain ⟨parts, hparts, rfl⟩ := stringToken_eq_ok_iff.mp h
      exact depthBehind_of_stringFragments hparts
    · obtain ⟨kind, hkind, rfl, -⟩ := plainTokenAt_eq_ok_iff.mp h
      simp [TokenKind.interpolations_of_isFlat (isFlat_plainToken hkind)]

/-- So does each one of a token, whatever bound it was read with. -/
theorem Reads.depthBehind (h : Reads c t d) :
    ∀ i ∈ t.interpolations, depthBehind 0 i.1 = some 0 := by
  obtain ⟨n, -, h⟩ := h
  cases n with
  | zero =>
    cases h
    simp [Token.interpolations]
  | succ n => exact depthBehind_of_tokenAt h

/-- **The braces of an interpolation match.** -/
theorem Reads.bracesMatch (h : Reads c t d) : ∀ i ∈ t.interpolations, BracesMatch i.1 :=
  fun i hi => bracesMatch_of_depthBehind (h.depthBehind i hi)

/-- The end of the text is not inside an interpolation. -/
theorem Reads.unended (h : Reads c t d) :
    ∀ i ∈ t.interpolations, ∀ u ∈ i.1, u.isEnd = false := by
  intro i hi
  obtain ⟨a, b, -, henc, -, -⟩ := h.stands.of_mem_interpolations i hi
  exact henc.unended

end Lexical

end NixSyntax
