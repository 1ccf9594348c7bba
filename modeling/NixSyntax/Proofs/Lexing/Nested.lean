import NixSyntax.Proofs.Lexing.Steps

/-!
# Tokens at every depth

An interpolation holds tokens, in which there may be interpolations again. What is promised for all
tokens of a text is promised for these too. `nestedTokens` lists them all, and
`Reads.of_mem_nested` says that each of them was read at a place of the text in the same way as the
outermost ones. So a law about tokens at every depth needs no induction of its own: it is a law
about one token that stands somewhere.

## Where the inner tokens are

The tokens inside an interpolation are read from the text between its braces, by the same reader at
a lower bound. `Reads` mentions no bound, so an inner token is read at its place just as an outer
one is at its own, and the place can be reached from that of the interpolation. What is known of a
token that is read somewhere in the text is then known at every depth.

The recursion of `nestedTokens` goes over mutual types, tokens, parts of strings and lists of both.
Properties of inner tokens are therefore shown by another induction, over the text that is left,
which an interpolation makes shorter by its opening.

## Main definitions

* `Token.interpolations`: the interpolations of a token, each with its tokens and its span
* `nestedTokens`, `Token.nested`: tokens, and all the tokens inside them
* `TokenKind.isFlat`: the tokens that hold no tokens and are not the end of the text

## Main results

* `Stands.passes`: what a token takes of the text is what its span says, and something
* `Stands.of_mem_interpolations`: where the interpolations of a token stand
* `Reads.of_mem_nested`: every inner token was read at a place of the text
* `run_of_tokenize`: the tokens of a text stand in a row, and the end of the text is behind them
-/

namespace NixSyntax

/-- The interpolation that a part of a string is, with its span. -/
def StringFragment.interpolation? : StringFragment → Option (List Token × Span)
  | .text _ => none
  | .interpolation tokens span => some (tokens, span)

/-- The interpolations of a token, each with the tokens between its braces and its span: itself, or
those among the parts of a string. -/
def Token.interpolations : Token → List (List Token × Span)
  | ⟨.interpolation tokens, span⟩ => [(tokens, span)]
  | ⟨.string parts _, _⟩ => parts.filterMap StringFragment.interpolation?
  | _ => []

mutual

/-- Some tokens and all the tokens inside them. -/
def nestedTokens : List Token → List Token
  | [] => []
  | t :: ts => t.nested ++ nestedTokens ts

/-- A token and all the tokens inside it. -/
def Token.nested : Token → List Token
  | ⟨kind, span⟩ => ⟨kind, span⟩ :: kind.innerTokens

/-- All the tokens inside a token. -/
def TokenKind.innerTokens : TokenKind → List Token
  | .string parts _ => fragmentsTokens parts
  | .interpolation tokens => nestedTokens tokens
  | _ => []

/-- All the tokens inside some parts of a string. -/
def fragmentsTokens : List StringFragment → List Token
  | [] => []
  | part :: parts => part.innerTokens ++ fragmentsTokens parts

/-- All the tokens inside a part of a string. -/
def StringFragment.innerTokens : StringFragment → List Token
  | .text _ => []
  | .interpolation tokens _ => nestedTokens tokens

end

/-- To be among the inner tokens of some tokens is to be among those of one of them. -/
theorem mem_nestedTokens_iff {u : Token} {ts : List Token} :
    u ∈ nestedTokens ts ↔ ∃ t ∈ ts, u ∈ t.nested := by
  induction ts with
  | nil => simp [nestedTokens]
  | cons t ts ih => simp [nestedTokens, ih]

theorem mem_fragmentsTokens_iff {u : Token} {parts : List StringFragment} :
    u ∈ fragmentsTokens parts ↔
      ∃ i ∈ parts.filterMap StringFragment.interpolation?, u ∈ nestedTokens i.1 := by
  induction parts with
  | nil => simp [fragmentsTokens]
  | cons part parts ih =>
    cases part <;>
      simp [fragmentsTokens, StringFragment.innerTokens, StringFragment.interpolation?, ih]

/-- The tokens inside a token are those inside its interpolations. -/
theorem Token.mem_nested_iff {u t : Token} :
    u ∈ t.nested ↔ u = t ∨ ∃ i ∈ t.interpolations, u ∈ nestedTokens i.1 := by
  obtain ⟨kind, span⟩ := t
  cases kind <;>
    simp [Token.nested, TokenKind.innerTokens, Token.interpolations, mem_fragmentsTokens_iff]

/-- Every token is among its own. -/
theorem mem_nestedTokens_of_mem {ts : List Token} {t : Token} (h : t ∈ ts) : t ∈ nestedTokens ts :=
  mem_nestedTokens_iff.mpr ⟨t, h, Token.mem_nested_iff.mpr (.inl rfl)⟩

/-- Whether a token holds no tokens and is not the end of the text either. -/
def TokenKind.isFlat : TokenKind → Bool
  | .endOfInput => false
  | .string _ _ => false
  | .interpolation _ => false
  | _ => true

theorem TokenKind.isEnd_of_isFlat {kind : TokenKind} (h : kind.isFlat = true) (span : Span) :
    (⟨kind, span⟩ : Token).isEnd = false := by
  cases kind <;> simp_all [isFlat, Token.isEnd]

theorem TokenKind.interpolations_of_isFlat {kind : TokenKind} (h : kind.isFlat = true)
    (span : Span) : (⟨kind, span⟩ : Token).interpolations = [] := by
  cases kind <;> simp_all [isFlat, Token.interpolations]

namespace Lexical

/-! ### Flat tokens

All tokens but strings, interpolations and the end of the text are read by the scanner of flat
tokens, and it reads no others. -/

variable {c : Char} {cs : List Char}

theorem isFlat_wordKind (w : String) : (wordKind w).isFlat = true := by
  unfold wordKind
  repeat' split
  all_goals rfl

theorem isFlat_intKind {digits : List Char} {kind : TokenKind} (h : intKind digits = .ok kind) :
    kind.isFlat = true := by
  unfold intKind at h
  split at h
  · cases h
    rfl
  · cases h

theorem isFlat_number {kind : TokenKind} (h : (number cs).value = .ok kind) :
    kind.isFlat = true := by
  unfold number at h
  dsimp only at h
  split at h
  · split at h
    · cases h
      rfl
    · exact isFlat_intKind h
  · exact isFlat_intKind h

theorem isFlat_operator {kind : TokenKind} (h : (operator c cs).value = .ok kind) :
    kind.isFlat = true := by
  unfold operator at h
  dsimp only at h
  split at h
  · cases h
    rfl
  · cases h

/-- What the scanner finds holds no tokens. -/
theorem isFlat_plainToken {kind : TokenKind} (h : (plainToken c cs).value = .ok kind) :
    kind.isFlat = true := by
  have hform := plainForm_plainToken c cs
  generalize plainToken c cs = l at hform h
  cases hform with
  | bracket | dot | path | lineComment =>
    cases h
    rfl
  | lineBreak =>
    cases h
    unfold lineBreak
    split <;> rfl
  | word =>
    cases h
    exact isFlat_wordKind _
  | operator => exact isFlat_operator h
  | blockComment =>
    unfold blockComment at h
    split at h
    · cases h
      rfl
    · cases h
  | number => exact isFlat_number h
  | unexpected => cases h

/-- A flat token takes at least its first character. -/
theorem text_plainToken (c : Char) (cs : List Char) :
    ∃ text, (plainToken c cs).text = c :: text := by
  have hform := plainForm_plainToken c cs
  generalize plainToken c cs = l at hform
  cases hform with
  | bracket | dot | unexpected => exact ⟨_, rfl⟩
  | lineBreak =>
    unfold lineBreak
    split <;> simp_all
  | word h => simp [word, Lexeme.run, isNameChar_of_isNameStart h]
  | operator =>
    unfold operator
    dsimp only
    split <;> exact ⟨_, rfl⟩
  | blockComment hc =>
    unfold blockComment
    split <;> simp [hc]
  | path => exact ⟨_, rfl⟩
  | number h =>
    unfold number
    dsimp only
    split
    · split <;> simp [Lexeme.run, h]
    · simp [Lexeme.run, h]
  | lineComment h => exact ⟨_, by rw [h]; rfl⟩

/-! ### The places of tokens

A token is read between two places, what it is made of is read between places that lie between
these. -/

variable {a c d : Cursor} {t u : Token} {ts : List Token}

theorem Fragments.reaches {multiline : Bool} {parts : List StringFragment}
    (h : Fragments multiline c parts d) : c.Reaches d := by
  induction h with
  | last closes =>
    exact (passes_stringText _ _).reaches.trans (passes_delimiter closes).reaches
  | interpolation head _ ih =>
    exact (passes_stringText _ _).reaches.trans (head.reaches.trans ih)

/-- **A token takes the text under its span, and only the end of the text takes none.** -/
theorem Stands.passes (h : Stands c t d) :
    ∃ text, c.Passes text d ∧ t.span = ⟨c.pos, d.pos⟩ ∧
      if t.isEnd then text = [] ∧ d.rest = [] else text ≠ [] := by
  cases h with
  | endOfInput h => exact ⟨[], .refl c, rfl, rfl, h⟩
  | interpolation h =>
    obtain ⟨text, htext⟩ := h.reaches_inside
    exact ⟨_, (passes_opening h.opens).trans htext, rfl, List.cons_ne_nil _ _⟩
  | @string _ multiline _ opens h =>
    obtain ⟨text, htext⟩ := h.reaches
    refine ⟨_, (passes_delimiter opens).trans htext, rfl, ?_⟩
    cases multiline <;> exact List.cons_ne_nil _ _
  | @plain ch cs kind hcs _ _ h =>
    obtain ⟨text, htext⟩ := text_plainToken ch cs
    refine ⟨_, passes_plainToken hcs, rfl, ?_⟩
    rw [if_neg (by simp [TokenKind.isEnd_of_isFlat (isFlat_plainToken h)]), htext]
    exact List.cons_ne_nil _ _

/-- An interpolation of a string stands somewhere behind the opening delimiter and in front of the
closing one. -/
theorem Fragments.of_mem_interpolations {multiline : Bool} {parts : List StringFragment}
    (h : Fragments multiline c parts d) :
    ∀ i ∈ parts.filterMap StringFragment.interpolation?,
      ∃ a b, c.Reaches a ∧ Encloses a i.1 b ∧ b.Reaches d ∧ i.2 = ⟨a.pos, b.pos⟩ := by
  induction h with
  | last => simp [StringFragment.interpolation?]
  | @interpolation c e _ ts parts head tail ih =>
    have htext := (passes_stringText multiline c).reaches
    simp only [List.filterMap_cons, StringFragment.interpolation?, List.forall_mem_cons]
    refine ⟨⟨_, _, htext, head, tail.reaches, rfl⟩, fun i hi => ?_⟩
    obtain ⟨a, b, ha, henc, hb, hspan⟩ := ih i hi
    exact ⟨a, b, htext.trans (head.reaches.trans ha), henc, hb, hspan⟩

/-- **Where the interpolations of a token stand.** -/
theorem Stands.of_mem_interpolations (h : Stands c t d) :
    ∀ i ∈ t.interpolations,
      ∃ a b, c.Reaches a ∧ Encloses a i.1 b ∧ b.Reaches d ∧ i.2 = ⟨a.pos, b.pos⟩ := by
  cases h with
  | endOfInput => simp [Token.interpolations]
  | interpolation h =>
    simp only [Token.interpolations, List.forall_mem_singleton]
    exact ⟨c, d, .refl c, h, .refl d, rfl⟩
  | string opens h =>
    intro i hi
    obtain ⟨a, b, ha, henc, hb, hspan⟩ := h.of_mem_interpolations i hi
    exact ⟨a, b, (passes_delimiter opens).reaches.trans ha, henc, hb, hspan⟩
  | plain _ _ _ h => simp [TokenKind.interpolations_of_isFlat (isFlat_plainToken h)]

/-- A token in a row is read at a place behind the beginning of the row. -/
theorem Run.of_mem (h : Run c ts d) (ht : t ∈ ts) : ∃ a b, c.Reaches a ∧ Reads a t b := by
  induction h with
  | nil => cases ht
  | cons head tail ih =>
    rcases List.mem_cons.mp ht with rfl | ht
    · exact ⟨_, _, .refl _, head⟩
    · obtain ⟨a, b, ha, hread⟩ := ih ht
      exact ⟨a, b, head.reaches.trans ha, hread⟩

/-- **Every inner token was read at a place of the text.** The text that is left gets shorter with
every interpolation that is entered. -/
theorem Reads.of_mem_nested (h : Reads c t d) (hu : u ∈ t.nested) :
    ∃ a b, c.Reaches a ∧ Reads a u b := by
  obtain ⟨n, hn⟩ : ∃ n, n = c.rest.length := ⟨_, rfl⟩
  induction n using Nat.strongRecOn generalizing c t d with
  | ind n ih =>
    subst hn
    rcases Token.mem_nested_iff.mp hu with rfl | ⟨i, hi, hu⟩
    · exact ⟨c, d, .refl c, h⟩
    · obtain ⟨s, hs, hu⟩ := mem_nestedTokens_iff.mp hu
      obtain ⟨a, b, ha, henc, -, -⟩ := h.stands.of_mem_interpolations i hi
      obtain ⟨mid, close, hrun, -, -⟩ := henc.closes
      obtain ⟨a', b', ha', hread⟩ := hrun.of_mem hs
      have hca : c.Reaches a := (passes_skipBlanks c).reaches.trans ha
      have hopen := passes_opening henc.opens
      have hlt : a'.rest.length < c.rest.length := by
        have h₁ := hca.length_rest_le
        have h₂ := hopen.length_rest
        have h₃ := ha'.length_rest_le
        simp only [List.length_cons, List.length_nil] at h₂
        omega
      obtain ⟨x, y, hx, hread'⟩ := ih _ hlt hread hu rfl
      exact ⟨x, y, hca.trans (hopen.reaches.trans (ha'.trans hx)), hread'⟩

theorem run_of_tokensFrom {n k : Nat} (hn : c.rest.length ≤ n) (hk : c.rest.length ≤ k)
    (h : tokensFrom (token n) k c = .ok ts) :
    ∃ body d e last, ts = body ++ [last] ∧ Run c body d ∧ Reads d last e ∧ last.isEnd = true ∧
      ∀ t ∈ body, t.isEnd = false := by
  induction k generalizing c ts with
  | zero =>
    cases h
    have hread : Reads c ⟨.endOfInput, .point c.pos⟩ c := ⟨0, hk, rfl⟩
    exact ⟨[], c, c, _, rfl, .nil c, hread, rfl, by simp⟩
  | succ k ih =>
    obtain ⟨⟨t, e⟩, ht, h⟩ := Grammar.bind_eq_ok_iff.mp h
    have hread : Reads c t e := ⟨n, hn, ht⟩
    dsimp only at h
    split at h
    · rename_i hend
      obtain rfl := Grammar.pure_eq_ok_iff.mp h
      exact ⟨[], c, e, t, rfl, .nil c, hread, hend, by simp⟩
    · rename_i hend
      obtain ⟨us, hus, h⟩ := Grammar.bind_eq_ok_iff.mp h
      obtain rfl := Grammar.pure_eq_ok_iff.mp h
      -- a token that is no end takes a character, so the bound is enough for the others
      have hlt : e.rest.length < c.rest.length := by
        have hblanks := (passes_skipBlanks c).reaches.length_rest_le
        obtain ⟨text, htext, -, hne⟩ := hread.stands.passes
        rw [if_neg hend] at hne
        have hlength := htext.length_rest
        have hpos := List.length_pos_of_ne_nil hne
        omega
      obtain ⟨body, d, e', last, rfl, hrun, hlast, hend', hall⟩ := ih (by omega) (by omega) hus
      exact ⟨t :: body, d, e', last, rfl, .cons hread hrun, hlast, hend',
        List.forall_mem_cons.mpr ⟨by simpa using hend, hall⟩⟩

/-- **The tokens of a text stand in a row**, and behind them stands its end. -/
theorem run_of_tokenize {source : String} (h : tokenize source = .ok ts) :
    ∃ body d e last, ts = body ++ [last] ∧ Run (Cursor.ofText source.toList) body d ∧
      Reads d last e ∧ last.isEnd = true ∧ ∀ t ∈ body, t.isEnd = false :=
  run_of_tokensFrom le_rfl le_rfl h

/-- Every token of a text was read at a place of the text. -/
theorem reads_of_mem_nestedTokens {source : String} (h : tokenize source = .ok ts)
    (hu : u ∈ nestedTokens ts) :
    ∃ a b, (Cursor.ofText source.toList).Reaches a ∧ Reads a u b := by
  obtain ⟨body, d, e, last, rfl, hrun, hlast, -, -⟩ := run_of_tokenize h
  obtain ⟨t, ht, hu⟩ := mem_nestedTokens_iff.mp hu
  obtain ⟨a, b, ha, hread⟩ : ∃ a b, (Cursor.ofText source.toList).Reaches a ∧ Reads a t b := by
    rcases List.mem_append.mp ht with ht | ht
    · exact hrun.of_mem ht
    · obtain rfl := List.mem_singleton.mp ht
      exact ⟨d, e, hrun.reaches, hlast⟩
  obtain ⟨x, y, hx, hread'⟩ := hread.of_mem_nested hu
  exact ⟨x, y, ha.trans hx, hread'⟩

end Lexical

end NixSyntax
