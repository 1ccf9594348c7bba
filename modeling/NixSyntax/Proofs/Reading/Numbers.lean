import Mathlib.Data.Nat.Digits.Defs
import NixSyntax.Fault
import NixSyntax.Proofs.Composing.Forms
import NixSyntax.Proofs.Lexing.Building
import NixSyntax.Proofs.Lexing.Longest

/-!
# Sources that are one number

A source of digits is a program, with the number that the digits write for its only term, unless
that number needs more than sixty-three bits. A minus sign in front of the digits is a token of its
own, and the grammar joins it to the number behind it. By then the number has been found to be small
enough; no number that is read is too large for its negation, at any depth.

## Three ways to write a number

Digits alone are a whole number if it fits, and a fault otherwise. Digits with a point between them
are a number with a fraction, and there is no limit to these. In front of either there may be a
minus sign. The reader of tokens does not join it to the digits, since it cannot know whether it is
an operator. The grammar can, because the sign stands where an operand has to be.

The largest number that fits is one less than the largest whose negation would. So the smallest
number of all cannot be written as digits with a sign, and that is a matter of the digits: they are
at fault.

## Main definitions

* `IsNumeral`, `numeralValue`: decimal digits and the number that they write
* `signed`: a source that is a number with or without a minus sign

## Main results

* `decimalValue_eq_numeralValue`: digits are read from the front as they are worth from the back
* `Lexical.tokenize_signed`, `Lexical.tokenize_signed_error`: the tokens of such a source
* `ofText_signed`: the program that it is
-/

namespace NixSyntax

/-! ### Digits

The value of digits is computed while reading them, from the front. To compare it with what the
digits mean, they are counted from the back. -/

/-- Some decimal digits. -/
structure IsNumeral (digits : List Char) : Prop where
  /-- There is one. -/
  ne_nil : digits ≠ []
  /-- There is nothing else. -/
  isDigit : ∀ d ∈ digits, d.isDigit = true

theorem isNumeral_of_all {digits : List Char} (hne : digits ≠ [])
    (h : digits.all Char.isDigit = true) : IsNumeral digits :=
  ⟨hne, List.all_eq_true.mp h⟩

/-- The number that decimal digits write, where the last of them counts ones, the last but one
counts tens, and so on. -/
def numeralValue (digits : List Char) : Nat :=
  Nat.ofDigits 10 (digits.reverse.map fun d => d.toNat - '0'.toNat)

/-- Digits are read from the front as they are worth from the back. -/
theorem decimalValue_eq_numeralValue (digits : List Char) :
    decimalValue digits = numeralValue digits := by
  induction digits using List.reverseRecOn with
  | nil => rfl
  | append_singleton digits d ih =>
    have hlast : decimalValue (digits ++ [d]) =
        10 * decimalValue digits + (d.toNat - '0'.toNat) := by simp [decimalValue]
    rw [hlast, ih]
    simp [numeralValue, Nat.ofDigits_cons, Nat.add_comm]

theorem IsNumeral.exists_cons {digits : List Char} (h : IsNumeral digits) :
    ∃ c cs, digits = c :: cs ∧ c.isDigit = true := by
  obtain ⟨c, cs, rfl⟩ := List.exists_cons_of_ne_nil h.ne_nil
  exact ⟨c, cs, rfl, h.isDigit c List.mem_cons_self⟩

/-- A minus sign, or nothing. -/
def sign (negative : Bool) : List Char := if negative then ['-'] else []

/-- A number with a minus sign in front of it, or without one. -/
def signed (negative : Bool) (number : List Char) : String :=
  String.ofList (sign negative ++ number)

namespace Lexical

variable {c : Char} {cs digits whole fraction : List Char} {negative : Bool}

/-! ### A number as a lexeme

A digit begins nothing but a number. Digits up to the end, or up to a point with more digits behind,
are all taken. -/

theorem toNat_of_isDigit (hc : c.isDigit = true) : 48 ≤ c.toNat ∧ c.toNat ≤ 57 := by
  simpa [Char.isDigit, UInt32.le_iff_toNat_le] using hc

/-- A digit is no mark. -/
theorem ne_of_isDigit {x : Char} (hc : c.isDigit = true) (hx : x.isDigit = false) : c ≠ x := by
  rintro rfl
  rw [hc] at hx
  cases hx

theorem isNameStart_of_isDigit (hc : c.isDigit = true) : isNameStart c = false := by
  have hrange := toNat_of_isDigit hc
  have hletter : c.isAlpha = false := by
    delta Char.isAlpha Char.isUpper Char.isLower
    simp [UInt32.le_iff_toNat_le]
    omega
  simp [isNameStart, hletter, ne_of_isDigit (x := '_') hc rfl]

/-- Only a number begins with a digit. -/
theorem plainToken_of_isDigit (hc : c.isDigit = true) (cs : List Char) :
    plainToken c cs = number (c :: cs) := by
  have hbracket : bracket? c = none := by
    unfold bracket?
    split
    case h_8 => rfl
    all_goals cases hc
  have hbreak : startsLineBreak (c :: cs) = false :=
    startsLineBreak_of_ne (ne_of_isDigit hc rfl) (ne_of_isDigit hc rfl) cs
  have hdot : c ≠ '.' := ne_of_isDigit hc rfl
  have hslash : c ≠ '/' := ne_of_isDigit hc rfl
  have hpath : startsPath c cs = false := by
    have htilde : c ≠ '~' := ne_of_isDigit hc rfl
    cases cs with
    | nil => rfl
    | cons d ds => simp [startsPath, isPathStart, hdot, hslash, htilde]
  simp [plainToken, hbracket, hbreak, isNameStart_of_isDigit hc, hdot, hslash, hpath, hc]

/-- Digits are taken up to what is no digit. -/
theorem run_of_isNumeral (h : IsNumeral digits) (rest : List Char)
    (hrest : ∀ d ∈ rest.head?, d.isDigit = false) :
    Lexeme.run Char.isDigit (digits ++ rest) = ⟨digits, digits, rest⟩ := by
  have hnone : rest.takeWhile Char.isDigit = [] ∧ rest.dropWhile Char.isDigit = rest := by
    cases rest with
    | nil => exact ⟨rfl, rfl⟩
    | cons d ds => simp [hrest d rfl]
  simp [Lexeme.run, List.takeWhile_append_of_pos h.isDigit, List.dropWhile_append_of_pos h.isDigit,
    hnone]

/-- Digits alone are a number without a fraction. -/
theorem number_of_isNumeral (h : IsNumeral digits) :
    number digits = ⟨intKind digits, digits, []⟩ := by
  have hrun : Lexeme.run Char.isDigit digits = ⟨digits, digits, []⟩ := by
    simpa using run_of_isNumeral h [] nofun
  rw [number_of_whole (by simp [hrun]), hrun]

/-- Digits on either side of a point are a number with a fraction. -/
theorem number_of_isNumeral_append (hwhole : IsNumeral whole) (hfraction : IsNumeral fraction) :
    number (whole ++ '.' :: fraction) =
      ⟨.ok (.float (floatOfDigits whole fraction)), whole ++ '.' :: fraction, []⟩ := by
  have hrun := run_of_isNumeral hwhole ('.' :: fraction) (by simp)
  have hrun' : Lexeme.run Char.isDigit fraction = ⟨fraction, fraction, []⟩ := by
    simpa using run_of_isNumeral hfraction [] nofun
  obtain ⟨d, ds, rfl, hd⟩ := hfraction.exists_cons
  rw [number_of_fraction (by rw [hrun]) hd, hrun, hrun']

/-! ### The tokens of a source that is one number

A minus sign in front of a digit is a token of one character. What comes behind is read in the
second column then. -/

/-- Where a digit stands, a plain token is read. -/
theorem token_of_isDigit {n : Nat} {p : Position} (hc : c.isDigit = true) :
    token (n + 1) ⟨c :: cs, p⟩ = plainTokenAt c cs ⟨c :: cs, p⟩ := by
  have hskip : (⟨c :: cs, p⟩ : Cursor).skipBlanks = ⟨c :: cs, p⟩ :=
    skipBlanks_of_not_isBlank rfl (isBlank_of_isDigit hc)
  have hdollar : '$' ≠ c := (ne_of_isDigit hc rfl).symm
  have hquote : '"' ≠ c := (ne_of_isDigit hc rfl).symm
  have hapostrophe : '\'' ≠ c := (ne_of_isDigit hc rfl).symm
  rw [token, hskip, tokenAt]
  simp [delimiter, hdollar, hquote, hapostrophe]

/-- The tokens of a minus sign at the front of a text, if there is one. -/
def signTokens (negative : Bool) : List Token :=
  if negative then [⟨.symbol .minus, ⟨.start, Position.start.advance ['-']⟩⟩] else []

/-- No operator but the minus sign itself begins with a minus sign in front of a digit. -/
theorem run_sign (negative : Bool) (hc : c.isDigit = true) :
    Run ⟨sign negative ++ c :: cs, .start⟩ (signTokens negative)
      ⟨c :: cs, Position.start.advance (sign negative)⟩ := by
  cases negative with
  | false => exact .nil _
  | true =>
    have hgrow : growOperator ['-'] (c :: cs) = ⟨[], [], c :: cs⟩ := by
      -- no operator has a digit in it
      have hnone : beginsOperator ['-', c] = false := by
        refine Bool.eq_false_iff.mpr fun h => ?_
        obtain ⟨s, hs, hprefix⟩ := List.any_eq_true.mp h
        have hmem : c ∈ s.spelling :=
          (List.isPrefixOf_iff_prefix.mp hprefix).subset (by simp)
        have hsymbols : ∀ s ∈ Symbol.operators, s.spelling.any Char.isDigit = false := by decide
        exact List.any_eq_false.mp (hsymbols s hs) c hmem hc
      simp [growOperator, hnone]
    have hminus : plainToken '-' (c :: cs) = ⟨.ok (.symbol .minus), ['-'], c :: cs⟩ := by
      have hoperator : plainToken '-' (c :: cs) = operator '-' (c :: cs) := rfl
      rw [hoperator, operator, hgrow]
      rfl
    have hstands : Stands ⟨'-' :: c :: cs, .start⟩ _ _ :=
      .plain rfl (by simp) (by rintro (_ | _) <;> simp [delimiter])
        (congrArg Lexeme.value hminus)
    rw [hminus] at hstands
    exact .cons ((reads_iff le_rfl).mpr ⟨hstands, by simp [Token.interpolations]⟩) (.nil _)

/-- A source that begins with a sign or with a digit begins with no byte order mark. -/
theorem ofText_sign (negative : Bool) (hc : c.isDigit = true) :
    Cursor.ofText (sign negative ++ c :: cs) = ⟨sign negative ++ c :: cs, .start⟩ := by
  refine Cursor.ofText_of_head?_ne ?_
  cases negative with
  | false => simpa [sign] using ne_of_isDigit hc rfl
  | true => exact fun h => absurd (Option.some.inj h) (by decide)

theorem isEnd_signTokens (negative : Bool) : ∀ t ∈ signTokens negative, t.isEnd = false := by
  cases negative with
  | false => simp [signTokens]
  | true => simp [signTokens, Token.isEnd]

/-- The place behind a number and the sign in front of it. -/
def endOfSigned (negative : Bool) (number : List Char) : Position :=
  Position.start.advance (sign negative ++ number)

/-- **A number that takes the whole source is a token of it**, and its sign is another. -/
theorem tokenize_signed (negative : Bool) {kind : TokenKind} (hc : c.isDigit = true)
    (h : number (c :: cs) = ⟨.ok kind, c :: cs, []⟩) :
    tokenize (signed negative (c :: cs)) = .ok (signTokens negative ++
      [⟨kind, ⟨Position.start.advance (sign negative), endOfSigned negative (c :: cs)⟩⟩,
        ⟨.endOfInput, .point (endOfSigned negative (c :: cs))⟩]) := by
  have hplain := (plainToken_of_isDigit hc cs).trans h
  have hflat : kind.isFlat = true := isFlat_number (congrArg Lexeme.value h)
  have hread : Reads ⟨c :: cs, Position.start.advance (sign negative)⟩
      ⟨kind, ⟨Position.start.advance (sign negative), endOfSigned negative (c :: cs)⟩⟩
      ⟨[], endOfSigned negative (c :: cs)⟩ := by
    refine ⟨_, Nat.le_succ _, (token_of_isDigit hc).trans (plainTokenAt_eq_ok_iff.mpr
      ⟨kind, congrArg Lexeme.value hplain, ?_, ?_⟩)⟩
    · rfl
    · rw [hplain, endOfSigned, Position.advance_append]
      rfl
  rw [tokenize, signed, String.toList_ofList, ofText_sign negative hc]
  have hrun := (run_sign negative hc).append (.cons hread (.nil _))
  have htokens := tokensFrom_of_run hrun (List.forall_mem_append.mpr ⟨isEnd_signTokens negative,
    List.forall_mem_singleton.mpr (TokenKind.isEnd_of_isFlat hflat _)⟩) le_rfl le_rfl le_rfl rfl
  rw [List.append_assoc] at htokens
  exact htokens

/-- **What is wrong with a number is wrong with the source.** -/
theorem tokenize_signed_error {cause : LexCause} (hc : c.isDigit = true)
    (h : number (c :: cs) = ⟨.error cause, c :: cs, []⟩) :
    tokenize (signed negative (c :: cs)) = .error
      ⟨cause, ⟨Position.start.advance (sign negative), endOfSigned negative (c :: cs)⟩⟩ := by
  have hplain := (plainToken_of_isDigit hc cs).trans h
  rw [tokenize, signed, String.toList_ofList, ofText_sign negative hc]
  obtain ⟨m, hm, htail⟩ := exists_tokensFrom_of_run (run_sign negative hc)
    (isEnd_signTokens negative) le_rfl le_rfl le_rfl
  obtain ⟨k, rfl⟩ : ∃ k, m = k + 1 := ⟨m - 1, by simp at hm; omega⟩
  obtain ⟨n, hn⟩ : ∃ n, (sign negative ++ c :: cs).length = n + 1 := ⟨_, by simp; rfl⟩
  rw [htail, hn, tokensFrom, token_of_isDigit hc, plainTokenAt, hplain]
  simp [Cursor.past, Cursor.spanFrom, endOfSigned, Position.advance_append]
  rfl

end Lexical

open Lexical

/-! ### The program of a source that is one number -/

/-- The grammar joins a minus sign to the number behind it. -/
theorem ofTokens_signed_int (negative : Bool) (n : Int64) (stop : Position) :
    Program.ofTokens (signTokens negative ++
      [⟨.int n, ⟨Position.start.advance (sign negative), stop⟩⟩, ⟨.endOfInput, .point stop⟩]) =
      .ok (.ofTerm (.int (if negative then -n else n) ⟨.start, stop⟩)) := by
  cases negative with
  | false => rfl
  | true => rfl

theorem ofTokens_signed_float (negative : Bool) (x : Float) (stop : Position) :
    Program.ofTokens (signTokens negative ++
      [⟨.float x, ⟨Position.start.advance (sign negative), stop⟩⟩, ⟨.endOfInput, .point stop⟩]) =
      .ok (.ofTerm (.float (if negative then -x else x) ⟨.start, stop⟩)) := by
  cases negative with
  | false => rfl
  | true => rfl

/-- **A number that is not negative is not too large for its negation.** -/
theorem toInt_neg_of_nonneg {n : Int64} (h : 0 ≤ n.toInt) : (-n).toInt = -n.toInt := by
  have hlt := n.toInt_lt
  rw [Int64.toInt_neg, Int.bmod_eq_of_le (by omega) (by omega)]

section

variable {digits whole fraction : List Char} (negative : Bool)

/-- Digits that write a number of at most sixty-three bits are that number. -/
theorem ofText_signed_of_le (h : IsNumeral digits) (hle : numeralValue digits ≤ 2 ^ 63 - 1) :
    ∃ n : Int64, Program.ofText (signed negative digits) =
        .ok (.ofTerm (.int n ⟨.start, endOfSigned negative digits⟩)) ∧
      n.toInt = if negative then -(numeralValue digits : Int) else numeralValue digits := by
  have hnumber := number_of_isNumeral h
  have hsmall : numeralValue digits ≤ maxInt := hle
  rw [intKind, decimalValue_eq_numeralValue, if_pos hsmall] at hnumber
  obtain ⟨c, cs, rfl, hc⟩ := h.exists_cons
  have htokens := tokenize_signed negative hc hnumber
  refine ⟨_, Program.ofText_eq_ok_iff.mpr ⟨_, htokens, ofTokens_signed_int negative _ _⟩, ?_⟩
  have hvalue := toInt_ofNat_of_le hsmall
  cases negative with
  | false => exact hvalue
  | true =>
    have hneg := toInt_neg_of_nonneg (hvalue ▸ Int.natCast_nonneg _)
    exact hneg.trans (congrArg Neg.neg hvalue)

/-- Digits that write a larger number are at fault, and not the sign in front of them. -/
theorem ofText_signed_of_lt (h : IsNumeral digits) (hlt : 2 ^ 63 - 1 < numeralValue digits) :
    Program.ofText (signed negative digits) =
      .error (.lexical ⟨.invalidNumber (String.ofList digits),
        ⟨Position.start.advance (sign negative), endOfSigned negative digits⟩⟩) := by
  have hnumber := number_of_isNumeral h
  have hlarge : ¬ numeralValue digits ≤ maxInt := Nat.not_le.mpr hlt
  rw [intKind, decimalValue_eq_numeralValue, if_neg hlarge] at hnumber
  obtain ⟨c, cs, rfl, hc⟩ := h.exists_cons
  rw [Program.ofText, tokenize_signed_error hc hnumber]
  rfl

/-- Digits on either side of a point are a number with a fraction, however many they are. -/
theorem ofText_signed_float (hwhole : IsNumeral whole) (hfraction : IsNumeral fraction) :
    Program.ofText (signed negative (whole ++ '.' :: fraction)) = .ok (.ofTerm (.float
      (if negative then -floatOfDigits whole fraction else floatOfDigits whole fraction)
      ⟨.start, endOfSigned negative (whole ++ '.' :: fraction)⟩)) := by
  have hnumber := number_of_isNumeral_append hwhole hfraction
  obtain ⟨c, cs, rfl, hc⟩ := hwhole.exists_cons
  have htokens := tokenize_signed negative hc hnumber
  exact Program.ofText_eq_ok_iff.mpr ⟨_, htokens, ofTokens_signed_float negative _ _⟩

end

/-- A number that was read from a text is not negative, since a sign is no part of it. -/
theorem nonneg_of_mem_nestedTokens {source : String} {ts : List Token} {t : Token} {n : Int64}
    (hts : tokenize source = .ok ts) (ht : t ∈ nestedTokens ts) (hkind : t.kind = .int n) :
    0 ≤ n.toInt := by
  obtain ⟨a, b, -, hstands⟩ := stands_of_mem_nestedTokens hts ht
  obtain ⟨text, -, hspelled⟩ := hstands.spelledBy
  rw [hkind] at hspelled
  obtain ⟨-, -, hvalue⟩ := hspelled
  exact hvalue ▸ Int.natCast_nonneg _

/-- **The numbers that can be written.** Digits with or without a minus sign are a program that is
the number they write, if that number without its sign has at most sixty-three bits, and otherwise
the digits are at fault, and they alone. With a point between digits the program is a number with a
fraction, of any length. No whole number that is read from a text, at any depth, is negative or too
large for its negation, so a minus sign in front of it always gives the number it should. -/
theorem ofText_signed :
    (∀ negative digits, IsNumeral digits →
      (numeralValue digits ≤ 2 ^ 63 - 1 → ∃ n : Int64, Program.ofText (signed negative digits) =
          .ok (.ofTerm (.int n ⟨.start, endOfSigned negative digits⟩)) ∧
        n.toInt = if negative then -(numeralValue digits : Int) else numeralValue digits) ∧
      (2 ^ 63 - 1 < numeralValue digits → Program.ofText (signed negative digits) =
        .error (.lexical ⟨.invalidNumber (String.ofList digits),
          ⟨Position.start.advance (sign negative), endOfSigned negative digits⟩⟩))) ∧
    (∀ negative whole fraction, IsNumeral whole → IsNumeral fraction →
      ∃ x : Float, Program.ofText (signed negative (whole ++ '.' :: fraction)) =
        .ok (.ofTerm (.float x ⟨.start, endOfSigned negative (whole ++ '.' :: fraction)⟩))) ∧
    (∀ source ts t (n : Int64), tokenize source = .ok ts → t ∈ nestedTokens ts →
      t.kind = .int n → 0 ≤ n.toInt ∧ n.toInt ≤ 2 ^ 63 - 1 ∧ (-n).toInt = -n.toInt) := by
  refine ⟨fun negative digits h => ⟨ofText_signed_of_le negative h, ofText_signed_of_lt negative h⟩,
    fun negative whole fraction hwhole hfraction =>
      ⟨_, ofText_signed_float negative hwhole hfraction⟩, ?_⟩
  intro source ts t n hts ht hkind
  have hnonneg := nonneg_of_mem_nestedTokens hts ht hkind
  exact ⟨hnonneg, Int.le_sub_one_of_lt n.toInt_lt, toInt_neg_of_nonneg hnonneg⟩

/-- The greatest number with zeros in front of it, the number behind it, and a fraction. -/
theorem ofText_signed_greatest :
    (∃ n : Int64, Program.ofText "-009223372036854775807" =
        .ok (.ofTerm (.int n ⟨.start, ⟨1, 23, 22⟩⟩)) ∧ n.toInt = -9223372036854775807) ∧
      Program.ofText "-9223372036854775808" =
        .error (.lexical ⟨.invalidNumber "9223372036854775808", ⟨⟨1, 2, 1⟩, ⟨1, 21, 20⟩⟩⟩) ∧
      ∃ x : Float, Program.ofText "-0.50" = .ok (.ofTerm (.float x ⟨.start, ⟨1, 6, 5⟩⟩)) := by
  have hgreatest : IsNumeral "009223372036854775807".toList := isNumeral_of_all (by decide) (by decide)
  have hlarger : IsNumeral "9223372036854775808".toList := isNumeral_of_all (by decide) (by decide)
  have hwhole : IsNumeral ['0'] := isNumeral_of_all (by decide) (by decide)
  have hfraction : IsNumeral ['5', '0'] := isNumeral_of_all (by decide) (by decide)
  have hint := (ofText_signed.1 true _ hgreatest).1 (by decide)
  have hfault := (ofText_signed.1 true _ hlarger).2 (by decide)
  have hfloat := ofText_signed.2.1 true _ _ hwhole hfraction
  exact ⟨hint, hfault, hfloat⟩

end NixSyntax
