import NixSyntax.Proofs.Printing.Braces
import NixSyntax.Proofs.Reading.Progress

/-!
# What may follow

A rule reads its piece of tree from what was printed of it only if it stops where the piece ends.
Where it stops is decided by the tokens that follow, and in print they are others than before: an
operator has a line break in front of it, a negative number has lost its minus sign, and a pattern
has lost the name in front of it.

`Admits` compares the tokens that followed an operand with those that follow it in print. It asks
only for what the operand looks at. An operand in a chain looks for an operator or an argument
behind itself. Any other operand may do so too, if an expression is at its end, but then no
operator followed: the expression would have gone on with it. So where an operator follows an
operand that is in no chain, nothing is asked for, and just there the next operand may be a
negative number whose minus sign is gone.

`Fits` is the same for the token an operand begins with.

## Marks that would go on

Three marks behind an operand would make something else of it, whatever kind of operand it is.
Behind a name, a colon or an `@` makes it the argument of a function, and behind braces they make a
pattern. A dot directly behind a name goes on with the name. In print none of them may follow
directly, whatever followed before, and so the fields `colon`, `atSign` and `dot` of `Admits` are
about the printed tokens alone.

The tokens of `closes` end every expression, and in print every expression that is not at the end of
another one is followed by one of these, or by nothing.

## Main definitions

* `operatorAhead`, `argumentAhead`: what the next token begins
* `Admits`: the tokens behind an operand and those behind it in print
* `Fits`: the token that an operand begins with and the one that it begins with in print
-/

namespace NixSyntax

namespace Grammar

variable {ts us rest rest' : List Token} {ctx ctx' : Context}

/-! ### The next token

Line breaks and comments are passed before the next token is looked at. What it begins is decided by
its kind. -/

/-- Whether the next token is an operator. -/
def operatorAhead (ts : List Token) : Bool :=
  (skipTrivia ts).head?.any fun t => t.binaryOp?.isSome

/-- Whether the next token begins an argument. -/
def argumentAhead (ts : List Token) : Bool :=
  (skipTrivia ts).head?.any fun t => startsArgument t.kind

/-- An operator is ahead if the first token that is no trivia is one. -/
theorem operatorAhead_of_eq {t : Token} (h : skipTrivia ts = t :: us) :
    operatorAhead ts = t.binaryOp?.isSome := by
  simp [operatorAhead, h]

theorem argumentAhead_of_eq {t : Token} (h : skipTrivia ts = t :: us) :
    argumentAhead ts = startsArgument t.kind := by
  simp [argumentAhead, h]

/-- An argument is read exactly if the next token begins one. -/
theorem argument_eq_none_iff_ahead {operand : Context → Rule Operand} :
    argument operand ts = .ok (none, rest) ↔ rest = ts ∧ argumentAhead ts = false := by
  rw [argument_eq_none_iff]
  refine and_congr_right fun _ => ?_
  cases hskip : skipTrivia ts with
  | nil => simp [argumentAhead, hskip]
  | cons t us => simp [argumentAhead_of_eq hskip]

/-- If the next token is another one, it is not the mark. -/
theorem nextIsSymbol_of_eq {t : Token} {s : Symbol} (h : skipTrivia ts = t :: us)
    (ht : t.kind ≠ .symbol s) : nextIsSymbol s ts = false := by
  refine nextIsSymbol_eq_false_iff.mpr fun span rest heq => ht ?_
  obtain ⟨rfl, -⟩ := List.cons.inj (h.symm.trans heq)
  rfl

theorem nextIsKeyword_of_eq {t : Token} {k : Keyword} (h : skipTrivia ts = t :: us)
    (ht : t.kind ≠ .keyword k) : nextIsKeyword k ts = false := by
  refine nextIsKeyword_eq_false_iff.mpr fun span rest heq => ht ?_
  obtain ⟨rfl, -⟩ := List.cons.inj (h.symm.trans heq)
  rfl

/-- No token is both an operator and the beginning of an argument. The minus sign is an operator. -/
theorem startsArgument_of_binaryOp? {t : Token} {op : BinaryOp} (h : t.binaryOp? = some op) :
    startsArgument t.kind = false := by
  rw [Token.binaryOp?_eq_some_iff.mp h]
  cases op <;> rfl

/-- Where an argument is ahead, no operator is. -/
theorem operatorAhead_of_argumentAhead (h : argumentAhead ts = true) :
    operatorAhead ts = false := by
  cases hts : skipTrivia ts with
  | nil => simp [operatorAhead, hts]
  | cons t us =>
    rw [argumentAhead_of_eq hts] at h
    rw [operatorAhead_of_eq hts]
    cases hop : t.binaryOp? with
    | none => rfl
    | some op =>
      rw [startsArgument_of_binaryOp? hop] at h
      cases h

/-! ### Behind an operand

How the condition comes about, from what is printed behind an operand: nothing, a mark that closes,
an operator behind its line break, or another operand. -/

/-- The tokens `rest` followed an operand, and in print `rest'` follows it. No operator and no
argument is ahead in print if none was before, and none of the marks is that would go on with a name
or a set. -/
structure Admits (ctx : Context) (rest rest' : List Token) : Prop where
  operator : operatorAhead rest = false → operatorAhead rest' = false
  argument : ctx = .chain ∨ operatorAhead rest = false →
    argumentAhead rest = false → argumentAhead rest' = false
  colon : nextIsSymbol .colon rest' = false
  atSign : nextIsSymbol .atSign rest' = false
  dot : ∀ span us, rest' ≠ ⟨.symbol .dot, span⟩ :: us

/-- The marks and keywords behind which an expression has ended, and the end of input. -/
def closes : TokenKind → Bool
  | .endOfInput => true
  | .symbol .closeParen => true
  | .symbol .closeBrace => true
  | .symbol .closeBracket => true
  | .symbol .semicolon => true
  | .symbol .comma => true
  | .keyword .in_ => true
  | .keyword .then_ => true
  | .keyword .else_ => true
  | _ => false

/-- What closes an expression is no operator and begins no argument. -/
theorem not_ahead_of_closes {t : Token} (h : closes t.kind = true) :
    t.isTrivia = false ∧ t.binaryOp? = none ∧ startsArgument t.kind = false := by
  obtain ⟨kind, span⟩ := t
  change closes kind = true at h
  unfold closes at h
  split at h <;> first | exact ⟨rfl, rfl, rfl⟩ | cases h

namespace Admits

theorem nil : Admits ctx rest [] where
  operator _ := rfl
  argument _ _ := rfl
  colon := rfl
  atSign := rfl
  dot _ _ h := by cases h

/-- In front of what closes an expression, anything may have been read. -/
theorem of_closes {t : Token} (h : closes t.kind = true) : Admits ctx rest (t :: us) := by
  obtain ⟨htrivia, hop, harg⟩ := not_ahead_of_closes h
  have hskip := skipTrivia_cons_of_not_isTrivia us htrivia
  refine ⟨fun _ => ?_, fun _ _ => ?_, nextIsSymbol_of_eq hskip ?_, nextIsSymbol_of_eq hskip ?_, ?_⟩
  · rw [operatorAhead_of_eq hskip, hop]
    rfl
  · rw [argumentAhead_of_eq hskip, harg]
  · intro hkind
    rw [hkind] at h
    cases h
  · intro hkind
    rw [hkind] at h
    cases h
  · rintro span us hcons
    obtain ⟨rfl, -⟩ := List.cons.inj hcons
    cases h

/-- Where an operator followed, it follows in print behind a line break. -/
theorem of_operator {op : BinaryOp} (h : operatorAhead rest = true) :
    Admits ctx rest (lineBreak :: op.kind.token :: us) := by
  have hskip : skipTrivia (lineBreak :: op.kind.token :: us) = op.kind.token :: us := by
    rw [skipTrivia_cons_of_isTrivia _ rfl]
    cases op <;> rfl
  refine ⟨fun h' => ?_, fun _ _ => ?_, nextIsSymbol_of_eq hskip ?_, nextIsSymbol_of_eq hskip ?_, ?_⟩
  · rw [h] at h'
    cases h'
  · rw [argumentAhead_of_eq hskip]
    cases op <;> rfl
  · cases op <;> simp [TokenKind.token, BinaryOp.kind]
  · cases op <;> simp [TokenKind.token, BinaryOp.kind]
  · rintro span us hcons
    cases hcons

/-- Behind an expression it makes no difference whether the expression is in a chain. -/
theorem of_ended (h : Admits ctx rest rest') (hrest : operatorAhead rest = false) :
    Admits ctx' rest rest' :=
  ⟨h.operator, fun _ => h.argument (.inr hrest), h.colon, h.atSign, h.dot⟩

/-- Less is asked for where an operand is in no chain. -/
theorem single (h : Admits ctx rest rest') : Admits .single rest rest' :=
  ⟨h.operator, fun hsingle => h.argument (.inr (hsingle.resolve_left nofun)), h.colon, h.atSign,
    h.dot⟩

/-- Trivia that followed makes no difference. -/
theorem of_skipTrivia (h : Admits ctx (skipTrivia rest) rest') : Admits ctx rest rest' := by
  have hoperator : operatorAhead (skipTrivia rest) = operatorAhead rest := by simp [operatorAhead]
  have hargument : argumentAhead (skipTrivia rest) = argumentAhead rest := by simp [argumentAhead]
  refine ⟨?_, ?_, h.colon, h.atSign, h.dot⟩
  · rw [← hoperator]
    exact h.operator
  · rw [← hoperator, ← hargument]
    exact h.argument

end Admits

/-! ### The first token of an operand

An operand begins in print as it did before, with three exceptions. A minus sign is gone where it is
part of a number, a name is gone from the front of a pattern, and a pattern begins with its brace
then. In all three the new first token is harmless where the old one stood. -/

/-- The tokens that an operand can begin with. -/
def beginsOperand : TokenKind → Bool
  | .symbol .minus => true
  | .keyword .let_ => true
  | .keyword .import_ => true
  | .keyword .if_ => true
  | .keyword .with_ => true
  | .keyword .assert => true
  | kind => startsArgument kind

/-- An operand began with `t`, and in print it begins with `t'`. If no operator was to be seen in
front, none is in print, and an argument is to be seen if one was. If neither was, neither is. -/
structure Fits (t t' : Token) : Prop where
  begins : beginsOperand t'.kind = true
  operator : t.binaryOp? = none → t'.binaryOp? = none
  argument : startsArgument t.kind = true → startsArgument t'.kind = true
  no_argument : t.binaryOp? = none → startsArgument t.kind = false → startsArgument t'.kind = false

/-- What begins an operand is none of the tokens that end one. -/
theorem not_trivia_of_begins {t : Token} (h : beginsOperand t.kind = true) :
    t.isTrivia = false ∧ t.isEnd = false := by
  obtain ⟨kind, span⟩ := t
  cases kind <;> first | exact ⟨rfl, rfl⟩ | cases h

namespace Fits

variable {t t' : Token}

/-- Both begin an argument. -/
theorem of_startsArgument (ht : startsArgument t.kind = true)
    (ht' : startsArgument t'.kind = true) :
    Fits t t' := by
  refine ⟨?_, fun _ => ?_, fun _ => ht', fun _ hnot => ?_⟩
  · obtain ⟨kind, span⟩ := t'
    unfold beginsOperand
    split <;> first | rfl | exact ht'
  · cases hop : t'.binaryOp? with
    | none => rfl
    | some op =>
      rw [startsArgument_of_binaryOp? hop] at ht'
      cases ht'
  · rw [ht] at hnot
    cases hnot

/-- Behind a minus sign that is gone, any operand may begin. -/
theorem of_minus (ht : t.kind = .symbol .minus) (ht' : beginsOperand t'.kind = true) :
    Fits t t' := by
  have hop : t.binaryOp? = some .sub := Token.binaryOp?_eq_some_iff.mpr ht
  refine ⟨ht', fun hnone => ?_, fun hstarts => ?_, fun hnone => ?_⟩
  · rw [hop] at hnone
    cases hnone
  · rw [ht] at hstarts
    cases hstarts
  · rw [hop] at hnone
    cases hnone

/-- A keyword stays the same. -/
theorem of_keyword {k : Keyword} (ht : t.kind = .keyword k) (ht' : t'.kind = .keyword k)
    (hbegins : beginsOperand (.keyword k) = true) : Fits t t' := by
  refine ⟨by rw [ht', hbegins], fun _ => ?_, fun h => ?_, fun _ h => ?_⟩
  · obtain ⟨kind, span⟩ := t'
    obtain rfl : kind = _ := ht'
    cases k <;> first | rfl | cases hbegins
  · rw [ht', ← ht, h]
  · rw [ht', ← ht, h]

/-- The next token is one that an operand begins with. -/
theorem admits (h : Fits t t') (hts : skipTrivia ts = t :: rest) :
    Admits .single ts (t' :: us) := by
  have hskip := skipTrivia_cons_of_not_isTrivia us (not_trivia_of_begins h.begins).1
  have hbegins := h.begins
  refine ⟨fun hop => ?_, fun hop harg => ?_, nextIsSymbol_of_eq hskip ?_,
    nextIsSymbol_of_eq hskip ?_, ?_⟩
  · rw [operatorAhead_of_eq hts] at hop
    rw [operatorAhead_of_eq hskip, h.operator (by simpa using hop)]
    rfl
  · have hop : operatorAhead ts = false := by simpa using hop
    rw [operatorAhead_of_eq hts] at hop
    rw [argumentAhead_of_eq hts] at harg
    rw [argumentAhead_of_eq hskip]
    exact h.no_argument (by simpa using hop) harg
  · intro hkind
    rw [hkind] at hbegins
    cases hbegins
  · intro hkind
    rw [hkind] at hbegins
    cases hbegins
  · rintro span us hcons
    obtain ⟨rfl, -⟩ := List.cons.inj hcons
    cases hbegins

end Fits

end Grammar

end NixSyntax
