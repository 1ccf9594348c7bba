import NixSyntax.Fault
import NixSyntax.Proofs.Lexing.LineEndings
import NixSyntax.Proofs.Moving.Rules

/-!
# Sources with other line endings

Reading a source looks at its tokens alone, and they say nothing of how lines end. So whatever is
the same about the tokens of two sources is the same about their programs (`Program.ofText_recast`),
and a source with carriage returns is read as the source without them.

## Two steps

That the tokens of the two sources agree is known of the readers of tokens (`tokenize_addReturns`).
That the rules answer alike for tokens that agree is known of the grammar
(`Program.ofTokens_recast`). Both are equations, and they are put one behind the other, with the
faults of each step.

Equal are the trees without the carriage returns of their texts, and without offsets. Lines and
columns are compared. A string that goes over several lines has its carriage returns in the tree,
and there they stay.

## Main definitions

* `Fault.recast`: a fault of either step at other positions and with other texts

## Main results

* `Program.ofText_recast`: sources with the same tokens but for positions and texts
* `Program.ofText_addReturns`: a source with a carriage return in front of every line feed
-/

namespace NixSyntax

/-- A fault at another position, with other texts in the token at which it is. -/
def Fault.recast (f : Position → Position) (g : String → String) : Fault → Fault
  | lexical a => lexical (a.relabel f)
  | grammatical a => grammatical (a.recast f g)

namespace Program

variable {f : Position → Position} {g : String → String}

/-- Sources that are cut into the same tokens, but for positions and texts, are the same programs
but for positions and texts. One that cannot be cut into tokens is no program, and the fault is the
same. -/
theorem ofText_recast {source source' : String}
    (h : ((tokenize source).map (recastTokens f g)).mapError (LexFault.relabel f) =
      ((tokenize source').map (recastTokens f g)).mapError (LexFault.relabel f)) :
    ((ofText source).map (Program.recast f g)).mapError (Fault.recast f g) =
      ((ofText source').map (Program.recast f g)).mapError (Fault.recast f g) := by
  have hread (ts : List Token) :
      (((ofTokens ts).mapError .grammatical).map (Program.recast f g)).mapError (Fault.recast f g) =
        (((ofTokens ts).map (Program.recast f g)).mapError (ParseFault.recast f g)).mapError
          .grammatical := by
    cases ofTokens ts <;> rfl
  unfold ofText
  cases hts : tokenize source with
  | ok ts =>
    cases hus : tokenize source' with
    | ok us =>
      rw [hts, hus] at h
      have hsame : recastTokens f g ts = recastTokens f g us := Except.ok.inj h
      refine (hread ts).trans (Eq.trans ?_ (hread us).symm)
      rw [ofTokens_recast hsame]
    | error b =>
      rw [hts, hus] at h
      cases h
  | error a =>
    cases hus : tokenize source' with
    | ok us =>
      rw [hts, hus] at h
      cases h
    | error b =>
      rw [hts, hus] at h
      exact congrArg (fun a => Except.error (Fault.lexical a)) (Except.error.inj h)

/-- **Line endings do not matter.** A source with a carriage return in front of every line feed has
the same tokens, at every depth, in the same lines and columns, and is the same program; only
offsets differ, and carriage returns in texts. If something is wrong with the source, the same is
wrong with it, in the same lines and columns. -/
theorem ofText_addReturns {source : String} (h : '\r' ∉ source.toList) :
    ((tokenize (addReturns source)).map (recastTokens .withoutOffset withoutReturns)).mapError
        (LexFault.relabel .withoutOffset) =
      ((tokenize source).map (recastTokens .withoutOffset withoutReturns)).mapError
        (LexFault.relabel .withoutOffset) ∧
    ((ofText (addReturns source)).map (Program.recast .withoutOffset withoutReturns)).mapError
        (Fault.recast .withoutOffset withoutReturns) =
      ((ofText source).map (Program.recast .withoutOffset withoutReturns)).mapError
        (Fault.recast .withoutOffset withoutReturns) :=
  ⟨tokenize_addReturns h, ofText_recast (tokenize_addReturns h)⟩

/-- A comment, and a string with a line break behind a backslash and, in an interpolation, a path
with another one. -/
def brokenLines : String := "# a\n\"b\\\n$\x7b./c\\\nd\x7d\""

/-- The line breaks are taken with their carriage returns. -/
theorem ofText_addReturns_brokenLines :
    let returned := "# a\r\n\"b\\\r\n$\x7b./c\\\r\nd\x7d\""
    let comment : Span := ⟨⟨1, 1, 0⟩, ⟨1, 4, 0⟩⟩
    let string : Span := ⟨⟨2, 1, 0⟩, ⟨4, 4, 0⟩⟩
    let interpolation : Span := ⟨⟨3, 1, 0⟩, ⟨4, 3, 0⟩⟩
    let path : Span := ⟨⟨3, 3, 0⟩, ⟨4, 2, 0⟩⟩
    '\r' ∉ brokenLines.toList ∧ addReturns brokenLines = returned ∧
    ((tokenize returned).map (recastTokens .withoutOffset withoutReturns)).mapError
        (LexFault.relabel .withoutOffset) = .ok
      [⟨.comment " a" false, comment⟩, ⟨.newline, ⟨⟨1, 4, 0⟩, ⟨2, 1, 0⟩⟩⟩,
        ⟨.string [.text "b\n", .interpolation [⟨.path "./c\nd", path⟩] interpolation, .text ""]
          false, string⟩, ⟨.endOfInput, .point ⟨4, 4, 0⟩⟩] ∧
    ((ofText returned).map (Program.recast .withoutOffset withoutReturns)).mapError
        (Fault.recast .withoutOffset withoutReturns) = .ok
      ⟨.operand ⟨[], [⟨" a", false, comment⟩], [],
        .string ⟨[.text "b\n", .interpolation ⟨.operand ⟨[], [], [], .path "./c\nd" path, path⟩,
          interpolation⟩, .text ""], false, string⟩, string⟩, string⟩ := by
  intro returned comment string interpolation path
  have h : '\r' ∉ brokenLines.toList := by decide
  have hreturned : addReturns brokenLines = returned := rfl
  have hsource : tokenize brokenLines = .ok
      [⟨.comment " a" false, ⟨⟨1, 1, 0⟩, ⟨1, 4, 3⟩⟩⟩, ⟨.newline, ⟨⟨1, 4, 3⟩, ⟨2, 1, 4⟩⟩⟩,
        ⟨.string [.text "b\n", .interpolation [⟨.path "./c\nd", ⟨⟨3, 3, 10⟩, ⟨4, 2, 16⟩⟩⟩]
          ⟨⟨3, 1, 8⟩, ⟨4, 3, 17⟩⟩, .text ""] false, ⟨⟨2, 1, 4⟩, ⟨4, 4, 18⟩⟩⟩,
        ⟨.endOfInput, .point ⟨4, 4, 18⟩⟩] := rfl
  have hread : ofText brokenLines = .ok _ := ofText_eq_ok_iff.mpr ⟨_, hsource, rfl⟩
  obtain ⟨htokens, hprogram⟩ := ofText_addReturns h
  rw [hreturned, hsource] at htokens
  rw [hreturned, hread] at hprogram
  exact ⟨h, hreturned, htokens, hprogram⟩

end Program

end NixSyntax
