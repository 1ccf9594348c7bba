import NixSyntax.Proofs.Composing.Forms
import NixSyntax.Proofs.Composing.Strings
import NixSyntax.Proofs.Cutting.Interpolations

/-!
# Every program can be interpolated

A program that ends with a line break is put between the braces of an interpolation, and that stands
alone or in a string. The braces find one another again: those of the program match, and neither a
comment nor a string of it goes on up to the closing brace, since a line break is in front of that.
So the tokens between the braces are those of the program, and so is the tree.

## The braces of a program

That the braces of a program match is needed twice, for the tokens and for the tree. The reader of
an interpolation stops at the first closing brace for which no other was opened, and so it has to be
the one behind the source. Source and tokens agree on braces, since those in strings and comments
are no marks.

That they match (`depthBehind_of_ofTokens`) is known of what an expression takes: every rule closes
what it opens. A program is such an expression, all of it up to the end of input. So the program is
read with one closing brace behind it, and the look ahead for a pattern, which counts braces as the
reader of an interpolation does, passes over the whole program and comes out behind that brace. What
it has passed over matches.

## Where it stands

The tree between the braces has its places moved, by the opening of the interpolation and that of
the string. Comments come along. The source begins with no byte order mark, which would be skipped
at the front of a text and is a fault anywhere else.

## Main definitions

* `inString`: a source between the braces of an interpolation, and nothing else in a string
* `Program.interpolation`: the interpolation that a program becomes

## Main results

* `Grammar.depthBehind_of_ofTokens`: the braces of a program match
* `Program.ofText_inBraces`: the tree of a source between braces
-/

namespace NixSyntax

/-- A source between the braces of an interpolation that is all of a string. -/
def inString (multiline : Bool) (source : String) : String :=
  String.ofList (Lexical.delimiter multiline) ++ inBraces source ++
    String.ofList (Lexical.delimiter multiline)

/-- The delimiter, the interpolation, and the delimiter again. -/
theorem toList_inString (multiline : Bool) (source : String) :
    (inString multiline source).toList = Lexical.delimiter multiline ++
      ((inBraces source).toList ++ Lexical.delimiter multiline) := by
  simp [inString]

namespace Lexical

/-! ### The tokens between the braces

The tokens of the source without its end, moved behind the braces. The line break is the last of
them. -/

section

variable {source : String} {newline stop : Token} {ts : List Token}
  (hmark : source.toList.head? ≠ some Cursor.byteOrderMark)
  (h : tokenize source = .ok (ts ++ [newline, stop])) (hnewline : newline.isNewline = true)
  (hdepth : depthBehind 0 (ts ++ [newline]) = some 0)
include hmark h hnewline hdepth

/-- An interpolation that stands alone is one token. -/
theorem tokenize_inBraces : ∃ stop', stop'.isEnd = true ∧ tokenize (inBraces source) =
    .ok [⟨.interpolation (relabelTokens (Position.start.advance ['$', '{']).translate
      (ts ++ [newline])), .over .start (inBraces source)⟩, stop'] := by
  have henc : Encloses ⟨(inBraces source).toList, .start⟩ _ ⟨[], _⟩ :=
    encloses_of_tokenize hmark h hnewline (List.append_nil _).symm le_rfl
  refine ⟨_, rfl, tokenize_of_stands (toList_inBraces source) (by decide) (.interpolation henc) ?_
    rfl rfl⟩
  simpa [Token.interpolations, depthBehind_relabel] using hdepth

theorem tokenize_inString (multiline : Bool) : ∃ stop', stop'.isEnd = true ∧
    tokenize (inString multiline source) = .ok [⟨.string [.text "", .interpolation
      (relabelTokens ((Position.start.advance (delimiter multiline)).advance ['$', '{']).translate
        (ts ++ [newline])) (.over (Position.start.advance (delimiter multiline)) (inBraces source)),
      .text ""] multiline, .over .start (inString multiline source)⟩, stop'] := by
  let insert : StringInsert :=
    ⟨source, ts, newline, stop, "", h, hnewline, hmark, bracesMatch_of_depthBehind hdepth⟩
  have hsource : stringSource multiline (stringBody "" [insert]) = inString multiline source := by
    rw [← String.toList_inj, toList_inString]
    simp [stringSource, stringBody, insert]
  have hline := one_le_line_advance (p := .start) le_rfl (delimiter multiline)
  have hall := tokenize_of_fragments (fragments_inserts multiline hline "" [insert])
    (depthBehind_of_mem_partsFrom _ "" [insert])
  rw [hsource] at hall
  exact ⟨_, rfl, hall⟩

end

end Lexical

namespace Grammar

variable {ts : List Token} {stop : Token} {p : Program} {n depth : Nat}

/-! ### The tree between the braces

The rule for an interpolation asks for an expression that is all of its tokens. With the end of
input the tokens are such an expression, and without it they still are. -/

/-- A look ahead counts braces as the reader of an interpolation does. -/
theorem behindBraces_cons_eq (depth : Nat) (t : Token) (ts : List Token) :
    behindBraces depth (t :: ts) = match t.kind.braceDepth depth with
      | none => some ts
      | some depth' => behindBraces depth' ts := by
  obtain ⟨kind, span⟩ := t
  cases kind with
  | symbol mark => cases mark <;> cases depth <;> simp [behindBraces, TokenKind.braceDepth]
  | _ => cases depth <;> simp [behindBraces, TokenKind.braceDepth]

/-- Where a closing brace closes what was open in front of all, the tokens keep the depth. -/
theorem depthBehind_of_behindBraces {close : Token} (hclose : close.kind = .symbol .closeBrace)
    (h : behindBraces depth (ts ++ [close]) = some []) : depthBehind depth ts = some 0 := by
  induction ts generalizing depth with
  | nil =>
    rw [List.nil_append, behindBraces_cons_eq, hclose] at h
    cases depth with
    | zero => rfl
    | succ depth => simp [TokenKind.braceDepth, behindBraces] at h
  | cons t ts ih =>
    rw [List.cons_append, behindBraces_cons_eq] at h
    rw [depthBehind_cons]
    cases hdepth : t.kind.braceDepth depth with
    | none => simp [hdepth] at h
    | some depth' =>
      rw [hdepth] at h
      exact ih h

/-- The place in front of the end of input, where on the second side nothing follows at all. -/
def Seam.ended (f : Position → Position) (stop : Token) (hstop : stop.isEnd = true) : Seam where
  f := f
  f' := id
  keep := true
  tail := [stop]
  tail' := []
  comments_tail := by
    rw [commentsAhead_cons_of_not_isTrivia [] (Token.isTrivia_of_isEnd hstop), viewComments_nil]
  isEnd_of_mem := isEnd_of_mem_nil

theorem Seam.before_ended (f : Position → Position) (stop : Token) (hstop : stop.isEnd = true)
    (ts : List Token) :
    (ended f stop hstop).Before (ts ++ [stop]) (relabelTokens f ts) := by
  have hbefore : (ended f stop hstop).Before (ts ++ [stop]) (relabelTokens f ts ++ []) :=
    before_append (relabelTokens_id (relabelTokens f ts)).symm
  rwa [List.append_nil] at hbefore

section

variable (h : Program.ofTokens (ts ++ [stop]) = .ok p) (hstop : stop.isEnd = true)
include h hstop

/-- Without the end of input, and at other places, the tokens of a program make the same
expression. -/
theorem ofTokens_front (f : Position → Position) : ∃ q,
    Program.ofTokens (relabelTokens f ts) = .ok q ∧
      q.body = p.body.relabel f (List.map (Comment.relabel f)) := by
  obtain ⟨rest, he, hend⟩ := complete_eq_ok_iff.mp (Program.complete_of_ofTokens h)
  have hrest : (Seam.ended f stop hstop).Reaches rest := by
    -- the end of input is not taken
    obtain ⟨front, hfront, -, hends⟩ := leaves_expression (advances_operandUpTo _) he
    cases rest with
    | nil =>
      rw [List.append_nil] at hfront
      have hmem : stop ∈ front := hfront ▸ List.mem_append_right ts List.mem_cons_self
      rw [hends stop hmem] at hstop
      cases hstop
    | cons t rest =>
      simp [Seam.Reaches, Seam.ended,
        skipTrivia_cons_of_not_isTrivia [] (Token.isTrivia_of_isEnd hstop)]
  obtain ⟨e', rest', he', hs', hk⟩ := Seam.crosses_expression (Seam.crosses_operandUpTo _)
    (.before (Seam.before_ended f stop hstop ts)) he hrest
  have hcomplete := complete_eq_ok_iff.mpr ⟨rest', he', hs'.atEnd hend⟩
  refine ⟨_, Program.ofTokens_eq_ok_iff.mpr
    ⟨e', complete_operandUpTo (Nat.le_refl _) hcomplete, rfl⟩, ?_⟩
  calc e'
      = e'.relabel id (viewComments true id) := by rw [viewComments_true_id, Expr.relabel_id]
    _ = p.body.relabel f (List.map (Comment.relabel f)) := hk.symm

/-- **The braces of a program match.** -/
theorem depthBehind_of_ofTokens (hts : ∀ t ∈ ts, t.isEnd = false) :
    depthBehind 0 ts = some 0 := by
  obtain ⟨q, hq, -⟩ := ofTokens_front h hstop id
  rw [relabelTokens_id] at hq
  have hclosing : Closing [⟨.symbol .closeBrace, .point .start⟩] := ⟨_, _, rfl, rfl⟩
  exact depthBehind_of_behindBraces rfl (behindBraces_append_of_ofTokens hq hts hclosing 0)

/-- The tokens of a program, between the braces of an interpolation, make its expression. -/
theorem interpolationOf_front (f : Position → Position) (span : Span) :
    ∃ n, interpolationOf (operandUpTo n) (relabelTokens f ts) span =
      .ok ⟨p.body.relabel f (List.map (Comment.relabel f)), span⟩ := by
  obtain ⟨q, hq, hbody⟩ := ofTokens_front h hstop f
  rw [← hbody]
  exact ⟨_, interpolationOf_eq_ok_iff.mpr ⟨_, Program.complete_of_ofTokens hq, rfl⟩⟩

end

/-- A string with nothing in it but an interpolation. -/
theorem stringOf_of_interpolationOf {operand : Context → Rule Operand} {tokens : List Token}
    {span : Span} {c : Interpolation} (h : interpolationOf operand tokens span = .ok c)
    (multiline : Bool) (around : Span) :
    stringOf operand [.text "", .interpolation tokens span, .text ""] multiline around =
      .ok ⟨[.text "", .interpolation c, .text ""], multiline, around⟩ := by
  exact stringOf_eq_ok_iff.mpr ⟨_, .text (.interpolation h (.text .nil)), rfl⟩

end Grammar

namespace Program

/-- The interpolation that a program of the given source becomes where its opening stands at
`start`. -/
def interpolation (p : Program) (source : String) (start : Position) : Interpolation :=
  let translate := (start.advance ['$', '{']).translate
  ⟨p.body.relabel translate (List.map (Comment.relabel translate)),
    .over start (inBraces source)⟩

variable {source : String} {ts : List Token} {newline stop : Token} {p : Program}

/-- **Every program can be interpolated.** If a line break comes last in a source and it is a
program, the same text is one term between the braces of an interpolation, alone or in a string of
either form. The expression in it is that of the program, comments included, at the positions it has
behind the opening brace. -/
theorem ofText_inBraces (hmark : source.toList.head? ≠ some Cursor.byteOrderMark)
    (htokens : tokenize source = .ok (ts ++ [newline, stop]))
    (hnewline : newline.isNewline = true) (hp : ofText source = .ok p) :
    ofText (inBraces source) = .ok (ofTerm (.interpolation (p.interpolation source .start))) ∧
      ∀ multiline, ofText (inString multiline source) = .ok (ofTerm (.string
        ⟨[.text "", .interpolation (p.interpolation source
            (Position.start.advance (Lexical.delimiter multiline))), .text ""],
          multiline, .over .start (inString multiline source)⟩)) := by
  obtain ⟨us, hus, hp⟩ := ofText_eq_ok_iff.mp hp
  obtain rfl : ts ++ [newline, stop] = us := Except.ok.inj (htokens.symm.trans hus)
  obtain ⟨d, e, -, -, hstop, hts⟩ := Lexical.run_of_tokenize_append_pair htokens
  have hp' : ofTokens (ts ++ [newline] ++ [stop]) = .ok p := by simpa using hp
  -- a text that is a program leaves no brace open, so the brace put behind it closes it
  have hdepth := Grammar.depthBehind_of_ofTokens hp' hstop hts
  refine ⟨?_, fun multiline => ?_⟩
  · obtain ⟨stop', hend, htext⟩ := Lexical.tokenize_inBraces hmark htokens hnewline hdepth
    obtain ⟨n, hcontent⟩ := Grammar.interpolationOf_front hp' hstop
      (Position.start.advance ['$', '{']).translate (.over .start (inBraces source))
    exact ofText_eq_ok_iff.mpr
      ⟨_, htext, Grammar.ofTokens_of_readsTerm (.interpolation hcontent) hend⟩
  · obtain ⟨stop', hend, htext⟩ :=
      Lexical.tokenize_inString hmark htokens hnewline hdepth multiline
    obtain ⟨n, hcontent⟩ := Grammar.interpolationOf_front hp' hstop
      ((Position.start.advance (Lexical.delimiter multiline)).advance ['$', '{']).translate
      (.over (Position.start.advance (Lexical.delimiter multiline)) (inBraces source))
    have hliteral := Grammar.stringOf_of_interpolationOf hcontent multiline
      (.over .start (inString multiline source))
    exact ofText_eq_ok_iff.mpr
      ⟨_, htext, Grammar.ofTokens_of_readsTerm (.string hliteral) hend⟩

/-- The tokens of a name with a comment behind it, in front of the line break. -/
def commentedTokens : List Token :=
  [⟨.identifier "x", onFirstLine 0 1⟩, ⟨.comment " \x7d" false, onFirstLine 2 5⟩]

/-- A name with a comment behind it. -/
def commentedName : Program :=
  ⟨.operand ⟨[], [], [⟨" \x7d", false, onFirstLine 2 5⟩],
    .name ⟨[.name "x"], [], onFirstLine 0 1⟩, onFirstLine 0 1⟩, onFirstLine 0 1⟩

/-- The brace in the comment does not close the interpolation. -/
theorem ofText_inBraces_commented :
    inString true "x # \x7d\n" = "''$\x7bx # \x7d\n\x7d''" ∧
    "x # \x7d\n".toList.head? ≠ some Cursor.byteOrderMark ∧
    tokenize "x # \x7d\n" = .ok (commentedTokens ++
      [⟨.newline, ⟨⟨1, 6, 5⟩, ⟨2, 1, 6⟩⟩⟩, ⟨.endOfInput, .point ⟨2, 1, 6⟩⟩]) ∧
    ofText "x # \x7d\n" = .ok commentedName ∧
    ofText (inBraces "x # \x7d\n") =
      .ok (ofTerm (.interpolation (commentedName.interpolation "x # \x7d\n" .start))) ∧
    ofText (inString true "x # \x7d\n") = .ok (ofTerm (.string
      ⟨[.text "", .interpolation (commentedName.interpolation "x # \x7d\n" ⟨1, 3, 2⟩), .text ""],
        true, ⟨.start, ⟨2, 4, 13⟩⟩⟩)) := by
  have hmark : "x # \x7d\n".toList.head? ≠ some Cursor.byteOrderMark := by decide
  have h : tokenize "x # \x7d\n" = .ok (commentedTokens ++
      [⟨.newline, ⟨⟨1, 6, 5⟩, ⟨2, 1, 6⟩⟩⟩, ⟨.endOfInput, .point ⟨2, 1, 6⟩⟩]) := rfl
  have hp : ofText "x # \x7d\n" = .ok commentedName := ofText_eq_ok_iff.mpr ⟨_, h, rfl⟩
  have hall := ofText_inBraces hmark h rfl hp
  exact ⟨by decide, hmark, h, hp, hall.1, hall.2 true⟩

end Program

end NixSyntax
