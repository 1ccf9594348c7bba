import NixSyntax.Proofs.Cutting.Expressions

/-!
# Any tokens in a row can be cut out

The text from the beginning of one token to the end of another is read alone, and has the tokens
that stand there in the whole text, and its end. They need not be an expression, nor any other part
of a tree, so nothing is said here of the rules of the grammar.

Neither end of the piece has to be a blank. What the readers look ahead at, behind the last token,
is gone, and what stood in front of the first one is gone too. That both make no difference is the
locality of the readers (`Lexical.follows_token`).

## One row of tokens and another

That the tokens of a text stand in a row, each where the one before it has ended, with blanks
between, is known (`exists_run`). Some of them in a row stand in a row too, and the text from the
first of them to the last is what they take. The reader of the piece then has nothing to do but to
follow this row, and all nested tokens are moved along with those that hold them.

## Main results

* `Lexical.Run.tokenize_slice`: the text that some tokens take has these tokens
* `tokenize_stretch`: the tokens of a text from one to another are those of the text between them
-/

namespace NixSyntax

/-- The tokens from one to another take the place from the beginning of the one to the end of the
other. -/
theorem ends_drop_take {ts : List Token} {i j : Nat} (hij : i ≤ j) (hj : j < ts.length) :
    Ends ((ts.take (j + 1)).drop i) ⟨ts[i].span.start, ts[j].span.stop⟩ where
  start := by
    have hi : ((ts.take (j + 1)).drop i)[0]? = some ts[i] := by
      rw [List.getElem?_drop, List.getElem?_take_of_lt (by omega), Nat.add_zero,
        List.getElem?_eq_getElem]
    rw [List.head?_eq_getElem?, hi, Option.map_some]
  stop := by
    have hlast : (ts.take (j + 1)).getLast? = some ts[j] := by
      rw [List.take_succ_eq_append_getElem hj, List.getLast?_concat]
    rw [List.getLast?_drop, if_neg (by rw [List.length_take]; omega), hlast, Option.map_some]

namespace Lexical

variable {source : String} {c d : Cursor} {ts : List Token} {span : Span}

/-- **The text that some tokens take has these tokens**, at other positions, and its end. -/
theorem Run.tokenize_slice (hc : c.IsIn source) (h : Run c ts d) (hts : Ends ts span)
    (hend : ∀ t ∈ ts, t.isEnd = false) :
    ∃ text us, IsSlice source span.start.offset span.stop.offset text ∧
      tokenize (String.ofList text) = .ok us ∧
      relabelTokens span.start.translate us = ts ++ [⟨.endOfInput, .point span.stop⟩] := by
  have hne : ts ≠ [] := by
    rintro rfl
    cases hts.start
  rw [h.span_eq hts]
  have hrun := h.skipBlanks hne
  have hc : c.skipBlanks.IsIn source := hc.reaches (passes_skipBlanks c).reaches
  obtain ⟨text, htext⟩ := hrun.reaches
  obtain ⟨us, stop, hus, hrelabel, hstop⟩ := tokenize_of_passes hc.one_le.1 hc.one_le.2 htext hrun
    hend (.inl rfl) fun _ _ => hrun.ne_byteOrderMark hne
  refine ⟨text, _, hc.isSlice htext, hus, ?_⟩
  rw [hrelabel, hstop, relabelTokens_eq_map, relabelTokens_eq_map, List.map_append,
    List.map_singleton, Token.relabel_endOfInput]

end Lexical

/-- **Any tokens in a row can be cut out.** The text from the beginning of one token to the end of
another has the tokens between them, these two included, and its end. All positions in them, also
those inside strings and interpolations, are counted from the cut. -/
theorem tokenize_stretch {source : String} {ts : List Token} {stop : Token}
    (h : tokenize source = .ok (ts ++ [stop])) {i j : Nat} (hij : i ≤ j) (hj : j < ts.length) :
    ∃ text us, IsSlice source ts[i].span.start.offset ts[j].span.stop.offset text ∧
      tokenize (String.ofList text) = .ok us ∧
      relabelTokens ts[i].span.start.translate us =
        (ts.take (j + 1)).drop i ++ [⟨.endOfInput, .point ts[j].span.stop⟩] := by
  obtain ⟨body, d, e, last, hbody, hrun, -, -, hend⟩ := Lexical.run_of_tokenize h
  obtain ⟨rfl, -⟩ := List.append_inj' hbody rfl
  obtain ⟨b, hrun, -⟩ := (List.take_append_drop (j + 1) ts ▸ hrun).split
  obtain ⟨a, hlead, hrun⟩ := (List.take_append_drop i (ts.take (j + 1)) ▸ hrun).split
  exact hrun.tokenize_slice hlead.reaches (ends_drop_take hij hj) fun t ht =>
    hend t (List.mem_of_mem_take (List.mem_of_mem_drop ht))

/-- Three tokens without a blank between them, on the second line: a dot, an interpolation and an
operator. -/
def crampedTokens : List Token :=
  [⟨.symbol .dot, ⟨⟨2, 3, 4⟩, ⟨2, 4, 5⟩⟩⟩,
    ⟨.interpolation [⟨.identifier "x", ⟨⟨2, 6, 7⟩, ⟨2, 7, 8⟩⟩⟩], ⟨⟨2, 4, 5⟩, ⟨2, 8, 9⟩⟩⟩,
    ⟨.symbol .lessEqual, ⟨⟨2, 8, 9⟩, ⟨2, 10, 11⟩⟩⟩]

/-- They are cut out from between a name and another. Neither end of the piece is a blank. -/
theorem tokenize_stretch_cramped :
    ∃ text us, IsSlice "a\n f.$\x7bx\x7d<=b" 4 11 text ∧ tokenize (String.ofList text) = .ok us ∧
      relabelTokens (Position.translate ⟨2, 3, 4⟩) us =
        crampedTokens ++ [⟨.endOfInput, .point ⟨2, 10, 11⟩⟩] := by
  have h : tokenize "a\n f.$\x7bx\x7d<=b" = .ok
      ([⟨.identifier "a", ⟨⟨1, 1, 0⟩, ⟨1, 2, 1⟩⟩⟩, ⟨.newline, ⟨⟨1, 2, 1⟩, ⟨2, 1, 2⟩⟩⟩,
        ⟨.identifier "f", ⟨⟨2, 2, 3⟩, ⟨2, 3, 4⟩⟩⟩] ++ crampedTokens ++
        [⟨.identifier "b", ⟨⟨2, 10, 11⟩, ⟨2, 11, 12⟩⟩⟩] ++ [⟨.endOfInput, .point ⟨2, 11, 12⟩⟩]) :=
    rfl
  have hij : 3 ≤ 5 := by decide
  exact tokenize_stretch h hij (by decide)

end NixSyntax
