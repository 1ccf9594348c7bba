import NixSyntax.Proofs.Cutting.Pieces
import NixSyntax.Proofs.Cutting.Rules
import NixSyntax.Proofs.Places.Exact

/-!
# Any expression of a program is a program

An expression is cut out of the text where it stands, and read alone. The tree is the same, but for
positions, which count from the cut, and for comments, since those around an expression are no part
of it.

Three things come together. The text under the span of an expression is taken by some tokens in a
row, from the first significant token of the expression to the last (`Made.exists_stretch`). These
are the tokens of the piece (`Lexical.tokenize_of_passes`). And the rules that made the expression
of these tokens make it once more where nothing follows, by `Seam.crosses_operandUpTo`.

A side of an operator was never read as such. It is assembled from a part of the chain, and what is
read alone is this part. An operand that was read in a list or as an argument takes no arguments
there. Read alone it could take some, but nothing follows it.

## The ends of the piece

The span of an expression begins with its first significant token and ends with its last one. Trivia
in front of an operand and behind it were read as part of it, and have been left in the tree as
comments, but they are outside of the span. So the tokens that made the expression are more than
those of the piece. The piece is what remains when the trivia at both ends is taken away
(`exists_stretch`), and its tree is the one that was made but for these comments
(`relabel_eraseComments`).

In front, the rules pass trivia before they look at anything, so nothing changes when there is none.
Behind, they stop at the end of input where they had stopped at some other token before. The seam
between the two readings (`Seam.alone`) is put in front of the trivia at the end.

## Main results

* `Grammar.complete_of_stretch`: the tokens of an expression make it when they are read alone
* `Program.ofText_of_mem_nodes`: any expression can be cut out
-/

namespace NixSyntax

namespace Grammar

/-! ### The tokens of an expression

An expression stands on a word of significant tokens: it is known which they are, and where the
first begins and the last ends. From this the stretch of all tokens between the two is recovered,
trivia included. -/

/-- Tokens end with the last one that is no trivia, and with some trivia behind it. -/
theorem exists_append_isTrivia (ts : List Token) : ∃ ws vs, ts = ws ++ vs ∧
    (∀ t ∈ vs, t.isTrivia = true) ∧ ∀ t ∈ ws.getLast?, t.isTrivia = false := by
  induction ts using List.reverseRecOn with
  | nil => exact ⟨[], [], rfl, by simp, by simp⟩
  | append_singleton ts t ih =>
    cases ht : t.isTrivia with
    | false => exact ⟨ts ++ [t], [], by simp, by simp, by simpa using ht⟩
    | true =>
      obtain ⟨ws, vs, rfl, hvs, hws⟩ := ih
      refine ⟨ws, vs ++ [t], List.append_assoc _ _ _, ?_, hws⟩
      simpa [or_imp, forall_and] using ⟨hvs, ht⟩

/-- Trivia in front is passed. -/
theorem skipTrivia_append {ts : List Token} (h : ∀ t ∈ ts, t.isTrivia = true) (us : List Token) :
    skipTrivia (ts ++ us) = skipTrivia us := by
  induction ts with
  | nil => rfl
  | cons t ts ih =>
    obtain ⟨ht, hts⟩ := List.forall_mem_cons.mp h
    rw [List.cons_append, skipTrivia_cons_of_isTrivia _ ht, ih hts]

/-- The significant tokens in front of others are those that are no trivia, if the input does not
end among them. -/
theorem significant_append {ts : List Token} (h : ∀ t ∈ ts, t.isEnd = false) (us : List Token) :
    significant (ts ++ us) = ts.filter (fun t => !t.isTrivia) ++ significant us := by
  simp only [significant]
  rw [List.takeWhile_append_of_pos (by simpa using h), List.filter_append]

variable {us rest : List Token} {span : Span}

/-- The first and the last token are not among those that are left out. -/
theorem ends_of_filter {p : Token → Bool} {ws : List Token} (hhead : ∀ t ∈ ws.head?, p t = true)
    (hlast : ∀ t ∈ ws.getLast?, p t = true) (h : Ends (ws.filter p) span) : Ends ws span where
  start := by
    cases ws with
    | nil => exact h.start
    | cons t ws => simpa [hhead t rfl] using h.start
  stop := by
    rcases List.eq_nil_or_concat ws with rfl | ⟨ws, t, rfl⟩
    · exact h.stop
    · have ht : p t = true := hlast t (by simp)
      simpa [List.filter_append, ht] using h.stop

/-- What stands on a word stands on a stretch of tokens that begins and ends with the word. -/
theorem exists_stretch (hleaves : Leaves 0 (skipTrivia us) rest) (hrest : skipTrivia rest = rest)
    {v : List Token} (hv : Ends v span) (hus : significant us = v ++ significant rest) :
    ∃ ws tail, skipTrivia us = ws ++ tail ∧ skipTrivia tail = rest ∧
      (∀ t ∈ ws, t.isEnd = false) ∧ Ends ws span := by
  obtain ⟨front, hfront, -, hend⟩ := hleaves
  obtain ⟨ws, vs, rfl, hvs, hlast⟩ := exists_append_isTrivia front
  refine ⟨ws, vs ++ rest, by rw [hfront, List.append_assoc], by rw [skipTrivia_append hvs, hrest],
    fun t ht => hend t (List.mem_append_left _ ht), ?_⟩
  have hword : v = ws.filter fun t => !t.isTrivia := by
    have hnone : vs.filter (fun t => !t.isTrivia) = [] :=
      List.filter_eq_nil_iff.mpr fun t ht => by simp [hvs t ht]
    rw [← significant_skipTrivia, hfront, significant_append hend, List.filter_append, hnone,
      List.append_nil] at hus
    exact (List.append_cancel_right hus).symm
  refine ends_of_filter (fun t ht => ?_) (fun t ht => by simp [hlast t ht]) (hword ▸ hv)
  obtain ⟨ws, rfl⟩ := List.head?_eq_some_iff.mp ht
  have htrivia : t.isTrivia = false := not_isTrivia_of_skipTrivia hfront
  simp [htrivia]

/-! ### Reading them alone

The rules that made the expression are followed across the seam behind its last significant token.
On the far side there is the end of input alone. -/

/-- An operand with other comments in front of it and behind it. -/
theorem relabel_eraseComments (f : Position → Position) (o : Operand)
    (before after : List Comment) :
    Operand.relabel f eraseComments { o with before, after } = o.relabel f eraseComments := by
  obtain ⟨modifiers, before', after', term, span⟩ := o
  simp [Operand.relabel, eraseComments]

/-- **The tokens of an expression make it when they are read alone**, but for comments. -/
theorem complete_of_stretch {k : Nat} {ctx : Context} {mid ws ws' tail : List Token} {e : Expr}
    {first : Operand} (hfirst : operandUpTo k ctx us = .ok (first, mid))
    (hsame : e.first = { first with before := e.first.before, after := e.first.after })
    (hlinks : Rounds (link (operandUpTo k)) mid e.links rest) (hassembled : e.Assembled)
    (hchain : ctx = .chain ∨ e.links = []) (hws : skipTrivia us = ws ++ tail)
    (htail : skipTrivia tail = rest) {f : Position → Position} (hrelabel : ws = relabelTokens f ws')
    (stop : Position) :
    ∃ e', complete (operandUpTo k) (ws' ++ [⟨.endOfInput, .point stop⟩]) = .ok e' ∧
      e'.relabel f eraseComments = e.relabel id eraseComments := by
  have hadv := advances_operandUpTo k
  obtain ⟨before, hfirst⟩ := operandUpTo_skipTrivia hfirst
  rw [hws] at hfirst
  -- across the seam, the first operand and the links
  have hbefore : (Seam.alone false f tail stop rfl).Before (ws ++ tail) (ws' ++ _) :=
    Seam.before_alone stop rfl hrelabel
  have hrest : (Seam.alone false f tail stop rfl).Reaches rest := htail.symm ▸ le_rfl
  obtain ⟨first', mid', hfirst', hmid, hk⟩ := Seam.crosses_operandUpTo k _ ctx (.before hbefore)
    hfirst (hrest.of_leaves (hlinks.leaves (leaves_link hadv)))
  obtain ⟨links', rest', hlinks', hs, hks⟩ := (Seam.crosses_link
    (Seam.crosses_operandUpTo k)).rounds (leaves_link hadv) hmid hlinks hrest
  obtain rfl : rest' = [⟨.endOfInput, .point stop⟩] := by
    subst htail
    exact hs.eq_tail'
  have hlinks'' : repeated (link (operandUpTo k)) mid' =
      .ok (links', [⟨.endOfInput, .point stop⟩]) := by
    refine (repeated_eq_ok_iff (repeatable_link hadv)).mpr
      ⟨hlinks', link_eq_none_iff.mpr ⟨rfl, fun t us hts => ?_⟩⟩
    obtain ⟨rfl, -⟩ := List.cons.inj hts
    rfl
  -- no argument follows, so it does not matter where the operand stood
  have hchain' : operandUpTo k .chain (ws' ++ [⟨.endOfInput, .point stop⟩]) =
      .ok (first', mid') := by
    cases ctx with
    | chain => exact hfirst'
    | single =>
      obtain hnil : e.links = [] := by simpa using hchain
      obtain rfl : links' = [] := by simpa [hnil] using hks.symm
      cases hlinks'
      exact operandUpTo_chain hfirst' rfl
  refine ⟨assemble first' links', complete_eq_ok_iff.mpr ⟨_, expression_eq_ok_iff.mpr
    ⟨first', mid', hchain', links', hlinks'', rfl⟩, rfl⟩, ?_⟩
  have hfirsts : first'.relabel f eraseComments = e.first.relabel id eraseComments := by
    rw [hsame, relabel_eraseComments id first]
    exact hk.symm.trans (relabel_eraseComments id first before first.after)
  calc (assemble first' links').relabel f eraseComments
      = (assemble e.first e.links).relabel id eraseComments := by
        rw [relabel_assemble, relabel_assemble, hfirsts]
        exact congrArg (assemble _) hks.symm
    _ = e.relabel id eraseComments := by rw [hassembled]

/-- **An expression was made of some tokens in a row**, the first and the last of them significant,
and these make it when they are read alone. -/
theorem Made.exists_stretch {ts : List Token} {e : Expr} (h : Made ts (.expr e)) :
    ∃ lead ws tail, Inside (lead ++ (ws ++ tail)) ts ∧ (∀ t ∈ ws, t.isEnd = false) ∧
      Ends ws e.span ∧ ∀ f ws' stop, ws = relabelTokens f ws' →
        ∃ p, Program.ofTokens (ws' ++ [⟨.endOfInput, .point stop⟩]) = .ok p ∧
          p.body.relabel f eraseComments = e.relabel id eraseComments := by
  cases h with
  | @expr k ctx us mid rest _ first inside first_eq same links assembled chain =>
    -- the first operand and that of the tree differ in their comments only
    have hfirst : Finds e.first.standing us mid := by
      obtain ⟨v, hv, -, hus⟩ := locates_operandUpTo k first_eq
      refine ⟨v, ?_, hus⟩
      rw [same]
      obtain ⟨modifiers, before, after, term, span⟩ := first
      rw [Operand.standing] at hv ⊢
      exact hv
    have hjoined : e.Joined := by
      rw [← assembled]
      exact joined_assemble _ _
    obtain ⟨v, -, hv, hus⟩ :=
      locates_chain (fun _ _ _ _ => locates_operandUpTo k) hjoined hfirst links
    have hleaves : Leaves 0 (skipTrivia us) rest :=
      ((leaves_of_operandUpTo first_eq).trans
        (links.leaves (leaves_link (advances_operandUpTo k)))).mono (Nat.zero_le _)
    have hrest := skipTrivia_of_links links (skipTrivia_of_operandUpTo first_eq)
    obtain ⟨ws, tail, hws, htail, hend, hends⟩ := Grammar.exists_stretch hleaves hrest hv hus
    refine ⟨us.takeWhile Token.isTrivia, ws, tail, ?_, hend, hends, fun f ws' stop hrelabel => ?_⟩
    · rw [← hws]
      exact List.takeWhile_append_dropWhile ▸ inside
    · obtain ⟨e', he', hk⟩ := complete_of_stretch first_eq same links assembled chain hws htail
        hrelabel stop
      exact ⟨⟨e', e'.span⟩, Program.ofTokens_eq_ok_iff.mpr
        ⟨e', complete_operandUpTo le_rfl he', rfl⟩, hk⟩

end Grammar

namespace Lexical

variable {c d e : Cursor} {t : Token} {ts us : List Token} {span : Span}

/-! ### Tokens in a row

What stands in a row in the text stands in a row from the place behind the blanks, so the piece may
begin with its first token. -/

/-- What is left of some tokens, or of those of an interpolation in them, stands in a row. -/
theorem Run.of_inside (h : Run c ts d) (hus : Grammar.Inside us ts) :
    ∃ a b, c.Reaches a ∧ Run a us b := by
  induction hus generalizing c d with
  | refl => exact ⟨c, d, .refl c, h⟩
  | behind _ ih =>
    cases h with
    | cons head tail =>
      obtain ⟨a, b, ha, hrun⟩ := ih tail
      exact ⟨a, b, head.reaches.trans ha, hrun⟩
  | within mem _ ih =>
    cases h with
    | cons head tail =>
      obtain ⟨a, b, ha, henc, -, -⟩ := head.stands.of_mem_interpolations _ mem
      obtain ⟨mid, close, hrun, -, -⟩ := henc.closes
      obtain ⟨a', b', ha', hrun'⟩ := ih hrun
      have hinside := (passes_opening henc.opens).reaches.trans ha'
      exact ⟨a', b', (passes_skipBlanks c).reaches.trans (ha.trans hinside), hrun'⟩

/-- The place of tokens in a row, from the first to the last. -/
theorem Run.span_eq (h : Run c ts d) (hts : Ends ts span) : span = ⟨c.skipBlanks.pos, d.pos⟩ := by
  have hstart : span.start = c.skipBlanks.pos := by
    cases h with
    | nil => cases hts.start
    | cons head _ =>
      obtain ⟨_, -, hspan, -⟩ := head.stands.passes
      have hstart := hts.start
      simp only [List.head?_cons, Option.map_some, hspan, Option.some.injEq] at hstart
      exact hstart.symm
  have hstop : span.stop = d.pos := by
    rcases List.eq_nil_or_concat ts with rfl | ⟨ts, t, rfl⟩
    · cases hts.stop
    · rw [List.concat_eq_append] at h hts
      obtain ⟨a, -, hlast⟩ := h.split
      cases hlast with
      | cons head tail =>
        cases tail
        obtain ⟨_, -, hspan, -⟩ := head.stands.passes
        have hstop := hts.stop
        simp only [List.getLast?_concat, Option.map_some, hspan, Option.some.injEq] at hstop
        exact hstop.symm
  rw [← hstart, ← hstop]

theorem blanks_blanks (cs : List Char) :
    blanks (blanks cs).rest = ⟨(), [], (blanks cs).rest⟩ := by
  fun_induction blanks cs with
  | case1 => rfl
  | case2 c cs _ l ih => exact ih
  | case3 c cs h => rw [blanks, if_neg h]

theorem skipBlanks_skipBlanks (c : Cursor) : c.skipBlanks.skipBlanks = c.skipBlanks := by
  have hblanks := blanks_blanks c.rest
  simp [Cursor.skipBlanks, Cursor.past, hblanks]

/-- The blanks in front of a token need not be read. -/
theorem Reads.skipBlanks (h : Reads c t d) : Reads c.skipBlanks t d := by
  obtain ⟨n, hn, h⟩ := h
  have hblanks := (passes_skipBlanks c).reaches.length_rest_le
  refine ⟨n, hblanks.trans hn, ?_⟩
  cases n with
  | zero =>
    rwa [skipBlanks_of_rest_eq_nil (List.eq_nil_of_length_eq_zero (Nat.le_zero.mp hn))]
  | succ n => rwa [token, skipBlanks_skipBlanks]

/-- Tokens in a row may be read from behind the blanks in front of the first. -/
theorem Run.skipBlanks (h : Run c ts d) (hts : ts ≠ []) : Run c.skipBlanks ts d := by
  cases h with
  | nil => exact absurd rfl hts
  | cons head tail => exact .cons head.skipBlanks tail

/-- A piece does not begin with a byte order mark, which would be skipped at its front. -/
theorem Run.ne_byteOrderMark (h : Run c ts d) (hts : ts ≠ []) {ch : Char} {cs : List Char}
    (hcs : c.rest = ch :: cs) : ch ≠ Cursor.byteOrderMark := by
  cases h with
  | nil => exact absurd rfl hts
  | cons head _ => exact head.ne_byteOrderMark hcs

end Lexical

/-- Lines and columns count from one. -/
theorem Cursor.IsIn.one_le {source : String} {c : Cursor} (h : c.IsIn source) :
    1 ≤ c.pos.line ∧ 1 ≤ c.pos.column := by
  obtain ⟨front, -, hat⟩ := h.exists_at
  exact ⟨hat.line ▸ Nat.le_add_right 1 _, hat.column ▸ Nat.le_add_right 1 _⟩

namespace Program

variable {source : String} {p : Program}

/-- The tokens of a text that is a program stand in a row. -/
theorem exists_run {ts : List Token} (h : tokenize source = .ok ts) :
    ∃ d, Lexical.Run (Cursor.ofText source.toList) ts d := by
  obtain ⟨body, d, e, last, rfl, hrun, hlast, -, -⟩ := Lexical.run_of_tokenize h
  exact ⟨e, hrun.append (.cons hlast (.nil e))⟩

/-- **Any expression can be cut out.** The text under the span of an expression of a program is a
program, and this is the expression, at translated positions and but for comments. -/
theorem ofText_of_mem_nodes {e : Expr} (h : ofText source = .ok p) (he : .expr e ∈ p.body.nodes) :
    ∃ text p', IsSlice source e.span.start.offset e.span.stop.offset text ∧
      ofText (String.ofList text) = .ok p' ∧
      p'.body.relabel e.span.start.translate eraseComments = e.relabel id eraseComments := by
  obtain ⟨ts, htokens, hp⟩ := ofText_eq_ok_iff.mp h
  obtain ⟨d, hrun⟩ := exists_run htokens
  obtain ⟨lead, ws, tail, hinside, hend, hends, hread⟩ :=
    (made_of_mem_nodes hp he).exists_stretch
  -- where the tokens of the expression stand
  obtain ⟨a, b, ha, hrun⟩ := hrun.of_inside hinside
  obtain ⟨c, hlead, hrun⟩ := hrun.split
  obtain ⟨m, hrun, -⟩ := hrun.split
  rw [hrun.span_eq hends]
  have hne : ws ≠ [] := by
    rintro rfl
    cases hends.start
  have hrun := hrun.skipBlanks hne
  have hc : c.skipBlanks.IsIn source :=
    (ha.trans hlead.reaches).trans (Lexical.passes_skipBlanks c).reaches
  obtain ⟨text, htext⟩ := hrun.reaches
  -- they are the tokens of the piece, and make the expression
  obtain ⟨ws', stop, htokens', hrelabel, -⟩ := Lexical.tokenize_of_passes hc.one_le.1 hc.one_le.2
    htext hrun hend (.inl rfl) fun _ _ => hrun.ne_byteOrderMark hne
  obtain ⟨p', hp', hk⟩ := hread _ ws' stop hrelabel
  exact ⟨text, p', hc.isSlice htext, ofText_eq_ok_iff.mpr ⟨_, htokens', hp'⟩, hk⟩

/-- The item of the list in `commentedList_eq`, on the second line. -/
def commentedItem : Operand :=
  ⟨[], [⟨" c", false, onFirstLine 2 5⟩], [],
    .name ⟨[.name "f"], [], ⟨⟨2, 2, 7⟩, ⟨2, 3, 8⟩⟩⟩, ⟨⟨2, 2, 7⟩, ⟨2, 3, 8⟩⟩⟩

/-- A list of one item with a comment in front of it. -/
def commentedList : Operand :=
  ⟨[], [], [], .list [.operand commentedItem] [] ⟨⟨1, 1, 0⟩, ⟨2, 4, 9⟩⟩, ⟨⟨1, 1, 0⟩, ⟨2, 4, 9⟩⟩⟩

theorem commentedList_eq :
    ofText "[ # c\n f]" = .ok ⟨.operand commentedList, ⟨⟨1, 1, 0⟩, ⟨2, 4, 9⟩⟩⟩ :=
  ofText_eq_ok_iff.mpr
    ⟨[⟨.symbol .openBracket, onFirstLine 0 1⟩, ⟨.comment " c" false, onFirstLine 2 5⟩,
        ⟨.newline, ⟨⟨1, 6, 5⟩, ⟨2, 1, 6⟩⟩⟩, ⟨.identifier "f", ⟨⟨2, 2, 7⟩, ⟨2, 3, 8⟩⟩⟩,
        ⟨.symbol .closeBracket, ⟨⟨2, 3, 8⟩, ⟨2, 4, 9⟩⟩⟩, ⟨.endOfInput, .point ⟨2, 4, 9⟩⟩],
      rfl, rfl⟩

/-- The name in the list is read alone, without the comment and at the front of a text. -/
theorem ofText_of_mem_nodes_commentedItem :
    .expr (.operand commentedItem) ∈ (Expr.operand commentedList).nodes ∧
    ∃ text p', IsSlice "[ # c\n f]" 7 8 text ∧ ofText (String.ofList text) = .ok p' ∧
      p'.body.relabel (Position.translate ⟨2, 2, 7⟩) eraseComments =
        (Expr.operand commentedItem).relabel id eraseComments := by
  have hmem : .expr (.operand commentedItem) ∈ (Expr.operand commentedList).nodes := by
    simp [Expr.nodes, commentedList, Operand.nodes, modifiersNodes, Term.nodes, exprsNodes]
  exact ⟨hmem, ofText_of_mem_nodes commentedList_eq hmem⟩

end Program

end NixSyntax
