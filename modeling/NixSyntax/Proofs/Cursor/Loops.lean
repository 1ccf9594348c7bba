import NixSyntax.Proofs.Reading.Progress

/-!
# Loops that are put together in another way

Most loops of the grammar are repetitions of a rule. Two are not written so: the one in front of a
term, and the one between the braces of a pattern. Here both are given rounds.

## In front of a term

In front of its term an operand takes clauses and comments, in any order. The grammar reads them in
one loop, whose rounds are clauses with the comments in front of each. They can be read in two loops
as well, one inside the other: the inner one takes clauses and passes over line breaks only, and
the outer one takes what the inner one takes and then the comments behind it, until it has found
neither. Both ways take the same clauses and the same comments, and fail alike, so it does not
matter for an operand which of them is used.

## In a pattern

A round takes one attribute, with the comma behind it if there is one. The grammar has a bound for
the attributes, since it has one for every recursion. The bound is never felt.

## Main definitions

* `modifierRound`, `frontRound`: the rounds of the inner and of the outer loop in front of a term
* `front`: the two loops
* `clauses`: the one loop, with what it finds put together
* `patternRound`: an attribute of a pattern, with its comma

## Main results

* `front_eq`: the two loops and the one loop are the same rule
* `operandWith_eq`: an operand that begins with the two loops
* `patternBody_eq`: a pattern, round by round
* `leaves_modifierRound`, `leaves_frontRound`, `leaves_patternRound`: a round that does not end its
  loop takes a token
-/

namespace NixSyntax

namespace Grammar

variable {α : Type} {ts mid rest : List Token}

/-! ### Trivia

The inner loop passes over line breaks only, and leaves comments to the outer one. Between them they
pass over what the one loop passes over at once. -/

/-- Line breaks are passed over with the other trivia, and there are no comments among them. -/
theorem trivia_skipNewlines (ts : List Token) :
    skipTrivia (skipNewlines ts) = skipTrivia ts ∧
      commentsAhead (skipNewlines ts) = commentsAhead ts := by
  induction ts with
  | nil => exact ⟨rfl, rfl⟩
  | cons t ts ih =>
    cases ht : t.isNewline with
    | false =>
      have hskip : skipNewlines (t :: ts) = t :: ts := by simp [skipNewlines, ht]
      rw [hskip]
      exact ⟨rfl, rfl⟩
    | true =>
      obtain ⟨kind, span⟩ := t
      obtain rfl : kind = .newline := by
        cases kind <;> first | rfl | cases ht
      exact ih

/-- Where there are comments to be taken, there is a token to be passed. -/
theorem leaves_skipTrivia_of_commentsAhead (h : commentsAhead ts ≠ []) :
    Leaves 1 ts (skipTrivia ts) := by
  cases ts with
  | nil => exact absurd rfl h
  | cons t us =>
    cases ht : t.isTrivia with
    | false => exact absurd (by simp [commentsAhead, ht]) h
    | true =>
      rw [skipTrivia_cons_of_isTrivia us ht]
      exact leaves_skipTrivia.cons (Token.isEnd_of_isTrivia ht)

/-- Behind the line breaks, tokens without comments are no trivia at all. -/
theorem skipTrivia_skipNewlines (h : commentsAhead (skipNewlines ts) = []) :
    skipTrivia (skipNewlines ts) = skipNewlines ts := by
  cases hts : skipNewlines ts with
  | nil => rfl
  | cons t us =>
    refine skipTrivia_cons_of_not_isTrivia us ?_
    have hnewline : t.isNewline = false := by
      have := List.head?_dropWhile_not Token.isNewline ts
      rw [show ts.dropWhile Token.isNewline = t :: us from hts] at this
      simpa using this
    rw [hts] at h
    obtain ⟨kind, span⟩ := t
    cases kind with
    | newline => cases hnewline
    | comment text block => cases h
    | _ => rfl

/-! ### The loops in front of a term

The inner loop reads clauses, the outer one reads what the inner one has read and the comments
behind it. The third rule, `clauses`, is how the grammar has it: one loop, with the comments in
front of each clause. -/

section

variable (operand : Context → Rule Operand)

/-- A clause, behind line breaks. -/
def modifierRound : Rule (Option Modifier) := fun ts =>
  match skipNewlines ts with
  | ⟨.keyword k, start⟩ :: rest =>
    match clauseKind? k with
    | some kind => do
      let (subject, rest) ← expression operand rest
      let (stop, rest) ← expectSymbol .semicolon rest
      return (some ⟨kind, subject, start.join stop⟩, rest)
    | none => .ok (none, skipNewlines ts)
  | _ => .ok (none, skipNewlines ts)

/-- Some clauses and the comments behind them, unless there are neither. -/
def frontRound : Rule (Option (List Modifier × List Comment)) := fun ts => do
  let (found, ts) ← repeated (modifierRound operand) ts
  if found.isEmpty && (commentsAhead ts).isEmpty then return (none, skipTrivia ts)
  else return (some (found, commentsAhead ts), skipTrivia ts)

/-- All clauses and comments in front of a term, by two loops. -/
def front : Rule (List Modifier × List Comment) := fun ts => do
  let (found, ts) ← repeated (frontRound operand) ts
  return ((found.flatMap (·.1), found.flatMap (·.2)), ts)

/-- All clauses and comments in front of a term, by one loop. -/
def clauses : Rule (List Modifier × List Comment) := fun ts => do
  let (found, ts) ← repeated (clause operand) ts
  return ((found.map (·.2), found.flatMap (·.1) ++ commentsAhead ts), skipTrivia ts)

end

/-- More clauses and comments in front of those that a rule has found. -/
def prepend (modifiers : List Modifier) (before : List Comment)
    (x : Except Stuck ((List Modifier × List Comment) × List Token)) :
    Except Stuck ((List Modifier × List Comment) × List Token) :=
  x.map fun found => ((modifiers ++ found.1.1, before ++ found.1.2), found.2)

theorem prepend_prepend (ms ms' : List Modifier) (cs cs' : List Comment)
    (x : Except Stuck ((List Modifier × List Comment) × List Token)) :
    prepend ms cs (prepend ms' cs' x) = prepend (ms ++ ms') (cs ++ cs') x := by
  cases x with
  | error s => rfl
  | ok found => simp [prepend, Except.map]

variable {operand : Context → Rule Operand} (hop : Advances operand)
include hop

/-! ### Rounds take tokens

A loop whose rounds take tokens comes to its end, and its bound can be left out of what is said
about it. -/

/-- A round of the inner loop takes the keyword of its clause. -/
theorem leaves_modifierRound {m : Modifier} (h : modifierRound operand ts = .ok (some m, rest)) :
    Leaves 1 ts rest := by
  rw [modifierRound] at h
  split at h
  · rename_i k start us hskip
    split at h
    · simp only [bind_eq_ok_iff, pure_eq_ok_iff, Prod.exists, Prod.mk.injEq] at h
      obtain ⟨subject, mid, he, stop, rest', hstop, -, rfl⟩ := h
      have hskip' := skipTrivia_of_skipNewlines rfl hskip
      have hclause := (leaves_expression hop he).trans (leaves_expectSymbol hstop)
      exact (leaves_of_skipTrivia rfl hskip' hclause).mono (by omega)
    · cases h
  · cases h

theorem length_modifierRound {m : Modifier} (h : modifierRound operand ts = .ok (some m, rest)) :
    rest.length < ts.length := by
  have := (leaves_modifierRound hop h).length_le
  omega

omit hop in
/-- The inner loop stops behind line breaks, where no clause begins. -/
theorem modifierRound_eq_none (h : modifierRound operand ts = .ok (none, rest)) :
    rest = skipNewlines ts ∧
      ∀ k start us, rest = ⟨.keyword k, start⟩ :: us → clauseKind? k = none := by
  rw [modifierRound] at h
  split at h
  · rename_i k start us hskip
    split at h
    · simp [bind_eq_ok_iff, pure_eq_ok_iff, -bind_pure_comp] at h
    · rename_i hkind
      cases h
      refine ⟨rfl, fun k' start' us' heq => ?_⟩
      rw [hskip] at heq
      cases heq
      exact hkind
  · rename_i hskip
    cases h
    exact ⟨rfl, fun k start us heq => absurd heq (hskip k start us)⟩

omit hop in
/-- Rounds take as many tokens as there are of them, at least. -/
theorem leaves_rounds {round : Rule (Option α)} {as : List α} {n : Nat}
    (hstop : ∀ {ts rest}, round ts = .ok (none, rest) → Leaves 0 ts rest)
    (hleaves : ∀ {ts a rest}, round ts = .ok (some a, rest) → Leaves 1 ts rest)
    (h : rounds round n ts = .ok (as, rest)) : Leaves as.length ts rest := by
  induction n generalizing ts as with
  | zero =>
    obtain ⟨rfl, rfl⟩ : [] = as ∧ ts = rest := by simpa [rounds] using h
    exact .refl _
  | succ n ih =>
    rcases rounds_succ_eq_ok_iff.mp h with ⟨hround, rfl⟩ | ⟨a, mid, as', hround, htail, rfl⟩
    · exact hstop hround
    · exact ((hleaves hround).trans (ih htail)).mono (by rw [List.length_cons]; omega)

omit hop in
theorem leaves_modifierRound_none (h : modifierRound operand ts = .ok (none, rest)) :
    Leaves 0 ts rest := by
  rw [(modifierRound_eq_none h).1]
  exact leaves_skipNewlines

theorem leaves_modifierRounds {ms : List Modifier}
    (h : repeated (modifierRound operand) ts = .ok (ms, rest)) : Leaves ms.length ts rest :=
  leaves_rounds leaves_modifierRound_none (leaves_modifierRound hop) h

theorem leaves_frontRound_none (h : frontRound operand ts = .ok (none, rest)) :
    Leaves 0 ts rest := by
  obtain ⟨⟨ms, mid⟩, hms, h⟩ := bind_eq_ok_iff.mp h
  dsimp only at h
  split at h
  · cases h
    exact ((leaves_modifierRounds hop hms).trans leaves_skipTrivia).mono (Nat.zero_le _)
  · cases h

/-- A round of the outer loop takes a clause or a comment, since it ends the loop otherwise. -/
theorem leaves_frontRound {found : List Modifier × List Comment}
    (h : frontRound operand ts = .ok (some found, rest)) : Leaves 1 ts rest := by
  obtain ⟨⟨ms, mid⟩, hms, h⟩ := bind_eq_ok_iff.mp h
  have hmid := leaves_modifierRounds hop hms
  dsimp only at h
  split at h
  · cases h
  · rename_i hfound
    obtain ⟨-, rfl⟩ := Prod.mk.inj (pure_eq_ok_iff.mp h)
    cases ms with
    | cons m ms => exact (hmid.trans leaves_skipTrivia).mono (by rw [List.length_cons]; omega)
    | nil =>
      have hcomments : commentsAhead mid ≠ [] := by simpa using hfound
      exact (hmid.trans (leaves_skipTrivia_of_commentsAhead hcomments)).mono (by omega)

theorem length_frontRound {found : List Modifier × List Comment}
    (h : frontRound operand ts = .ok (some found, rest)) : rest.length < ts.length := by
  have := (leaves_frontRound hop h).length_le
  omega

/-! ### The two loops and the one

Both ways are unrolled by one round and compared. The inner loop takes clauses up to the first
comment, and the one loop takes that comment with the clause behind it. What they put together is
the same in the end, because comments and clauses are kept apart. -/

/-- The one loop, round by round. -/
theorem clauses_eq (ts : List Token) :
    clauses operand ts = (clause operand ts >>= fun found =>
      match found with
      | (none, _) => .ok (([], commentsAhead ts), skipTrivia ts)
      | (some c, rest) => prepend [c.2] c.1 (clauses operand rest)) := by
  have hr := repeatable_clause hop
  rw [clauses, repeated_eq hr.nil hr.shrinks]
  cases hround : clause operand ts with
  | error s => rfl
  | ok found =>
    obtain ⟨_ | c, rest⟩ := found
    · rw [hr.stop hround]
      rfl
    · change (repeated (clause operand) rest >>= _) >>= _ = prepend _ _ (clauses operand rest)
      rw [clauses]
      cases repeated (clause operand) rest with
      | error s => rfl
      | ok found => simp [prepend, bind, Except.bind, pure, Except.pure, Except.map]

omit hop in
/-- A clause without the comments in front of it is the same clause. -/
theorem clause_skipTrivia (ts : List Token) :
    clause operand ts = (clause operand (skipTrivia ts)).map fun found =>
      match found with
      | (none, _) => (none, ts)
      | (some c, rest) => (some (commentsAhead ts, c.2), rest) := by
  rw [clause, clause, skipTrivia_skipTrivia]
  split
  · rename_i us _
    split
    · cases expression operand us with
      | error s => rfl
      | ok read =>
        obtain ⟨subject, mid⟩ := read
        change (expectSymbol .semicolon mid >>= _) =
          Except.map _ (expectSymbol .semicolon mid >>= _)
        cases expectSymbol .semicolon mid <;> rfl
    · rfl
  · rfl

/-- The comments in front of a clause, or in front of the term, are found first. -/
theorem clauses_skipTrivia (ts : List Token) :
    clauses operand ts = prepend [] (commentsAhead ts) (clauses operand (skipTrivia ts)) := by
  rw [clauses_eq hop, clauses_eq hop (skipTrivia ts), clause_skipTrivia, skipTrivia_skipTrivia,
    commentsAhead_skipTrivia]
  cases hclause : clause operand (skipTrivia ts) with
  | error s => rfl
  | ok found =>
    obtain ⟨_ | ⟨cs, m⟩, rest⟩ := found
    · change _ = prepend [] (commentsAhead ts) (.ok (([], []), skipTrivia ts))
      simp [prepend, bind, Except.bind, Except.map]
    · have hcs : cs = [] := by
        have hcs := commentsAhead_skipTrivia ts
        obtain ⟨k, start, us, kind, -, -, subject, mid, -, stop, -, rfl, -⟩ :=
          clause_eq_some_iff.mp hclause
        exact hcs
      subst hcs
      change prepend [m] (commentsAhead ts) (clauses operand rest) =
        prepend [] (commentsAhead ts) (prepend [m] [] (clauses operand rest))
      rw [prepend_prepend, List.nil_append, List.append_nil]

omit hop in
/-- The inner loop stops, or its next round takes the clause that the one loop takes. -/
theorem modifierRound_cases (operand : Context → Rule Operand) (ts : List Token) :
    modifierRound operand ts = .ok (none, skipNewlines ts) ∨
      clause operand ts = (modifierRound operand ts).map fun r => (r.1.map ([], ·), r.2) := by
  rw [modifierRound]
  split
  · rename_i k start us hskip
    split
    · rename_i kind hkind
      refine .inr ?_
      -- behind line breaks only, there are no comments for the clause to take
      have hcomments : commentsAhead ts = [] := by
        rw [← (trivia_skipNewlines ts).2, hskip]
        rfl
      rw [clause, skipTrivia_of_skipNewlines rfl hskip]
      dsimp only
      rw [hkind, hcomments]
      cases expression operand us with
      | error s => rfl
      | ok read =>
        obtain ⟨subject, mid⟩ := read
        change (expectSymbol .semicolon mid >>= _) =
          Except.map _ (expectSymbol .semicolon mid >>= _)
        cases expectSymbol .semicolon mid <;> rfl
    · exact .inl rfl
  · exact .inl rfl

/-- The inner loop takes the first of the clauses. -/
theorem clauses_eq_repeated (ts : List Token) :
    clauses operand ts = (repeated (modifierRound operand) ts >>= fun found =>
      prepend found.1 (commentsAhead found.2) (clauses operand (skipTrivia found.2))) := by
  induction hn : ts.length using Nat.strong_induction_on generalizing ts with
  | _ n ih =>
    subst hn
    rw [repeated_eq rfl (length_modifierRound hop)]
    -- the two loops differ only where a round finds no clause
    cases hround : modifierRound operand ts with
    | error s =>
      obtain hstop | hclause := modifierRound_cases operand ts
      · rw [hround] at hstop
        cases hstop
      · rw [clauses_eq hop, hclause, hround]
        rfl
    | ok found =>
      obtain ⟨_ | m, mid⟩ := found
      · obtain rfl := (modifierRound_eq_none hround).1
        obtain ⟨hskip, hcomments⟩ := trivia_skipNewlines ts
        change _ = prepend [] (commentsAhead (skipNewlines ts))
          (clauses operand (skipTrivia (skipNewlines ts)))
        rw [hskip, hcomments, ← clauses_skipTrivia hop]
      · obtain hstop | hclause := modifierRound_cases operand ts
        · rw [hround] at hstop
          cases hstop
        · rw [clauses_eq hop, hclause, hround]
          change prepend [m] [] (clauses operand mid) =
            ((repeated (modifierRound operand) mid >>= _) >>= _)
          rw [ih mid.length (length_modifierRound hop hround) mid rfl]
          cases repeated (modifierRound operand) mid with
          | error s => rfl
          | ok read => exact prepend_prepend [m] read.1 [] (commentsAhead read.2) _

/-- The outer loop, round by round. -/
theorem front_eq_bind (ts : List Token) :
    front operand ts = (frontRound operand ts >>= fun found =>
      match found with
      | (none, rest) => .ok (([], []), rest)
      | (some f, rest) => prepend f.1 f.2 (front operand rest)) := by
  rw [front, repeated_eq rfl (length_frontRound hop)]
  cases frontRound operand ts with
  | error s => rfl
  | ok found =>
    obtain ⟨_ | f, rest⟩ := found
    · rfl
    · change (repeated (frontRound operand) rest >>= _) >>= _ = prepend _ _ (front operand rest)
      rw [front]
      cases repeated (frontRound operand) rest <;> rfl

/-- Where the inner loop takes nothing and no comment is next, no clause is. -/
theorem clauses_of_repeated_eq_nil (h : repeated (modifierRound operand) ts = .ok ([], mid))
    (hcomments : commentsAhead mid = []) :
    clauses operand (skipTrivia mid) = .ok (([], []), skipTrivia mid) := by
  have hround : modifierRound operand ts = .ok (none, mid) := by
    rw [← rounds_eq_repeated rfl (length_modifierRound hop) (Nat.le_succ _)] at h
    rcases rounds_succ_eq_ok_iff.mp h with ⟨hround, -⟩ | ⟨_, _, _, -, -, h⟩
    · exact hround
    · cases h
  obtain ⟨rfl, hkind⟩ := modifierRound_eq_none hround
  have hclause : clause operand (skipTrivia (skipNewlines ts)) =
      .ok (none, skipTrivia (skipNewlines ts)) := by
    refine clause_eq_none_iff.mpr ⟨rfl, fun k start us hskip => ?_⟩
    rw [skipTrivia_skipTrivia, skipTrivia_skipNewlines hcomments] at hskip
    exact hkind k start us hskip
  rw [clauses_eq hop, hclause]
  simp [bind, Except.bind]

/-- **The two loops and the one loop are the same rule.** They take the same clauses, comments and
tokens, and fail alike. -/
theorem front_eq (ts : List Token) : front operand ts = clauses operand ts := by
  induction hn : ts.length using Nat.strong_induction_on generalizing ts with
  | _ n ih =>
    subst hn
    rw [front_eq_bind hop, clauses_eq_repeated hop]
    cases hfirst : repeated (modifierRound operand) ts with
    | error s =>
      rw [frontRound, hfirst]
      rfl
    | ok read =>
      obtain ⟨ms, mid⟩ := read
      -- a round without clauses and comments is the last one
      cases hempty : ms.isEmpty && (commentsAhead mid).isEmpty with
      | true =>
        obtain ⟨rfl, hcomments⟩ : ms = [] ∧ commentsAhead mid = [] := by simpa using hempty
        have hround : frontRound operand ts = .ok (none, skipTrivia mid) := by
          rw [frontRound, hfirst]
          change (if _ then _ else _) = _
          rw [if_pos hempty]
          rfl
        rw [hround]
        change _ = prepend [] (commentsAhead mid) (clauses operand (skipTrivia mid))
        rw [clauses_of_repeated_eq_nil hop hfirst hcomments, hcomments]
        rfl
      | false =>
        have hround : frontRound operand ts =
            .ok (some (ms, commentsAhead mid), skipTrivia mid) := by
          rw [frontRound, hfirst]
          change (if _ then _ else _) = _
          rw [if_neg (by simp [hempty])]
          rfl
        rw [hround]
        change prepend ms (commentsAhead mid) (front operand (skipTrivia mid)) = _
        rw [ih _ (length_frontRound hop hround) _ rfl]
        rfl

/-- An operand begins with the two loops, or with the one. -/
theorem operandWith_eq (ctx : Context) (ts : List Token) :
    operandWith operand ctx ts = (do
      let ((modifiers, before), ts) ← front operand ts
      let (term, rest) ← termIn operand ctx ts
      let (term, rest) ←
        if ctx = .chain && term.isCallable then applied operand term rest else pure (term, rest)
      return (⟨modifiers, before, commentsAhead rest, term, operandSpan modifiers term⟩,
        skipTrivia rest)) := by
  rw [front_eq hop, operandWith, clauses]
  cases repeated (clause operand) ts <;> rfl

/-! ### The loop in a pattern

The bound for the attributes of a pattern is the number of tokens. Each attribute takes at least
one, so every bound that is as large gives the same (`patternBodyUpTo_eq`). -/

/-- The comma behind an attribute of a pattern. Without a comma, the pattern must end. -/
def separated (f : Formal) : List Token → Except Stuck (Option Formal × List Token)
  | ⟨.symbol .comma, _⟩ :: rest => .ok (some f, rest)
  | ⟨.symbol .closeBrace, span⟩ :: rest => .ok (some f, ⟨.symbol .closeBrace, span⟩ :: rest)
  | rest => refuse .expectedSeparator rest

/-- An attribute of a pattern, with the comma behind it, unless the pattern ends. -/
def patternRound (operand : Context → Rule Operand) : Rule (Option Formal) := fun ts =>
  match skipTrivia ts with
  | ⟨.symbol .closeBrace, _⟩ :: _ => .ok (none, ts)
  | ⟨.symbol .ellipsis, _⟩ :: _ => .ok (none, ts)
  | inner => do
    let (f, rest) ← formal operand (commentsAhead ts) inner
    separated f rest

/-- The end of a pattern: its closing brace, perhaps with an ellipsis in front of it. -/
def patternStop : Rule PatternBody := fun ts =>
  match skipTrivia ts with
  | ⟨.symbol .closeBrace, span⟩ :: rest =>
    .ok (⟨[], false, commentsAhead ts⟩, ⟨.symbol .closeBrace, span⟩ :: rest)
  | ⟨.symbol .ellipsis, _⟩ :: rest =>
    .ok (⟨[], true, commentsAhead ts ++ commentsAhead rest⟩, skipTrivia rest)
  | rest => refuse .expectedName rest

/-- What stands between the braces of a pattern behind a round, if `more` reads it where the round
has not ended the loop. -/
def patternBehind (more : Rule PatternBody) :
    Option Formal × List Token → Except Stuck (PatternBody × List Token)
  | (none, ts) => patternStop ts
  | (some f, ts) => do
    let (body, ts) ← more ts
    return ({ body with formals := f :: body.formals }, ts)

omit hop in
theorem leaves_separated {f f' : Formal} (h : separated f ts = .ok (some f', rest)) :
    Leaves 0 ts rest := by
  unfold separated at h
  split at h
  · cases h
    exact ((Leaves.refl _).cons rfl).mono (by omega)
  · cases h
    exact .refl _
  · cases h

/-- A round of a pattern takes the name of its attribute. -/
theorem leaves_patternRound {f : Formal} (h : patternRound operand ts = .ok (some f, rest)) :
    Leaves 1 ts rest := by
  rw [patternRound] at h
  split at h
  · cases h
  · cases h
  · obtain ⟨⟨f', mid⟩, hf, h⟩ := bind_eq_ok_iff.mp h
    exact (leaves_skipTrivia.trans ((leaves_formal hop hf).trans (leaves_separated h))).mono
      (by omega)

omit hop in
theorem patternRound_eq_none (h : patternRound operand ts = .ok (none, rest)) : rest = ts := by
  rw [patternRound] at h
  split at h
  · cases h
    rfl
  · cases h
    rfl
  · obtain ⟨⟨f', mid⟩, hf, h⟩ := bind_eq_ok_iff.mp h
    dsimp only [separated] at h
    split at h <;> cases h

omit hop in
/-- Where a pattern does not end, a round reads an attribute and what separates it from the next. -/
theorem patternRound_of_formal
    (hclose : ∀ span us, skipTrivia ts ≠ ⟨.symbol .closeBrace, span⟩ :: us)
    (hellipsis : ∀ span us, skipTrivia ts ≠ ⟨.symbol .ellipsis, span⟩ :: us) :
    patternRound operand ts =
      formal operand (commentsAhead ts) (skipTrivia ts) >>= fun r => separated r.1 r.2 := by
  rw [patternRound]
  split
  · exact absurd ‹_› (hclose _ _)
  · exact absurd ‹_› (hellipsis _ _)
  · rfl

/-- A round of a pattern, and the rest of it with a bound that is lower by one. -/
theorem patternBodyUpTo_succ {n : Nat} (hn : ts.length ≤ n + 1) :
    patternBodyUpTo operand (n + 1) ts =
      patternRound operand ts >>= patternBehind (patternBodyUpTo operand n) := by
  rw [patternBodyUpTo]
  split
  · rename_i span us hskip
    have hround : patternRound operand ts = .ok (none, ts) := by rw [patternRound, hskip]
    rw [hround]
    change _ = patternStop ts
    rw [patternStop, hskip]
  · rename_i span us hskip
    have hround : patternRound operand ts = .ok (none, ts) := by rw [patternRound, hskip]
    rw [hround]
    change _ = patternStop ts
    rw [patternStop, hskip]
  · rename_i hclose hellipsis
    rw [patternRound_of_formal hclose hellipsis]
    cases hf : formal operand (commentsAhead ts) (skipTrivia ts) with
    | error s => rfl
    | ok found =>
      obtain ⟨f, mid⟩ := found
      have hlt := (leaves_skipTrivia.trans (leaves_formal hop hf)).length_le
      change _ = separated f mid >>= _
      dsimp only [bind, Except.bind]
      split
      · rfl
      · rename_i span us
        rw [List.length_cons] at hlt
        -- behind a comma the bound is not used up, since the formal has taken a token
        obtain ⟨n, rfl⟩ : ∃ m, n = m + 1 := ⟨n - 1, by omega⟩
        rfl
      · rename_i hcomma hclose
        rw [separated.eq_3 f mid hcomma hclose]
        rfl

/-- Behind a round it only matters how fewer tokens are read. -/
theorem patternRound_bind_congr {more more' : Rule PatternBody}
    (hmore : ∀ mid, mid.length < ts.length → more mid = more' mid) :
    patternRound operand ts >>= patternBehind more =
      patternRound operand ts >>= patternBehind more' := by
  cases hround : patternRound operand ts with
  | error s => rfl
  | ok found =>
    obtain ⟨_ | f, mid⟩ := found
    · rfl
    · have hlt := (leaves_patternRound hop hround).length_le
      change (more mid >>= _) = (more' mid >>= _)
      rw [hmore mid (by omega)]

/-- The bound for the attributes of a pattern is never felt. -/
theorem patternBodyUpTo_eq {n : Nat} (hn : ts.length ≤ n) :
    patternBodyUpTo operand n ts = patternBody operand ts := by
  suffices ∀ n m ts, ts.length ≤ n → ts.length ≤ m →
      patternBodyUpTo operand n ts = patternBodyUpTo operand m ts from
    this n ts.length ts hn (Nat.le_refl _)
  intro n
  induction n with
  | zero =>
    intro m ts hn hm
    obtain rfl := List.eq_nil_of_length_eq_zero (Nat.le_zero.mp hn)
    rw [patternBodyUpTo_nil, patternBodyUpTo_nil]
  | succ n ih =>
    intro m ts hn hm
    cases m with
    | zero =>
      obtain rfl := List.eq_nil_of_length_eq_zero (Nat.le_zero.mp hm)
      rw [patternBodyUpTo_nil, patternBodyUpTo_nil]
    | succ m =>
      rw [patternBodyUpTo_succ hop hn, patternBodyUpTo_succ hop hm]
      exact patternRound_bind_congr hop fun mid hlt => ih m mid (by omega) (by omega)

/-- **A pattern is read round by round**, however many attributes it has. -/
theorem patternBody_eq (ts : List Token) :
    patternBody operand ts =
      patternRound operand ts >>= patternBehind (patternBody operand) := by
  rw [← patternBodyUpTo_eq hop (Nat.le_succ ts.length), patternBodyUpTo_succ hop (Nat.le_succ _)]
  exact patternRound_bind_congr hop fun mid hlt => patternBodyUpTo_eq hop (by omega)

end Grammar

end NixSyntax
