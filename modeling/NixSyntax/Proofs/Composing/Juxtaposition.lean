import NixSyntax.Proofs.Chain.Frames
import NixSyntax.Proofs.Chain.Tiers
import NixSyntax.Proofs.Composing.Brackets
import NixSyntax.Proofs.Composing.Forms
import NixSyntax.Proofs.Spacing.Insertion
import NixSyntax.Proofs.Tree.Normal

/-!
# Expressions side by side

A function is applied by putting its arguments behind it, and a list is made by putting its items
side by side. Nothing but line breaks need stand between two of them, so each has to end where it
would end alone. Names, values and forms in brackets do: `Atom` says which tokens these are, by the
tree that they are alone.

What could make two of them one is a colon, an `@` or a dot: behind a name the first two make it the
argument of a function, behind a set they make it a pattern, and behind a name a dot goes on with
it. None of these begins an atom (`Detached`). An argument and an item are read in no chain, so an
atom behind them is not their argument.

## Atoms

An atom has to end with its own last token. A number does, and a parenthesis, but not `-x`, a
function, or a choice, which end with an operand inside that goes on as far as it can. So atoms are
the forms that are not open (`Term.isAtomic`). Two more conditions are on the operand that an atom
is: it has no clause in front, and its first token is no minus, which behind an atom would be an
operator. The others are on its tokens, which begin and end with something that is no trivia and go
up to the end of the input without containing it.

An atom in front of others is in a context of its own. Alone it is read as a chain, and takes
arguments if it can have any. As an argument or as an item it takes none, and what is behind it is
the next argument or the next item. In either case it is the same tree, because alone it had no
argument to take.

## Main definitions

* `Term.isAtomic`: the forms that end with their own last token
* `Atom`: tokens that are such a form when they are read alone
* `Juxtaposed`: atoms side by side, with line breaks between them

## Main results

* `Atom.operandUpTo`: an atom is read in front of others as it is alone
* `Program.ofTokens_juxtaposed`: a call and a list of atoms
-/

namespace NixSyntax

/-- The forms that end with their own last token: names, values, and all forms in brackets. -/
def Term.isAtomic : Term → Bool
  | null _ => true
  | bool _ _ => true
  | int _ _ => true
  | float _ _ => true
  | string _ => true
  | path _ _ => true
  | interpolation _ => true
  | name _ => true
  | list _ _ _ => true
  | attrSet _ _ _ _ => true
  | paren _ _ => true
  | _ => false

theorem Term.isOpen_of_isAtomic {t : Term} (h : t.isAtomic = true) : t.isOpen = false := by
  cases t <;> first | rfl | cases h

namespace Grammar

variable {ts tail rest gap atom : List Token} {o : Operand} {os : List Operand} {n : Nat}

/-- Tokens that are a single operand when they are read alone, of a form that ends with its own last
token. There is nothing around it: no clause, no trivia, and no minus sign of a number. -/
structure Atom (ts : List Token) (o : Operand) : Prop where
  /-- Alone, the tokens are the operand. -/
  read : Program.ofTokens ts = .ok ⟨.operand o, o.span⟩
  /-- The end of the input is none of them. -/
  unended : ∀ t ∈ ts, t.isEnd = false
  /-- The first one is no trivia. -/
  first : ∀ t ∈ ts.head?, t.isTrivia = false
  /-- The last one is no trivia. -/
  last : ∀ t ∈ ts.getLast?, t.isTrivia = false
  /-- The first one is no minus sign. -/
  unsigned : ∀ t ∈ ts.head?, t.kind ≠ .symbol .minus
  /-- The operand has no clauses. -/
  modifiers : o.modifiers = []
  /-- The operand ends with its own last token. -/
  atomic : o.term.isAtomic = true

/-- Atoms side by side. Line breaks may stand in front of each. -/
inductive Juxtaposed : List Token → List Operand → Prop
  | nil : Juxtaposed [] []
  | cons {gap atom ts : List Token} {o : Operand} {os : List Operand}
      (newlines : ∀ t ∈ gap, t.isNewline = true) (head : Atom atom o) (behind : Juxtaposed ts os) :
      Juxtaposed (gap ++ (atom ++ ts)) (o :: os)

/-- Tokens in front of which a name, a set and an operand have ended, and no comments ahead. -/
structure Detached (tail : List Token) : Prop where
  comments : commentsAhead tail = []
  colon : nextIsSymbol .colon tail = false
  atSign : nextIsSymbol .atSign tail = false
  dot : nextIsSymbol .dot tail = false

/-! ### What is ahead

Behind an atom another one is ahead, or the end of all. Neither is anything that goes on with the
first. -/

/-- A mark that is not ahead is not the next token. -/
theorem ne_symbol_of_nextIsSymbol {s : Symbol} (h : nextIsSymbol s tail = false) (span : Span)
    (us : List Token) : tail ≠ ⟨.symbol s, span⟩ :: us := by
  rintro rfl
  exact nextIsSymbol_eq_false_iff.mp h _ _ rfl

/-- An argument is nothing that an atom could go on with. -/
theorem detached_of_argumentAhead (h : argumentAhead tail = true)
    (hcomments : commentsAhead tail = []) : Detached tail := by
  have hsymbol {s : Symbol} (hs : startsArgument (.symbol s) = false) :
      nextIsSymbol s tail = false := by
    refine nextIsSymbol_eq_false_iff.mpr fun span us heq => ?_
    rw [argumentAhead_of_eq heq] at h
    exact Bool.false_ne_true (hs.symm.trans h)
  exact ⟨hcomments, hsymbol rfl, hsymbol rfl, hsymbol rfl⟩

theorem argumentAhead_skipTrivia (ts : List Token) :
    argumentAhead (skipTrivia ts) = argumentAhead ts := by
  simp [argumentAhead]

theorem skipTrivia_newlines (h : ∀ t ∈ gap, t.isNewline = true) (ts : List Token) :
    skipTrivia (gap ++ ts) = skipTrivia ts :=
  skipTrivia_append (fun t ht => Token.isTrivia_of_isNewline (h t ht)) ts

theorem commentsAhead_newlines (h : ∀ t ∈ gap, t.isNewline = true) (ts : List Token) :
    commentsAhead (gap ++ ts) = commentsAhead ts := by
  rw [commentsAhead_append (fun t ht => Token.isTrivia_of_isNewline (h t ht)),
    commentsAhead_of_newlines h, List.nil_append]

/-! ### A term behind which others stand

Of the terms only those that end with their own last token are looked at. -/

/-- A mark that is found is found with other tokens behind it. -/
theorem expectSymbol_append {s : Symbol} {span : Span}
    (h : expectSymbol s ts = .ok (span, rest)) (tail : List Token) :
    expectSymbol s (ts ++ tail) = .ok (span, rest ++ tail) := by
  rw [expectSymbol_eq_ok_iff, skipNewlines] at h ⊢
  simp [List.dropWhile_append, h]

/-- A name ends in front of anything but a dot. -/
theorem attrPath_append {p : AttrPath} (h : attrPath (operandUpTo n) ts = .ok (p, []))
    (hdot : ∀ span us, tail ≠ ⟨.symbol .dot, span⟩ :: us) :
    attrPath (operandUpTo n) (ts ++ tail) = .ok (p, tail) := by
  obtain ⟨first, start, mid, hfirst, more, hmore, rfl⟩ := attrPath_eq_ok_iff.mp h
  have hmore' : repeated (dottedSegment (operandUpTo n)) (mid ++ tail) = .ok (more, [] ++ tail) := by
    refine extend_repeated (P := fun _ => True) repeatable_dottedSegment
      (fun {ts s rest} hs _ => ?_) (fun _ => trivial) hmore trivial
      (dottedSegment_eq_none_iff.mpr ⟨rfl, hdot⟩)
    obtain ⟨dot, us, rfl, hsegment⟩ := dottedSegment_eq_some_iff.mp hs
    exact dottedSegment_eq_some_iff.mpr ⟨dot, us ++ tail, rfl, hsegment.extend tail⟩
  exact attrPath_eq_ok_iff.mpr ⟨first, start, mid ++ tail, hfirst.extend tail, more, hmore', rfl⟩

/-- The braces of a set are no pattern in front of tokens that are no part of one. -/
theorem opensPattern_append (h : behindBraces 0 ts = some []) (htail : Detached tail)
    (named : Bool) : opensPattern named (ts ++ tail) = false := by
  rw [opensPattern, behindBraces_append h]
  simp [htail.colon, htail.atSign]

/-- **A term behind which others stand.** It is the one that the tokens are alone, and ends with the
last of them. -/
theorem ReadsTerm.append {ctx : Context} {t : Term} (h : ReadsTerm (operandUpTo n) ctx ts t [])
    (ht : t.isAtomic = true) (hsign : ∀ span us, ts ≠ ⟨.symbol .minus, span⟩ :: us)
    (htail : Detached tail) (ctx' : Context) :
    ReadsTerm (operandUpTo n) ctx' (ts ++ tail) t tail := by
  have hopen := Term.isOpen_of_isAtomic ht
  -- open forms are excluded; the others end with a token of their own
  cases h with
  | null => exact .null
  | bool => exact .bool
  | int => exact .int
  | float => exact .float
  | negativeInt => exact absurd rfl (hsign _ _)
  | negativeFloat => exact absurd rfl (hsign _ _)
  | path => exact .path
  | string literal_eq => exact .string literal_eq
  | interpolation content_eq => exact .interpolation content_eq
  | @name name span ts rest p no_colon no_pattern path_eq =>
    refine .name (fun colon us heq => ?_) (fun atSign start us heq => ?_)
      (attrPath_append path_eq (ne_symbol_of_nextIsSymbol htail.dot))
    · cases ts with
      | nil => exact ne_symbol_of_nextIsSymbol htail.colon _ _ heq
      | cons t ts =>
        obtain ⟨rfl, -⟩ := List.cons.inj heq
        exact no_colon _ _ rfl
    · cases ts with
      | nil => exact absurd heq (ne_symbol_of_nextIsSymbol htail.atSign _ _)
      | cons t ts =>
        obtain ⟨rfl, -⟩ := List.cons.inj heq
        cases eq_of_attrPath_atSign path_eq
  | list list_eq => exact .list (list_append list_eq tail)
  | attrSet no_pattern attrSet_eq =>
    exact .attrSet (opensPattern_append (behindBraces_of_attrSet attrSet_eq) htail _)
      (attrSet_append attrSet_eq tail)
  | recursive brace_eq attrSet_eq =>
    exact .recursive (expectSymbol_append brace_eq tail) (attrSet_append attrSet_eq tail)
  | paren paren_eq => exact .paren (paren_append paren_eq tail)
  | lambda h => exact absurd (isOpen_of_lambda h) (by simp [hopen])
  | pattern _ h | namedPattern _ h => exact absurd (isOpen_of_patternLambda h) (by simp [hopen])
  | letIn h => exact absurd (isOpen_of_letIn h) (by simp [hopen])
  | import_ h => exact absurd (isOpen_of_importOf h) (by simp [hopen])
  | conditional h => exact absurd (isOpen_of_conditional h) (by simp [hopen])
  | not h | negate _ _ h => exact absurd (isOpen_of_unary h) (by simp [hopen])

/-- An atom begins like an argument. -/
theorem ReadsTerm.argumentAhead {ctx : Context} {t : Term}
    (h : ReadsTerm (operandUpTo n) ctx ts t rest) (ht : t.isAtomic = true)
    (hsign : ∀ span us, ts ≠ ⟨.symbol .minus, span⟩ :: us) (tail : List Token) :
    argumentAhead (ts ++ tail) = true := by
  have hopen := Term.isOpen_of_isAtomic ht
  cases h with
  | negativeInt => exact absurd rfl (hsign _ _)
  | negativeFloat => exact absurd rfl (hsign _ _)
  | letIn h => exact absurd (isOpen_of_letIn h) (by simp [hopen])
  | import_ h => exact absurd (isOpen_of_importOf h) (by simp [hopen])
  | conditional h => exact absurd (isOpen_of_conditional h) (by simp [hopen])
  | negate => exact absurd rfl (hsign _ _)
  | _ => rfl

/-! ### Atoms

What is known of an atom from how it is read alone. -/

theorem eq_nil_of_skipTrivia (h : skipTrivia ts = [])
    (hlast : ∀ t ∈ ts.getLast?, t.isTrivia = false) : ts = [] := by
  cases ht : ts.getLast? with
  | none => exact List.getLast?_eq_none_iff.mp ht
  | some t =>
    have htrivia := List.dropWhile_eq_nil_iff.mp h t (List.mem_of_getLast? ht)
    rw [hlast t ht] at htrivia
    cases htrivia

/-- An atom is its term, with nothing around it. -/
theorem Atom.readsTerm (h : Atom ts o) (hn : countTokens ts ≤ n + 1) :
    ReadsTerm (operandUpTo n) .chain ts o.term [] ∧ o = ⟨[], [], [], o.term, o.term.span⟩ := by
  obtain ⟨first, mid, hfirst, links, hlinks, heq⟩ :=
    expression_eq_ok_iff.mp (expression_of_ofTokens h.read h.unended hn)
  obtain rfl : first = o := by simpa using congrArg Expr.first heq
  obtain rfl : links = [] := by simpa using congrArg Expr.links heq
  cases rounds_of_repeated stop_link hlinks
  obtain ⟨clauses, ts₁, hclauses, head, ts₂, hhead, t, ts₃, ht, hrest, hfields⟩ :=
    operandWith_eq_ok_iff.mp hfirst
  have hatomic := h.atomic
  have hnone := h.modifiers
  rw [hfields] at hatomic hnone
  obtain rfl : clauses = [] := by simpa using hnone
  cases rounds_of_repeated stop_clause hclauses
  -- in front of the first token and behind the last there is no trivia
  have hts : skipTrivia ts = ts := by
    cases ts with
    | nil => rfl
    | cons t ts => exact skipTrivia_cons_of_not_isTrivia ts (h.first t rfl)
  have hterm := termIn_eq_ok_iff.mp hhead
  rw [hts] at hterm
  rcases withArguments_cases ht with ⟨rfl, rfl⟩ | ⟨arguments, span, -, rfl⟩
  · obtain ⟨front, hfront, -, -⟩ := hterm.leaves (advances_operandUpTo n)
    obtain rfl : ts₃ = [] := by
      refine eq_nil_of_skipTrivia hrest.symm fun t ht => h.last t ?_
      rw [hfront, List.getLast?_append, Option.mem_def.mp ht]
      rfl
    have hcomments : commentsAhead ts = [] := by rw [← hts, commentsAhead_skipTrivia]
    rw [hfields]
    exact ⟨hterm, by simp [hcomments, operandSpan]⟩
  · cases hatomic

theorem Atom.ne_minus (h : Atom ts o) (span : Span) (us : List Token) :
    ts ≠ ⟨.symbol .minus, span⟩ :: us := by
  rintro rfl
  exact h.unsigned _ rfl rfl

theorem Atom.argumentAhead (h : Atom ts o) (tail : List Token) :
    argumentAhead (ts ++ tail) = true := by
  obtain ⟨hterm, -⟩ := h.readsTerm (n := countTokens ts) (Nat.le_succ _)
  exact hterm.argumentAhead h.atomic h.ne_minus tail

/-- There is no trivia in front of an atom. -/
theorem Atom.skipTrivia_append (h : Atom ts o) (tail : List Token) :
    skipTrivia (ts ++ tail) = ts ++ tail := by
  obtain ⟨hterm, -⟩ := h.readsTerm (n := countTokens ts) (Nat.le_succ _)
  cases ts with
  | nil => cases hterm
  | cons t ts => exact skipTrivia_cons_of_not_isTrivia _ (h.first t rfl)

/-- **An atom is read in front of others as it is alone**, behind line breaks and in no chain. -/
theorem Atom.operandUpTo (h : Atom ts o) (hn : countTokens ts ≤ n + 1)
    (hgap : ∀ t ∈ gap, t.isNewline = true) (htail : Detached tail) :
    operandUpTo (n + 1) .single (gap ++ (ts ++ tail)) = .ok (o, skipTrivia tail) := by
  obtain ⟨hterm, ho⟩ := h.readsTerm hn
  have hread := hterm.append h.atomic h.ne_minus htail .single
  obtain ⟨hts, hclause⟩ := hread.clause_eq
  have hskip : skipTrivia (gap ++ (ts ++ tail)) = ts ++ tail := by
    rw [skipTrivia_newlines hgap, hts]
  have hnone : clause (Grammar.operandUpTo n) (gap ++ (ts ++ tail)) =
      .ok (none, gap ++ (ts ++ tail)) := by
    refine clause_eq_none_iff.mpr ⟨rfl, ?_⟩
    rw [hskip, ← hts]
    exact (clause_eq_none_iff.mp hclause).2
  have hclauses := (repeated_eq_ok_iff (repeatable_clause (advances_operandUpTo n))).mpr
    ⟨.nil, hnone⟩
  refine operandWith_eq_ok_iff.mpr ⟨[], _, hclauses, o.term, tail, ?_, o.term, tail, rfl, rfl, ?_⟩
  · rw [hskip]
    exact termIn_eq_ok_iff.mpr hread
  · rw [commentsAhead_newlines hgap, ← hts, commentsAhead_skipTrivia, htail.comments]
    exact ho

/-! ### Atoms side by side

Both a call and a list are repetitions, and take an atom in each round. -/

theorem Juxtaposed.detached (h : Juxtaposed ts os) (htail : Detached tail) :
    Detached (ts ++ tail) := by
  cases h with
  | nil => exact htail
  | @cons gap atom ts o os newlines head behind =>
    have hahead := head.argumentAhead (ts ++ tail)
    rw [List.append_assoc, List.append_assoc]
    refine detached_of_argumentAhead ?_ ?_
    · rwa [← argumentAhead_skipTrivia, skipTrivia_newlines newlines, argumentAhead_skipTrivia]
    · rw [commentsAhead_newlines newlines, ← head.skipTrivia_append, commentsAhead_skipTrivia]

/-- No comments stand between atoms, so none goes with them. -/
theorem Juxtaposed.mem_unadorned (h : Juxtaposed ts os) :
    ∀ o ∈ os, o.before = [] ∧ o.after = [] := by
  induction h with
  | nil => simp
  | @cons gap atom ts o os _ head _ ih =>
    obtain ⟨-, ho⟩ := head.readsTerm (n := countTokens atom) (Nat.le_succ _)
    refine List.forall_mem_cons.mpr ⟨?_, ih⟩
    rw [ho]
    exact ⟨rfl, rfl⟩

section

variable {round : Rule (Option Operand)}
  (hround : ∀ {ts o rest}, argumentAhead ts = true → operandUpTo (n + 1) .single ts = .ok (o, rest) →
    round ts = .ok (some o, rest))
  (htail : Detached tail) (hskip : skipTrivia tail = tail)
include hround htail hskip

/-- One round for each atom. The line breaks in front of an atom are taken with the one before. -/
theorem Juxtaposed.rounds_skipTrivia (h : Juxtaposed ts os) (hn : countTokens ts ≤ n + 1) :
    Rounds round (skipTrivia (ts ++ tail)) os tail := by
  induction h with
  | nil =>
    rw [List.nil_append, hskip]
    exact .nil
  | @cons gap atom ts o os newlines head behind ih =>
    rw [countTokens_append, countTokens_append] at hn
    rw [List.append_assoc, List.append_assoc, skipTrivia_newlines newlines, head.skipTrivia_append]
    have hread : operandUpTo (n + 1) .single ([] ++ (atom ++ (ts ++ tail))) =
        .ok (o, skipTrivia (ts ++ tail)) :=
      head.operandUpTo (by omega) (by simp) (behind.detached htail)
    exact .cons (hround (head.argumentAhead _) hread) (ih (by omega))

/-- One round for each atom, the line breaks in front of the first included. -/
theorem Juxtaposed.rounds (h : Juxtaposed ts os) (hos : os ≠ []) (hn : countTokens ts ≤ n + 1) :
    Rounds round (ts ++ tail) os tail := by
  cases h with
  | nil => exact absurd rfl hos
  | @cons gap atom ts o os newlines head behind =>
    rw [countTokens_append, countTokens_append] at hn
    have hahead := head.argumentAhead (ts ++ tail)
    rw [← argumentAhead_skipTrivia, ← skipTrivia_newlines newlines, argumentAhead_skipTrivia]
      at hahead
    rw [List.append_assoc, List.append_assoc]
    exact .cons (hround hahead (head.operandUpTo (by omega) newlines (behind.detached htail)))
      (behind.rounds_skipTrivia hround htail hskip (by omega))

end

theorem passOnComments_of_unadorned (h : ∀ o ∈ os, o.before = [] ∧ o.after = []) :
    passOnComments [] os = os := by
  induction os with
  | nil => rfl
  | cons o os ih =>
    obtain ⟨⟨hbefore, hafter⟩, hos⟩ := List.forall_mem_cons.mp h
    obtain ⟨modifiers, before, after, term, span⟩ := o
    subst hbefore hafter
    cases os with
    | nil => rfl
    | cons p os => rw [passOnComments, ih hos, List.nil_append]

/-- Where an argument is ahead, a list goes on. -/
theorem item_of_argumentAhead (hahead : argumentAhead ts = true)
    (h : operandUpTo n .single ts = .ok (o, rest)) :
    item (operandUpTo n) ts = .ok (some o, rest) := by
  refine item_eq_some_iff.mpr ⟨?_, ?_, h⟩
  · cases hts : skipTrivia ts with
    | nil => rw [argumentAhead, hts] at hahead; cases hahead
    | cons t us =>
      rw [argumentAhead_of_eq hts] at hahead
      obtain ⟨kind, span⟩ := t
      cases kind <;> first | rfl | cases hahead
  · refine nextIsSymbol_eq_false_iff.mpr fun span us heq => ?_
    rw [argumentAhead_of_eq heq] at hahead
    cases hahead

/-- Where an argument is ahead, a call goes on. -/
theorem argument_of_argumentAhead (hahead : argumentAhead ts = true)
    (h : operandUpTo n .single ts = .ok (o, rest)) :
    argument (operandUpTo n) ts = .ok (some o, rest) := by
  cases hts : skipTrivia ts with
  | nil => rw [argumentAhead, hts] at hahead; cases hahead
  | cons t us =>
    rw [argumentAhead_of_eq hts] at hahead
    exact argument_eq_some_iff.mpr ⟨t, us, hts, hahead, h⟩

/-- Atoms in brackets. -/
theorem list_of_juxtaposed (h : Juxtaposed ts os) (hos : os ≠ []) (hn : countTokens ts ≤ n + 1)
    (start close : Span) :
    list (operandUpTo (n + 1)) start (ts ++ [⟨.symbol .closeBracket, close⟩]) =
      .ok (.list (os.map .operand) [] (start.join close), []) := by
  have hrounds : Rounds (item (operandUpTo (n + 1))) (ts ++ [⟨.symbol .closeBracket, close⟩]) os
      [⟨.symbol .closeBracket, close⟩] :=
    h.rounds item_of_argumentAhead ⟨rfl, rfl, rfl, rfl⟩ rfl hos hn
  have hitems := (repeated_eq_ok_iff (repeatable_item (advances_operandUpTo (n + 1)))).mpr
    ⟨hrounds, item_eq_none_iff.mpr ⟨rfl, .inr rfl⟩⟩
  refine list_eq_ok_iff.mpr ⟨os, _, hitems, close, expectSymbol_eq_ok_iff.mpr rfl, ?_⟩
  rw [passOnComments_of_unadorned h.mem_unadorned]
  rfl

/-- A name or a form in parentheses in front of atoms. -/
theorem operandUpTo_of_juxtaposed {c : List Token} {callee : Operand} (hc : Atom c callee)
    (hcallee : callee.term.isCallable = true) (h : Juxtaposed ts os) (hos : os ≠ [])
    (hcn : countTokens c ≤ n + 2) (hn : countTokens ts ≤ n + 1) :
    operandUpTo (n + 2) .chain (c ++ ts) = .ok (⟨[], [], [], .call callee.term
      (os.map .operand) (callee.span.join (os.getLast hos).span),
      callee.span.join (os.getLast hos).span⟩, []) := by
  have hadv := advances_operandUpTo (n + 1)
  obtain ⟨hterm, hspan⟩ := hc.readsTerm hcn
  have hdetached : Detached ts := by
    have hnil : Detached [] := ⟨rfl, rfl, rfl, rfl⟩
    simpa using h.detached hnil
  -- the callee is read in front of its arguments as it is read alone
  have hread := hterm.append hc.atomic hc.ne_minus hdetached .chain
  obtain ⟨hskip, hclause⟩ := hread.clause_eq
  have hclauses := (repeated_eq_ok_iff (repeatable_clause hadv)).mpr ⟨.nil, hclause⟩
  have hrounds : Rounds (argument (operandUpTo (n + 1))) (ts ++ []) os [] :=
    h.rounds argument_of_argumentAhead ⟨rfl, rfl, rfl, rfl⟩ rfl hos hn
  rw [List.append_nil] at hrounds
  have harguments := (repeated_eq_ok_iff (repeatable_argument hadv)).mpr
    ⟨hrounds, argument_eq_none_iff.mpr ⟨rfl, nofun⟩⟩
  have hcall : withArguments (operandUpTo (n + 1)) .chain callee.term ts =
      .ok (.call callee.term (os.map .operand) (callee.span.join (os.getLast hos).span), []) := by
    rw [withArguments, if_pos (by simp [hcallee]), hspan]
    exact applied_eq_ok_iff.mpr ⟨os, harguments,
      .inr ⟨os.getLast hos, List.getLast?_eq_some_getLast hos, rfl⟩⟩
  refine operandWith_eq_ok_iff.mpr
    ⟨[], _, hclauses, callee.term, ts, ?_, _, [], hcall, rfl, ?_⟩
  · rw [hskip]
    exact termIn_eq_ok_iff.mpr hread
  · rw [← hskip, commentsAhead_skipTrivia]
    rfl

end Grammar

namespace Program

open Grammar

/-- **Expressions side by side.** Behind a name or a form in parentheses, any number of atoms are
the arguments of one call, and in brackets they are the items of one list. Each of them is what it
is alone, with its comments and its places. -/
theorem ofTokens_juxtaposed {c ts : List Token} {callee : Operand} {os : List Operand}
    (hc : Atom c callee)
    (hcallee : (∃ p, callee.term = .name p) ∨ ∃ body span, callee.term = .paren body span)
    (h : Juxtaposed ts os) (hos : os ≠ []) (open_ close : Span) :
    ofTokens (c ++ ts) = .ok (.ofTerm (.call callee.term (os.map .operand)
      (callee.span.join (os.getLast hos).span))) ∧
    ofTokens (⟨.symbol .openBracket, open_⟩ :: (ts ++ [⟨.symbol .closeBracket, close⟩])) =
      .ok (.ofTerm (.list (os.map .operand) [] (open_.join close))) := by
  have hcallable : callee.term.isCallable = true := by
    obtain ⟨p, hp⟩ | ⟨body, span, hp⟩ := hcallee <;> rw [hp] <;> rfl
  obtain ⟨n, hcn, hn⟩ : ∃ n, countTokens c ≤ n + 2 ∧ countTokens ts ≤ n + 1 :=
    ⟨countTokens c + countTokens ts, by omega, by omega⟩
  exact ⟨ofTokens_of_operand (operandUpTo_of_juxtaposed hc hcallable h hos hcn hn) rfl,
    ofTokens_of_readsTerm (.list (list_of_juxtaposed h hos hn open_ close)) rfl⟩

/-- The tokens of `f {} x`, in two parts: the function, and its arguments on lines of their own. -/
def calleeTokens : List Token := [⟨.identifier "f", onFirstLine 0 1⟩]

@[inherit_doc calleeTokens]
def argumentTokens : List Token :=
  [⟨.newline, onFirstLine 1 2⟩] ++ ([⟨.symbol .openBrace, onFirstLine 2 3⟩,
    ⟨.symbol .closeBrace, onFirstLine 3 4⟩] ++ ([⟨.newline, onFirstLine 4 5⟩] ++
      ([⟨.identifier "x", onFirstLine 5 6⟩] ++ [])))

/-- A set and a name behind a name are two arguments, and no function. -/
theorem ofTokens_juxtaposed_setAndName : ∃ callee os,
    (Atom calleeTokens callee ∧ (∃ p, callee.term = .name p) ∧ Juxtaposed argumentTokens os ∧
      os.length = 2) ∧ ∃ span, ofTokens (calleeTokens ++ argumentTokens) =
        .ok (.ofTerm (.call callee.term (os.map .operand) span)) := by
  have hc : Atom calleeTokens _ :=
    ⟨rfl, by decide, by decide, by decide, by rintro _ ⟨⟩ ⟨⟩, rfl, rfl⟩
  have hset : Atom [⟨.symbol .openBrace, onFirstLine 2 3⟩, ⟨.symbol .closeBrace, onFirstLine 3 4⟩]
      _ := ⟨rfl, by decide, by decide, by decide, by rintro _ ⟨⟩ ⟨⟩, rfl, rfl⟩
  have hname : Atom [⟨.identifier "x", onFirstLine 5 6⟩] _ :=
    ⟨rfl, by decide, by decide, by decide, by rintro _ ⟨⟩ ⟨⟩, rfl, rfl⟩
  have hargs : Juxtaposed argumentTokens _ := .cons (by decide) hset (.cons (by decide) hname .nil)
  have hcall := ofTokens_juxtaposed hc (.inl ⟨_, rfl⟩) hargs (by simp) default default
  exact ⟨_, _, ⟨hc, ⟨_, rfl⟩, hargs, rfl⟩, _, hcall.1⟩

end Program

end NixSyntax
