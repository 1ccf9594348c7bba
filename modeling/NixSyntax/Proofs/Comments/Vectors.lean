import NixSyntax.Proofs.Chain.Frames
import NixSyntax.Proofs.Reading.Progress
import NixSyntax.Proofs.Tree.Nodes
import Mathlib.Algebra.BigOperators.Group.Multiset.Basic
import Mathlib.Tactic.Abel

/-!
# Comments in tokens and in trees

The nodes of a tree hold their comments in lists: an operand has one in front and one behind, an
empty list or set, a binding, an attribute of a pattern and some others have one each. All of these
lists together should hold the comments of the tokens, each of them once, and each list should have
its comments in the order of the tokens. This is `Keeps`.

`Keeps` is made for induction. Two stretches of tokens, one behind the other, have the lists of
both (`Keeps.append`), and a list of the first may be continued by a list of the second
(`Keeps.join`). The rules of the grammar do nothing else with comments.

## What is counted

The lists are a multiset, since their order among each other does not matter, and the same list may
occur more than once: the empty one always does. What they hold together is a multiset of comments,
each as often as the tokens have it, and that is compared with the comments of the tokens. A comment
has its place in it, so the same text twice makes two comments.

The comments of a token are those inside its interpolations, up to the end of each, or the comment
that it is itself. What stands behind an end of input is not counted, as no rule looks there.

## Main definitions

* `commentsOf`: the comments of some tokens, at every depth
* `commentLists`: the lists of comments that some nodes hold
* `Keeps`: the lists hold these comments, each list in their order
* `Gathers`: the lists hold the comments of the tokens that were read
-/

namespace NixSyntax

/-! ### The comments of tokens

The comments inside a token are counted where the token stands, between those in front of it and
those behind it. -/

mutual

/-- The comments of some tokens, in their order and up to the end of input. Those inside an
interpolation are among them, up to the end of its own. -/
def commentsOf : List Token → List Comment
  | [] => []
  | t :: ts => if t.isEnd then [] else t.comments ++ commentsOf ts

/-- The comment that a token is, or the comments inside it. -/
def Token.comments : Token → List Comment
  | ⟨kind, span⟩ => (Token.comment? ⟨kind, span⟩).toList ++ kind.innerComments

/-- The comments inside the interpolations of a token. -/
def TokenKind.innerComments : TokenKind → List Comment
  | .string parts _ => fragmentsComments parts
  | .interpolation tokens => commentsOf tokens
  | _ => []

/-- The comments inside the interpolations of some parts of a string. -/
def fragmentsComments : List StringFragment → List Comment
  | [] => []
  | part :: parts => part.comments ++ fragmentsComments parts

/-- The comments inside a part of a string. -/
def StringFragment.comments : StringFragment → List Comment
  | .text _ => []
  | .interpolation tokens _ => commentsOf tokens

end

@[simp] theorem commentsOf_nil : commentsOf [] = [] := by simp [commentsOf]

theorem commentsOf_cons {t : Token} (ts : List Token) (h : t.isEnd = false) :
    commentsOf (t :: ts) = t.comments ++ commentsOf ts := by
  simp [commentsOf, h]

/-- Behind the end of input there are no comments that count. -/
theorem commentsOf_of_atEnd {ts : List Token} (h : Grammar.atEnd ts = true) :
    commentsOf ts = [] := by
  cases ts with
  | nil => exact commentsOf_nil
  | cons t ts => rw [commentsOf, if_pos (by simpa [Grammar.atEnd] using h)]

theorem Token.comments_of_isTrivia {t : Token} (h : t.isTrivia = true) :
    t.comments = t.comment?.toList := by
  obtain ⟨kind, span⟩ := t
  cases kind <;> simp_all [isTrivia, comments, TokenKind.innerComments]

/-- What is passed over with the trivia are the comments ahead, and nothing else. -/
theorem commentsOf_eq (ts : List Token) :
    commentsOf ts = Grammar.commentsAhead ts ++ commentsOf (Grammar.skipTrivia ts) := by
  induction ts with
  | nil => rfl
  | cons t ts ih =>
    cases ht : t.isTrivia with
    | true =>
      rw [commentsOf_cons ts (Token.isEnd_of_isTrivia ht), ih,
        Grammar.skipTrivia_cons_of_isTrivia ts ht, t.comments_of_isTrivia ht]
      cases hc : t.comment? <;> simp [Grammar.commentsAhead, ht, hc]
    | false =>
      rw [Grammar.skipTrivia_cons_of_not_isTrivia ts ht]
      simp [Grammar.commentsAhead, ht]

@[simp] theorem commentsOf_skipNewlines (ts : List Token) :
    commentsOf (Grammar.skipNewlines ts) = commentsOf ts := by
  induction ts with
  | nil => rfl
  | cons t ts ih =>
    cases ht : t.isNewline with
    | true =>
      have htrivia := Token.isTrivia_of_isNewline ht
      have hnone : t.comment? = none := by
        obtain ⟨kind, span⟩ := t
        cases kind <;> simp_all [Token.isNewline, Token.comment?]
      rw [commentsOf_cons ts (Token.isEnd_of_isTrivia htrivia), t.comments_of_isTrivia htrivia,
        hnone, ← ih]
      simp [Grammar.skipNewlines, ht]
    | false => simp [Grammar.skipNewlines, ht]

/-! ### The comments of nodes

Most nodes have no comments. An operand has two lists, and the other nodes that have any have
one. -/

/-- The lists of comments that a node holds itself. -/
def Node.commentLists : Node → Multiset (List Comment)
  | .operand o => {o.before} + {o.after}
  | .term (.list _ comments _) => {comments}
  | .term (.attrSet _ _ comments _) => {comments}
  | .term (.letIn _ comments _ _) => {comments}
  | .path p => {p.comments}
  | .binding b => {b.comments}
  | .parameter (.pattern _ _ _ comments _) => {comments}
  | .formal f => {f.comments}
  | _ => 0

/-- The lists of comments that some nodes hold. -/
def commentLists (nodes : List Node) : Multiset (List Comment) :=
  (nodes.map Node.commentLists).sum

@[simp] theorem commentLists_nil : commentLists [] = 0 := rfl

@[simp] theorem commentLists_cons (nd : Node) (nodes : List Node) :
    commentLists (nd :: nodes) = nd.commentLists + commentLists nodes := by
  simp [commentLists]

@[simp] theorem commentLists_append (nodes nodes' : List Node) :
    commentLists (nodes ++ nodes') = commentLists nodes + commentLists nodes' := by
  simp [commentLists]

@[simp] theorem commentLists_flatMap {α : Type} (f : α → List Node) (as : List α) :
    commentLists (as.flatMap f) = (as.map fun a => commentLists (f a)).sum := by
  induction as with
  | nil => rfl
  | cons a as ih => simp [ih]

/-- The lists of comments of an operator expression are those of its operands. -/
theorem Expr.commentLists_nodes : (e : Expr) →
    commentLists e.nodes =
      commentLists e.first.nodes + (e.links.map fun l => commentLists l.2.nodes).sum
  | .operand o => by simp [Expr.nodes, Node.commentLists]
  | .binary operator left right span => by
    simp [Expr.nodes, Expr.first, Expr.links, Node.commentLists, left.commentLists_nodes,
      right.commentLists_nodes, add_assoc]

/-! ### Lists that keep some comments

The order is a condition on each list by itself: its comments occur among all comments in the same
order. -/

/-- Together the lists hold the given comments, each once, and each list has its own in their
order. -/
structure Keeps (lists : Multiset (List Comment)) (cs : List Comment) : Prop where
  all : (lists.map Multiset.ofList).sum = cs
  order : ∀ l ∈ lists, l.Sublist cs

variable {V W : Multiset (List Comment)} {v w cs ds : List Comment}

namespace Keeps

theorem nil : Keeps 0 [] := ⟨rfl, by simp⟩

/-- One list with all of the comments. -/
theorem single (cs : List Comment) : Keeps {cs} cs := ⟨by simp, by simp⟩

/-- The lists of two stretches, side by side. -/
theorem append (h : Keeps V cs) (h' : Keeps W ds) : Keeps (V + W) (cs ++ ds) := by
  refine ⟨by simp [h.all, h'.all], fun l hl => ?_⟩
  rcases Multiset.mem_add.mp hl with hl | hl
  · exact (h.order l hl).trans (List.sublist_append_left cs ds)
  · exact (h'.order l hl).trans (List.sublist_append_right cs ds)

/-- A list of the first stretch is continued by a list of the second. -/
theorem join (h : Keeps ({v} + V) cs) (h' : Keeps ({w} + W) ds) :
    Keeps ({v ++ w} + (V + W)) (cs ++ ds) := by
  have happend := h.append h'
  refine ⟨?_, fun l hl => ?_⟩
  · rw [← happend.all]
    simp only [Multiset.map_add, Multiset.map_singleton, Multiset.sum_add, Multiset.sum_singleton,
      ← Multiset.coe_add]
    abel
  · rcases Multiset.mem_add.mp hl with hl | hl
    · obtain rfl := Multiset.mem_singleton.mp hl
      exact (h.order v (by simp)).append (h'.order w (by simp))
    · refine happend.order l ?_
      rcases Multiset.mem_add.mp hl with hl | hl <;> simp [hl]

/-- A list without comments makes no difference. -/
theorem nil_add_iff : Keeps ({[]} + V) cs ↔ Keeps V cs := by
  constructor
  · intro h
    exact ⟨by simpa using h.all, fun l hl => h.order l (by simp [hl])⟩
  · intro h
    refine ⟨by simpa using h.all, fun l hl => ?_⟩
    rcases Multiset.mem_add.mp hl with hl | hl
    · obtain rfl := Multiset.mem_singleton.mp hl
      exact List.nil_sublist cs
    · exact h.order l hl

end Keeps

namespace Grammar

variable {ts mid rest : List Token}

/-- The lists hold the comments that stand in front of `rest`. -/
def Gathers (lists : Multiset (List Comment)) (ts rest : List Token) : Prop :=
  ∃ cs, commentsOf ts = cs ++ commentsOf rest ∧ Keeps lists cs

namespace Gathers

theorem refl (ts : List Token) : Gathers 0 ts ts := ⟨[], rfl, .nil⟩

/-- What is read behind has lists of its own. -/
theorem trans (h : Gathers V ts mid) (h' : Gathers W mid rest) : Gathers (V + W) ts rest := by
  obtain ⟨cs, hts, hV⟩ := h
  obtain ⟨ds, hmid, hW⟩ := h'
  exact ⟨cs ++ ds, by rw [hts, hmid, List.append_assoc], hV.append hW⟩

theorem join (h : Gathers ({v} + V) ts mid) (h' : Gathers ({w} + W) mid rest) :
    Gathers ({v ++ w} + (V + W)) ts rest := by
  obtain ⟨cs, hts, hV⟩ := h
  obtain ⟨ds, hmid, hW⟩ := h'
  exact ⟨cs ++ ds, by rw [hts, hmid, List.append_assoc], hV.join hW⟩

/-- The comments directly in front go in front of a list. -/
theorem join_left (h : Gathers {v} ts mid) (h' : Gathers ({w} + W) mid rest) :
    Gathers ({v ++ w} + W) ts rest := by
  rw [← add_zero ({v} : Multiset (List Comment))] at h
  simpa only [zero_add] using h.join h'

/-- The comments directly behind go behind a list. -/
theorem join_right (h : Gathers ({v} + V) ts mid) (h' : Gathers {w} mid rest) :
    Gathers ({v ++ w} + V) ts rest := by
  rw [← add_zero ({w} : Multiset (List Comment))] at h'
  simpa only [add_zero] using h.join h'

/-- Other lists follow, and the one in front stays in front. -/
theorem extend (h : Gathers ({v} + V) ts mid) (h' : Gathers W mid rest) :
    Gathers ({v} + (V + W)) ts rest := by
  rw [← add_assoc]
  exact h.trans h'

theorem nil_add_iff : Gathers ({[]} + V) ts rest ↔ Gathers V ts rest := by
  simp only [Gathers, Keeps.nil_add_iff]

/-- Nothing is gathered on the way. -/
theorem then_none (h : Gathers V ts mid) (h' : Gathers 0 mid rest) : Gathers V ts rest := by
  simpa using h.trans h'

theorem none_then (h : Gathers 0 ts mid) (h' : Gathers V mid rest) : Gathers V ts rest := by
  simpa using h.trans h'

end Gathers

/-- Trivia that is passed over makes one list of its comments. -/
theorem gathers_skipTrivia (ts : List Token) : Gathers {commentsAhead ts} ts (skipTrivia ts) :=
  ⟨_, commentsOf_eq ts, .single _⟩

/-- A token brings the comments inside it. -/
theorem gathers_token {t : Token} (h : t.isEnd = false) (hV : Keeps V t.comments) :
    Gathers V (t :: ts) ts := ⟨_, commentsOf_cons ts h, hV⟩

theorem gathers_symbol {s : Symbol} {span : Span} : Gathers 0 (⟨.symbol s, span⟩ :: ts) ts :=
  gathers_token rfl .nil

theorem gathers_keyword {k : Keyword} {span : Span} : Gathers 0 (⟨.keyword k, span⟩ :: ts) ts :=
  gathers_token rfl .nil

/-- A mark that is required has line breaks in front of it, and no comments. -/
theorem gathers_expectSymbol {s : Symbol} {span : Span}
    (h : expectSymbol s ts = .ok (span, rest)) : Gathers 0 ts rest := by
  have hgathers : Gathers 0 (skipNewlines ts) rest := by
    rw [expectSymbol_eq_ok_iff.mp h]
    exact gathers_symbol
  rwa [Gathers, commentsOf_skipNewlines] at hgathers

theorem gathers_expectKeyword {k : Keyword} {span : Span}
    (h : expectKeyword k ts = .ok (span, rest)) : Gathers 0 ts rest := by
  have hgathers : Gathers 0 (skipNewlines ts) rest := by
    rw [expectKeyword_eq_ok_iff.mp h]
    exact gathers_keyword
  rwa [Gathers, commentsOf_skipNewlines] at hgathers

/-- The comments ahead, and then what the token behind them begins. -/
theorem gathers_of_skipTrivia_eq (h : skipTrivia ts = mid) (h' : Gathers V mid rest) :
    Gathers ({commentsAhead ts} + V) ts rest := by
  subst h
  exact (gathers_skipTrivia ts).trans h'

/-- Rounds gather what each of them gathers. -/
theorem Rounds.gathers {α : Type} {round : Rule (Option α)} {as : List α}
    {f : α → Multiset (List Comment)}
    (hround : ∀ {ts a rest}, round ts = .ok (some a, rest) → Gathers (f a) ts rest)
    (h : Rounds round ts as rest) : Gathers (as.map f).sum ts rest := by
  induction h with
  | nil => exact .refl _
  | cons head tail ih =>
    rw [List.map_cons, List.sum_cons]
    exact (hround head).trans ih

end Grammar

end NixSyntax
