import NixSyntax.Grammar.Operand

/-!
# Comments that move

Two rules move comments after they were read. A list gives those between two items to the second,
and a set gives those behind its last binding to that binding. Nothing else about the items and the
bindings changes, so whatever a function makes of a list of them without looking at these comments
stays the same.

A function that does look at the comments may change them one by one. Then it does not matter
whether the comments move first or are changed first.

## How they move

`passOnComments` goes through the items with the comments that are pending. They are put in front of
the next item, and that item's comments behind are pending then. `attachToLast` looks for the last
binding, and gives the comments back if there is none. Both are recursions with a case for one
element, and so are the inductions here.

## Main results

* `map_passOnComments`, `map_attachToLast`: for functions that do not look at the comments
* `forall_mem_passOnComments`, `forall_mem_attachToLast`, `exists_mem_passOnComments`,
  `exists_mem_attachToLast`: for properties that do not
* `passOnComments_map`, `attachToLast_map`: for functions that change the comments one by one
-/

namespace NixSyntax

namespace Grammar

variable {β : Type}

/-! ### Functions that do not look at comments -/

/-- The items of a list are the same up to their comments. -/
theorem map_passOnComments {f : Operand → β}
    (hf : ∀ (o : Operand) before after, f { o with before, after } = f o)
    (pending : List Comment) (os : List Operand) :
    (passOnComments pending os).map f = os.map f := by
  induction os generalizing pending with
  | nil => rfl
  | cons o os ih =>
    cases os with
    | nil => simpa [passOnComments] using hf o (pending ++ o.before) o.after
    | cons p os =>
      rw [passOnComments, List.map_cons, ih, hf o (pending ++ o.before) []]
      rfl

/-- So are the bindings of a set. -/
theorem map_attachToLast {f : Binding → β} (hf : ∀ (b : Binding) more, f (b.addComments more) = f b)
    (more : List Comment) (bs : List Binding) : (attachToLast more bs).1.map f = bs.map f := by
  induction bs with
  | nil => rfl
  | cons b bs ih =>
    cases bs with
    | nil => simpa [attachToLast] using hf b more
    | cons c bs => simpa [attachToLast] using ih

/-- What holds of operands whatever their comments are, holds of them when comments have moved. -/
theorem forall_mem_passOnComments {P : Operand → Prop}
    (hP : ∀ (o : Operand) before after, P { o with before, after } ↔ P o)
    (pending : List Comment) (os : List Operand) :
    (∀ o ∈ passOnComments pending os, P o) ↔ ∀ o ∈ os, P o := by
  have hmap := map_passOnComments (fun o before after => propext (hP o before after)) pending os
  calc (∀ o ∈ passOnComments pending os, P o)
      ↔ ∀ q ∈ (passOnComments pending os).map P, q := (List.forall_mem_map (P := id)).symm
    _ ↔ ∀ q ∈ os.map P, q := by rw [hmap]
    _ ↔ ∀ o ∈ os, P o := List.forall_mem_map (P := id)

/-- What holds of bindings whatever their comments are, holds of them when comments were added. -/
theorem forall_mem_attachToLast {P : Binding → Prop}
    (hP : ∀ (b : Binding) more, P (b.addComments more) ↔ P b) (more : List Comment)
    (bs : List Binding) : (∀ b ∈ (attachToLast more bs).1, P b) ↔ ∀ b ∈ bs, P b := by
  have hmap := map_attachToLast (fun b more => propext (hP b more)) more bs
  calc (∀ b ∈ (attachToLast more bs).1, P b)
      ↔ ∀ q ∈ (attachToLast more bs).1.map P, q := (List.forall_mem_map (P := id)).symm
    _ ↔ ∀ q ∈ bs.map P, q := by rw [hmap]
    _ ↔ ∀ b ∈ bs, P b := List.forall_mem_map (P := id)

theorem exists_mem_passOnComments {P : Operand → Prop}
    (hP : ∀ (o : Operand) before after, P { o with before, after } ↔ P o)
    (pending : List Comment) (os : List Operand) :
    (∃ o ∈ passOnComments pending os, P o) ↔ ∃ o ∈ os, P o := by
  -- that there is none is a property of all of them
  have hnone := forall_mem_passOnComments (P := fun o => ¬P o)
    (fun o before after => not_congr (hP o before after)) pending os
  simpa using not_congr hnone

theorem exists_mem_attachToLast {P : Binding → Prop}
    (hP : ∀ (b : Binding) more, P (b.addComments more) ↔ P b) (more : List Comment)
    (bs : List Binding) : (∃ b ∈ (attachToLast more bs).1, P b) ↔ ∃ b ∈ bs, P b := by
  have hnone := forall_mem_attachToLast (P := fun b => ¬P b)
    (fun b more => not_congr (hP b more)) more bs
  simpa using not_congr hnone

section

variable {c : List Comment → List Comment} (hnil : c [] = [])
  (happend : ∀ cs ds, c (cs ++ ds) = c cs ++ c ds)

/-! ### Functions that change comments one by one

`c` is what is done to some comments. It must not matter whether this is done to two lists of
comments or to the two joined. -/

include hnil happend in
/-- Items may be changed before their comments move or afterwards. -/
theorem passOnComments_map {f : Operand → Operand}
    (hf : ∀ (o : Operand) before after,
      f { o with before, after } = { f o with before := c before, after := c after })
    (hbefore : ∀ o, (f o).before = c o.before) (hafter : ∀ o, (f o).after = c o.after)
    (pending : List Comment) (os : List Operand) :
    passOnComments (c pending) (os.map f) = (passOnComments pending os).map f := by
  induction os generalizing pending with
  | nil => rfl
  | cons o os ih =>
    cases os with
    | nil =>
      have ho := hf o (pending ++ o.before) o.after
      rw [← hafter] at ho
      simp [passOnComments, hbefore, ho, happend]
    | cons p os =>
      have ho := hf o (pending ++ o.before) []
      have htail := ih o.after
      rw [List.map_cons] at htail
      simp [passOnComments, hbefore, hafter, ho, happend, hnil, htail]

include hnil in
/-- So may bindings, and the comments that are left over. -/
theorem attachToLast_map {f : Binding → Binding}
    (hf : ∀ (b : Binding) more, f (b.addComments more) = (f b).addComments (c more))
    (more : List Comment) (bs : List Binding) : attachToLast (c more) (bs.map f) =
      ((attachToLast more bs).1.map f, c (attachToLast more bs).2) := by
  induction bs with
  | nil => rfl
  | cons b bs ih =>
    cases bs with
    | nil => simp [attachToLast, hf, hnil]
    | cons d bs =>
      rw [List.map_cons, List.map_cons, attachToLast, ← List.map_cons, ih]
      simp [attachToLast]

end

end Grammar

end NixSyntax
