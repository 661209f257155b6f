import TreeCalc.Node.Stamp
import TreeCalc.Proofs.MadeDefinitions

namespace TreeCalc

theorem Definition.eq_of_id {ds : List Definition} (distinct : ds.Pairwise (·.id ≠ ·.id)) {d e : Definition}
    (left : d ∈ ds) (right : e ∈ ds) (same : d.id = e.id) : d = e := by
  induction distinct with
  | nil => cases left
  | cons apart _ ih =>
    rcases List.mem_cons.mp left with rfl | inLeft
    · rcases List.mem_cons.mp right with rfl | inRight
      · rfl
      · exact absurd same (apart e inRight)
    · rcases List.mem_cons.mp right with rfl | inRight
      · exact absurd same.symm (apart d inLeft)
      · exact ih inLeft inRight

/-- Definitions with identities of their own, all from a range. -/
structure Fresh (first next : Nat) (ds : List Definition) : Prop where
  range : ∀ d ∈ ds, first ≤ d.id ∧ d.id < next
  distinct : ds.Pairwise (·.id ≠ ·.id)

namespace Fresh

theorem nil (first next : Nat) : Fresh first next [] := ⟨by simp, .nil⟩

theorem append {first middle next : Nat} {ds es : List Definition} (left : Fresh first middle ds)
    (right : Fresh middle next es) (lower : first ≤ middle) (upper : middle ≤ next) :
    Fresh first next (ds ++ es) := by
  refine ⟨?_, ?_⟩
  · intro d member
    rcases List.mem_append.mp member with inLeft | inRight
    · have bounds := left.range d inLeft
      omega
    · have bounds := right.range d inRight
      omega
  · refine List.pairwise_append.mpr ⟨left.distinct, right.distinct, ?_⟩
    intro d inLeft e inRight
    have below := left.range d inLeft
    have above := right.range e inRight
    omega

theorem cons {first next : Nat} {ds : List Definition} (fresh : Fresh first next ds) (d : Definition)
    (own : d.id = next) (lower : first ≤ next) : Fresh first (next + 1) (d :: ds) := by
  refine ⟨?_, ?_⟩
  · intro e member
    rcases List.mem_cons.mp member with rfl | inside
    · omega
    · have bounds := fresh.range e inside
      omega
  · refine List.pairwise_cons.mpr ⟨?_, fresh.distinct⟩
    intro e inside
    have bounds := fresh.range e inside
    omega

end Fresh

namespace Node

/-- The statements in front do not matter for the identities that the tree gets. -/
theorem stampAfter_eq (t : Node) (next : Nat) (earlier : List Node) :
    t.stampAfter next earlier = ((t.stamp next).1.after earlier, (t.stamp next).2) := by
  induction t generalizing next earlier with
  | seq s t _ ih =>
    simp only [stamp, stampAfter]
    rw [ih, ih _ [_]]
    rfl
  | _ => rfl

theorem stamp_seq (s t : Node) (next : Nat) :
    (Node.seq s t).stamp next =
      (.seq (s.stamp next).1 (t.stamp (s.stamp next).2).1, (t.stamp (s.stamp next).2).2) := by
  exact stampAfter_eq t (s.stamp next).2 [(s.stamp next).1]

/-- What stamping is to give: identities from the given one on, none of them twice. -/
def StampsFresh (t : Node) : Prop :=
  ∀ next, next ≤ (t.stamp next).2 ∧ Fresh next (t.stamp next).2 (t.stamp next).1.nested

theorem stampsFresh_all {ts : List Node} (each : ∀ t ∈ ts, t.StampsFresh) (next : Nat) :
    next ≤ (stampAll next ts).2 ∧ Fresh next (stampAll next ts).2 ((stampAll next ts).1.flatMap nested) := by
  induction ts generalizing next with
  | nil => exact ⟨Nat.le_refl next, .nil next next⟩
  | cons t ts ih =>
    obtain ⟨lower, first⟩ := each t List.mem_cons_self next
    obtain ⟨upper, rest⟩ := ih (fun s member => each s (List.mem_cons_of_mem t member)) (t.stamp next).2
    have all := first.append rest lower upper
    exact ⟨Nat.le_trans lower upper, by simpa [stampAll, stamp] using all⟩

theorem stampsFresh_branch {branch : Option Node} (each : ∀ t ∈ branch, t.StampsFresh) (next : Nat) :
    next ≤ (stampBranch next branch).2 ∧
      Fresh next (stampBranch next branch).2 ((stampBranch next branch).1.toList.flatMap nested) := by
  cases branch with
  | none => exact ⟨Nat.le_refl next, .nil next next⟩
  | some t =>
    obtain ⟨lower, fresh⟩ := each t rfl next
    exact ⟨lower, by simpa [stampBranch, stamp] using fresh⟩

/-- Stamping gives every definition in a tree an identity of its own, from the given one on. -/
theorem stampsFresh (t : Node) : t.StampsFresh := by
  induction t with
  | num | var | params => exact fun next => ⟨Nat.le_refl next, .nil next next⟩
  | neg t ih | unary f t ih | assign x t ih =>
    intro next
    obtain ⟨lower, fresh⟩ := ih next
    refine ⟨lower, ?_⟩
    rw [nested_eq]
    simpa [stamp, stampAfter, after, definition?, children] using fresh
  | arith op l r left right | compare op l r left right | binary f l r left right =>
    intro next
    obtain ⟨lower, first⟩ := left next
    obtain ⟨upper, second⟩ := right (l.stamp next).2
    refine ⟨Nat.le_trans lower upper, ?_⟩
    rw [nested_eq]
    simpa [stamp, stampAfter, after, definition?, children] using first.append second lower upper
  | seq s t left right =>
    intro next
    obtain ⟨lower, first⟩ := left next
    obtain ⟨upper, second⟩ := right (s.stamp next).2
    rw [stamp_seq]
    refine ⟨Nat.le_trans lower upper, ?_⟩
    rw [nested_eq]
    simpa [definition?, children] using first.append second lower upper
  | define id f ps body ih =>
    intro next
    obtain ⟨lower, fresh⟩ := ih next
    refine ⟨Nat.le_succ_of_le lower, ?_⟩
    rw [nested_eq]
    have around := fresh.cons ⟨(body.stamp next).2, f, ps, (body.stamp next).1⟩ rfl lower
    simpa [stamp, stampAfter, after, definition?, children] using around
  | list t ts head tail =>
    intro next
    obtain ⟨lower, first⟩ := head next
    obtain ⟨upper, rest⟩ := stampsFresh_all tail (t.stamp next).2
    refine ⟨Nat.le_trans lower upper, ?_⟩
    rw [nested_eq]
    simpa [stamp, stampAfter, after, definition?, children] using first.append rest lower upper
  | call f ts each =>
    intro next
    obtain ⟨lower, all⟩ := stampsFresh_all each next
    refine ⟨lower, ?_⟩
    rw [nested_eq]
    simpa [stamp, stampAfter, after, definition?, children] using all
  | cond t onTrue onFalse test first second =>
    intro next
    obtain ⟨lower, tested⟩ := test next
    obtain ⟨middle, taken⟩ := stampsFresh_branch first (t.stamp next).2
    obtain ⟨upper, other⟩ := stampsFresh_branch second (stampBranch (t.stamp next).2 onTrue).2
    have branches := taken.append other middle upper
    refine ⟨Nat.le_trans lower (Nat.le_trans middle upper), ?_⟩
    rw [nested_eq]
    simpa [stamp, stampAfter, after, definition?, children] using
      tested.append branches lower (Nat.le_trans middle upper)

end Node

end TreeCalc
