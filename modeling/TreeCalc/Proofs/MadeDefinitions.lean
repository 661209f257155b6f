import TreeCalc.Handles
import TreeCalc.Proofs.Occurrence

namespace TreeCalc

mutual

/-- The definitions made in a tree outside the bodies of others, from right to left. -/
def Node.made : Node → List Definition
  | .num _ | .var _ | .params _ => []
  | .neg t => t.made
  | .arith _ l r => r.made ++ l.made
  | .compare _ l r => r.made ++ l.made
  | .unary _ t => t.made
  | .binary _ l r => r.made ++ l.made
  | .list t ts => Node.madeAll ts ++ t.made
  | .assign _ t => t.made
  | .cond t onTrue onFalse => Node.madeBranch onFalse ++ (Node.madeBranch onTrue ++ t.made)
  | .seq s t => t.made ++ s.made
  | .define id f ps t => [⟨id, f, ps, t⟩]
  | .call _ ts => Node.madeAll ts

def Node.madeAll : List Node → List Definition
  | [] => []
  | t :: ts => Node.madeAll ts ++ t.made

def Node.madeBranch : Option Node → List Definition
  | none => []
  | some t => t.made

end

namespace Node

theorem madeAll_eq (ts : List Node) : madeAll ts = ts.reverse.flatMap made := by
  induction ts with
  | nil => rfl
  | cons t ts ih => simp [madeAll, ih]

theorem madeBranch_eq (branch : Option Node) : madeBranch branch = branch.toList.flatMap made := by
  cases branch with
  | none => rfl
  | some t => simp [madeBranch]

theorem made_detach (t : Node) (pending : List Node) :
    (t.detach pending).1.definition?.toList ++ (t.detach pending).2.flatMap made =
      t.made ++ pending.flatMap made := by
  cases t <;> simp [detach, definition?, made, madeAll_eq, madeBranch_eq]

theorem definition?_teardown (pending bare : List Node) :
    (teardown pending bare).filterMap definition? =
      (bare.filterMap definition?).reverse ++ pending.flatMap made := by
  fun_induction teardown pending bare with
  | case1 bare => simp [List.filterMap_reverse]
  | case2 bare t pending step ih =>
    have one := made_detach t pending
    rw [ih, List.flatMap_cons, ← one]
    cases made : step.1.definition? <;> simp [step, made]

/-- Taking a tree apart node by node finds the definitions made in it. -/
theorem definitions_eq_made (t : Node) : t.definitions = t.made := by
  simp [definitions, definition?_teardown]

/-- All definitions made in a tree, also in the bodies of others. -/
def nested (t : Node) : List Definition := t.subtrees.filterMap definition?

theorem nested_eq (t : Node) : t.nested = t.definition?.toList ++ t.children.flatMap nested := by
  have parts : t.nested = (t :: t.children.flatMap subtrees).filterMap definition? := by
    rw [nested, ← subtrees_eq]
  rw [parts, List.filterMap_cons, List.filterMap_flatMap]
  cases t.definition? <;> rfl

theorem induct_children {motive : Node → Prop} (step : ∀ t, (∀ c ∈ t.children, motive c) → motive t) (t : Node) :
    motive t := by
  induction t with
  | num | var | params => exact step _ (by simp [children])
  | neg _ h | unary _ _ h | assign _ _ h | define _ _ _ _ h => exact step _ (by simpa [children] using h)
  | arith _ _ _ h k | compare _ _ _ h k | binary _ _ _ h k | seq _ _ h k =>
    exact step _ (by simpa [children] using ⟨h, k⟩)
  | list _ _ h k => exact step _ (by simpa [children] using ⟨h, k⟩)
  | call _ _ h => exact step _ h
  | cond test onTrue onFalse h k l =>
    refine step _ ?_
    intro c member
    simp only [children, List.mem_cons, List.mem_append, Option.mem_toList] at member
    rcases member with rfl | first | second
    · exact h
    · exact k c first
    · exact l c second

theorem mem_made {d : Definition} {t : Node} :
    d ∈ t.made ↔ t = d.toNode ∨ t.definition? = none ∧ ∃ c ∈ t.children, d ∈ c.made := by
  cases t with
  | define id f ps body =>
    obtain ⟨i, g, qs, b⟩ := d
    simp [made, definition?, Definition.toNode, eq_comm]
  | cond test onTrue onFalse =>
    simp only [made, madeBranch_eq, definition?, Definition.toNode, children]
    simp only [List.mem_append, List.mem_flatMap, List.mem_cons, reduceCtorEq, false_or, true_and, or_and_right,
      exists_or, exists_eq_left]
    grind
  | _ => simp [made, madeAll_eq, definition?, Definition.toNode, children, or_comm]

theorem mem_nested {d : Definition} {t : Node} : d ∈ t.nested ↔ t = d.toNode ∨ ∃ c ∈ t.children, d ∈ c.nested := by
  rw [nested_eq, List.mem_append, List.mem_flatMap]
  have own : d ∈ t.definition?.toList ↔ t = d.toNode := by
    cases t with
    | define id f ps body =>
      obtain ⟨i, g, qs, b⟩ := d
      simp [definition?, Definition.toNode, eq_comm]
    | _ => simp [definition?, Definition.toNode]
  rw [own]

/-- What holds of the definitions made in a tree, and passes from a definition to those made in its body, holds of
all definitions in the tree. -/
theorem forall_nested {P : Definition → Prop} (closed : ∀ d, P d → ∀ e ∈ d.body.made, P e) (t : Node)
    (outer : ∀ d ∈ t.made, P d) : ∀ d ∈ t.nested, P d := by
  induction t using induct_children with
  | step t ih =>
    intro d member
    rcases mem_nested.mp member with rfl | ⟨c, child, inside⟩
    · exact outer d (mem_made.mpr (Or.inl rfl))
    · refine ih c child ?_ d inside
      intro e below
      cases own : t.definition? with
      | none => exact outer e (mem_made.mpr (Or.inr ⟨own, c, child, below⟩))
      | some f =>
        obtain ⟨i, g, ps, body, rfl⟩ : ∃ i g ps body, t = .define i g ps body := by
          cases t <;> simp [definition?] at own ⊢
        have same : c = body := by simpa [children] using child
        have first := outer ⟨i, g, ps, body⟩ (mem_made.mpr (Or.inl rfl))
        exact closed _ first e (same ▸ below)

theorem made_subset_nested (t : Node) : ∀ d ∈ t.made, d ∈ t.nested := by
  induction t using induct_children with
  | step t ih =>
    intro d member
    rcases mem_made.mp member with own | ⟨-, c, child, inside⟩
    · exact mem_nested.mpr (Or.inl own)
    · exact mem_nested.mpr (Or.inr ⟨c, child, ih c child d inside⟩)

theorem nested_closed {t : Node} {d e : Definition} (member : d ∈ t.nested) (inside : e ∈ d.body.made) :
    e ∈ t.nested := by
  induction t using induct_children with
  | step t ih =>
    rcases mem_nested.mp member with rfl | ⟨c, child, below⟩
    · exact mem_nested.mpr (Or.inr ⟨d.body, by simp [children, Definition.toNode], made_subset_nested _ e inside⟩)
    · exact mem_nested.mpr (Or.inr ⟨c, child, ih c child below⟩)

end Node

end TreeCalc
