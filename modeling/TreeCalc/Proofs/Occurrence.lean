import TreeCalc.Node.Induction

namespace TreeCalc

mutual

/-- All trees that occur in a tree, itself included, also those in the bodies of definitions. -/
def Node.subtrees : Node → List Node
  | .num x => [.num x]
  | .var x => [.var x]
  | .neg t => .neg t :: t.subtrees
  | .arith op l r => .arith op l r :: (l.subtrees ++ r.subtrees)
  | .compare op l r => .compare op l r :: (l.subtrees ++ r.subtrees)
  | .unary f t => .unary f t :: t.subtrees
  | .binary f l r => .binary f l r :: (l.subtrees ++ r.subtrees)
  | .list t ts => .list t ts :: (t.subtrees ++ Node.subtreesAll ts)
  | .assign x t => .assign x t :: t.subtrees
  | .cond t onTrue onFalse =>
    .cond t onTrue onFalse :: (t.subtrees ++ (Node.subtreesBranch onTrue ++ Node.subtreesBranch onFalse))
  | .seq s t => .seq s t :: (s.subtrees ++ t.subtrees)
  | .params ps => [.params ps]
  | .define id f ps t => .define id f ps t :: t.subtrees
  | .call f ts => .call f ts :: Node.subtreesAll ts

def Node.subtreesAll : List Node → List Node
  | [] => []
  | t :: ts => t.subtrees ++ Node.subtreesAll ts

def Node.subtreesBranch : Option Node → List Node
  | none => []
  | some t => t.subtrees

end

namespace Node

/-- The trees right below a node; a definition has its body below it. -/
def children : Node → List Node
  | .num _ | .var _ | .params _ => []
  | .neg t | .unary _ t | .assign _ t => [t]
  | .arith _ l r | .compare _ l r | .binary _ l r | .seq l r => [l, r]
  | .list t ts => t :: ts
  | .cond t onTrue onFalse => t :: (onTrue.toList ++ onFalse.toList)
  | .define _ _ _ body => [body]
  | .call _ args => args

theorem subtreesAll_eq (ts : List Node) : subtreesAll ts = ts.flatMap subtrees := by
  induction ts with
  | nil => rfl
  | cons t ts ih => rw [subtreesAll, List.flatMap_cons, ih]

theorem subtreesBranch_eq (branch : Option Node) : subtreesBranch branch = branch.toList.flatMap subtrees := by
  cases branch with
  | none => rfl
  | some t => simp [subtreesBranch]

theorem subtrees_eq (t : Node) : t.subtrees = t :: t.children.flatMap subtrees := by
  cases t <;> simp [subtrees, children, subtreesAll_eq, subtreesBranch_eq]

theorem mem_subtrees_of_child {s t child : Node} (member : child ∈ t.children) (inside : s ∈ child.subtrees) :
    s ∈ t.subtrees := by
  rw [subtrees_eq]
  exact List.mem_cons_of_mem _ (List.mem_flatMap.mpr ⟨child, member, inside⟩)

end Node

end TreeCalc
