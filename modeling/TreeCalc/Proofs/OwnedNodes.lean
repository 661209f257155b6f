import Mathlib.Data.List.Perm.Basic
import TreeCalc.Proofs.MadeDefinitions

namespace TreeCalc

mutual

/-- The nodes that go when a tree goes, each with all below it: the tree itself and then those of its parts from
left to right, as a recursion over the tree meets them. The body of a definition is not among them, for it belongs
to all its handles. -/
def Node.owned : Node → List Node
  | .num x => [.num x]
  | .var x => [.var x]
  | .neg t => .neg t :: t.owned
  | .arith op l r => .arith op l r :: (l.owned ++ r.owned)
  | .compare op l r => .compare op l r :: (l.owned ++ r.owned)
  | .unary f t => .unary f t :: t.owned
  | .binary f l r => .binary f l r :: (l.owned ++ r.owned)
  | .list t ts => .list t ts :: (t.owned ++ Node.ownedAll ts)
  | .assign x t => .assign x t :: t.owned
  | .cond t onTrue onFalse =>
    .cond t onTrue onFalse :: (t.owned ++ (Node.ownedBranch onTrue ++ Node.ownedBranch onFalse))
  | .seq s t => .seq s t :: (s.owned ++ t.owned)
  | .params ps => [.params ps]
  | .define id f ps t => [.define id f ps t]
  | .call f ts => .call f ts :: Node.ownedAll ts

def Node.ownedAll : List Node → List Node
  | [] => []
  | t :: ts => t.owned ++ Node.ownedAll ts

def Node.ownedBranch : Option Node → List Node
  | none => []
  | some t => t.owned

end

namespace Node

/-- The trees that a node alone holds: its children, unless it is a definition. -/
def parts : Node → List Node
  | .define .. => []
  | t => t.children

theorem mem_children_of_part {t part : Node} (member : part ∈ t.parts) : part ∈ t.children := by
  cases t with
  | define => cases member
  | _ => exact member

theorem ownedAll_eq (ts : List Node) : ownedAll ts = ts.flatMap owned := by
  induction ts with
  | nil => rfl
  | cons t ts ih => rw [ownedAll, List.flatMap_cons, ih]

theorem ownedBranch_eq (branch : Option Node) : ownedBranch branch = branch.toList.flatMap owned := by
  cases branch with
  | none => rfl
  | some t => simp [ownedBranch]

theorem owned_eq (t : Node) : t.owned = t :: t.parts.flatMap owned := by
  cases t <;> simp [owned, parts, children, ownedAll_eq, ownedBranch_eq]

theorem made_eq (t : Node) : t.made = t.definition?.toList ++ t.parts.reverse.flatMap made := by
  cases t with
  | cond test onTrue onFalse =>
    cases onTrue <;> cases onFalse <;> simp [made, madeBranch, definition?, parts, children]
  | _ => simp [made, definition?, parts, children, madeAll_eq]

/-- The definitions made in a tree are the nodes of definitions that go with it. -/
theorem definition?_owned (t : Node) : (t.owned.filterMap definition?).Perm t.made := by
  induction t using induct_children with
  | step t ih =>
    have inside : (t.parts.flatMap fun c => c.owned.filterMap definition?).Perm (t.parts.reverse.flatMap made) :=
      (List.Perm.flatMap_left _ fun c member => ih c (mem_children_of_part member)).trans
        ((List.reverse_perm _).symm.flatMap_right _)
    rw [owned_eq, made_eq, List.filterMap_cons, List.filterMap_flatMap]
    cases t.definition? with
    | none => exact inside
    | some d => exact inside.cons d

/-- What is left of a node when its parts have been taken out. -/
def bare (t : Node) : Node := (t.detach []).1

/-- The expressions in a list after the first one. -/
def tail : Node → List Node
  | .list _ ts => ts
  | .call _ ts => ts.tail
  | _ => []

/-- Taking out the parts of a node puts all of them on the pending trees, the last part on top. -/
theorem detach_eq (t : Node) (pending : List Node) : t.detach pending = (t.bare, t.parts.reverse ++ pending) := by
  cases t with
  | cond test onTrue onFalse => cases onTrue <;> cases onFalse <;> rfl
  | _ => simp [detach, bare, parts, children]

theorem parts_bare (t : Node) : ∀ part ∈ t.bare.parts, part = placeholder := by
  cases t with
  | call f ts => cases ts <;> simp [bare, detach, parts, children]
  | _ => simp [bare, detach, parts, children]

theorem tail_bare (t : Node) : t.bare.tail = [] := by
  cases t with
  | call f ts => cases ts <;> rfl
  | _ => rfl

theorem bare_bare (t : Node) : t.bare.bare = t.bare := by
  cases t with
  | call f ts => cases ts <;> rfl
  | _ => rfl

theorem definition?_bare (t : Node) : t.bare.definition? = t.definition? := by
  cases t <;> rfl

end Node

end TreeCalc
