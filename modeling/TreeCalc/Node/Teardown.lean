import TreeCalc.Node.Basic

namespace TreeCalc

mutual

/-- How many nodes a tree has, those in the bodies of its definitions included. -/
def Node.size : Node → Nat
  | .num _ => 1
  | .var _ => 1
  | .neg t => 1 + t.size
  | .arith _ l r => 1 + l.size + r.size
  | .compare _ l r => 1 + l.size + r.size
  | .unary _ t => 1 + t.size
  | .binary _ l r => 1 + l.size + r.size
  | .list t ts => 1 + t.size + Node.sizeAll ts
  | .assign _ t => 1 + t.size
  | .cond t onTrue onFalse => 1 + t.size + Node.sizeBranch onTrue + Node.sizeBranch onFalse
  | .seq s t => 1 + s.size + t.size
  | .params _ => 1
  | .define _ _ _ t => 1 + t.size
  | .call _ ts => 1 + Node.sizeAll ts

def Node.sizeAll : List Node → Nat
  | [] => 0
  | t :: ts => t.size + Node.sizeAll ts

def Node.sizeBranch : Option Node → Nat
  | none => 0
  | some t => t.size

end

namespace Node

/-- What is left in the place of a child that was taken out. -/
def placeholder : Node := .num 0.0

/-- Takes a node's children out of it and puts them on the pending ones, the last child on top. A definition
keeps its body, which belongs to all its handles. -/
def detach (t : Node) (pending : List Node) : Node × List Node :=
  match t with
  | .neg a => (.neg placeholder, a :: pending)
  | .arith op a b => (.arith op placeholder placeholder, b :: a :: pending)
  | .compare op a b => (.compare op placeholder placeholder, b :: a :: pending)
  | .unary f a => (.unary f placeholder, a :: pending)
  | .binary f a b => (.binary f placeholder placeholder, b :: a :: pending)
  | .list a as => (.list placeholder [], as.reverse ++ a :: pending)
  | .assign x a => (.assign x placeholder, a :: pending)
  | .cond a onTrue onFalse => (.cond placeholder none none, onFalse.toList ++ onTrue.toList ++ a :: pending)
  | .seq a b => (.seq placeholder placeholder, b :: a :: pending)
  | .call f as => (.call f (if as.isEmpty then [] else [placeholder]), as.reverse ++ pending)
  | .num _ | .var _ | .params _ | .define .. => (t, pending)

theorem size_pos (t : Node) : 0 < t.size := by
  cases t <;> simp only [size] <;> omega

theorem sizeAll_append (ss ts : List Node) : sizeAll (ss ++ ts) = sizeAll ss + sizeAll ts := by
  induction ss with
  | nil => simp [sizeAll]
  | cons s ss ih => simp only [List.cons_append, sizeAll, ih]; omega

theorem sizeAll_reverse (ts : List Node) : sizeAll ts.reverse = sizeAll ts := by
  induction ts with
  | nil => rfl
  | cons t ts ih => simp only [List.reverse_cons, sizeAll_append, sizeAll, ih]; omega

theorem sizeAll_toList (branch : Option Node) : sizeAll branch.toList = sizeBranch branch := by
  cases branch <;> simp [sizeAll, sizeBranch]

/-- Detaching takes one node away from what is still to be taken apart. -/
theorem sizeAll_detach_lt (t : Node) (pending : List Node) :
    sizeAll (t.detach pending).2 < sizeAll (t :: pending) := by
  have positive := t.size_pos
  cases t <;>
    simp only [detach, sizeAll, size, sizeAll_append, sizeAll_reverse, sizeAll_toList] at * <;> omega

/-- Takes apart all pending trees, one node at a time and without recursion into a tree, and gives the bare
nodes in the order in which they come off, after those in `bare`. -/
def teardown (pending bare : List Node) : List Node :=
  match pending with
  | [] => bare.reverse
  | t :: pending =>
    let step := t.detach pending
    teardown step.2 (step.1 :: bare)
termination_by sizeAll pending
decreasing_by exact sizeAll_detach_lt _ _

/-- The definitions made in a tree, without those in the bodies of others. -/
def definitions (t : Node) : List Definition := (teardown [t] []).filterMap definition?

end Node

end TreeCalc
