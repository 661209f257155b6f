import TreeCalc.Node.Basic

namespace TreeCalc

mutual

/-- Gives every definition in a tree an identity of its own, counting on from `next`, and says which identity is
the next one free. The statements before the tree, the last one first, are put in front of it. -/
def Node.stampAfter (next : Nat) (earlier : List Node) : Node → Node × Nat
  | .num x => (Node.after (.num x) earlier, next)
  | .var x => (Node.after (.var x) earlier, next)
  | .neg t =>
    let (t, next) := t.stampAfter next []
    (Node.after (.neg t) earlier, next)
  | .arith op l r =>
    let (l, next) := l.stampAfter next []
    let (r, next) := r.stampAfter next []
    (Node.after (.arith op l r) earlier, next)
  | .compare op l r =>
    let (l, next) := l.stampAfter next []
    let (r, next) := r.stampAfter next []
    (Node.after (.compare op l r) earlier, next)
  | .unary f t =>
    let (t, next) := t.stampAfter next []
    (Node.after (.unary f t) earlier, next)
  | .binary f l r =>
    let (l, next) := l.stampAfter next []
    let (r, next) := r.stampAfter next []
    (Node.after (.binary f l r) earlier, next)
  | .list t ts =>
    let (t, next) := t.stampAfter next []
    let (ts, next) := Node.stampAll next ts
    (Node.after (.list t ts) earlier, next)
  | .assign x t =>
    let (t, next) := t.stampAfter next []
    (Node.after (.assign x t) earlier, next)
  | .cond t onTrue onFalse =>
    let (t, next) := t.stampAfter next []
    let (onTrue, next) := Node.stampBranch next onTrue
    let (onFalse, next) := Node.stampBranch next onFalse
    (Node.after (.cond t onTrue onFalse) earlier, next)
  | .seq s t =>
    let (s, next) := s.stampAfter next []
    t.stampAfter next (s :: earlier)
  | .params ps => (Node.after (.params ps) earlier, next)
  | .define _ f ps t =>
    let (t, next) := t.stampAfter next []
    (Node.after (.define next f ps t) earlier, next + 1)
  | .call f ts =>
    let (ts, next) := Node.stampAll next ts
    (Node.after (.call f ts) earlier, next)

def Node.stampAll (next : Nat) : List Node → List Node × Nat
  | [] => ([], next)
  | t :: ts =>
    let (t, next) := t.stampAfter next []
    let (ts, next) := Node.stampAll next ts
    (t :: ts, next)

def Node.stampBranch (next : Nat) : Option Node → Option Node × Nat
  | none => (none, next)
  | some t =>
    let (t, next) := t.stampAfter next []
    (some t, next)

end

/-- Gives every definition in a tree an identity of its own, counting on from `next`. -/
def Node.stamp (t : Node) (next : Nat) : Node × Nat := t.stampAfter next []

end TreeCalc
