import TreeCalc.Node.Basic

namespace TreeCalc.Node

/-- Induction on trees: what passes from all children of a node to the node, the body of a definition being a
child too, holds of every tree. -/
@[induction_eliminator]
theorem induct {motive : Node → Prop}
    (num : ∀ value, motive (.num value))
    (var : ∀ name, motive (.var name))
    (neg : ∀ operand, motive operand → motive (.neg operand))
    (arith : ∀ op left right, motive left → motive right → motive (.arith op left right))
    (compare : ∀ op left right, motive left → motive right → motive (.compare op left right))
    (unary : ∀ func operand, motive operand → motive (.unary func operand))
    (binary : ∀ func left right, motive left → motive right → motive (.binary func left right))
    (list : ∀ head tail, motive head → (∀ t ∈ tail, motive t) → motive (.list head tail))
    (assign : ∀ name value, motive value → motive (.assign name value))
    (cond : ∀ test onTrue onFalse, motive test → (∀ t ∈ onTrue, motive t) → (∀ t ∈ onFalse, motive t) →
      motive (.cond test onTrue onFalse))
    (seq : ∀ first second, motive first → motive second → motive (.seq first second))
    (params : ∀ names, motive (.params names))
    (define : ∀ id name params body, motive body → motive (.define id name params body))
    (call : ∀ name args, (∀ t ∈ args, motive t) → motive (.call name args)) (t : Node) : motive t :=
  @Node.rec motive (fun ts => ∀ t ∈ ts, motive t) (fun branch => ∀ t ∈ branch, motive t)
    num var neg arith compare unary binary list assign cond seq params define call
    (fun _ member => absurd member (List.not_mem_nil))
    (fun _ _ first rest _ member => (List.mem_cons.mp member).elim (fun same => same ▸ first) (rest _))
    (fun _ member => nomatch member)
    (fun _ inside _ member => Option.some.inj member ▸ inside) t

end TreeCalc.Node
