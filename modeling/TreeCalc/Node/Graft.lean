import TreeCalc.Node.Basic

namespace TreeCalc

mutual

/-- Puts a tree into another one, in the place of the first variable of that name. What stands in the body of a
definition is no such place: others may hold the definition. -/
def Node.graftInto (inner : Node) (hole : String) : Node → Option Node
  | .num _ | .params _ | .define .. => none
  | .var x => if x = hole then some inner else none
  | .neg t => (inner.graftInto hole t).map .neg
  | .arith op l r => ((inner.graftInto hole l).map (.arith op · r)).or ((inner.graftInto hole r).map (.arith op l))
  | .compare op l r =>
    ((inner.graftInto hole l).map (.compare op · r)).or ((inner.graftInto hole r).map (.compare op l))
  | .unary f t => (inner.graftInto hole t).map (.unary f)
  | .binary f l r => ((inner.graftInto hole l).map (.binary f · r)).or ((inner.graftInto hole r).map (.binary f l))
  | .list t ts => ((inner.graftInto hole t).map (.list · ts)).or ((inner.graftIntoAll hole ts).map (.list t))
  | .assign x t => (inner.graftInto hole t).map (.assign x)
  | .cond t onTrue onFalse =>
    ((inner.graftInto hole t).map (.cond · onTrue onFalse)).or
      (((inner.graftIntoBranch hole onTrue).map (.cond t · onFalse)).or
        ((inner.graftIntoBranch hole onFalse).map (.cond t onTrue)))
  | .seq s t => ((inner.graftInto hole s).map (.seq · t)).or ((inner.graftInto hole t).map (.seq s))
  | .call f ts => (inner.graftIntoAll hole ts).map (.call f)

def Node.graftIntoAll (inner : Node) (hole : String) : List Node → Option (List Node)
  | [] => none
  | t :: ts => ((inner.graftInto hole t).map (· :: ts)).or ((inner.graftIntoAll hole ts).map (t :: ·))

def Node.graftIntoBranch (inner : Node) (hole : String) : Option Node → Option (Option Node)
  | none => none
  | some t => (inner.graftInto hole t).map some

end

end TreeCalc
