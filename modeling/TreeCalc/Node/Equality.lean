import TreeCalc.Node.Basic

namespace TreeCalc

mutual

/-- Equality by content: numbers compare as floats, so that a tree with NaN in it differs from itself, and the
identities of definitions do not matter. -/
def Node.same : Node → Node → Bool
  | .num x, .num y => x == y
  | .var x, .var y => x == y
  | .neg s, .neg t => s.same t
  | .arith f s₁ s₂, .arith g t₁ t₂ => f == g && s₁.same t₁ && s₂.same t₂
  | .compare f s₁ s₂, .compare g t₁ t₂ => f == g && s₁.same t₁ && s₂.same t₂
  | .unary f s, .unary g t => f == g && s.same t
  | .binary f s₁ s₂, .binary g t₁ t₂ => f == g && s₁.same t₁ && s₂.same t₂
  | .list s ss, .list t ts => s.same t && Node.sameAll ss ts
  | .assign x s, .assign y t => x == y && s.same t
  | .cond s s₁ s₂, .cond t t₁ t₂ => s.same t && Node.sameBranch s₁ t₁ && Node.sameBranch s₂ t₂
  | .seq s₁ s₂, .seq t₁ t₂ => s₁.same t₁ && s₂.same t₂
  | .params ps, .params qs => ps == qs
  | .define _ f ps s, .define _ g qs t => f == g && ps == qs && s.same t
  | .call f ss, .call g ts => f == g && Node.sameAll ss ts
  | _, _ => false

def Node.sameAll : List Node → List Node → Bool
  | [], [] => true
  | s :: ss, t :: ts => s.same t && Node.sameAll ss ts
  | _, _ => false

def Node.sameBranch : Option Node → Option Node → Bool
  | none, none => true
  | some s, some t => s.same t
  | _, _ => false

end

instance : BEq Node := ⟨Node.same⟩

/-- Definitions compare by content. -/
def Definition.same (d e : Definition) : Bool := d.name == e.name && d.params == e.params && d.body.same e.body

instance : BEq Definition := ⟨Definition.same⟩

end TreeCalc
