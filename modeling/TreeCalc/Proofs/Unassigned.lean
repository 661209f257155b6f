import TreeCalc.Proofs.Occurrence
import TreeCalc.Proofs.Restoring
import TreeCalc.Proofs.Rules

namespace TreeCalc

/-- No assignment to the name occurs in the tree, not even in the body of a definition. -/
def Node.Spares (t : Node) (name : String) : Prop := ∀ value, Node.assign name value ∉ t.subtrees

theorem Node.Spares.child {t child : Node} {name : String} (spares : t.Spares name) (member : child ∈ t.children) :
    child.Spares name :=
  fun value inside => spares value (Node.mem_subtrees_of_child member inside)

/-- No registered function assigns to the name. -/
def Env.Spares (env : Env) (name : String) : Prop :=
  ∀ function d, env.functions.get? function = some d → d.body.Spares name

theorem Env.Spares.define {env : Env} {name : String} {d : Definition} (spares : env.Spares name)
    (body : d.body.Spares name) : (env.define d).Spares name := by
  intro function other found
  rw [Env.functions_define, Table.get?_insert] at found
  split at found
  · cases found
    exact body
  · exact spares function other found

namespace Job

/-- The trees of a job do not assign to the name. -/
def Spares (name : String) : Job → Prop
  | .tree t _ => t.Spares name
  | .params _ args _ _ => ∀ a ∈ args, a.Spares name

/-- The job leaves the name as it was. While parameters are bound this is said of the table to which the saved
bindings lead back. -/
def Keeps (name : String) : Job → Env → Env → Prop
  | .tree _ _, env, after => after.vars.get? name = env.vars.get? name
  | .params _ _ saved bound, env, after =>
    (bound.putBack after.vars).get? name = (saved.putBack env.vars).get? name

end Job

/-- Binding one parameter leaves the table to which the saved bindings lead back as it was, if the argument left the
name alone. -/
theorem Env.get?_putBack_bind (env middle : Env) (saved : Saved) (p name : String) (x : Float)
    (kept : middle.vars.get? name = env.vars.get? name) :
    ((env.save saved p).putBack (middle.assign p x).vars).get? name = (saved.putBack env.vars).get? name := by
  have owned : p ∈ (env.save saved p).names := (env.mem_names_save saved p p).mpr (Or.inl rfl)
  have undone := Saved.putBack_insert_of_mem owned middle.vars x
  have same := Saved.get?_putBack_congr (env.save saved p) kept
  simp only [Env.assign]
  rw [undone, same, Env.putBack_save]

theorem Derives.keeps_unassigned {name : String} {job : Job} {env after : Env} (run : Derives job env after)
    (trees : job.Spares name) (functions : env.Spares name) : job.Keeps name env after ∧ after.Spares name := by
  induction run with
  | num | var | params => exact ⟨rfl, functions⟩
  | done => exact ⟨rfl, functions⟩
  | unknown found => exact ⟨rfl, functions⟩
  | neg _ ih | unary _ _ ih | list _ ih | skip _ _ ih => exact ih (trees.child (by simp [Node.children])) functions
  | display _ ih => exact ih (trees.child (by simp [Node.children])) functions
  | define => exact ⟨by rw [Job.Keeps, Env.vars_define], functions.define (trees.child (by simp [Node.children]))⟩
  | @assign other t x env after _ ih =>
    obtain ⟨kept, spares⟩ := ih (trees.child (by simp [Node.children])) functions
    have apart : other ≠ name := fun same => trees t (by simp [Node.subtrees, same])
    refine ⟨?_, spares⟩
    rw [Job.Keeps, Env.assign, Table.get?_insert, if_neg apart]
    exact kept
  | arith _ _ left right | compare _ _ left right | binary _ _ left right | seq _ _ left right =>
    obtain ⟨first, spares⟩ := left (trees.child (by simp [Node.children])) functions
    obtain ⟨second, spares⟩ := right (trees.child (by simp [Node.children])) spares
    exact ⟨second.trans first, spares⟩
  | @branch test onTrue onFalse t x y env middle after _ chosen _ tested taken =>
    have member : t ∈ (Node.cond test onTrue onFalse).children := by
      split at chosen <;> simp [Node.children, chosen]
    obtain ⟨first, spares⟩ := tested (trees.child (by simp [Node.children])) functions
    obtain ⟨second, spares⟩ := taken (trees.child member) spares
    exact ⟨second.trans first, spares⟩
  | @call function args d bound x env middle after found _ _ binding body =>
    obtain ⟨kept, spares⟩ := binding (fun a member => trees.child member) functions
    obtain ⟨inside, last⟩ := body (functions function d found) spares
    exact ⟨(Saved.get?_putBack_congr bound inside).trans kept, last⟩
  | @missing p ps saved bound env after _ ih =>
    obtain ⟨kept, spares⟩ := ih trees functions
    exact ⟨kept.trans (env.get?_putBack_bind env saved p name 0.0 rfl), spares⟩
  | @argument p ps a as saved bound x env middle after _ _ first rest =>
    obtain ⟨kept, spares⟩ := first (trees a List.mem_cons_self) functions
    obtain ⟨later, last⟩ := rest (fun b member => trees b (List.mem_cons_of_mem a member)) spares
    exact ⟨later.trans (env.get?_putBack_bind middle saved p name x kept), last⟩

/-- Parameters do not leak. A name to which neither the tree nor a registered function assigns has after the
evaluation the binding that it had before, or none if it had none, whatever functions with a parameter of this
name were called, and how often, and with however many arguments. -/
theorem Node.evaluate_keeps_unassigned {t : Node} {name : String} {fuel : Nat} {x : Float} {env after : Env}
    (tree : t.Spares name) (functions : env.Spares name) (run : t.evaluate fuel env = some (x, after)) :
    after.vars.get? name = env.vars.get? name :=
  (((t.evaluate_iff_derives env x after).mp ⟨fuel, run⟩).keeps_unassigned tree functions).1

/-- A function of the parameters `x` and `x` that replaces itself by one of the parameters `x` and `y` and calls
that with an argument too few. -/
def selfReplacing : Definition :=
  ⟨1, "f", ⟨"x", ["x"]⟩, .seq (.define 0 "f" ⟨"x", ["y"]⟩ (.var "x")) (.call "f" [.var "x"])⟩

theorem Node.evaluate_keeps_unassigned_selfReplacing :
    ∃ fuel x after, (Node.seq selfReplacing.toNode (.call "f" [.num 1.0, .num 2.0, .num 3.0])).evaluate fuel
        { vars := Table.empty.insert "x" 7.0, output := ⟨.silent, ""⟩ } = some (x, after) ∧
      after.vars.get? "x" = some 7.0 := by
  have tree : (Node.seq selfReplacing.toNode (.call "f" [.num 1.0, .num 2.0, .num 3.0])).Spares "x" := by
    intro value occurs
    simp [selfReplacing, Definition.toNode, Node.subtrees, Node.subtreesAll] at occurs
  have functions : Env.Spares { vars := Table.empty.insert "x" 7.0, output := ⟨.silent, ""⟩ } "x" := by
    intro function d found
    cases (Table.get?_empty function).symm.trans found
  have inner (env : Env) : ∃ x after, Derives (.tree selfReplacing.body x) env after :=
    ⟨_, _, .seq .define (.call (env.get?_functions_define _) (.argument .var (.missing .done)) .var)⟩
  have outer (env : Env) : ∃ x after,
      Derives (.tree (.seq selfReplacing.toNode (.call "f" [.num 1.0, .num 2.0, .num 3.0])) x) env after := by
    have bound := env.get?_functions_define selfReplacing
    obtain ⟨x, after, body⟩ := inner
      (((((env.define selfReplacing).openCall "f").beginCall selfReplacing).assign "x" 1.0).assign "x" 2.0)
    exact ⟨x, _, .seq .define (.call bound (.argument .num (.argument .num .done)) body)⟩
  obtain ⟨x, after, derived⟩ := outer { vars := Table.empty.insert "x" 7.0, output := ⟨.silent, ""⟩ }
  obtain ⟨fuel, run⟩ := (Node.evaluate_iff_derives ..).mpr derived
  refine ⟨fuel, x, after, run, ?_⟩
  rw [Node.evaluate_keeps_unassigned tree functions run, Table.get?_insert_self]

end TreeCalc
