import TreeCalc.Proofs.MadeDefinitions
import TreeCalc.Proofs.Rules

namespace TreeCalc

/-- The tree calls a function by this name. What stands in the body of a definition is not called by the tree that
makes the definition. -/
inductive Node.Calls (name : String) : Node → Prop
  | here {args} : Calls name (.call name args)
  | inside {t child} : t.definition? = none → child ∈ t.children → Calls name child → Calls name t

/-- Under the given name the function calls only names of lower rank. -/
def Definition.Ranked (rank : String → Nat) (name : String) (d : Definition) : Prop :=
  ∀ callee, d.body.Calls callee → rank callee < rank name

/-- All definitions in the tree, however deep inside one another, call names of lower rank than their own. -/
def Node.Ranked (rank : String → Nat) (t : Node) : Prop := ∀ d ∈ t.nested, d.Ranked rank d.name

/-- Registered functions call names of lower rank than the one under which they are registered, and so do the
definitions in their bodies. -/
def Env.Ranked (rank : String → Nat) (env : Env) : Prop :=
  ∀ name d, env.functions.get? name = some d → d.Ranked rank name ∧ d.body.Ranked rank

variable {rank : String → Nat}

theorem Node.Ranked.child {t child : Node} (ranked : t.Ranked rank) (member : child ∈ t.children) :
    child.Ranked rank :=
  fun d inside => ranked d (mem_nested.mpr (Or.inr ⟨child, member, inside⟩))

theorem Env.Ranked.define {env : Env} {d : Definition} (ranked : env.Ranked rank) (tree : d.toNode.Ranked rank) :
    (env.define d).Ranked rank := by
  intro name other found
  rw [Env.functions_define, Table.get?_insert] at found
  split at found
  · next same =>
    cases found
    subst same
    exact ⟨tree d (Node.mem_nested.mpr (Or.inl rfl)), tree.child (by simp [Node.children, Definition.toNode])⟩
  · exact ranked name other found

/-- From every ranked environment the tree comes to an end, and it leaves a ranked one. -/
def Node.Ends (rank : String → Nat) (t : Node) : Prop :=
  ∀ env : Env, env.Ranked rank → ∃ x after, Derives (.tree t x) env after ∧ after.Ranked rank

theorem Node.Ends.both {l r : Node} (first : l.Ends rank) (second : r.Ends rank) {env : Env}
    (start : env.Ranked rank) :
    ∃ x y middle after, Derives (.tree l x) env middle ∧ Derives (.tree r y) middle after ∧ after.Ranked rank := by
  obtain ⟨x, middle, left, between⟩ := first env start
  obtain ⟨y, after, right, last⟩ := second middle between
  exact ⟨x, y, middle, after, left, right, last⟩

theorem Node.Ends.bindParams {args : List Node} (ends : ∀ a ∈ args, a.Ends rank) (names : List String)
    (saved : Saved) {env : Env} (ranked : env.Ranked rank) :
    ∃ bound after, Derives (.params names args saved bound) env after ∧ after.Ranked rank := by
  induction names generalizing args saved env with
  | nil => exact ⟨saved, env, .done, ranked⟩
  | cons p names ih =>
    cases args with
    | nil =>
      have assigned : (env.assign p 0.0).Ranked rank := ranked
      obtain ⟨bound, after, rest, last⟩ := ih ends (env.save saved p) assigned
      exact ⟨bound, after, .missing rest, last⟩
    | cons a args =>
      obtain ⟨x, middle, first, left⟩ := ends a List.mem_cons_self env ranked
      have assigned : (middle.assign p x).Ranked rank := left
      obtain ⟨bound, after, rest, last⟩ :=
        ih (fun b member => ends b (List.mem_cons_of_mem a member)) (env.save saved p) assigned
      exact ⟨bound, after, .argument first rest, last⟩

/-- A tree ends when the bodies end of all functions that can ever be found under the names that it calls. -/
theorem Node.ends_of_callees {t : Node} (ranked : t.Ranked rank)
    (callees : ∀ name, t.Calls name → ∀ d : Definition, d.Ranked rank name → d.body.Ranked rank →
      d.body.Ends rank) :
    t.Ends rank := by
  induction t using induct_children with
  | step t ih =>
    have below : t.definition? = none → ∀ child ∈ t.children, child.Ends rank := by
      intro other child member
      exact ih child member (ranked.child member) fun name called => callees name (.inside other member called)
    intro env start
    cases t with
    | num x => exact ⟨x, env, .num, start⟩
    | var name => exact ⟨_, env, .var, start⟩
    | params names => exact ⟨_, env, .params, start⟩
    | define id name ps body => exact ⟨_, _, .define, start.define ranked⟩
    | neg t =>
      obtain ⟨x, after, operand, last⟩ := below rfl t (by simp [children]) env start
      exact ⟨_, after, .neg operand, last⟩
    | unary f t =>
      obtain ⟨x, after, operand, last⟩ := below rfl t (by simp [children]) env start
      by_cases shown : f = .display
      · subst shown
        exact ⟨x, _, .display operand, last⟩
      · exact ⟨_, after, .unary shown operand, last⟩
    | assign name t =>
      obtain ⟨x, after, operand, last⟩ := below rfl t (by simp [children]) env start
      exact ⟨x, _, .assign operand, last⟩
    | list head tail =>
      obtain ⟨x, after, first, last⟩ := below rfl head (by simp [children]) env start
      exact ⟨x, after, .list first, last⟩
    | arith op l r =>
      obtain ⟨x, y, middle, after, left, right, last⟩ := (below rfl l (by simp [children])).both
        (below rfl r (by simp [children])) start
      exact ⟨_, after, .arith left right, last⟩
    | compare op l r =>
      obtain ⟨x, y, middle, after, left, right, last⟩ := (below rfl l (by simp [children])).both
        (below rfl r (by simp [children])) start
      exact ⟨_, after, .compare left right, last⟩
    | binary f l r =>
      obtain ⟨x, y, middle, after, left, right, last⟩ := (below rfl l (by simp [children])).both
        (below rfl r (by simp [children])) start
      exact ⟨_, after, .binary left right, last⟩
    | seq s t =>
      obtain ⟨x, y, middle, after, first, second, last⟩ := (below rfl s (by simp [children])).both
        (below rfl t (by simp [children])) start
      exact ⟨y, after, .seq first second, last⟩
    | cond test onTrue onFalse =>
      obtain ⟨x, middle, tested, between⟩ := below rfl test (by simp [children]) env start
      cases chosen : (if x != 0.0 then onTrue else onFalse) with
      | none => exact ⟨_, middle, .skip tested chosen, between⟩
      | some branch =>
        have member : branch ∈ (Node.cond test onTrue onFalse).children := by
          split at chosen <;> simp [children, chosen]
        obtain ⟨y, after, taken, last⟩ := below rfl branch member middle between
        exact ⟨y, after, .branch tested chosen taken, last⟩
    | call name args =>
      cases found : env.functions.get? name with
      | none => exact ⟨_, _, .unknown found, start⟩
      | some d =>
        obtain ⟨own, inner⟩ := start name d found
        -- The arguments may put another function under this name, but the call runs the one that it found.
        have begun : ((env.openCall name).beginCall d).Ranked rank := start
        obtain ⟨bound, middle, binding, between⟩ := Ends.bindParams (below rfl) d.params.names [] begun
        obtain ⟨x, after, body, last⟩ := callees name .here d own inner middle between
        exact ⟨x, _, .call found binding body, last⟩

/-- The body of a ranked function ends: what it calls has lower rank, whatever stands under these names by then. -/
theorem Definition.Ranked.ends {name : String} {d : Definition} (own : d.Ranked rank name)
    (inner : d.body.Ranked rank) :
    d.body.Ends rank := by
  -- The rank belongs to the name, so the induction covers every function that may come to stand under it.
  induction level : rank name using Nat.strongRecOn generalizing name d with
  | ind level ih =>
    subst level
    refine Node.ends_of_callees inner ?_
    intro callee called e lower nested
    exact ih (rank callee) (own callee called) lower nested rfl

/-- Without cycles of calls evaluation comes to an end. It is enough that names have ranks such that every
function, be it registered or defined anywhere in the tree or in one of these bodies, calls only names of lower
rank than its own. Which function stands under a name may change while calls are running. -/
theorem Node.evaluate_ends_of_ranked {t : Node} {env : Env} (functions : env.Ranked rank) (tree : t.Ranked rank) :
    ∃ fuel r, t.evaluate fuel env = some r := by
  have ends : t.Ends rank := ends_of_callees tree fun name _ d own inner => own.ends inner
  obtain ⟨x, after, derived, -⟩ := ends env functions
  obtain ⟨fuel, run⟩ := (t.evaluate_iff_derives env x after).mpr derived
  exact ⟨fuel, (x, after), run⟩

/-- Ranks of names under which `f` may call `g`, and both may call names that have no rank of their own. -/
def twoRanks (name : String) : Nat := if name = "f" then 2 else if name = "g" then 1 else 0

/-- A function `f` that calls `g` with an argument that defines `g` anew and calls it, while the former `g` is
about to run. -/
def replacesCallee : Definition :=
  ⟨1, "f", ⟨"x", []⟩, .call "g" [.seq (.define 0 "g" ⟨"y", []⟩ (.var "y")) (.call "g" [.var "x"])]⟩

/-- The former `g` is registered from a definition with another name and calls a function that does not exist. -/
def formerCallee : Env :=
  { functions := Table.empty.insert "g" ⟨2, "f", ⟨"x", []⟩, .call "h" [.var "x"]⟩, output := ⟨.silent, ""⟩ }

theorem Node.evaluate_ends_of_ranked_replacing :
    ∃ fuel r, (Node.seq replacesCallee.toNode (.call "f" [.call "f" [.num 1.0]])).evaluate fuel formerCallee =
      some r := by
  have silent : ∀ name x, ¬ (Node.var x).Calls name := by
    rintro name x (_ | ⟨-, member, -⟩)
    cases member
  have functions : formerCallee.Ranked twoRanks := by
    intro name d found
    simp only [formerCallee, Table.get?_insert] at found
    split at found
    · next same =>
      cases found
      subst same
      refine ⟨?_, by intro e member; simp [nested, subtrees, subtreesAll, definition?] at member⟩
      rintro callee (_ | ⟨-, member, deeper⟩)
      · decide
      · cases List.mem_singleton.mp member
        exact absurd deeper (silent _ _)
    · cases (Table.get?_empty name).symm.trans found
  have body : ∀ callee, replacesCallee.body.Calls callee → callee = "g" := by
    rintro callee (_ | ⟨-, member, called⟩)
    · rfl
    · cases List.mem_singleton.mp member
      rcases called with _ | ⟨-, member, called⟩
      simp only [children, List.mem_cons, List.not_mem_nil, or_false] at member
      rcases member with rfl | rfl
      · -- The definition calls nothing by itself.
        rcases called with _ | ⟨other, -, -⟩
        cases other
      · rcases called with _ | ⟨-, member, called⟩
        · rfl
        · cases List.mem_singleton.mp member
          exact absurd called (silent _ _)
  have tree : (Node.seq replacesCallee.toNode (.call "f" [.call "f" [.num 1.0]])).Ranked twoRanks := by
    intro d member
    have either : replacesCallee = d ∨ ⟨0, "g", ⟨"y", []⟩, .var "y"⟩ = d := by
      simpa [nested, subtrees, subtreesAll, definition?, replacesCallee, Definition.toNode] using member
    rcases either with rfl | rfl
    · intro callee called
      rw [body callee called]
      decide
    · intro callee called
      exact absurd called (silent _ _)
  exact evaluate_ends_of_ranked functions tree

end TreeCalc
