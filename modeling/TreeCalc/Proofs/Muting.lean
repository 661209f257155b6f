import TreeCalc.Proofs.Acts
import TreeCalc.Proofs.Rules

namespace TreeCalc

mutual

/-- The tree without its displays, also in the bodies of definitions: what was displayed stands in the place of the
display. -/
def Node.mute : Node → Node
  | .num x => .num x
  | .var x => .var x
  | .neg t => .neg t.mute
  | .arith op l r => .arith op l.mute r.mute
  | .compare op l r => .compare op l.mute r.mute
  | .unary f t => if f = .display then t.mute else .unary f t.mute
  | .binary f l r => .binary f l.mute r.mute
  | .list t ts => .list t.mute (Node.muteAll ts)
  | .assign x t => .assign x t.mute
  | .cond t onTrue onFalse => .cond t.mute (Node.muteBranch onTrue) (Node.muteBranch onFalse)
  | .seq s t => .seq s.mute t.mute
  | .params ps => .params ps
  | .define id f ps t => .define id f ps t.mute
  | .call f ts => .call f (Node.muteAll ts)

def Node.muteAll : List Node → List Node
  | [] => []
  | t :: ts => t.mute :: Node.muteAll ts

def Node.muteBranch : Option Node → Option Node
  | none => none
  | some t => some t.mute

end

def Definition.mute (d : Definition) : Definition := { d with body := d.body.mute }

namespace Table
variable {α β : Type}

/-- Changes every value and keeps the names. -/
def map (f : α → β) (table : Table α) : Table β := ⟨table.entries.map fun _ => f⟩

theorem get?_map (f : α → β) (table : Table α) (name : String) :
    (table.map f).get? name = (table.get? name).map f :=
  Std.ExtTreeMap.getElem?_map

theorem map_insert (f : α → β) (table : Table α) (name : String) (value : α) :
    (table.insert name value).map f = (table.map f).insert name (f value) := by
  apply ext
  intro other
  rw [get?_map, get?_insert, get?_insert, get?_map]
  split <;> rfl

end Table

/-- The environment with the displays taken out of its functions. -/
def Env.mute (env : Env) : Env := { env with functions := env.functions.map Definition.mute }

theorem Node.muteBranch_choice (test : Bool) (onTrue onFalse : Option Node) :
    (if test then muteBranch onTrue else muteBranch onFalse) = (if test then onTrue else onFalse).map mute := by
  have branch : ∀ branch : Option Node, muteBranch branch = branch.map mute := by
    rintro (_ | t) <;> rfl
  rw [branch, branch]
  split <;> rfl

/-- The second environment is the first without displays. Its functions are muted, its output has the given text,
and the given number of displays is counted in it. -/
structure Env.Mutes (output : Output) (writes : UInt64) (env quiet : Env) : Prop where
  vars : quiet.vars = env.vars
  functions : quiet.functions = env.functions.map Definition.mute
  callDepth : quiet.callDepth = env.callDepth
  counters : quiet.counters = env.counters.map ({ · with displayWrites := writes })
  output : quiet.output = output

namespace Env.Mutes
variable {output : Output} {writes : UInt64} {env quiet : Env} (mutes : env.Mutes output writes quiet)
include mutes

theorem read (name : String) : quiet.read name = env.read name := by
  rw [Env.read, Env.read, mutes.vars]

theorem save (saved : Saved) (name : String) : quiet.save saved name = env.save saved name := by
  rw [Env.save, Env.save, mutes.vars]

theorem get?_functions (name : String) :
    quiet.functions.get? name = (env.functions.get? name).map Definition.mute := by
  rw [mutes.functions, Table.get?_map]

theorem assign (name : String) (x : Float) : (env.assign name x).Mutes output writes (quiet.assign name x) :=
  ⟨congrArg (·.insert name x) mutes.vars, mutes.functions, mutes.callDepth, mutes.counters, mutes.output⟩

/-- A display shows on one side only. -/
theorem display (x : Float) : (env.display x).Mutes output writes quiet := by
  refine ⟨mutes.vars, mutes.functions, mutes.callDepth, ?_, mutes.output⟩
  rw [mutes.counters, Env.display, Option.map_map]
  rfl

theorem define (d : Definition) : (env.define d).Mutes output writes (quiet.define d.mute) := by
  have watched := env.watched_define d
  have muted := quiet.watched_define d.mute
  refine ⟨?_, ?_, ?_, ?_, ?_⟩
  · rw [vars_define, vars_define, mutes.vars]
  · rw [functions_define, functions_define, mutes.functions, Table.map_insert]
    rfl
  · exact (congrArg Watched.callDepth muted).trans (mutes.callDepth.trans (congrArg Watched.callDepth watched).symm)
  · have same : (env.define d).counters = env.counters := congrArg Watched.counters watched
    rw [same, ← mutes.counters]
    exact congrArg Watched.counters muted
  · exact (congrArg Watched.output muted).trans mutes.output

theorem rejectCall (name : String) :
    (env.openCall name).rejectCall.Mutes output writes (quiet.openCall name).rejectCall :=
  ⟨mutes.vars, mutes.functions, mutes.callDepth, mutes.counters, mutes.output⟩

theorem beginCall (name : String) (d : Definition) :
    ((env.openCall name).beginCall d).Mutes output writes ((quiet.openCall name).beginCall d.mute) := by
  refine ⟨mutes.vars, mutes.functions, congrArg (· + 1) mutes.callDepth, ?_, mutes.output⟩
  have counted : (quiet.counters.map fun c => c.countCall (quiet.callDepth + 1)) =
      (env.counters.map fun c => c.countCall (env.callDepth + 1)).map ({ · with displayWrites := writes }) := by
    rw [mutes.counters, mutes.callDepth, Option.map_map, Option.map_map]
    rfl
  exact counted

theorem endCall (d : Definition) (saved : Saved) (x : Float) :
    (env.endCall d saved x).Mutes output writes (quiet.endCall d.mute saved x) := by
  have restored : (quiet.restore saved).vars = (env.restore saved).vars := by simp only [restore, mutes.vars]
  exact ⟨restored, mutes.functions, congrArg (· - 1) mutes.callDepth, mutes.counters, mutes.output⟩

end Env.Mutes

theorem Env.mutes_mute (env : Env) :
    env.Mutes env.output (env.counters.elim 0 (·.displayWrites)) env.mute := by
  refine ⟨rfl, rfl, rfl, ?_, rfl⟩
  have same : env.mute.counters = env.counters := rfl
  rw [same]
  cases env.counters <;> rfl

/-- The job with muted trees. -/
def Job.mute : Job → Job
  | .tree t x => .tree t.mute x
  | .params names args saved bound => .params names (Node.muteAll args) saved bound

variable {output : Output} {writes : UInt64}

/-- A run without displays goes as the run with them does. -/
theorem Derives.mute {job : Job} {env after quiet : Env} (run : Derives job env after)
    (mutes : env.Mutes output writes quiet) :
    ∃ later, Derives job.mute quiet later ∧ after.Mutes output writes later := by
  induction run generalizing quiet with
  | num => exact ⟨quiet, .num, mutes⟩
  | @var name env => exact ⟨quiet, mutes.read name ▸ .var, mutes⟩
  | params => exact ⟨quiet, .params, mutes⟩
  | define => exact ⟨_, .define, mutes.define _⟩
  | neg _ ih =>
    obtain ⟨later, operand, still⟩ := ih mutes
    exact ⟨later, .neg operand, still⟩
  | display _ ih =>
    obtain ⟨later, operand, still⟩ := ih mutes
    exact ⟨later, operand, still.display _⟩
  | unary other _ ih =>
    obtain ⟨later, operand, still⟩ := ih mutes
    refine ⟨later, ?_, still⟩
    simp only [Job.mute, Node.mute, if_neg other]
    exact .unary other operand
  | list _ ih =>
    obtain ⟨later, head, still⟩ := ih mutes
    exact ⟨later, .list head, still⟩
  | assign _ ih =>
    obtain ⟨later, operand, still⟩ := ih mutes
    exact ⟨_, .assign operand, still.assign _ _⟩
  | arith _ _ left right =>
    obtain ⟨middle, first, between⟩ := left mutes
    obtain ⟨later, second, still⟩ := right between
    exact ⟨later, .arith first second, still⟩
  | compare _ _ left right =>
    obtain ⟨middle, first, between⟩ := left mutes
    obtain ⟨later, second, still⟩ := right between
    exact ⟨later, .compare first second, still⟩
  | binary _ _ left right =>
    obtain ⟨middle, first, between⟩ := left mutes
    obtain ⟨later, second, still⟩ := right between
    exact ⟨later, .binary first second, still⟩
  | seq _ _ left right =>
    obtain ⟨middle, first, between⟩ := left mutes
    obtain ⟨later, second, still⟩ := right between
    exact ⟨later, .seq first second, still⟩
  | skip _ chosen ih =>
    obtain ⟨later, tested, still⟩ := ih mutes
    exact ⟨later, .skip tested (by rw [Node.muteBranch_choice, chosen]; rfl), still⟩
  | branch _ chosen _ test taken =>
    obtain ⟨middle, tested, between⟩ := test mutes
    obtain ⟨later, second, still⟩ := taken between
    exact ⟨later, .branch tested (by rw [Node.muteBranch_choice, chosen]; rfl) second, still⟩
  | @unknown name args env missing =>
    have absent : quiet.functions.get? name = none := by rw [mutes.get?_functions, missing]; rfl
    exact ⟨_, .unknown absent, mutes.rejectCall name⟩
  | @call name args d bound x env middle after found _ _ binding body =>
    have present : quiet.functions.get? name = some d.mute := by rw [mutes.get?_functions, found]; rfl
    obtain ⟨between, bind, begun⟩ := binding (mutes.beginCall name d)
    obtain ⟨later, inside, still⟩ := body begun
    exact ⟨_, .call present bind inside, still.endCall d bound x⟩
  | done => exact ⟨quiet, .done, mutes⟩
  | @missing p ps saved bound env after _ ih =>
    obtain ⟨later, rest, still⟩ := ih (mutes.assign p 0.0)
    exact ⟨later, .missing (mutes.save saved p ▸ rest), still⟩
  | @argument p ps a as saved bound x env middle after _ _ first rest =>
    obtain ⟨between, argument, bound⟩ := first mutes
    obtain ⟨later, others, still⟩ := rest (bound.assign p x)
    exact ⟨later, .argument argument (mutes.save saved p ▸ others), still⟩

/-- What a muted tree comes to with some fuel, the tree comes to with its displays. -/
def Unmutes (output : Output) (writes : UInt64) (fuel : Nat) (t : Node) : Prop :=
  ∀ env quiet x later, env.Mutes output writes quiet → eval fuel t.mute quiet = some (x, later) →
    ∃ after, Derives (.tree t x) env after ∧ after.Mutes output writes later

theorem Unmutes.bindParams {fuel : Nat} (unmutes : ∀ t, Unmutes output writes fuel t) (names : List String)
    (args : List Node) (saved : Saved) {bound : Saved} {env quiet later : Env}
    (mutes : env.Mutes output writes quiet)
    (run : bindParams (eval fuel) names (Node.muteAll args) saved quiet = some (bound, later)) :
    ∃ after, Derives (.params names args saved bound) env after ∧ after.Mutes output writes later := by
  induction names generalizing args saved env quiet with
  | nil =>
    obtain ⟨rfl, rfl⟩ := Prod.mk.inj (Option.some.inj run)
    exact ⟨env, .done, mutes⟩
  | cons p names ih =>
    cases args with
    | nil =>
      obtain ⟨after, rest, still⟩ := ih [] _ (mutes.assign p 0.0) run
      exact ⟨after, .missing (mutes.save saved p ▸ rest), still⟩
    | cons a args =>
      obtain ⟨⟨x, between⟩, argument, others⟩ := Option.bind_eq_some_iff.mp run
      obtain ⟨middle, first, bound⟩ := unmutes a env quiet x between mutes argument
      obtain ⟨after, rest, still⟩ := ih args _ (bound.assign p x) others
      exact ⟨after, .argument first (mutes.save saved p ▸ rest), still⟩

theorem Unmutes.both {fuel : Nat} {l r : Node} (left : Unmutes output writes fuel l)
    (right : Unmutes output writes fuel r)
    {env quiet later : Env} {u : Float} {f : Float → Float → Float} (mutes : env.Mutes output writes quiet)
    (run : ((eval fuel l.mute quiet).bind fun p => (eval fuel r.mute p.2).bind fun q => some (f p.1 q.1, q.2)) =
      some (u, later)) :
    ∃ x y middle after, u = f x y ∧ Derives (.tree l x) env middle ∧ Derives (.tree r y) middle after ∧
      after.Mutes output writes later := by
  obtain ⟨⟨x, between⟩, first, run⟩ := Option.bind_eq_some_iff.mp run
  obtain ⟨⟨y, last⟩, second, run⟩ := Option.bind_eq_some_iff.mp run
  cases run
  obtain ⟨middle, early, bound⟩ := left env quiet x between mutes first
  obtain ⟨after, late, still⟩ := right middle between y _ bound second
  exact ⟨x, y, middle, after, rfl, early, late, still⟩

theorem Unmutes.call {fuel : Nat} (unmutes : ∀ t, Unmutes output writes fuel t) (name : String) (args : List Node) :
    Unmutes output writes (fuel + 1) (.call name args) := by
  intro env quiet x later mutes run
  have table : (quiet.openCall name).functions = quiet.functions := rfl
  simp only [Node.mute, eval, evalWith, callWith, table, mutes.get?_functions] at run
  cases found : env.functions.get? name with
  | none =>
    rw [found] at run
    cases run
    exact ⟨_, .unknown found, mutes.rejectCall name⟩
  | some d =>
    rw [found] at run
    obtain ⟨⟨bound, between⟩, binding, run⟩ := Option.bind_eq_some_iff.mp run
    obtain ⟨⟨y, last⟩, body, run⟩ := Option.bind_eq_some_iff.mp run
    cases run
    obtain ⟨middle, bind, begun⟩ :=
      Unmutes.bindParams unmutes d.params.names args [] (mutes.beginCall name d) binding
    obtain ⟨after, inside, still⟩ := unmutes d.body middle between _ last begun body
    exact ⟨_, .call found bind inside, still.endCall d bound _⟩

/-- The induction is on the fuel. A display takes up none of it in the muted tree, so below displays it is on the
tree. -/
theorem unmutes (fuel : Nat) (t : Node) : Unmutes output writes fuel t := by
  induction fuel generalizing t with
  | zero =>
    intro env quiet x later mutes run
    cases run
  | succ fuel ih =>
    induction t with
    | call name args => exact Unmutes.call ih name args
    | unary f t inner =>
      intro env quiet x later mutes run
      by_cases shown : f = .display
      · subst shown
        obtain ⟨after, operand, still⟩ := inner env quiet x later mutes run
        exact ⟨_, .display operand, still.display x⟩
      · simp only [Node.mute, if_neg shown] at run
        obtain ⟨⟨y, last⟩, operand, run⟩ := Option.bind_eq_some_iff.mp run
        simp only [if_neg shown] at run
        cases run
        obtain ⟨after, operand, still⟩ := ih t env quiet y _ mutes operand
        exact ⟨after, .unary shown operand, still⟩
    | num =>
      intro env quiet x later mutes run
      cases run
      exact ⟨env, .num, mutes⟩
    | var name =>
      intro env quiet x later mutes run
      cases run
      exact ⟨env, mutes.read name ▸ .var, mutes⟩
    | params =>
      intro env quiet x later mutes run
      cases run
      exact ⟨env, .params, mutes⟩
    | define =>
      intro env quiet x later mutes run
      cases run
      exact ⟨_, .define, mutes.define _⟩
    | neg t =>
      intro env quiet x later mutes run
      obtain ⟨⟨y, last⟩, operand, run⟩ := Option.bind_eq_some_iff.mp run
      cases run
      obtain ⟨after, operand, still⟩ := ih t env quiet y _ mutes operand
      exact ⟨after, .neg operand, still⟩
    | assign name t =>
      intro env quiet x later mutes run
      obtain ⟨⟨y, last⟩, operand, run⟩ := Option.bind_eq_some_iff.mp run
      cases run
      obtain ⟨after, operand, still⟩ := ih t env quiet x last mutes operand
      exact ⟨_, .assign operand, still.assign name x⟩
    | list head tail =>
      intro env quiet x later mutes run
      obtain ⟨after, first, still⟩ := ih head env quiet x later mutes run
      exact ⟨after, .list first, still⟩
    | arith op l r =>
      intro env quiet x later mutes run
      obtain ⟨y, z, middle, after, rfl, first, second, still⟩ := (ih l).both (ih r) mutes run
      exact ⟨after, .arith first second, still⟩
    | compare op l r =>
      intro env quiet x later mutes run
      obtain ⟨y, z, middle, after, rfl, first, second, still⟩ := (ih l).both (ih r) mutes run
      exact ⟨after, .compare first second, still⟩
    | binary f l r =>
      intro env quiet x later mutes run
      obtain ⟨y, z, middle, after, rfl, first, second, still⟩ := (ih l).both (ih r) mutes run
      exact ⟨after, .binary first second, still⟩
    | seq s t =>
      intro env quiet x later mutes run
      obtain ⟨⟨y, between⟩, first, run⟩ := Option.bind_eq_some_iff.mp run
      obtain ⟨middle, early, bound⟩ := ih s env quiet y between mutes first
      obtain ⟨after, late, still⟩ := ih t middle between x later bound run
      exact ⟨after, .seq early late, still⟩
    | cond test onTrue onFalse =>
      intro env quiet x later mutes run
      obtain ⟨⟨y, between⟩, first, run⟩ := Option.bind_eq_some_iff.mp run
      obtain ⟨middle, tested, bound⟩ := ih test env quiet y between mutes first
      simp only [Node.muteBranch_choice] at run
      cases chosen : (if y != 0.0 then onTrue else onFalse) with
      | none =>
        rw [chosen] at run
        cases run
        exact ⟨middle, .skip tested chosen, bound⟩
      | some branch =>
        rw [chosen] at run
        obtain ⟨after, taken, still⟩ := ih branch middle between x later bound run
        exact ⟨after, .branch tested chosen taken, still⟩

/-- To display a number does nothing else. Take the displays out of a tree and out of the registered functions, so
that what was displayed stands in their place. Then the tree comes to an end just when it does with them, and with
the same value, variables, number of calls and depth of calls. The functions that it leaves are those that are
left with the displays, without theirs, and it writes nothing and counts no display. -/
theorem Node.evaluate_mute (t : Node) (env : Env) :
    ((∃ fuel r, t.evaluate fuel env = some r) ↔ ∃ fuel r, t.mute.evaluate fuel env.mute = some r) ∧
    ∀ fuel other x y after later, t.evaluate fuel env = some (x, after) →
      t.mute.evaluate other env.mute = some (y, later) → x = y ∧ after.vars = later.vars ∧
      after.counters.map (·.functionCalls) = later.counters.map (·.functionCalls) ∧
      after.counters.map (·.maxCallDepth) = later.counters.map (·.maxCallDepth) ∧
      (∀ name, later.functions.get? name = (after.functions.get? name).map Definition.mute) ∧
      later.output = env.output ∧ later.counters.map (·.displayWrites) = env.counters.map (·.displayWrites) := by
  have there : ∀ {x after}, Derives (.tree t x) env after → ∃ later, Derives (.tree t.mute x) env.mute later ∧
      after.Mutes env.output (env.counters.elim 0 (·.displayWrites)) later :=
    fun run => run.mute env.mutes_mute
  refine ⟨⟨?_, ?_⟩, ?_⟩
  · rintro ⟨fuel, ⟨x, after⟩, run⟩
    obtain ⟨later, derived, -⟩ := there ((t.evaluate_iff_derives env x after).mp ⟨fuel, run⟩)
    obtain ⟨other, again⟩ := (t.mute.evaluate_iff_derives env.mute x later).mpr derived
    exact ⟨other, _, again⟩
  · rintro ⟨fuel, ⟨x, later⟩, run⟩
    obtain ⟨other, value⟩ := (t.mute.exists_evaluate_iff env.mute (x, later)).mp ⟨fuel, run⟩
    obtain ⟨after, derived, -⟩ := unmutes other t env env.mute x later env.mutes_mute value
    obtain ⟨steps, again⟩ := (t.evaluate_iff_derives env x after).mpr derived
    exact ⟨steps, _, again⟩
  · intro fuel other x y after later left right
    obtain ⟨last, derived, mutes⟩ := there ((t.evaluate_iff_derives env x after).mp ⟨fuel, left⟩)
    obtain ⟨rfl, rfl⟩ := derived.unique ((t.mute.evaluate_iff_derives env.mute y later).mp ⟨other, right⟩)
    have watched := evaluate_watched left
    rw [Watched.record_all] at watched
    have counters : after.counters = env.counters.map _ := congrArg Watched.counters watched
    refine ⟨rfl, mutes.vars.symm, ?_, ?_, mutes.get?_functions, mutes.output, ?_⟩
    · rw [mutes.counters, Option.map_map]
      rfl
    · rw [mutes.counters, Option.map_map]
      rfl
    · rw [mutes.counters, counters]
      cases env.counters <;> rfl

/-- A registered function that displays its parameter, defines itself anew with a body that displays twice, and
calls that. -/
def Definition.showing : Definition :=
  ⟨1, "show", ⟨"x", []⟩, .seq (.unary .display (.var "x"))
    (.seq (.define 0 "show" ⟨"y", []⟩ (.unary .display (.unary .display (.neg (.var "y")))))
      (.call "show" [.var "x"]))⟩

/-- With a display in the argument the function displays four numbers. Without displays it comes to the same
value, and nothing is written. -/
theorem Node.evaluate_mute_showing : ∃ x after later,
    (Node.call "show" [.unary .display (.num 2.0)]).evaluate 60
      { output := ⟨.capture, ""⟩, counters := some {}, functions := Table.empty.insert "show" .showing } =
        some (x, after) ∧
    (Node.call "show" [.num 2.0]).evaluate 60
      { output := ⟨.capture, ""⟩, counters := some {}
        functions := (Table.empty.insert "show" Definition.showing).map Definition.mute } = some (x, later) ∧
    after.counters = some ⟨2, 4, 2⟩ ∧ later.counters.map (·.functionCalls) = some 2 ∧
    later.counters.map (·.displayWrites) = some 0 ∧ later.output = ⟨.capture, ""⟩ := by
  let env : Env :=
    { output := ⟨.capture, ""⟩, counters := some {}, functions := Table.empty.insert "show" .showing }
  let t : Node := .call "show" [.unary .display (.num 2.0)]
  have loud : (t.evaluate 60 env).map (·.2.counters) = some (some ⟨2, 4, 2⟩) := by decide +kernel
  have quiet : (t.mute.evaluate 60 env.mute).isSome = true := by decide +kernel
  obtain ⟨⟨x, after⟩, left, counted⟩ := Option.map_eq_some_iff.mp loud
  obtain ⟨⟨y, later⟩, right⟩ := Option.isSome_iff_exists.mp quiet
  obtain ⟨rfl, -, calls, -, -, output, writes⟩ := (Node.evaluate_mute t env).2 60 60 x y after later left right
  refine ⟨x, after, later, left, right, counted, ?_, writes, output⟩
  replace counted : after.counters = some ⟨2, 4, 2⟩ := counted
  rw [← calls, counted]
  rfl

end TreeCalc
