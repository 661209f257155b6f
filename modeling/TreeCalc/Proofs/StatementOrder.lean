import TreeCalc.Proofs.Observers
import TreeCalc.Proofs.Rules

namespace TreeCalc

/-- The tree consists of the statements in their order, joined two by two in whatever way. -/
inductive Node.Joins : Node → List Node → Prop
  | one (t : Node) : Joins t [t]
  | seq {s t : Node} {ss ts : List Node} : Joins s ss → Joins t ts → Joins (.seq s t) (ss ++ ts)

theorem Node.Joins.after {t : Node} {ts : List Node} (joins : t.Joins ts) (earlier : List Node) :
    (t.after earlier).Joins (earlier.reverse ++ ts) := by
  induction earlier generalizing t ts with
  | nil => exact joins
  | cons s earlier ih =>
    rw [List.reverse_cons, List.append_assoc]
    exact ih ((Joins.one s).seq joins)

theorem Node.exists_block {ts : List Node} (nonempty : ts ≠ []) : ∃ t, Node.block ts = some t ∧ t.Joins ts := by
  unfold block
  cases reversed : ts.reverse with
  | nil => exact absurd (List.reverse_eq_nil_iff.mp reversed) nonempty
  | cons last earlier =>
    have order : ts = earlier.reverse ++ [last] := by
      rw [← List.reverse_reverse ts, reversed, List.reverse_cons]
    exact ⟨last.after earlier, rfl, order ▸ (Joins.one last).after earlier⟩

/-- Two environments that differ in handles and journal at most. -/
structure Env.Same (env other : Env) : Prop where
  similar : env.Similar other
  watched : env.watched = other.watched

theorem Env.Same.refl (env : Env) : env.Same env := ⟨⟨rfl, rfl, rfl⟩, rfl⟩

theorem Env.Same.symm {env other : Env} (same : env.Same other) : other.Same env :=
  ⟨⟨same.similar.vars.symm, same.similar.functions.symm, same.similar.callDepth.symm⟩, same.watched.symm⟩

theorem Env.Same.trans {env other third : Env} (same : env.Same other) (more : other.Same third) : env.Same third :=
  ⟨⟨same.similar.vars.trans more.similar.vars, same.similar.functions.trans more.similar.functions,
    same.similar.callDepth.trans more.similar.callDepth⟩, same.watched.trans more.watched⟩

theorem Env.same_note (env : Env) (entry : Entry) : (env.note entry).Same env := ⟨⟨rfl, rfl, rfl⟩, rfl⟩

theorem Env.same_closed (env : Env) (x : Float) :
    ((env.note (.event (.unitEvaluated x))).note (.exit .unit)).Same env :=
  (same_note _ _).trans (same_note _ _)

/-- Handles and journal have no influence on what a tree comes to. -/
theorem Derives.same {t : Node} {x : Float} {env after other : Env} (run : Derives (.tree t x) env after)
    (same : env.Same other) : ∃ later, Derives (.tree t x) other later ∧ after.Same later := by
  obtain ⟨fuel, ends⟩ := (t.evaluate_iff_derives env x after).mpr run
  have start : (Machine.Config.mk (.eval t) [] env).Similar ⟨.eval t, [], other⟩ := ⟨rfl, rfl, same.similar⟩
  obtain ⟨results, acts⟩ := Machine.run_similar fuel start
  replace results : Option.Rel (fun r q : Float × Env => r.1 = q.1 ∧ r.2.Similar q.2) (t.evaluate fuel env)
    (t.evaluate fuel other) := results
  rw [ends] at results
  generalize ended : t.evaluate fuel other = outcome at results
  cases results with
  | @some _ r agree =>
    obtain ⟨y, later⟩ := r
    obtain ⟨rfl, similar⟩ := agree
    refine ⟨later, (t.evaluate_iff_derives other x later).mp ⟨fuel, ended⟩, similar, ?_⟩
    have happened : t.acts fuel env = t.acts fuel other := acts
    rw [Node.evaluate_watched ends, Node.evaluate_watched ended, happened, same.watched]

/-- The statements are evaluated one after the other. There is at least one, and the value is that of the last. -/
inductive InOrder : List Node → Env → Float → Env → Prop
  | last {t x env after} : Derives (.tree t x) env after → InOrder [t] env x after
  | next {t ts x y env middle after} : Derives (.tree t x) env middle → InOrder ts middle y after →
      InOrder (t :: ts) env y after

namespace InOrder

theorem append {ss ts : List Node} {env middle after : Env} {x y : Float} (first : InOrder ss env x middle)
    (second : InOrder ts middle y after) : InOrder (ss ++ ts) env y after := by
  induction first with
  | last run => exact .next run second
  | next run _ ih => exact .next run (ih second)

theorem split {ss ts : List Node} (left : ss ≠ []) (right : ts ≠ []) {env after : Env} {y : Float}
    (run : InOrder (ss ++ ts) env y after) : ∃ x middle, InOrder ss env x middle ∧ InOrder ts middle y after := by
  induction ss generalizing env with
  | nil => exact absurd rfl left
  | cons s ss ih =>
    cases ss with
    | nil =>
      cases run with
      | last => exact absurd rfl right
      | next first rest => exact ⟨_, _, .last first, rest⟩
    | cons u ss =>
      cases run with
      | next first rest =>
        obtain ⟨x, middle, early, late⟩ := ih (List.cons_ne_nil u ss) rest
        exact ⟨x, middle, .next first early, late⟩

theorem unique {ts : List Node} {env after later : Env} {x y : Float} (run : InOrder ts env x after)
    (again : InOrder ts env y later) : x = y ∧ after = later := by
  induction run with
  | last first =>
    cases again with
    | last second => exact first.unique second
    | next _ rest => cases rest
  | next first rest ih =>
    cases again with
    | last => cases rest
    | next second others =>
      obtain ⟨-, rfl⟩ := first.unique second
      exact ih others

theorem same {ts : List Node} {env after other : Env} {x : Float} (run : InOrder ts env x after)
    (same : env.Same other) : ∃ later, InOrder ts other x later ∧ after.Same later := by
  induction run generalizing other with
  | last run =>
    obtain ⟨later, again, equal⟩ := run.same same
    exact ⟨later, .last again, equal⟩
  | next run _ ih =>
    obtain ⟨middle, again, between⟩ := run.same same
    obtain ⟨later, others, equal⟩ := ih between
    exact ⟨later, .next again others, equal⟩

end InOrder

theorem Node.Joins.ne_nil {t : Node} {ts : List Node} (joins : t.Joins ts) : ts ≠ [] := by
  induction joins with
  | one t => exact List.cons_ne_nil t []
  | seq _ _ left _ => exact List.append_ne_nil_of_left_ne_nil left _

/-- However statements are joined, the tree evaluates them in their order. -/
theorem Node.Joins.derives_iff {t : Node} {ts : List Node} (joins : t.Joins ts) {env after : Env} {x : Float} :
    Derives (.tree t x) env after ↔ InOrder ts env x after := by
  induction joins generalizing env after x with
  | one t =>
    constructor
    · exact .last
    · intro run
      cases run with
      | last run => exact run
      | next _ rest => cases rest
  | seq first second left right =>
    constructor
    · intro run
      cases run with
      | seq s t => exact (left.mp s).append (right.mp t)
    · intro run
      obtain ⟨y, middle, early, late⟩ := run.split first.ne_nil second.ne_nil
      exact .seq (left.mpr early) (right.mpr late)

/-- The program of these units. -/
def Program.ofList (ts : List Node) : Program := ⟨ts.toArray⟩

/-- A way to run something: what it comes to with so much fuel. -/
abbrev Way := Nat → Env → Outcome

/-- Runs in ways one after the other. The value is that of the last, or `x` when there is none. -/
def oneByOne (x : Float) : List Way → Way
  | [], _, env => some (x, env)
  | way :: ways, fuel, env => do
    let (y, env) ← way fuel env
    oneByOne y ways fuel env

/-- A way does what evaluating the statements in order does, up to handles and journal. Whatever it comes to, they
come to, and what they come to, it comes to once it has fuel enough. -/
structure Way.Follows (way : Way) (ts : List Node) : Prop where
  sound {fuel env x after} : way fuel env = some (x, after) → ∃ later, InOrder ts env x later ∧ after.Same later
  complete {env x later} : InOrder ts env x later →
    ∃ after enough, after.Same later ∧ ∀ fuel, enough ≤ fuel → way fuel env = some (x, after)

namespace Way.Follows

theorem ofTree {t : Node} {ts : List Node} (joins : t.Joins ts) : Way.Follows t.evaluate ts where
  sound {fuel env x after} run :=
    ⟨after, joins.derives_iff.mp ((t.evaluate_iff_derives env x after).mp ⟨fuel, run⟩), .refl after⟩
  complete {env x later} run := by
    obtain ⟨level, value⟩ := (joins.derives_iff.mpr run).computed
    obtain ⟨steps, gives⟩ := Machine.gives_of_eval value
    refine ⟨later, 1 + steps, .refl later, ?_⟩
    intro fuel le
    obtain ⟨more, rfl⟩ := Nat.exists_eq_add_of_le le
    rw [Nat.add_right_comm, Nat.add_comm 1]
    exact gives (more + 1) []

theorem ofSpan (index : Nat) (t : Node) : Way.Follows (Program.evaluateSpan · index t) [t] where
  sound {fuel env x after} run := by
    obtain ⟨⟨y, middle⟩, inside, rest⟩ := Option.bind_eq_some_iff.mp run
    cases rest
    obtain ⟨later, ordered, same⟩ := (ofTree (.one t)).sound inside
    obtain ⟨last, again, equal⟩ := ordered.same (env.same_note _)
    exact ⟨last, again, (middle.same_closed _).trans (same.trans equal)⟩
  complete {env x later} run := by
    -- The statement runs inside its span, so from an environment with one more entry in its journal.
    obtain ⟨last, again, equal⟩ := run.same (env.same_note (.enter (.unit index))).symm
    obtain ⟨middle, enough, same, ends⟩ := (ofTree (.one t)).complete again
    refine ⟨_, enough, (middle.same_closed x).trans (same.trans equal.symm), ?_⟩
    intro fuel le
    exact Option.bind_eq_some_iff.mpr ⟨_, ends fuel le, rfl⟩

/-- One way after another follows the statements of both. -/
theorem andThen {v w : Way} {ss ts : List Node} (left : ss ≠ []) (right : ts ≠ []) (first : v.Follows ss)
    (second : w.Follows ts) : Way.Follows (fun fuel env => (v fuel env).bind fun r => w fuel r.2) (ss ++ ts) where
  sound {fuel env x after} run := by
    obtain ⟨⟨y, middle⟩, early, late⟩ := Option.bind_eq_some_iff.mp run
    obtain ⟨between, before, same⟩ := first.sound early
    obtain ⟨last, rest, equal⟩ := second.sound late
    obtain ⟨later, behind, again⟩ := rest.same same
    exact ⟨later, before.append behind, equal.trans again⟩
  complete {env x later} run := by
    obtain ⟨y, between, before, behind⟩ := run.split left right
    obtain ⟨middle, enough, same, early⟩ := first.complete before
    obtain ⟨last, rest, equal⟩ := behind.same same.symm
    obtain ⟨after, more, again, late⟩ := second.complete rest
    refine ⟨after, max enough more, again.trans equal.symm, ?_⟩
    intro fuel le
    exact Option.bind_eq_some_iff.mpr ⟨_, early fuel (by omega), late fuel (by omega)⟩

theorem ofUnits (index : Nat) (x : Float) (t : Node) (ts : List Node) :
    Way.Follows (Program.evaluateFrom · index x (t :: ts)) (t :: ts) := by
  induction ts generalizing index x t with
  | nil =>
    have alone : (Program.evaluateFrom · index x [t]) = (Program.evaluateSpan · index t) := by
      funext fuel env
      exact Option.bind_fun_some _
    rw [alone]
    exact ofSpan index t
  | cons u ts ih =>
    exact (ofSpan index t).andThen (List.cons_ne_nil t []) (List.cons_ne_nil u ts) (ih (index + 1) 0.0 u)

theorem ofProgram {ts : List Node} (nonempty : ts ≠ []) : Way.Follows (Program.ofList ts).evaluateAll ts := by
  obtain ⟨t, ts, rfl⟩ := List.exists_cons_of_ne_nil nonempty
  exact ofUnits 0 0.0 t ts

theorem ofPrograms (x : Float) {part : List Node} (first : part ≠ []) {parts : List (List Node)}
    (others : ∀ ts ∈ parts, ts ≠ []) :
    Way.Follows (oneByOne x ((part :: parts).map fun ts => (Program.ofList ts).evaluateAll))
      (part :: parts).flatten := by
  induction parts generalizing x part with
  | nil =>
    have alone : oneByOne x [(Program.ofList part).evaluateAll] = (Program.ofList part).evaluateAll := by
      funext fuel env
      exact Option.bind_fun_some _
    rw [List.map_cons, List.map_nil, alone, List.flatten_cons, List.flatten_nil, List.append_nil]
    exact ofProgram first
  | cons next parts ih =>
    have more : next ≠ [] := others next List.mem_cons_self
    have rest := ih 0.0 more fun ts member => others ts (List.mem_cons_of_mem next member)
    exact (ofProgram first).andThen first (List.append_ne_nil_of_left_ne_nil more _) rest

end Way.Follows

namespace Program

/-- Evaluates one unit. A unit that is not there has no outcome. -/
def unitWay (program : Program) (index : Nat) : Way := fun fuel env =>
  match program.evaluateUnit fuel index env with
  | .error _ => none
  | .ok outcome => outcome

theorem unitWay_eq {program : Program} {index : Nat} {t : Node} (found : program.units[index]? = some t) :
    program.unitWay index = (evaluateSpan · index t) := by
  funext fuel env
  simp only [unitWay, evaluateUnit, found]

/-- To ask for the units one by one, from some index on, is to evaluate the program from there on. -/
theorem oneByOne_unitWay (program : Program) (done ts : List Node) (units : program.units.toList = done ++ ts)
    (x : Float) :
    oneByOne x ((List.range' done.length ts.length).map program.unitWay) = (evaluateFrom · done.length x ts) := by
  induction ts generalizing done x with
  | nil => rfl
  | cons t ts ih =>
    have found : program.units[done.length]? = some t := by
      rw [← Array.getElem?_toList, units, List.getElem?_append_right (Nat.le_refl _), Nat.sub_self]
      rfl
    have later := ih (done ++ [t]) (by rw [units, List.append_assoc, List.singleton_append])
    rw [List.length_append, List.length_singleton] at later
    rw [List.length_cons, List.range'_succ, List.map_cons, unitWay_eq found]
    funext fuel env
    simp only [oneByOne, evaluateFrom, later]

end Program

/-- The ways in which a host can run statements one after the other: as one tree in which they are joined, as their
block, as one program, as the units of that program one by one, or as several programs with some of the statements
each. -/
inductive Way.Runs (ts : List Node) : Way → Prop
  | tree {t : Node} (joins : t.Joins ts) : Runs ts t.evaluate
  | block : Runs ts fun fuel env => (Node.block ts).bind fun t => t.evaluate fuel env
  | program : Runs ts (Program.ofList ts).evaluateAll
  | units : Runs ts (oneByOne 0.0 ((List.range ts.length).map (Program.ofList ts).unitWay))
  | programs {parts : List (List Node)} (nonempty : ∀ part ∈ parts, part ≠ []) (whole : parts.flatten = ts) :
      Runs ts (oneByOne 0.0 (parts.map fun part => (Program.ofList part).evaluateAll))

theorem Way.Runs.follows {ts : List Node} (nonempty : ts ≠ []) {way : Way} (runs : way.Runs ts) :
    way.Follows ts := by
  cases runs with
  | tree joins => exact .ofTree joins
  | block =>
    obtain ⟨t, joined, joins⟩ := Node.exists_block nonempty
    rw [joined]
    exact .ofTree joins
  | program => exact .ofProgram nonempty
  | units =>
    have program := (Program.ofList ts).oneByOne_unitWay [] ts rfl 0.0
    rw [List.length_nil, ← List.range_eq_range'] at program
    rw [program]
    exact .ofProgram nonempty
  | @programs parts each whole =>
    cases parts with
    | nil => exact absurd whole.symm nonempty
    | cons part parts =>
      rw [← whole]
      exact .ofPrograms 0.0 (each part List.mem_cons_self) fun ts member =>
        each ts (List.mem_cons_of_mem part member)

/-- All ways of running statements agree. Whichever two of them are chosen, from any environment they come to an end
together, and then with the same value, and with the same variables, functions, counters and output. -/
theorem Way.runs_agree {ts : List Node} (nonempty : ts ≠ []) {v w : Way} (first : v.Runs ts) (second : w.Runs ts)
    (env : Env) :
    ((∃ fuel r, v fuel env = some r) ↔ ∃ fuel r, w fuel env = some r) ∧
    ∀ fuel other x y after later, v fuel env = some (x, after) → w other env = some (y, later) →
      x = y ∧ after.vars = later.vars ∧ after.functions = later.functions ∧ after.counters = later.counters ∧
        after.output = later.output := by
  have ends : ∀ {v w : Way}, v.Runs ts → w.Runs ts →
      (∃ fuel r, v fuel env = some r) → ∃ fuel r, w fuel env = some r := by
    rintro v w first second ⟨fuel, ⟨x, after⟩, run⟩
    obtain ⟨last, ordered, -⟩ := (first.follows nonempty).sound run
    obtain ⟨later, enough, -, again⟩ := (second.follows nonempty).complete ordered
    exact ⟨enough, _, again enough (Nat.le_refl enough)⟩
  refine ⟨⟨ends first second, ends second first⟩, ?_⟩
  intro fuel other x y after later left right
  obtain ⟨last, ordered, same⟩ := (first.follows nonempty).sound left
  obtain ⟨final, again, equal⟩ := (second.follows nonempty).sound right
  obtain ⟨rfl, rfl⟩ := ordered.unique again
  obtain ⟨similar, watched⟩ := same.trans equal.symm
  exact ⟨rfl, similar.vars, similar.functions, congrArg Watched.counters watched, congrArg Watched.output watched⟩

/-- Statements whose order matters: a function is defined that adds to `x`, and is called twice. -/
def addingTwice : List Node :=
  [.define 0 "add" ⟨"y", []⟩ (.assign "x" (.arith .add (.var "x") (.var "y"))),
    .unary .display (.call "add" [.num 2.0]), .call "add" [.var "x"]]

def addingTwiceToTheLeft : Node := .seq (.seq addingTwice[0] addingTwice[1]) addingTwice[2]

def addingTwiceInPrograms : Way :=
  oneByOne 0.0 ([addingTwice.take 1, addingTwice.drop 1].map fun part => (Program.ofList part).evaluateAll)

/-- In one tree nested to the left and in two programs the statements do the same, with output captured, calls
counted and the journal kept. -/
theorem Way.runs_agree_addingTwice : ∃ x after later,
    addingTwiceToTheLeft.evaluate 60 { output := ⟨.capture, ""⟩, counters := some {}, journal := some #[] } =
      some (x, after) ∧
    addingTwiceInPrograms 60 { output := ⟨.capture, ""⟩, counters := some {}, journal := some #[] } =
      some (x, later) ∧
    after.vars = later.vars ∧ after.functions = later.functions ∧ after.counters = later.counters ∧
      after.output = later.output := by
  let env : Env := { output := ⟨.capture, ""⟩, counters := some {}, journal := some #[] }
  have joined : Way.Runs addingTwice addingTwiceToTheLeft.evaluate :=
    .tree (((Node.Joins.one _).seq (.one _)).seq (.one _))
  have cut : Way.Runs addingTwice addingTwiceInPrograms := .programs (by simp [addingTwice]) rfl
  have left : (addingTwiceToTheLeft.evaluate 60 env).isSome = true := by decide +kernel
  have right : (addingTwiceInPrograms 60 env).isSome = true := by decide +kernel
  obtain ⟨⟨x, after⟩, first⟩ := Option.isSome_iff_exists.mp left
  obtain ⟨⟨y, later⟩, second⟩ := Option.isSome_iff_exists.mp right
  have agree := (Way.runs_agree (List.cons_ne_nil _ _) joined cut env).2
  obtain ⟨rfl, same⟩ := agree 60 60 x y after later first second
  exact ⟨x, after, later, first, second, same⟩

end TreeCalc
