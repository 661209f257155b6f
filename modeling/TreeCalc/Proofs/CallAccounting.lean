import Mathlib.Order.Bounds.Basic
import TreeCalc.Proofs.SessionDeeds

namespace TreeCalc

namespace Act

theorem depth_le_iff {base old bound : Nat} {acts : List Act} :
    depth base old acts ≤ bound ↔ old ≤ bound ∧ ∀ n ∈ nestings acts, base + n ≤ bound := by
  have run : ∀ (ns : List Nat) (old : Nat),
      ns.foldl (fun depth n => max depth (base + n)) old ≤ bound ↔ old ≤ bound ∧ ∀ n ∈ ns, base + n ≤ bound := by
    intro ns
    induction ns with
    | nil => simp
    | cons n ns ih => simp [ih, and_assoc]
  exact run (nestings acts) old

/-- The deepest nesting of a call, or zero if there is none. -/
def deepest (acts : List Act) : Nat := depth 0 0 acts

theorem deepest_le_iff {bound : Nat} {acts : List Act} : deepest acts ≤ bound ↔ ∀ n ∈ nestings acts, n ≤ bound := by
  simp [deepest, depth_le_iff]

theorem deepest_mem {acts : List Act} (some : deepest acts ≠ 0) : deepest acts ∈ nestings acts := by
  by_contra missing
  have below : deepest acts ≤ deepest acts - 1 := by
    refine deepest_le_iff.mpr fun n member => ?_
    have most := deepest_le_iff.mp le_rfl n member
    have apart : n ≠ deepest acts := fun same => missing (same ▸ member)
    omega
  omega

/-- If there is a call at all, then the deepest one counts, and no other one. -/
theorem depth_eq (base old : Nat) (acts : List Act) (positive : ∀ n ∈ nestings acts, 0 < n) :
    depth base old acts = if deepest acts = 0 then old else max old (base + deepest acts) := by
  refine eq_of_forall_ge_iff fun bound => ?_
  rw [depth_le_iff]
  split
  · next none =>
    -- Nestings begin at one, so a deepest one of zero means that there was no call.
    have empty : ∀ n, n ∉ nestings acts := by
      intro n member
      have most := deepest_le_iff.mp none.le n member
      have least := positive n member
      omega
    simp [empty]
  · next some =>
    rw [Nat.max_le]
    refine and_congr_right fun _ => ⟨fun all => all _ (deepest_mem some), fun most n member => ?_⟩
    have less := deepest_le_iff.mp le_rfl n member
    omega

/-- No call is deeper than there are calls. -/
def Shallow (acts : List Act) : Prop := ∀ n ∈ nestings acts, n ≤ (nestings acts).length

theorem Shallow.append {acts more : List Act} (first : Shallow acts) (second : Shallow more) :
    Shallow (acts ++ more) := by
  intro n member
  rw [nestings_append] at member ⊢
  rw [List.length_append]
  rcases List.mem_append.mp member with before | after
  · have bound := first n before
    omega
  · have bound := second n after
    omega

theorem Shallow.nil : Shallow [] := nofun

end Act

open Act

namespace Machine

/-- The number of running calls does not grow but by a call that is counted. -/
theorem step_nestings {c next : Config} (one : step c = some next) :
    (nestings c.act.toList = [] ∧ next.running.length ≤ c.running.length) ∨
      (nestings c.act.toList = [next.running.length] ∧ next.running.length = c.running.length + 1) := by
  cases step_observed one with
  | quiet act _ running => exact Or.inl ⟨by rw [act]; rfl, running.le⟩
  | display x act _ running => exact Or.inl ⟨by rw [act]; rfl, running.le⟩
  | call name d act _ running => exact Or.inr ⟨by rw [act, running]; rfl, running⟩
  | finish d saved x act _ running => exact Or.inl ⟨by rw [act]; rfl, by omega⟩

theorem nestings_of_step {c next : Config} (one : step c = some next) (fuel : Nat) :
    nestings (acts (fuel + 1) c) = nestings c.act.toList ++ nestings (acts fuel next) := by
  rw [acts_of_step one, nestings_append]

theorem nestings_of_ended {c : Config} (ended : step c = none) (fuel : Nat) :
    nestings (acts (fuel + 1) c) = [] := by
  rw [acts_of_ended ended]
  rfl

/-- The calls around a call run already or are counted before it. -/
theorem nesting_bounds (fuel : Nat) (c : Config) :
    ∀ n ∈ nestings (acts fuel c), 0 < n ∧ n ≤ c.running.length + (nestings (acts fuel c)).length := by
  induction fuel generalizing c with
  | zero => nofun
  | succ fuel ih =>
    intro n member
    cases one : step c with
    | none =>
      rw [nestings_of_ended one] at member
      cases member
    | some next =>
      rw [nestings_of_step one] at member ⊢
      -- A call adds one to both sides of the bound, and the end of a call only makes it tighter.
      rcases step_nestings one with ⟨none, running⟩ | ⟨call, running⟩
      · rw [none, List.nil_append] at member ⊢
        have bounds := ih next n member
        omega
      · rw [call, List.singleton_append] at member ⊢
        rw [List.length_cons]
        rcases List.mem_cons.mp member with rfl | later
        · omega
        · have bounds := ih next n later
          omega

/-- Every counted nesting is reached. -/
theorem exists_nesting {fuel n : Nat} {c : Config} (member : n ∈ nestings (acts fuel c)) :
    ∃ later, Reaches c later ∧ later.running.length = n := by
  induction fuel generalizing c with
  | zero => cases member
  | succ fuel ih =>
    cases one : step c with
    | none =>
      rw [nestings_of_ended one] at member
      cases member
    | some next =>
      rw [nestings_of_step one] at member
      rcases List.mem_append.mp member with now | later
      · refine ⟨next, .single one, ?_⟩
        rcases step_nestings one with ⟨none, _⟩ | ⟨call, _⟩
        · rw [none] at now
          cases now
        · rw [call] at now
          exact (List.mem_singleton.mp now).symm
      · obtain ⟨reached, path, running⟩ := ih later
        exact ⟨reached, .head one path, running⟩

/-- In a run that ends no more calls are reached than are counted. -/
theorem running_le {fuel bound : Nat} {c later : Config} {r : Float × Env} (path : Reaches c later)
    (ends : run fuel c.task c.stack c.env = some r) (start : c.running.length ≤ bound)
    (counted : ∀ n ∈ nestings (acts fuel c), n ≤ bound) : later.running.length ≤ bound := by
  induction fuel generalizing c with
  | zero => simp [run] at ends
  | succ fuel ih =>
    rcases Relation.ReflTransGen.cases_head path with rfl | ⟨next, one, rest⟩
    · exact start
    · rw [run_of_step one] at ends
      rw [nestings_of_step one] at counted
      refine ih rest ends ?_ fun n member => counted n (List.mem_append_right _ member)
      rcases step_nestings one with ⟨_, running⟩ | ⟨call, _⟩
      · exact running.trans start
      · exact counted _ (List.mem_append_left _ (by simp [call]))

end Machine

/-- The numbers of calls that run at the same time while a tree is evaluated. -/
def Node.nestingsReached (t : Node) (env : Env) : Set Nat :=
  {n | ∃ c, Machine.Reaches ⟨.eval t, [], env⟩ c ∧ c.running.length = n}

theorem Node.deepest_isGreatest {t : Node} {fuel : Nat} {env : Env} {r : Float × Env}
    (ends : t.evaluate fuel env = some r) : IsGreatest (t.nestingsReached env) (deepest (t.acts fuel env)) := by
  constructor
  · by_cases none : deepest (t.acts fuel env) = 0
    · exact ⟨_, .refl, none.symm⟩
    · exact Machine.exists_nesting (deepest_mem none)
  · rintro n ⟨c, path, rfl⟩
    exact Machine.running_le path ends (Nat.zero_le _) (deepest_le_iff.mp le_rfl)

theorem Node.shallow_acts (t : Node) (fuel : Nat) (env : Env) : Shallow (t.acts fuel env) := by
  intro n member
  have bounds := (Machine.nesting_bounds fuel _ n member).2
  rwa [show (Machine.Config.mk (.eval t) [] env).running.length = 0 from rfl, Nat.zero_add] at bounds

theorem shallow_everywhere : Everywhere (fun c => c.act.toList) Shallow where
  trail := Node.shallow_acts
  nil := .nil
  append := .append

/-- What the host does with the output changes no counter. -/
theorem Watched.counters_undergo_all (deeds : List Deed) (w : Watched) :
    ∃ output, deeds.foldl Watched.undergo w = { (Deed.acts deeds).foldl Watched.record w with output } := by
  induction deeds generalizing w with
  | nil => exact ⟨w.output, rfl⟩
  | cons d deeds ih =>
    obtain ⟨output, rest⟩ := ih (w.undergo d)
    refine ⟨output, rest.trans ?_⟩
    cases d with
    | act a => rfl
    | print line | clear =>
      rw [Watched.record_all, Watched.record_all]
      rfl

namespace Session

theorem acts_deeds (s : Session) (fuel : Nat) (request : Request) :
    Deed.acts (s.deeds fuel request) = s.acts fuel request := by
  cases request with
  | print | clearOutput => rfl
  | _ => exact Deed.acts_map _

theorem Past.shallow {setup : Setup} {deeds : List Deed} {s : Session} (past : Past setup deeds s) :
    Shallow (Deed.acts deeds) := by
  refine Recorded.induct (P := fun deeds _ => Shallow (Deed.acts deeds)) ?_ ?_ past
  · exact .nil
  · intro deeds s next fuel request reply before served
    rw [Deed.acts_append, acts_deeds]
    exact before.append (shallow_everywhere.session s fuel request)

end Session

/-- The depth of the running calls has been counted, if anything is. That is so where no call runs, and stays so. -/
def Env.Covered (env : Env) : Prop := ∀ k, env.counters = some k → env.callDepth ≤ k.maxCallDepth

theorem Machine.step_covered {c next : Config} (covered : c.env.Covered) (one : step c = some next) :
    next.env.Covered := by
  intro k counters
  cases step_observed one with
  | quiet _ watched _ =>
    have same : next.env.callDepth = c.env.callDepth := congrArg Watched.callDepth watched
    rw [same]
    exact covered k ((congrArg Watched.counters watched).symm.trans counters)
  | display x _ env _ =>
    rw [env] at counters ⊢
    obtain ⟨old, before, rfl⟩ := Option.map_eq_some_iff.mp counters
    exact covered old before
  | call name d _ env _ =>
    rw [env] at counters ⊢
    obtain ⟨old, before, rfl⟩ := Option.map_eq_some_iff.mp counters
    exact Nat.le_max_right _ _
  | finish d saved x _ env _ =>
    rw [env] at counters ⊢
    exact (Nat.sub_le _ _).trans (covered k counters)

theorem Machine.reaches_covered {c later : Config} (covered : c.env.Covered) (path : Reaches c later) :
    later.env.Covered := by
  induction path with
  | refl => exact covered
  | tail _ one ih => exact step_covered ih one

/-- What the evaluation of a tree has done to the depth of calls and to the counters. -/
structure Node.Accounts (t : Node) (fuel : Nat) (env after : Env) : Prop where
  /-- Every call that began has ended. -/
  depth : after.callDepth = env.callDepth
  /-- Calls are counted in a word of sixty-four bits. -/
  calls : after.counters.map (·.functionCalls.toNat) =
    env.counters.map fun k => (k.functionCalls.toNat + (nestings (t.acts fuel env)).length) % UInt64.size
  /-- The greatest depth goes up to that of the most calls that ran at the same time. -/
  deepest : ∃ most, IsGreatest (t.nestingsReached env) most ∧
    after.counters.map (·.maxCallDepth) =
      (env.counters.map fun k => if most = 0 then k.maxCallDepth else max k.maxCallDepth (env.callDepth + most)) ∧
    (env.Covered →
      after.counters.map (·.maxCallDepth) = env.counters.map fun k => max k.maxCallDepth (env.callDepth + most))

theorem Node.accounts {t : Node} {fuel : Nat} {env after : Env} {x : Float}
    (ends : t.evaluate fuel env = some (x, after)) : t.Accounts fuel env after := by
  have watched := Node.evaluate_watched ends
  rw [Watched.record_all] at watched
  have counters : after.counters = env.counters.map _ := congrArg Watched.counters watched
  have positive : ∀ n ∈ nestings (t.acts fuel env), 0 < n :=
    fun n member => (Machine.nesting_bounds fuel _ n member).1
  have deepened : after.counters.map (·.maxCallDepth) = env.counters.map fun k =>
      if deepest (t.acts fuel env) = 0 then k.maxCallDepth
      else max k.maxCallDepth (env.callDepth + deepest (t.acts fuel env)) := by
    rw [counters, Option.map_map]
    exact congrArg (fun f => env.counters.map f) (funext fun k => depth_eq _ _ _ positive)
  refine ⟨congrArg Watched.callDepth watched, ?_, _, deepest_isGreatest ends, deepened, ?_⟩
  · rw [counters, Option.map_map]
    exact congrArg (fun f => env.counters.map f) (funext fun k => Counters.toNat_add_ofNat _ _)
  · intro covered
    rw [deepened]
    cases counted : env.counters with
    | none => rfl
    | some k =>
      have bound := covered k counted
      rw [Option.map_some, Option.map_some, Option.some.injEq]
      split <;> omega

/-- A function that gives back its parameter. -/
def Definition.identity : Definition := ⟨0, "f", ⟨"x", []⟩, .var "x"⟩

namespace Session

/-- The counters of a session and its depth of calls are those of all that was evaluated. -/
theorem Past.counted {setup : Setup} {deeds : List Deed} {s : Session} (past : Past setup deeds s) :
    s.env.callDepth = 0 ∧ s.env.counters = (if setup.counting then some {} else none).map fun k : Counters =>
      { functionCalls := k.functionCalls + UInt64.ofNat (nestings (Deed.acts deeds)).length
        displayWrites := k.displayWrites + UInt64.ofNat (shown (Deed.acts deeds)).length
        maxCallDepth := depth 0 k.maxCallDepth (Deed.acts deeds) } := by
  obtain ⟨output, watched⟩ := Watched.counters_undergo_all deeds
    ⟨⟨setup.hostMode.getD setup.mode, ""⟩, if setup.counting then some {} else none, 0⟩
  rw [← past.watched, Watched.record_all] at watched
  exact ⟨congrArg Watched.callDepth watched, congrArg Watched.counters watched⟩

theorem Past.counters {setup : Setup} {deeds : List Deed} {s : Session} (past : Past setup deeds s)
    (counting : setup.counting = true) (few : (nestings (Deed.acts deeds)).length < UInt64.size) :
    ∃ k, s.env.counters = some k ∧ k.functionCalls.toNat = (nestings (Deed.acts deeds)).length ∧
      k.maxCallDepth ≤ k.functionCalls.toNat := by
  have counters := past.counted.2
  rw [if_pos counting] at counters
  have calls : ((0 : UInt64) + UInt64.ofNat (nestings (Deed.acts deeds)).length).toNat =
      (nestings (Deed.acts deeds)).length := by
    rw [Counters.toNat_add_ofNat, UInt64.toNat_zero, Nat.zero_add, Nat.mod_eq_of_lt few]
  refine ⟨_, counters, calls, ?_⟩
  refine (depth_le_iff.mpr ⟨Nat.zero_le _, fun n member => ?_⟩).trans calls.ge
  rw [Nat.zero_add]
  exact past.shallow n member

/-- Calls are accounted for exactly. At every moment of an evaluation the depth of calls is what it was at the
start and one for every call that runs, so it is not zero when a call ends. An evaluation that ends leaves the
depth as it was, has counted the calls that found a function, and knows the greatest depth. Hence no call runs
between the requests of a session, and as long as the word does not overflow no call was deeper than there were
calls. -/
theorem calls_accounted :
    (∀ (t : Node) (env : Env) (c : Machine.Config), Machine.Reaches ⟨.eval t, [], env⟩ c →
      c.env.callDepth = env.callDepth + c.running.length ∧
      (∀ x d saved stack, c.task = .give x → c.stack = .finish d saved :: stack →
        env.callDepth + 1 ≤ c.env.callDepth) ∧
      (env.Covered → c.env.Covered)) ∧
    (∀ (t : Node) (fuel : Nat) (env after : Env) (x : Float), t.evaluate fuel env = some (x, after) →
      t.Accounts fuel env after) ∧
    ∀ (setup : Setup) (deeds : List Deed) (s : Session), Past setup deeds s →
      s.env.callDepth = 0 ∧
      (setup.counting = true → (nestings (Deed.acts deeds)).length < UInt64.size →
        ∃ k, s.env.counters = some k ∧ k.functionCalls.toNat = (nestings (Deed.acts deeds)).length ∧
          k.maxCallDepth ≤ k.functionCalls.toNat) := by
  refine ⟨?_, ?_, ?_⟩
  · intro t env c path
    have start : (Machine.Config.mk (.eval t) [] env).Level env.callDepth := rfl
    have level : c.env.callDepth = env.callDepth + c.running.length := start.reaches path
    refine ⟨level, ?_, fun covered => Machine.reaches_covered covered path⟩
    intro x d saved stack task rest
    have running : c.running.length = (stack.flatMap Frame.held).length + 1 := by
      rw [Machine.Config.running, task, rest]
      rfl
    omega
  · intro t fuel env after x ends
    exact Node.accounts ends
  · intro setup deeds s past
    exact ⟨past.counted.1, past.counters⟩

/-- The call in the argument of a call is inside it, and a call that finds no function is not counted. -/
theorem calls_accounted_argument :
    (∃ x after, (Node.call "f" [.call "f" [.call "g" []]]).evaluate 30
        { output := ⟨.silent, ""⟩, callDepth := 3, counters := some { functionCalls := 7, maxCallDepth := 4 }
          functions := Table.empty.insert "f" .identity } = some (x, after) ∧
      after.callDepth = 3 ∧ after.counters.map (·.functionCalls.toNat) = some 9 ∧
      after.counters.map (·.maxCallDepth) = some 5) ∧
    ∃ deeds s k, Past { counting := true } deeds s ∧ s.env.callDepth = 0 ∧ s.env.counters = some k ∧
      k.functionCalls.toNat = 2 ∧ k.maxCallDepth ≤ 2 := by
  refine ⟨?_, ?_⟩
  · let env : Env :=
      { output := ⟨.silent, ""⟩, callDepth := 3, counters := some { functionCalls := 7, maxCallDepth := 4 }
        functions := Table.empty.insert "f" .identity }
    let t : Node := .call "f" [.call "f" [.call "g" []]]
    have ends : (t.evaluate 30 env).isSome = true := by decide +kernel
    obtain ⟨⟨x, after⟩, run⟩ := Option.isSome_iff_exists.mp ends
    obtain ⟨depth, calls, most, greatest, deepened, _⟩ := calls_accounted.2.1 t 30 env after x run
    have two : most = 2 := by
      rw [greatest.unique (Node.deepest_isGreatest run)]
      decide +kernel
    refine ⟨x, after, run, depth, ?_, ?_⟩
    · rw [calls]
      decide +kernel
    · rw [deepened, two]
      decide
  · let first : Request := .eval Definition.identity.toNode 1
    let second : Request := .eval (.call "f" [.call "f" [.call "g" []]]) 1
    have ends : (((Session.start { counting := true }).serve 30 first).bind fun r =>
        (r.1.serve 30 second).map fun _ => (nestings (r.1.acts 30 second)).length) = some 2 := by decide +kernel
    obtain ⟨⟨s, reply⟩, defined, called⟩ := Option.bind_eq_some_iff.mp ends
    obtain ⟨⟨next, result⟩, served, calls⟩ := Option.map_eq_some_iff.mp called
    have past := (Past.start.serve 30 first defined).serve 30 second served
    have total : (nestings (Deed.acts ([] ++ (Session.start { counting := true }).deeds 30 first ++
        s.deeds 30 second))).length = 2 := by
      rw [Deed.acts_append, acts_deeds, nestings_append, List.length_append, calls]
      rfl
    obtain ⟨k, counters, functionCalls, bound⟩ := (calls_accounted.2.2 _ _ next past).2 rfl (by rw [total]; decide)
    rw [functionCalls, total] at bound
    exact ⟨_, next, k, past, (calls_accounted.2.2 _ _ next past).1, counters, functionCalls.trans total, bound⟩

end Session

end TreeCalc
