import Mathlib.Data.List.Forall2
import TreeCalc.Proofs.TextRuns
import TreeCalc.Session

namespace TreeCalc

namespace Seed

/-- What the text of a binding says: a name that is not empty and holds no equals sign, then an equals sign, then
the text of a number. -/
inductive Binds : List Char → String × Float → Prop
  | pair {name value : List Char} {x : Float} (named : name ≠ []) (first : '=' ∉ name)
      (number : Number.read? (String.ofList value) = some x) : Binds (name ++ '=' :: value) (String.ofList name, x)

/-- What is wrong with a text: it has no equals sign, or else nothing stands before the first one, or else what
stands behind it is no number. -/
inductive Faulty : List Char → SeedError → Prop
  | missingEquals {run : List Char} (missing : '=' ∉ run) : Faulty run (.missingEquals (String.ofList run))
  | emptyName {value : List Char} : Faulty ('=' :: value) (.emptyName (String.ofList ('=' :: value)))
  | invalidValue {name value : List Char} (named : name ≠ []) (first : '=' ∉ name)
      (unread : Number.read? (String.ofList value) = none) :
      Faulty (name ++ '=' :: value) (.invalidValue (String.ofList name) (String.ofList value))

theorem Binds.readPair_eq {run : List Char} {binding : String × Float} (binds : Binds run binding) :
    readPair run = .ok binding := by
  obtain ⟨named, first, number⟩ := binds
  simp [readPair, Text.takeWhile_mark first, Text.dropWhile_mark first, named, number]

theorem Faulty.readPair_eq {run : List Char} {e : SeedError} (faulty : Faulty run e) : readPair run = .error e := by
  cases faulty with
  | missingEquals missing =>
    have none : run.dropWhile (· != '=') = [] := by
      rw [← List.append_nil run, List.dropWhile_append_of_pos (Text.forall_bne missing), List.dropWhile_nil]
    simp [readPair, none]
  | emptyName => simp [readPair]
  | invalidValue named first unread =>
    simp [readPair, Text.takeWhile_mark first, Text.dropWhile_mark first, named, unread]

theorem binds_or_faulty (run : List Char) : (∃ binding, Binds run binding) ∨ ∃ e, Faulty run e := by
  by_cases equals : '=' ∈ run
  · obtain ⟨name, value, rfl, first⟩ := List.eq_append_cons_of_mem equals
    by_cases named : name = []
    · subst named
      exact Or.inr ⟨_, .emptyName⟩
    · cases number : Number.read? (String.ofList value) with
      | none => exact Or.inr ⟨_, .invalidValue named first number⟩
      | some x => exact Or.inl ⟨_, .pair named first number⟩
  · exact Or.inr ⟨_, .missingEquals equals⟩

theorem Faulty.not_binds {run : List Char} {e : SeedError} (faulty : Faulty run e) (binding : String × Float) :
    ¬ Binds run binding := by
  intro binds
  cases faulty.readPair_eq.symm.trans binds.readPair_eq

/-- The texts are read as bindings one by one. -/
theorem mapM_of_binds {runs : List (List Char)} {bindings : List (String × Float)}
    (all : List.Forall₂ Binds runs bindings) : runs.mapM readPair = .ok bindings := by
  induction all with
  | nil => rfl
  | cons first _ ih =>
    rw [List.mapM_cons, first.readPair_eq, ih]
    rfl

theorem exists_binds_of_mem {runs : List (List Char)} {bindings : List (String × Float)}
    (all : List.Forall₂ Binds runs bindings) : ∀ run ∈ runs, ∃ binding, Binds run binding := by
  induction all with
  | nil => nofun
  | cons first _ ih => exact List.forall_mem_cons.mpr ⟨⟨_, first⟩, ih⟩

/-- The first fault ends the reading, whatever comes after it. -/
theorem mapM_of_faulty {good : List (List Char)} {bad : List Char} {e : SeedError}
    (before : ∀ run ∈ good, ∃ binding, Binds run binding) (faulty : Faulty bad e) (rest : List (List Char)) :
    (good ++ bad :: rest).mapM readPair = .error e := by
  induction good with
  | nil =>
    rw [List.nil_append, List.mapM_cons, faulty.readPair_eq]
    rfl
  | cons run good ih =>
    obtain ⟨binding, binds⟩ := before run List.mem_cons_self
    have others := ih fun run member => before run (List.mem_cons_of_mem _ member)
    rw [List.cons_append, List.mapM_cons, binds.readPair_eq, others]
    rfl

/-- Texts are all bindings, or there is a leftmost one among them that is none. -/
theorem forall_binds_or_leftmost_faulty (runs : List (List Char)) :
    (∃ bindings, List.Forall₂ Binds runs bindings) ∨
      ∃ good bad rest e, runs = good ++ bad :: rest ∧
        (∀ run ∈ good, ∃ binding, Binds run binding) ∧ Faulty bad e := by
  induction runs with
  | nil => exact Or.inl ⟨[], .nil⟩
  | cons run runs ih =>
    rcases binds_or_faulty run with ⟨binding, binds⟩ | ⟨e, faulty⟩
    · rcases ih with ⟨bindings, all⟩ | ⟨good, bad, rest, e, rfl, before, faulty⟩
      · exact Or.inl ⟨binding :: bindings, .cons binds all⟩
      · exact Or.inr ⟨run :: good, bad, rest, e, rfl, List.forall_mem_cons.mpr ⟨⟨binding, binds⟩, before⟩, faulty⟩
    · exact Or.inr ⟨[], run, runs, e, rfl, nofun, faulty⟩

end Seed

namespace Env

/-- The last binding of a name counts, and a name that has none keeps what it had. -/
theorem get?_assignAll (bindings : List (String × Float)) (env : Env) (name : String) :
    (env.assignAll bindings).vars.get? name = (bindings.reverse.lookup name).or (env.vars.get? name) := by
  induction bindings generalizing env with
  | nil => rfl
  | cons binding bindings ih =>
    have first : (env.assign binding.1 binding.2).vars.get? name =
        ([binding].lookup name).or (env.vars.get? name) := by
      rw [assign, Table.get?_insert, List.lookup_cons, List.lookup_nil]
      by_cases same : binding.1 = name
      · rw [if_pos same, same, beq_self_eq_true]
        rfl
      · rw [if_neg same, beq_false_of_ne (Ne.symm same)]
        rfl
    have rest := ih (env.assign binding.1 binding.2)
    rw [List.reverse_cons, List.lookup_append, Option.or_assoc, ← first]
    exact rest

/-- What comes of seeding an environment from a text with these runs. -/
structure SeedsFrom (env : Env) (runs : List (List Char)) (outcome : Except SeedError Env) : Prop where
  /-- It succeeds when every run is a binding, and only then. -/
  accepts : (∃ after, outcome = .ok after) ↔ ∀ run ∈ runs, ∃ binding, Seed.Binds run binding
  /-- Then variables get their last binding and nothing else changes. -/
  assigns : ∀ after, outcome = .ok after → after = { env with vars := after.vars } ∧
    ∃ bindings, List.Forall₂ Seed.Binds runs bindings ∧
      ∀ name, after.vars.get? name = (bindings.reverse.lookup name).or (env.vars.get? name)
  /-- Otherwise the leftmost run that is none says what is wrong. -/
  refuses : ∀ e, outcome = .error e ↔ ∃ good bad rest, runs = good ++ bad :: rest ∧
    (∀ run ∈ good, ∃ binding, Seed.Binds run binding) ∧ Seed.Faulty bad e

theorem seedsFrom_runs (env : Env) (text : String) :
    env.SeedsFrom (Text.runs Seed.isSeparator text.toList) (env.seed text) := by
  have seed : env.seed text = ((Text.runs Seed.isSeparator text.toList).mapM Seed.readPair).map env.assignAll := rfl
  rw [seed]
  generalize Text.runs Seed.isSeparator text.toList = runs
  rcases Seed.forall_binds_or_leftmost_faulty runs with ⟨bindings, all⟩ | ⟨good, bad, rest, e, rfl, before, faulty⟩
  · rw [Seed.mapM_of_binds all]
    have each := Seed.exists_binds_of_mem all
    refine ⟨⟨fun _ => each, fun _ => ⟨_, rfl⟩⟩, ?_, ?_⟩
    · intro after done
      cases done
      exact ⟨env.assignAll_eq bindings, bindings, all, env.get?_assignAll bindings⟩
    · intro e
      constructor
      · intro refused
        cases refused
      · rintro ⟨good, bad, rest, rfl, -, faulty⟩
        obtain ⟨binding, binds⟩ := each bad (by simp)
        exact absurd binds (faulty.not_binds binding)
  · rw [Seed.mapM_of_faulty before faulty]
    have some : ¬ ∀ run ∈ good ++ bad :: rest, ∃ binding, Seed.Binds run binding := by
      intro each
      obtain ⟨binding, binds⟩ := each bad (by simp)
      exact faulty.not_binds binding binds
    refine ⟨⟨?_, fun each => absurd each some⟩, nofun, ?_⟩
    · rintro ⟨after, done⟩
      cases done
    · intro e'
      constructor
      · intro refused
        cases refused
        exact ⟨good, bad, rest, rfl, before, faulty⟩
      · rintro ⟨front, other, back, same, earlier, wrong⟩
        have again := Seed.mapM_of_faulty earlier wrong back
        rw [← same, Seed.mapM_of_faulty before faulty] at again
        cases again
        rfl

end Env

/-- Seeding accepts exactly its grammar, and does all or nothing. The text has one cut into maximal runs; if all
of them are bindings the variables get these, the last one of a name counting, and if not the leftmost fault is
the answer and the session stays as it was. -/
theorem Session.seed_all_or_nothing (s : Session) (fuel : Nat) (text : String) :
    ∃ runs, (∀ cut, Text.Cut Seed.isSeparator text.toList cut ↔ cut = runs) ∧
      s.env.SeedsFrom runs (s.env.seed text) ∧
      (∀ after, s.env.seed text = .ok after → s.serve fuel (.seed text) = some ({ s with env := after }, .seeded)) ∧
      ∀ e, s.env.seed text = .error e → s.serve fuel (.seed text) = some (s, .seedFault e) := by
  refine ⟨_, fun cut => Text.cut_iff, s.env.seedsFrom_runs text, ?_, ?_⟩
  · intro after done
    simp only [serve, done]
  · intro e refused
    simp only [serve, refused]

end TreeCalc
