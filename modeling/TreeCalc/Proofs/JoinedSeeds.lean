import TreeCalc.Proofs.Seeding

namespace TreeCalc

namespace Seed

/-- A text of separators only. -/
def Gap (text : String) : Prop := ∀ c ∈ text.toList, isSeparator c = true

/-- Between two texts a gap makes no difference other than to set them apart: the bindings of the first come before
those of the second, and so does its fault. -/
theorem read_joined {gap : String} (blank : Gap gap) (nonempty : gap ≠ "") (front back : String) :
    read (front ++ gap ++ back) = (do
      let first ← read front
      let second ← read back
      pure (first ++ second)) := by
  have apart : gap.toList ≠ [] := by simpa using nonempty
  have runs : Text.runs isSeparator (front.toList ++ gap.toList ++ back.toList) =
      Text.runs isSeparator front.toList ++ Text.runs isSeparator back.toList :=
    Text.runs_append_gap blank apart front.toList back.toList
  rw [read, String.toList_append, String.toList_append, runs, List.mapM_append]
  rfl

/-- Around a text gaps make no difference. -/
theorem read_between_gaps {lead trail : String} (before : Gap lead) (behind : Gap trail) (text : String) :
    read (lead ++ text ++ trail) = read text := by
  rw [read, String.toList_append, String.toList_append, Text.runs_text_append_gap behind,
    Text.runs_gap_append before, read]

end Seed

namespace Env

theorem assignAll_append (env : Env) (bindings more : List (String × Float)) :
    env.assignAll (bindings ++ more) = (env.assignAll bindings).assignAll more :=
  List.foldl_append

/-- Seeding from a joined text is seeding from its parts in turn. -/
theorem seed_joined (env : Env) {gap : String} (blank : Seed.Gap gap) (nonempty : gap ≠ "") (front back : String) :
    env.seed (front ++ gap ++ back) = (env.seed front).bind fun middle => middle.seed back := by
  unfold seed
  rw [Seed.read_joined blank nonempty]
  cases Seed.read front with
  | error e => rfl
  | ok first =>
    cases Seed.read back with
    | error e => rfl
    | ok second => exact congrArg Except.ok (env.assignAll_append first second)

theorem seed_joined_ok {env after : Env} {gap : String} (blank : Seed.Gap gap) (nonempty : gap ≠ "")
    {front back : String} : env.seed (front ++ gap ++ back) = .ok after ↔
      ∃ middle, env.seed front = .ok middle ∧ middle.seed back = .ok after := by
  rw [env.seed_joined blank nonempty]
  cases env.seed front <;> simp [Except.bind]

/-- Whether a text can be read, and what is wrong with it if not, does not depend on the environment. -/
theorem seed_fault {env : Env} {text : String} {e : SeedError} (refused : env.seed text = .error e) (other : Env) :
    other.seed text = .error e := by
  unfold seed at refused ⊢
  cases bindings : Seed.read text with
  | error found =>
    rw [bindings] at refused
    exact refused
  | ok list =>
    rw [bindings] at refused
    cases refused

theorem seed_done {env after : Env} {text : String} (done : env.seed text = .ok after) (other : Env) :
    ∃ later, other.seed text = .ok later := by
  cases again : other.seed text with
  | ok later => exact ⟨later, rfl⟩
  | error e => cases (seed_fault again env).symm.trans done

end Env

namespace Session

theorem serve_seed_seeded {s next : Session} {fuel : Nat} {text : String} :
    s.serve fuel (.seed text) = some (next, .seeded) ↔
      ∃ after, s.env.seed text = .ok after ∧ next = { s with env := after } := by
  simp only [serve]
  cases s.env.seed text <;> simp [eq_comm]

theorem serve_seed_fault {s next : Session} {fuel : Nat} {text : String} {e : SeedError} :
    s.serve fuel (.seed text) = some (next, .seedFault e) ↔ s.env.seed text = .error e ∧ next = s := by
  simp only [serve]
  cases s.env.seed text <;> simp [eq_comm, and_comm]

/-- Seeding from a joined text, told by what comes of seeding from its parts. -/
structure SeedsInTurn (s : Session) (fuel : Nat) (front back joined : String) : Prop where
  /-- It succeeds when both parts do, and only then. -/
  accepts : (∃ next, s.serve fuel (.seed joined) = some (next, .seeded)) ↔
    (∃ next, s.serve fuel (.seed front) = some (next, .seeded)) ∧
      ∃ next, s.serve fuel (.seed back) = some (next, .seeded)
  /-- Then the session is the one that comes of the first part and then the second. -/
  both : ∀ next, s.serve fuel (.seed joined) = some (next, .seeded) →
    ∃ middle, s.serve fuel (.seed front) = some (middle, .seeded) ∧
      middle.serve fuel (.seed back) = some (next, .seeded)
  /-- A fault of the first part is the answer. -/
  first : ∀ e, s.serve fuel (.seed front) = some (s, .seedFault e) →
    s.serve fuel (.seed joined) = some (s, .seedFault e)
  /-- Otherwise a fault of the second part is, and the bindings of the first are not made, though they stay when the
  parts are taken in turn. -/
  second : ∀ middle e, s.serve fuel (.seed front) = some (middle, .seeded) →
    s.serve fuel (.seed back) = some (s, .seedFault e) →
    s.serve fuel (.seed joined) = some (s, .seedFault e) ∧
      middle.serve fuel (.seed back) = some (middle, .seedFault e)

theorem seedsInTurn {gap : String} (blank : Seed.Gap gap) (nonempty : gap ≠ "") (s : Session) (fuel : Nat)
    (front back : String) : s.SeedsInTurn fuel front back (front ++ gap ++ back) := by
  refine ⟨⟨?_, ?_⟩, ?_, ?_, ?_⟩
  · rintro ⟨next, seeded⟩
    obtain ⟨after, done, -⟩ := serve_seed_seeded.mp seeded
    obtain ⟨middle, first, second⟩ := (Env.seed_joined_ok blank nonempty).mp done
    -- The second part was read on top of the first, and is read alone as well.
    obtain ⟨alone, second⟩ := Env.seed_done second s.env
    exact ⟨⟨_, serve_seed_seeded.mpr ⟨middle, first, rfl⟩⟩, ⟨_, serve_seed_seeded.mpr ⟨alone, second, rfl⟩⟩⟩
  · rintro ⟨⟨left, one⟩, ⟨right, two⟩⟩
    obtain ⟨middle, first, -⟩ := serve_seed_seeded.mp one
    obtain ⟨alone, second, -⟩ := serve_seed_seeded.mp two
    obtain ⟨after, second⟩ := Env.seed_done second middle
    have done := (Env.seed_joined_ok blank nonempty).mpr ⟨middle, first, second⟩
    exact ⟨_, serve_seed_seeded.mpr ⟨after, done, rfl⟩⟩
  · intro next seeded
    obtain ⟨after, done, rfl⟩ := serve_seed_seeded.mp seeded
    obtain ⟨middle, first, second⟩ := (Env.seed_joined_ok blank nonempty).mp done
    exact ⟨{ s with env := middle }, serve_seed_seeded.mpr ⟨middle, first, rfl⟩,
      serve_seed_seeded.mpr ⟨after, second, rfl⟩⟩
  · intro e refused
    obtain ⟨fault, -⟩ := serve_seed_fault.mp refused
    refine serve_seed_fault.mpr ⟨?_, rfl⟩
    rw [s.env.seed_joined blank nonempty, fault]
    rfl
  · intro middle e seeded refused
    obtain ⟨bound, first, rfl⟩ := serve_seed_seeded.mp seeded
    obtain ⟨fault, -⟩ := serve_seed_fault.mp refused
    -- The fault comes up after the first part was read, but before anything is bound.
    have again := Env.seed_fault fault bound
    refine ⟨serve_seed_fault.mpr ⟨?_, rfl⟩, serve_seed_fault.mpr ⟨again, rfl⟩⟩
    rw [s.env.seed_joined blank nonempty, first]
    exact again

/-- Seeding respects how texts are put together. A text of two parts with a gap between them does what its parts
do in turn, if both can be read; if not it gives the fault of the first part that cannot, and leaves the session
as it was. Gaps before and behind a text make no difference. -/
theorem seed_in_turn {gap : String} (blank : Seed.Gap gap) (nonempty : gap ≠ "") (s : Session) (fuel : Nat)
    (front back : String) :
    s.SeedsInTurn fuel front back (front ++ gap ++ back) ∧
      ∀ lead trail text, Seed.Gap lead → Seed.Gap trail →
        s.serve fuel (.seed (lead ++ text ++ trail)) = s.serve fuel (.seed text) := by
  refine ⟨seedsInTurn blank nonempty s fuel front back, ?_⟩
  intro lead trail text before behind
  simp only [serve, Env.seed, Seed.read_between_gaps before behind]

/-- The second part of this text is no binding, so that nothing comes of the first one either. -/
theorem seed_in_turn_unnamed :
    ∃ middle, (Session.start {}).serve 0 (.seed "x=1") = some (middle, .seeded) ∧
      middle.env.vars.get? "x" = some 1.0 ∧
      (Session.start {}).serve 0 (.seed "x=1,\u2003=2") = some (Session.start {}, .seedFault (.emptyName "=2")) ∧
      middle.serve 0 (.seed "=2") = some (middle, .seedFault (.emptyName "=2")) := by
  have blank : Seed.Gap ",\u2003" := List.all_eq_true.mp (by decide)
  have nonempty : ",\u2003" ≠ "" := by decide
  obtain ⟨parts, -⟩ := seed_in_turn blank nonempty (Session.start {}) 0 "x=1" "=2"
  have bindings : Seed.read "x=1" = .ok [("x", 1.0)] := by decide +kernel
  have first : (Session.start {}).serve 0 (.seed "x=1") =
      some ({ Session.start {} with env := (Session.start {}).env.assign "x" 1.0 }, .seeded) := by
    refine serve_seed_seeded.mpr ⟨_, ?_, rfl⟩
    rw [Env.seed, bindings]
    rfl
  have refused : (Session.start {}).serve 0 (.seed "=2") = some (Session.start {}, .seedFault (.emptyName "=2")) :=
    rfl
  obtain ⟨joined, again⟩ := parts.second _ _ first refused
  exact ⟨_, first, Table.get?_insert_self _ _ _, joined, again⟩

end Session

end TreeCalc
