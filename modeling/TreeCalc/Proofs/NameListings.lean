import TreeCalc.Proofs.NameOrder
import TreeCalc.Proofs.SessionChanges

namespace TreeCalc

/-- Names in strictly increasing order of their bytes, just those that are bound. -/
structure Lists (names : List String) (bound : String → Prop) : Prop where
  increasing : names.Pairwise Text.ByteLess
  complete : ∀ name, name ∈ names ↔ bound name

theorem Lists.nodup {names : List String} {bound : String → Prop} (lists : Lists names bound) : names.Nodup :=
  lists.increasing.imp fun less same => (same ▸ less).asymm (same ▸ less)

/-- There is one such listing. -/
theorem Lists.unique {names others : List String} {bound : String → Prop} (first : Lists names bound)
    (second : Lists others bound) : names = others := by
  have same : names.Perm others := by
    refine (List.perm_ext_iff_of_nodup first.nodup second.nodup).mpr fun name => ?_
    rw [first.complete, second.complete]
  refine same.eq_of_pairwise ?_ first.increasing second.increasing
  intro a b _ _ less more
  exact absurd more less.asymm

/-- Collecting the bound names in any order and sorting them comes to the listing. -/
theorem Lists.eq_sortByBytes {names keys : List String} {bound : String → Prop} (lists : Lists names bound)
    (once : keys.Nodup) (collected : ∀ name, name ∈ keys ↔ bound name) : names = Text.sortByBytes keys := by
  refine lists.unique ⟨Text.pairwise_sortByBytes once, fun name => ?_⟩
  rw [Text.sortByBytes, (List.mergeSort_perm keys _).mem_iff, collected]

theorem Table.lists_names {α : Type} (table : Table α) :
    Lists table.names fun name => (table.get? name).isSome = true :=
  ⟨table.names_sorted.imp Text.byteLess_of_compare, fun _ => mem_names⟩

/-- Tables in which the same names are bound list the same names. -/
theorem Table.names_eq {α : Type} {left right : Table α}
    (same : ∀ name, (left.get? name).isSome = (right.get? name).isSome) : left.names = right.names := by
  refine Lists.unique left.lists_names ⟨right.lists_names.increasing, fun name => ?_⟩
  rw [right.lists_names.complete, same]

namespace Session

/-- What a session with a history of changes says of the names in its tables. -/
structure Listed (s : Session) (fuel : Nat) (changes : List Change) (vars functions : List String) : Prop where
  names : s.serve fuel .names = some (s, .texts vars)
  functionNames : s.serve fuel .functionNames = some (s, .texts functions)
  /-- Both come of the names that are bound, collected in any order and then sorted by their bytes. -/
  sorted : ∀ keys : List String, keys.Nodup →
    ((∀ name, name ∈ keys ↔ ∃ x, s.env.vars.get? name = some x) → vars = Text.sortByBytes keys) ∧
    ((∀ name, name ∈ keys ↔ ∃ d, s.env.functions.get? name = some d) → functions = Text.sortByBytes keys)
  lookup : Lists vars fun name => ∃ x, s.serve fuel (.lookup name) = some (s, .binding (some x))
  function : Lists functions fun name => ∃ d, s.env.functions.get? name = some d
  contains : ∀ name, s.serve fuel (.contains name) = some (s, .flag (decide (name ∈ vars)))
  hasFunction : ∀ name, s.serve fuel (.hasFunction name) = some (s, .flag (decide (name ∈ functions)))
  /-- The names are those which the history left bound. -/
  bound : ∀ name, name ∈ vars ↔ (Change.variableAfter changes name).isSome = true
  registered : ∀ name, name ∈ functions ↔ (Change.functionAfter changes name).isSome = true

theorem Chronicle.listed {setup : Setup} {changes : List Change} {s : Session} (past : Chronicle setup changes s)
    (fuel : Nat) : s.Listed fuel changes s.env.vars.names s.env.functions.names where
  names := rfl
  functionNames := rfl
  sorted keys once := by
    refine ⟨fun collected => s.env.vars.lists_names.eq_sortByBytes once fun name => ?_,
      fun collected => s.env.functions.lists_names.eq_sortByBytes once fun name => ?_⟩
    · rw [collected, Option.isSome_iff_exists]
    · rw [collected, Option.isSome_iff_exists]
  lookup := by
    refine ⟨s.env.vars.lists_names.increasing, fun name => ?_⟩
    have reply : s.serve fuel (.lookup name) = some (s, .binding (s.env.vars.get? name)) := rfl
    simp [s.env.vars.lists_names.complete, reply, Option.isSome_iff_exists]
  function := by
    refine ⟨s.env.functions.lists_names.increasing, fun name => ?_⟩
    rw [s.env.functions.lists_names.complete, Option.isSome_iff_exists]
  contains name := by
    have reply : s.serve fuel (.contains name) = some (s, .flag (s.env.vars.contains name)) := rfl
    simp [reply, Table.mem_names]
  hasFunction name := by
    have reply : s.serve fuel (.hasFunction name) = some (s, .flag (s.env.functions.contains name)) := rfl
    simp [reply, Table.mem_names]
  bound name := by rw [s.env.vars.lists_names.complete, past.get?_vars]
  registered name := by rw [s.env.functions.lists_names.complete, past.get?_functions]

/-- The listings of names are a canonical view of the tables. Whatever a host asked of a session, and whatever was
bound, put back and removed by calls on the way, the names of variables are listed in strictly increasing order of
their bytes, each name that has a value and no other, and so are the names of functions: the listing is what
sorting these names gives, in whatever order they are collected. Hence two histories which leave the same names
bound come to the same listing. -/
theorem listings_canonical {setup : Setup} {changes : List Change} {s : Session} (past : Chronicle setup changes s)
    (fuel : Nat) : ∃ vars functions, s.Listed fuel changes vars functions ∧
      ∀ (other : Setup) (history : List Change) (t : Session), Chronicle other history t →
        ((∀ name, (Change.variableAfter history name).isSome = (Change.variableAfter changes name).isSome) →
          t.serve fuel .names = some (t, .texts vars)) ∧
        ((∀ name, (Change.functionAfter history name).isSome = (Change.functionAfter changes name).isSome) →
          t.serve fuel .functionNames = some (t, .texts functions)) := by
  refine ⟨_, _, past.listed fuel, ?_⟩
  intro other history t later
  have listed := later.listed fuel
  constructor
  · intro same
    have names : t.env.vars.names = s.env.vars.names := by
      refine Table.names_eq fun name => ?_
      rw [later.get?_vars, past.get?_vars, same]
    rw [listed.names, names]
  · intro same
    have names : t.env.functions.names = s.env.functions.names := by
      refine Table.names_eq fun name => ?_
      rw [later.get?_functions, past.get?_functions, same]
    rw [listed.functionNames, names]

/-- One session has its variables from the start. In the other one a call binds its parameter and takes it away
again before the second of them is assigned, and both list the same names. -/
theorem listings_canonical_removed :
    ∃ history t, Chronicle { vars := [("é", 3.0)] } history t ∧
      history.filterMap Change.vars? =
        [.put "é" (some 3.0), .put "p" (some 1.0), .put "p" none, .put "z" (some 5.0)] ∧
      (Session.start { vars := [("z", 1.0), ("é", 2.0)] }).serve 0 .names =
        some (Session.start { vars := [("z", 1.0), ("é", 2.0)] }, .texts ["z", "é"]) ∧
      t.serve 0 .names = some (t, .texts ["z", "é"]) := by
  let tree : Node := .seq (.define 0 "f" ⟨"p", []⟩ (.var "p"))
    (.seq (.call "f" [.num 1.0]) (.assign "z" (.num 5.0)))
  let before : Session := Session.start { vars := [("é", 3.0)] }
  have ends : (before.serve 30 (.eval tree 1)).isSome = true := by decide +kernel
  obtain ⟨⟨t, reply⟩, served⟩ := Option.isSome_iff_exists.mp ends
  let history : List Change := [Change.assign ("é", 3.0)] ++ before.changes 30 (.eval tree 1)
  have later : Chronicle { vars := [("é", 3.0)] } history t := Chronicle.start.serve 30 (.eval tree 1) served
  have edits : history.filterMap Change.vars? =
      [.put "é" (some 3.0), .put "p" (some 1.0), .put "p" none, .put "z" (some 5.0)] := by decide +kernel
  have earlier : Chronicle { vars := [("z", 1.0), ("é", 2.0)] } _ _ := .start
  obtain ⟨vars, functions, listed, same⟩ := listings_canonical earlier 0
  have first : (Session.start { vars := [("z", 1.0), ("é", 2.0)] }).env.vars.names = ["z", "é"] := by decide +kernel
  have names : vars = ["z", "é"] := by
    have shown : some (_, Reply.texts _) = some (_, Reply.texts vars) := listed.names
    rw [first] at shown
    cases shown
    rfl
  rw [names] at listed same
  refine ⟨history, t, later, edits, listed.names, (same _ _ t later).1 fun name => ?_⟩
  rw [Change.variableAfter, edits]
  -- The parameter is bound in neither history; of the other names only these two are bound in one of them.
  by_cases p : "p" = name
  · subst p
    decide
  · by_cases é : "é" = name <;> by_cases z : "z" = name <;>
      simp [Table.Edit.bindingAfter, Table.Edit.rebind, Change.variableAfter, Change.assign, Change.vars?, p, é, z]

end Session

end TreeCalc
