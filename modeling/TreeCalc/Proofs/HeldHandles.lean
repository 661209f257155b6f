import TreeCalc.Proofs.Census
import TreeCalc.Proofs.MachineSteps

namespace TreeCalc

namespace Table
variable {α : Type}

/-- What the names of a table are bound to, in the order of the names. -/
def values (table : Table α) : List α := table.toList.map Prod.snd

theorem mem_toList {table : Table α} {name : String} {value : α} :
    (name, value) ∈ table.toList ↔ table.get? name = some value :=
  Std.ExtTreeMap.mem_toList_iff_getElem?_eq_some

theorem nodup_toList (table : Table α) : table.toList.Nodup := by
  have ordered : table.toList.Pairwise fun a b => String.compare a.1 b.1 = .lt :=
    Std.ExtTreeMap.ordered_keys_toList
  refine ordered.imp ?_
  intro a b less same
  have equal : String.compare b.1 b.1 = .eq := Std.ReflCmp.compare_self
  rw [same, equal] at less
  cases less

theorem mem_values {table : Table α} {value : α} : value ∈ table.values ↔ ∃ name, table.get? name = some value := by
  simp [values, mem_toList]

@[simp] theorem values_empty : (empty : Table α).values = [] := by
  simp [values, toList, empty]

theorem values_perm (table : Table α) (name : String) :
    table.values.Perm ((table.get? name).toList ++ (table.erase name).values) := by
  have apart : ((table.get? name).toList.map (name, ·) ++ (table.erase name).toList).Nodup := by
    refine List.nodup_append.mpr ⟨?_, nodup_toList _, ?_⟩
    · cases table.get? name <;> simp
    · rintro _ own ⟨other, value⟩ rest same
      obtain ⟨_, _, rfl⟩ := List.mem_map.mp own
      have erased := mem_toList.mp rest
      rw [get?_erase, if_pos (congrArg Prod.fst same)] at erased
      cases erased
  have split : table.toList.Perm ((table.get? name).toList.map (name, ·) ++ (table.erase name).toList) := by
    refine (List.perm_ext_iff_of_nodup table.nodup_toList apart).mpr ?_
    rintro ⟨other, value⟩
    rw [List.mem_append, mem_toList, mem_toList, get?_erase]
    by_cases same : name = other
    · subst same
      simp [eq_comm]
    · simp [same]
  have listed := split.map Prod.snd
  rw [List.map_append, List.map_map] at listed
  have own : (Prod.snd ∘ fun value : α => (name, value)) = id := rfl
  rw [own, List.map_id] at listed
  exact listed

theorem values_insert_perm (table : Table α) (name : String) (value : α) :
    (table.insert name value).values.Perm (value :: (table.erase name).values) := by
  have same : (table.insert name value).erase name = table.erase name := by
    refine ext fun other => ?_
    simp only [get?_erase, get?_insert]
    split <;> rfl
  have split := (table.insert name value).values_perm name
  rw [get?_insert_self, same] at split
  exact split

/-- A new value and those that were there are the displaced one and those that are there now. -/
theorem displaced_perm (table : Table α) (name : String) (value : α) :
    ((table.get? name).toList ++ (table.insert name value).values).Perm (value :: table.values) := by
  have grown := (table.values_insert_perm name value).append_left (table.get? name).toList
  have whole := (table.values_perm name).cons value
  exact grown.trans (List.perm_middle.trans whole.symm)

end Table

open Definition

/-- The counts in an environment are right for its table of functions and the handles that are held elsewhere. -/
structure Env.Settled (U : Definition → Prop) (env : Env) (others : List Definition) : Prop where
  coherent : Coherent U
  known : ∀ d ∈ env.functions.values ++ others, U d
  books : Balanced U env.handles (env.functions.values ++ others) []

namespace Env.Settled
variable {U V : Definition → Prop} {env after : Env} {others ds : List Definition} {d : Definition}

/-- The counts are right in whatever order the handles are listed. -/
theorem exact (settled : env.Settled U others) (same : ds.Perm (env.functions.values ++ others)) :
    env.handles.Exact ds := by
  have books := settled.books.congr fun id => tally_perm same
  exact books.exact settled.coherent fun d member => settled.known d (same.mem_iff.mp member)

theorem known_function (settled : env.Settled U others) {name : String} (found : env.functions.get? name = some d) :
    U d :=
  settled.known d (List.mem_append_left _ (Table.mem_values.mpr ⟨name, found⟩))

theorem known_other (settled : env.Settled U others) (member : d ∈ others) : U d :=
  settled.known d (List.mem_append_right _ member)

theorem of_same (settled : env.Settled U others) (functions : after.functions = env.functions)
    (handles : after.handles = env.handles) : after.Settled U others := by
  obtain ⟨coherent, known, books⟩ := settled
  refine ⟨coherent, ?_, ?_⟩
  · rw [functions]
    exact known
  · rw [functions, handles]
    exact books

theorem perm (settled : env.Settled U others) (same : ds.Perm others) : env.Settled U ds := by
  have all := same.append_left env.functions.values
  refine ⟨settled.coherent, ?_, ?_⟩
  · intro d member
    exact settled.known d (all.mem_iff.mp member)
  · exact settled.books.congr fun id => tally_perm all

theorem mono (settled : env.Settled U others) (coherent : Coherent V) (more : ∀ d, U d → V d) :
    env.Settled V others :=
  ⟨coherent, fun d member => more d (settled.known d member), settled.books.mono more⟩

theorem retain (settled : env.Settled U others) (known : ∀ d ∈ ds, U d) :
    (env.retain ds).Settled U (ds ++ others) := by
  have books := settled.books.retain settled.coherent known
  have order := List.perm_append_comm_assoc env.functions.values ds others
  refine ⟨settled.coherent, ?_, books.congr fun id => tally_perm order⟩
  intro d member
  rcases List.mem_append.mp (order.mem_iff.mp member) with new | old
  · exact known d new
  · exact settled.known d old

theorem release (settled : env.Settled U (ds ++ others)) : (env.release ds).Settled U others := by
  have order := List.perm_append_comm_assoc ds env.functions.values others
  have books := settled.books.congr fun id => tally_perm order
  refine ⟨settled.coherent, ?_, books.release settled.coherent fun d member => settled.known_other ?_⟩
  · intro d member
    exact settled.known d (order.mem_iff.mp (List.mem_append_right ds member))
  · exact List.mem_append_left others member

/-- The handle that stood in the table is still counted, among those held elsewhere. -/
theorem setFunction (settled : env.Settled U others) (name : String) (known : U d) :
    (env.setFunction name d).2.Settled U ((env.functions.get? name).toList ++ others) := by
  have kept : (env.retain [d]).Settled U ([d] ++ others) := by
    refine settled.retain ?_
    simpa using known
  have traded : ((env.functions.insert name d).values ++ ((env.functions.get? name).toList ++ others)).Perm
      (env.functions.values ++ ([d] ++ others)) := by
    have moved := List.perm_append_comm_assoc (env.functions.insert name d).values
      (env.functions.get? name).toList others
    have exchanged := (env.functions.displaced_perm name d).append_right others
    rw [List.append_assoc] at exchanged
    exact moved.trans (exchanged.trans List.perm_middle.symm)
  refine ⟨settled.coherent, ?_, kept.books.congr fun id => tally_perm traded⟩
  intro e member
  exact kept.known e (traded.mem_iff.mp member)

theorem define (settled : env.Settled U others) (known : U d) : (env.define d).Settled U others := by
  refine (settled.setFunction d.name known).release.of_same ?_ ?_
  · exact env.functions_define d
  · exact env.handles_define d

theorem clearFunctions (settled : env.Settled U others) : env.clearFunctions.Settled U others := by
  have emptied : { env with functions := Table.empty }.Settled U (env.functions.values ++ others) := by
    refine ⟨settled.coherent, ?_, ?_⟩
    · simpa using settled.known
    · simpa using settled.books
  exact emptied.release.of_same rfl rfl

end Env.Settled

namespace Machine

/-- The counts are right for the table of functions, the running calls and the handles that are held elsewhere, and
the trees still to be evaluated make known definitions only. -/
structure Config.Settled (U : Definition → Prop) (c : Config) (others : List Definition) : Prop where
  env : c.env.Settled U (c.running ++ others)
  trees : ∀ t ∈ c.trees, ∀ d ∈ t.made, U d

namespace Config.Settled
variable {U : Definition → Prop} {c next : Config} {others : List Definition}

theorem known_running (settled : c.Settled U others) {d : Definition} (member : d ∈ c.running) : U d :=
  settled.env.known_other (List.mem_append_left others member)

theorem known_task (settled : c.Settled U others) {d : Definition} (task : c.task = .eval d.toNode) : U d := by
  have here : d.toNode ∈ c.trees := by simp [Config.trees, task, Task.trees]
  exact settled.trees _ here d (Node.mem_made.mpr (Or.inl rfl))

theorem step (settled : c.Settled U others) (one : step c = some next) : next.Settled U others := by
  refine ⟨?_, ?_⟩
  · cases step_moves one with
    | quiet functions handles running =>
      rw [running]
      exact settled.env.of_same functions handles
    | define d task env running =>
      rw [running, env]
      exact settled.env.define (settled.known_task task)
    | call name args d task found env running =>
      rw [running, env]
      have known : ∀ e ∈ [d], U e := by simpa using settled.env.known_function found
      exact (settled.env.retain known).of_same rfl rfl
    | finish d saved x env running =>
      rw [env]
      have before : c.env.Settled U ([d] ++ (next.running ++ others)) := by
        have held := settled.env
        rw [running] at held
        exact held
      exact before.release.of_same rfl rfl
  · intro t member d made
    rcases step_trees one member with old | ⟨s, above, plain, child⟩ | ⟨e, runs, rfl⟩
    · exact settled.trees t old d made
    · exact settled.trees s above d (Node.mem_made.mpr (Or.inr ⟨plain, t, child, made⟩))
    · exact settled.env.coherent.closed e (settled.known_running runs) d made

theorem reaches (settled : c.Settled U others) (path : Reaches c next) : next.Settled U others := by
  induction path with
  | refl => exact settled
  | tail _ one ih => exact ih.step one

end Config.Settled

theorem settled_start {U : Definition → Prop} {env : Env} {others : List Definition}
    (settled : env.Settled U others)
    {t : Node} (known : ∀ d ∈ t.made, U d) : (Config.mk (.eval t) [] env).Settled U others := by
  refine ⟨settled, ?_⟩
  intro s member
  have same : s = t := by simpa [Config.trees, Task.trees] using member
  rw [same]
  exact known

end Machine

theorem Env.Settled.evaluate {U : Definition → Prop} {env after : Env} {others : List Definition}
    (settled : env.Settled U others) {t : Node} (known : ∀ d ∈ t.made, U d) {fuel : Nat} {x : Float}
    (ends : t.evaluate fuel env = some (x, after)) : after.Settled U others :=
  ((Machine.settled_start settled known).reaches (Machine.reaches_of_evaluate ends)).env

end TreeCalc
