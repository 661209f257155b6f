import TreeCalc.Env.Basic

namespace TreeCalc

namespace Saved

def names (saved : Saved) : List String := saved.map Prod.fst

/-- A table with saved bindings put back. -/
def putBack (saved : Saved) (vars : Table Float) : Table Float :=
  saved.foldl (fun table binding => table.put binding.1 binding.2) vars

theorem putBack_cons (binding : String × Option Float) (saved : Saved) (vars : Table Float) :
    putBack (binding :: saved) vars = putBack saved (vars.put binding.1 binding.2) := rfl

theorem putBack_append (saved : Saved) (name : String) (binding : Option Float) (vars : Table Float) :
    putBack (saved ++ [(name, binding)]) vars = (putBack saved vars).put name binding := by
  simp only [putBack, List.foldl_append, List.foldl_cons, List.foldl_nil]

theorem get?_putBack_of_notMem {saved : Saved} {name : String} (free : name ∉ saved.names)
    (vars : Table Float) : (putBack saved vars).get? name = vars.get? name := by
  induction saved generalizing vars with
  | nil => rfl
  | cons binding saved ih =>
    have apart : binding.1 ≠ name ∧ name ∉ names saved := by
      simpa [names, eq_comm] using free
    rw [putBack_cons, ih apart.2, Table.get?_put, if_neg apart.1]

/-- What a saved name goes back to does not depend on the table. -/
theorem get?_putBack_of_mem {saved : Saved} {name : String} (member : name ∈ saved.names)
    (vars other : Table Float) : (putBack saved vars).get? name = (putBack saved other).get? name := by
  induction saved generalizing vars other with
  | nil => simp [names] at member
  | cons binding saved ih =>
    rw [putBack_cons, putBack_cons]
    by_cases later : name ∈ names saved
    · exact ih later _ _
    · have same : binding.1 = name := by
        have either : name = binding.1 ∨ name ∈ names saved := by simpa [names] using member
        exact (either.resolve_right later).symm
      rw [get?_putBack_of_notMem later, get?_putBack_of_notMem later, Table.get?_put, Table.get?_put,
        if_pos same, if_pos same]

theorem get?_putBack_congr (saved : Saved) {name : String} {vars other : Table Float}
    (agree : vars.get? name = other.get? name) :
    (putBack saved vars).get? name = (putBack saved other).get? name := by
  by_cases member : name ∈ saved.names
  · exact get?_putBack_of_mem member vars other
  · rw [get?_putBack_of_notMem member, get?_putBack_of_notMem member, agree]

theorem putBack_insert_of_mem {saved : Saved} {name : String} (member : name ∈ saved.names)
    (vars : Table Float) (x : Float) : putBack saved (vars.insert name x) = putBack saved vars := by
  apply Table.ext
  intro other
  by_cases same : name = other
  · subst same
    exact get?_putBack_of_mem member _ _
  · apply get?_putBack_congr
    rw [Table.get?_insert, if_neg same]

theorem putBack_insert_of_notMem {saved : Saved} {name : String} (free : name ∉ saved.names)
    (vars : Table Float) (x : Float) :
    putBack saved (vars.insert name x) = (putBack saved vars).insert name x := by
  apply Table.ext
  intro other
  by_cases same : name = other
  · subst same
    rw [get?_putBack_of_notMem free, Table.get?_insert_self, Table.get?_insert_self]
  · rw [Table.get?_insert, if_neg same]
    apply get?_putBack_congr
    rw [Table.get?_insert, if_neg same]

end Saved

namespace Env

theorem save_of_mem {saved : Saved} {name : String} (env : Env) (member : name ∈ saved.names) :
    env.save saved name = saved := by
  have known : saved.any (·.1 == name) = true := by
    obtain ⟨binding, inside, same⟩ := List.mem_map.mp member
    exact List.any_eq_true.mpr ⟨binding, inside, by simp [same]⟩
  rw [save, if_pos known]

theorem save_of_notMem {saved : Saved} {name : String} (env : Env) (free : name ∉ saved.names) :
    env.save saved name = saved ++ [(name, env.vars.get? name)] := by
  have unknown : ¬ saved.any (·.1 == name) = true := by
    intro known
    obtain ⟨binding, inside, same⟩ := List.any_eq_true.mp known
    exact free (List.mem_map.mpr ⟨binding, inside, by simpa using same⟩)
  rw [save, if_neg unknown]

theorem mem_names_save (env : Env) (saved : Saved) (name other : String) :
    other ∈ (env.save saved name).names ↔ other = name ∨ other ∈ saved.names := by
  by_cases member : name ∈ saved.names
  · rw [save_of_mem env member]
    constructor
    · exact Or.inr
    · rintro (rfl | inside)
      · exact member
      · exact inside
  · rw [save_of_notMem env member]
    simp only [Saved.names, List.map_append, List.map_cons, List.map_nil, List.mem_append, List.mem_singleton]
    exact Or.comm

/-- Saving one more binding does not change the table to which a restoration leads. -/
theorem putBack_save (env : Env) (saved : Saved) (name : String) :
    (env.save saved name).putBack env.vars = saved.putBack env.vars := by
  by_cases member : name ∈ saved.names
  · rw [save_of_mem env member]
  · rw [save_of_notMem env member, Saved.putBack_append]
    apply Table.ext
    intro other
    rw [Table.get?_put]
    split
    · next same => rw [← same, Saved.get?_putBack_of_notMem member]
    · rfl

end Env

end TreeCalc
