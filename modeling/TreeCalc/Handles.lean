import Std.Data.ExtTreeMap
import TreeCalc.Node.Teardown

namespace TreeCalc

/-- The order of identities. -/
abbrev identityOrder : Nat → Nat → Ordering := @compare Nat instOrdNat

instance : Std.TransCmp identityOrder := inferInstanceAs (Std.TransCmp (@compare Nat instOrdNat))

instance : Std.LawfulEqCmp identityOrder := inferInstanceAs (Std.LawfulEqCmp (@compare Nat instOrdNat))

/-- For every definition that is alive, by its identity, the number of places that hold it. -/
structure Handles where
  counts : Std.ExtTreeMap Nat Nat identityOrder := ∅

/-- The nodes of definitions, their own nodes included. -/
def Definition.sizeAll : List Definition → Nat
  | [] => 0
  | d :: ds => d.toNode.size + sizeAll ds

theorem Definition.sizeAll_cons (d : Definition) (ds : List Definition) :
    sizeAll (d :: ds) = 1 + d.body.size + sizeAll ds := rfl

theorem Definition.sizeAll_append (ds es : List Definition) : sizeAll (ds ++ es) = sizeAll ds + sizeAll es := by
  induction ds with
  | nil => simp [sizeAll]
  | cons d ds ih => simp only [List.cons_append, sizeAll, ih]; omega

theorem Definition.sizeAll_reverse (ds : List Definition) : sizeAll ds.reverse = sizeAll ds := by
  induction ds with
  | nil => rfl
  | cons d ds ih => simp only [List.reverse_cons, sizeAll_append, sizeAll, ih]; omega

namespace Node

/-- A node that comes off in a teardown and makes a definition still has all of it. -/
theorem sizeAll_definition?_detach (t : Node) (pending : List Node) :
    Definition.sizeAll (t.detach pending).1.definition?.toList + sizeAll (t.detach pending).2 ≤
      sizeAll (t :: pending) := by
  have less := sizeAll_detach_lt t pending
  cases t <;>
    simp only [detach, definition?, Option.toList_none, Option.toList_some, Definition.sizeAll_cons] at * <;>
    simp [Definition.sizeAll, sizeAll, size] at * <;> omega

theorem sizeAll_teardown_definitions (pending bare : List Node) :
    Definition.sizeAll ((teardown pending bare).filterMap definition?) ≤
      sizeAll pending + Definition.sizeAll (bare.filterMap definition?) := by
  fun_induction teardown pending bare with
  | case1 bare => simp [List.filterMap_reverse, Definition.sizeAll_reverse]
  | case2 bare t pending step ih =>
    have one := sizeAll_definition?_detach t pending
    cases made : step.1.definition? with
    | none =>
      simp only [step, made, List.filterMap_cons, Option.toList_none] at ih one ⊢
      simp only [Definition.sizeAll] at one ih ⊢
      omega
    | some d =>
      simp only [step, made, List.filterMap_cons, Option.toList_some, Definition.sizeAll_cons] at ih one ⊢
      simp only [Definition.sizeAll] at one ih ⊢
      omega

/-- The definitions of a tree, with their bodies, are part of it. -/
theorem sizeAll_definitions_le (t : Node) : Definition.sizeAll t.definitions ≤ t.size := by
  have bound := sizeAll_teardown_definitions [t] []
  simpa [definitions, Definition.sizeAll, sizeAll] using bound

end Node

namespace Handles

def count (handles : Handles) (id : Nat) : Nat := handles.counts[id]?.getD 0

def setCount (handles : Handles) (id count : Nat) : Handles := ⟨handles.counts.insert id count⟩

def forget (handles : Handles) (id : Nat) : Handles := ⟨handles.counts.erase id⟩

/-- One more handle to each of the definitions. One that was not alive comes to life, and its body then holds
the definitions made in it. -/
def retain (handles : Handles) (pending : List Definition) : Handles :=
  match pending with
  | [] => handles
  | d :: pending =>
    let held := handles.count d.id
    let handles := handles.setCount d.id (held + 1)
    if held = 0 then handles.retain (d.body.definitions ++ pending) else handles.retain pending
termination_by Definition.sizeAll pending
decreasing_by
  all_goals
    have bound := Node.sizeAll_definitions_le d.body
    simp only [Definition.sizeAll_append, Definition.sizeAll_cons]
    omega

/-- One handle less to each of the definitions. One that loses its last handle is forgotten, and with its body go
the handles to the definitions made in it. -/
def release (handles : Handles) (pending : List Definition) : Handles :=
  match pending with
  | [] => handles
  | d :: pending =>
    let held := handles.count d.id
    if held ≤ 1 then (handles.forget d.id).release (d.body.definitions ++ pending)
    else (handles.setCount d.id (held - 1)).release pending
termination_by Definition.sizeAll pending
decreasing_by
  all_goals
    have bound := Node.sizeAll_definitions_le d.body
    simp only [Definition.sizeAll_append, Definition.sizeAll_cons]
    omega

theorem count_setCount (handles : Handles) (id other n : Nat) :
    (handles.setCount id n).count other = if id = other then n else handles.count other := by
  simp only [setCount, count, Std.ExtTreeMap.getElem?_insert]
  by_cases same : id = other <;> simp [same]

theorem count_forget (handles : Handles) (id other : Nat) :
    (handles.forget id).count other = if id = other then 0 else handles.count other := by
  simp only [forget, count, Std.ExtTreeMap.getElem?_erase]
  by_cases same : id = other <;> simp [same]

end Handles

end TreeCalc
