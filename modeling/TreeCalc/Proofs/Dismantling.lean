import TreeCalc.Proofs.ReleaseOrder

namespace TreeCalc.Node

/-- The loop that takes pending trees apart ends, and these are the trees that it took from the top, one after the
other. -/
inductive Pops : List Node → List Node → Prop
  | done : Pops [] []
  | pop {t : Node} {pending popped : List Node} :
      Pops (t.detach pending).2 popped → Pops (t :: pending) (t :: popped)

/-- It ends because the trees that are pending have fewer nodes from turn to turn. -/
theorem exists_pops (pending : List Node) : ∃ popped, Pops pending popped := by
  induction size : sizeAll pending using Nat.strongRecOn generalizing pending with
  | ind n ih =>
    cases pending with
    | nil => exact ⟨[], .done⟩
    | cons t pending =>
      have less := sizeAll_detach_lt t pending
      obtain ⟨popped, run⟩ := ih _ (size ▸ less) _ rfl
      exact ⟨t :: popped, .pop run⟩

/-- Every node that goes with the pending trees is popped once. -/
theorem Pops.perm_owned {pending popped : List Node} (run : Pops pending popped) :
    popped.Perm (pending.flatMap owned) := by
  induction run with
  | done => exact .nil
  | @pop t pending popped _ ih =>
    rw [detach_eq, List.flatMap_append] at ih
    rw [List.flatMap_cons, owned_eq, List.cons_append]
    exact (ih.trans (((List.reverse_perm t.parts).flatMap_right owned).append_right _)).cons t

theorem Pops.teardown_eq {pending popped : List Node} (run : Pops pending popped) (done : List Node) :
    teardown pending done = done.reverse ++ popped.map bare := by
  induction run generalizing done with
  | done => rw [teardown, List.map_nil, List.append_nil]
  | @pop t pending popped _ ih =>
    rw [teardown, ih, detach_eq, List.reverse_cons, List.append_assoc, List.map_cons, List.singleton_append]

/-- What can be dropped: a tree, the trees in several places one after the other, or the pending trees of a loop, of
which the first is on top. -/
inductive Disposal where
  | tree (t : Node)
  | each (ts : List Node)
  | pending (ts : List Node)

/-- What the cells of a list after its first one hold once the expressions have been taken out. -/
def cells (t : Node) : List Node := List.replicate t.tail.length placeholder

/-- Dropping ends, and these are the nodes freed by it, in their order and each as it is at that moment. A tree
has its parts taken out, a loop drops what is pending then, and at last goes what is left of the root, with all
that it still holds. The loop takes the parts out of a tree first, and drops what is left of it before it goes on.
Where the parts of a list are taken out, the cells after its first one go at once, each with a placeholder in it. -/
inductive Frees : Disposal → List Node → Prop
  | tree {t : Node} {cells inside own : List Node} : Frees (.each t.cells) cells →
      Frees (.pending (t.detach []).2) inside → Frees (.each (t.detach []).1.parts) own →
      Frees (.tree t) (cells ++ inside ++ (t.detach []).1 :: own)
  | none : Frees (.each []) []
  | next {t : Node} {ts first others : List Node} : Frees (.tree t) first → Frees (.each ts) others →
      Frees (.each (t :: ts)) (first ++ others)
  | done : Frees (.pending []) []
  | pop {t : Node} {ts cells own others : List Node} : Frees (.each t.cells) cells →
      Frees (.tree (t.detach ts).1) own → Frees (.pending (t.detach ts).2) others →
      Frees (.pending (t :: ts)) (cells ++ own ++ others)

theorem Frees.unique {job : Disposal} {freed other : List Node} (run : Frees job freed) (again : Frees job other) :
    freed = other := by
  induction run generalizing other with
  | none | done => cases again; rfl
  | tree _ _ _ cells inside own =>
    cases again with
    | tree first second third => rw [cells first, inside second, own third]
  | next _ _ first others =>
    cases again with
    | next left right => rw [first left, others right]
  | pop _ _ _ cells own others =>
    cases again with
    | pop first second third => rw [cells first, own second, others third]

theorem frees_placeholder : Frees (.tree placeholder) [placeholder] :=
  .tree (t := placeholder) .none .done .none

theorem frees_each_placeholder {ts : List Node} (all : ∀ t ∈ ts, t = placeholder) : Frees (.each ts) ts := by
  induction ts with
  | nil => exact .none
  | cons t ts ih =>
    obtain rfl := all t List.mem_cons_self
    exact .next frees_placeholder (ih fun u member => all u (List.mem_cons_of_mem _ member))

theorem frees_pending_placeholder {ts : List Node} (all : ∀ t ∈ ts, t = placeholder) : Frees (.pending ts) ts := by
  induction ts with
  | nil => exact .done
  | cons t ts ih =>
    obtain rfl := all t List.mem_cons_self
    exact .pop (t := placeholder) .none frees_placeholder (ih fun u member => all u (List.mem_cons_of_mem _ member))

/-- What goes in the turn of the loop in which a tree is popped: the cells of its list, and then what is left of it,
from which the placeholders are taken out once more and others put in. -/
def leftovers (t : Node) : List Node :=
  t.cells ++ (t.bare.parts.reverse ++ t.bare :: t.bare.parts)

theorem frees_cells (t : Node) : Frees (.each t.cells) t.cells :=
  frees_each_placeholder fun _ member => List.eq_of_mem_replicate member

theorem cells_bare (t : Node) : t.bare.cells = [] := by
  rw [cells, tail_bare, List.length_nil, List.replicate_zero]

theorem frees_bare (t : Node) : Frees (.tree t.bare) (t.bare.parts.reverse ++ t.bare :: t.bare.parts) := by
  have again : t.bare.detach [] = (t.bare, t.bare.parts.reverse) := by rw [detach_eq, bare_bare, List.append_nil]
  have inside : Frees (.pending (t.bare.detach []).2) t.bare.parts.reverse := by
    rw [again]
    exact frees_pending_placeholder fun part member => t.parts_bare part (List.mem_reverse.mp member)
  have own : Frees (.each (t.bare.detach []).1.parts) t.bare.parts := by
    rw [again]
    exact frees_each_placeholder t.parts_bare
  have whole := Frees.tree t.bare.frees_cells inside own
  rwa [again, cells_bare, List.nil_append] at whole

theorem Pops.frees {pending popped : List Node} (run : Pops pending popped) :
    Frees (.pending pending) (popped.flatMap leftovers) := by
  induction run with
  | done => exact .done
  | @pop t pending popped _ ih =>
    have own : Frees (.tree (t.detach pending).1) (t.bare.parts.reverse ++ t.bare :: t.bare.parts) := by
      rw [detach_eq]
      exact t.frees_bare
    exact .pop t.frees_cells own ih

theorem Pops.frees_tree {t : Node} {popped : List Node} (run : Pops (t.detach []).2 popped) :
    Frees (.tree t) (t.cells ++ popped.flatMap leftovers ++ t.bare :: t.bare.parts) :=
  .tree t.frees_cells run.frees (frees_each_placeholder t.parts_bare)

/-- Some of the nodes are the given ones, in any order, and all others are placeholders. -/
def Padded (freed nodes : List Node) : Prop := ∃ count, freed.Perm (nodes ++ List.replicate count placeholder)

namespace Padded
variable {freed others nodes more : List Node}

theorem of_placeholder (all : ∀ t ∈ freed, t = placeholder) : Padded freed [] :=
  ⟨freed.length, .of_eq (List.eq_replicate_of_mem all)⟩

theorem of_perm (same : freed.Perm nodes) : Padded freed nodes :=
  ⟨0, by rwa [List.replicate_zero, List.append_nil]⟩

theorem append (first : Padded freed nodes) (second : Padded others more) :
    Padded (freed ++ others) (nodes ++ more) := by
  obtain ⟨k, left⟩ := first
  obtain ⟨l, right⟩ := second
  have together : ((nodes ++ List.replicate k placeholder) ++ (more ++ List.replicate l placeholder)).Perm
      ((nodes ++ more) ++ (List.replicate k placeholder ++ List.replicate l placeholder)) := by
    rw [List.append_assoc, List.append_assoc]
    exact (List.perm_append_comm_assoc _ _ _).append_left nodes
  rw [List.replicate_append_replicate] at together
  exact ⟨k + l, (left.append right).trans together⟩

theorem perm (padded : Padded freed nodes) (same : nodes.Perm more) : Padded freed more := by
  obtain ⟨count, all⟩ := padded
  exact ⟨count, all.trans (same.append_right _)⟩

end Padded

theorem padded_cells (t : Node) : Padded t.cells [] :=
  .of_placeholder fun _ member => List.eq_of_mem_replicate member

/-- A bare node with all that it still holds. -/
theorem padded_bare (t : Node) : Padded (t.bare :: t.bare.parts) [t.bare] :=
  Padded.append (.of_perm (.refl [t.bare])) (.of_placeholder t.parts_bare)

theorem padded_leftovers (t : Node) : Padded t.leftovers [t.bare] := by
  have inside : Padded t.bare.parts.reverse [] :=
    .of_placeholder fun part member => t.parts_bare part (List.mem_reverse.mp member)
  exact t.padded_cells.append (inside.append t.padded_bare)

theorem padded_flatMap_leftovers (popped : List Node) : Padded (popped.flatMap leftovers) (popped.map bare) := by
  induction popped with
  | nil => exact .of_perm .nil
  | cons t popped ih => exact t.padded_leftovers.append ih

theorem filterMap_placeholder {ts : List Node} (all : ∀ t ∈ ts, t = placeholder) : ts.filterMap definition? = [] :=
  List.filterMap_eq_nil_iff.mpr fun t member => by rw [all t member]; rfl

theorem filterMap_bare (ts : List Node) : (ts.map bare).filterMap definition? = ts.filterMap definition? := by
  rw [List.filterMap_map]
  exact List.filterMap_congr fun t _ => t.definition?_bare

theorem Padded.filterMap_perm {freed nodes : List Node} (padded : Padded freed nodes) :
    (freed.filterMap definition?).Perm (nodes.filterMap definition?) := by
  obtain ⟨count, all⟩ := padded
  have same := all.filterMap definition?
  rwa [List.filterMap_append, filterMap_placeholder fun _ member => List.eq_of_mem_replicate member,
    List.append_nil] at same

/-- Dropping a tree by a loop does what a recursion over the tree does. The loop ends, the root and the trees that
it pops are the nodes that go with the tree, once each, and they come off bare: nothing is in the places of their
parts but placeholders, and no list goes on. Of all that is freed until the drop ends, what is no placeholder is
these bare nodes, so that every definition gives back one handle for each node that makes it, and the counts come
out as in the recursion. -/
theorem dropped_as_by_recursion (t : Node) :
    (∃ popped, Pops (t.detach []).2 popped ∧ (t :: popped).Perm t.owned ∧
      teardown [t] [] = (t :: popped).map bare) ∧
    (∀ (s : Node) (pending : List Node),
      (∀ part ∈ (s.detach pending).1.parts, part = placeholder) ∧ (s.detach pending).1.tail = []) ∧
    ∃ freed, Frees (.tree t) freed ∧ (∀ other, Frees (.tree t) other → other = freed) ∧
      Padded freed (t.owned.map bare) ∧
      (freed.filterMap definition?).Perm (t.owned.filterMap definition?) ∧
      t.definitions.Perm (t.owned.filterMap definition?) ∧
      ((∀ d ∈ t.nested, ∀ e ∈ t.nested, d.id = e.id → d = e) → ∀ h : Handles,
        h.release (freed.filterMap definition?) = t.dropFrom h ∧ h.release t.definitions = t.dropFrom h) := by
  obtain ⟨popped, run⟩ := exists_pops (t.detach []).2
  have whole : Pops [t] (t :: popped) := .pop run
  have each : (t :: popped).Perm t.owned := by simpa using whole.perm_owned
  have freed := run.frees_tree
  have padded : Padded (t.cells ++ popped.flatMap leftovers ++ t.bare :: t.bare.parts) (t.owned.map bare) := by
    refine ((t.padded_cells.append (padded_flatMap_leftovers popped)).append t.padded_bare).perm ?_
    exact (List.perm_append_singleton t.bare (popped.map bare)).trans (each.map bare)
  have handles := padded.filterMap_perm
  rw [filterMap_bare] at handles
  refine ⟨⟨popped, run, each, whole.teardown_eq []⟩, fun s pending => ?_, _, freed,
    fun other again => again.unique freed, padded, handles, ?_, fun unique h => ?_⟩
  · rw [detach_eq]
    exact ⟨s.parts_bare, s.tail_bare⟩
  · rw [definitions_eq_made]
    exact t.definition?_owned.symm
  · exact ⟨release_eq_dropFrom unique (handles.trans t.definition?_owned) h,
      release_eq_dropFrom unique (.of_eq t.definitions_eq_made) h⟩

/-- A function with another one in its body. -/
def enclosing : Definition := ⟨1, "f", ⟨"x", []⟩, .seq (.define 0 "g" ⟨"y", []⟩ (.var "y")) (.num 0.0)⟩

/-- Two nodes that make the same definition, one of them in an argument, beside a list and a branch that is
missing. -/
def heldTwice : Node :=
  .cond (.call "f" [enclosing.toNode, .list (.num 0.0) [.var "x", .neg (.var "y")]]) none (some enclosing.toNode)

/-- With its second handle the function goes, and the one in its body goes with it. -/
theorem dropped_as_by_recursion_heldTwice :
    (∀ d ∈ heldTwice.nested, ∀ e ∈ heldTwice.nested, d.id = e.id → d = e) ∧
    (∃ popped, Pops (heldTwice.detach []).2 popped ∧ popped.length = 8) ∧
    ∃ freed, Frees (.tree heldTwice) freed ∧ (freed.filterMap definition?).Perm [enclosing, enclosing] ∧
      let h := (Handles.setCount {} 0 1).setCount 1 2
      (h.release (freed.filterMap definition?)).count 0 = 0 ∧
        (h.release (freed.filterMap definition?)).count 1 = 0 := by
  have unique : ∀ d ∈ heldTwice.nested, ∀ e ∈ heldTwice.nested, d.id = e.id → d = e := by
    have listed : heldTwice.nested =
        [enclosing, ⟨0, "g", ⟨"y", []⟩, .var "y"⟩, enclosing, ⟨0, "g", ⟨"y", []⟩, .var "y"⟩] := rfl
    rw [listed]
    simp [enclosing]
  obtain ⟨⟨popped, run, each, -⟩, -, freed, drops, -, -, handles, -, counts⟩ := dropped_as_by_recursion heldTwice
  have length := each.length_eq
  refine ⟨unique, ⟨popped, run, ?_⟩, freed, drops, handles, ?_⟩
  · have owned : heldTwice.owned.length = 9 := by decide
    rw [List.length_cons, owned] at length
    omega
  · dsimp only
    rw [(counts unique _).1]
    decide +kernel

end TreeCalc.Node
