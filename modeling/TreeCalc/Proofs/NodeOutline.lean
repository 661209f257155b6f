import TreeCalc.Proofs.Occurrence
import TreeCalc.Proofs.Outline

namespace TreeCalc

/-- The label of a list of parameters. -/
def Params.label (params : Params) : Label := .named .params (", ".intercalate params.names)

/-- The label of a node's own line. -/
def Node.label : Node → Label
  | .num x => .number (Number.numeral x)
  | .var name => .named .var name
  | .neg _ => .heading .negate
  | .arith op _ _ => .heading (.arith op)
  | .compare op _ _ => .heading (.compare op)
  | .unary f _ => .heading (.unary f)
  | .binary f _ _ => .heading (.binary f)
  | .list _ _ => .heading .exprlist
  | .assign name _ => .named .assign name
  | .cond _ _ _ => .heading .condition
  | .seq _ _ => .heading .statement
  | .params names => names.label
  | .define _ name _ _ => .named .define name
  | .call name _ => .named .call name

mutual

/-- The outline of a tree, before what comes next on its level. In a chain the rest of it takes no level of its
own. -/
def Node.outline (chained : Bool) (next : Outline) : Node → Outline
  | .num x => .item (Node.num x).label .done next
  | .var name => .item (Node.var name).label .done next
  | .neg t => .item (Node.neg t).label (t.outline false .done) next
  | .arith op l r => .item (Node.arith op l r).label (l.outline false (r.outline false .done)) next
  | .compare op l r => .item (Node.compare op l r).label (l.outline false (r.outline false .done)) next
  | .unary f t => .item (Node.unary f t).label (t.outline false .done) next
  | .binary f l r => .item (Node.binary f l r).label (l.outline false (r.outline false .done)) next
  | .list t ts => .item (Node.list t ts).label (t.outline false (Node.outlineAll ts)) next
  | .assign name t => .item (Node.assign name t).label (t.outline false .done) next
  | .cond t onTrue onFalse =>
    let last := Node.outlineBranch .done onFalse
    let branches :=
      if onTrue.isNone && onFalse.isSome then .item (.heading .empty) .done last
      else Node.outlineBranch last onTrue
    .item (Node.cond t onTrue onFalse).label (t.outline false branches) next
  | .seq s t =>
    if chained then s.outline false (t.outline true next)
    else .item (Node.seq s t).label (s.outline false (t.outline true .done)) next
  | .params names => .item (Node.params names).label .done next
  | .define id name ps t =>
    .item (Node.define id name ps t).label (.item ps.label .done (t.outline false .done)) next
  | .call name ts =>
    let args := if ts.isEmpty then .done else .item (.heading .exprlist) (Node.outlineAll ts) .done
    .item (Node.call name ts).label args next

def Node.outlineAll : List Node → Outline
  | [] => .done
  | t :: ts => t.outline false (Node.outlineAll ts)

def Node.outlineBranch (next : Outline) : Option Node → Outline
  | none => next
  | some t => t.outline false next

end

namespace Node

/-- The trace of a tree is written as its outline says: the lines that it adds to others are those of the
outline. -/
def Traced (t : Node) : Prop :=
  ∀ chained next depth out, (t.linesOnto out depth chained).toList ++ next.lines depth =
    out.toList ++ (t.outline chained next).lines depth

theorem Traced.last {t : Node} (traced : t.Traced) (chained : Bool) (depth : Nat) (out : Array Line) :
    (t.linesOnto out depth chained).toList = out.toList ++ (t.outline chained .done).lines depth := by
  simpa using traced chained .done depth out

theorem traced_all {ts : List Node} (each : ∀ t ∈ ts, t.Traced) (depth : Nat) (out : Array Line) :
    (linesOntoAll out depth ts).toList = out.toList ++ (outlineAll ts).lines depth := by
  induction ts generalizing out with
  | nil => simp [linesOntoAll, outlineAll]
  | cons t ts ih =>
    have first := each t List.mem_cons_self false (outlineAll ts) depth out
    rw [linesOntoAll, outlineAll, ih fun u member => each u (List.mem_cons_of_mem t member), first]

theorem traced_branch {branch : Option Node} (each : ∀ t ∈ branch, t.Traced) (next : Outline) (depth : Nat)
    (out : Array Line) : (linesOntoBranch out depth branch).toList ++ next.lines depth =
      out.toList ++ (outlineBranch next branch).lines depth := by
  cases branch with
  | none => rfl
  | some t => exact each t rfl false next depth out

/-- The outline of the branches of a condition. One that is missing before one that is not has an item of its
own. -/
def outlineBranches (onTrue onFalse : Option Node) : Outline :=
  if onTrue.isNone && onFalse.isSome then .item (.heading .empty) .done (outlineBranch .done onFalse)
  else outlineBranch (outlineBranch .done onFalse) onTrue

theorem traced_branches {onTrue onFalse : Option Node} (yes : ∀ t ∈ onTrue, t.Traced) (no : ∀ t ∈ onFalse, t.Traced)
    (depth : Nat) (out : Array Line) :
    (linesOntoBranch
        (if onTrue.isNone && onFalse.isSome then out.push ⟨depth, "(empty)"⟩ else linesOntoBranch out depth onTrue)
        depth onFalse).toList = out.toList ++ (outlineBranches onTrue onFalse).lines depth := by
  have last := traced_branch no .done depth
  simp only [Outline.lines_done, List.append_nil] at last
  rw [last, outlineBranches]
  split
  · rw [Array.toList_push, Outline.lines_item, List.append_assoc]
    rfl
  · exact traced_branch yes _ depth out

/-- One case for each kind of node: its own line, then its children's as the induction gives them. -/
theorem traced (t : Node) : t.Traced := by
  induction t with
  | num x | var name | params names =>
    intro chained next depth out
    rw [linesOnto, outline, Outline.lines_item, Array.toList_push, List.append_assoc]
    rfl
  | neg t ih | unary f t ih | assign name t ih =>
    intro chained next depth out
    rw [linesOnto, outline, Outline.lines_item, ih.last, Array.toList_push]
    simp only [List.append_assoc]
    rfl
  | arith op l r left right | compare op l r left right | binary op l r left right =>
    intro chained next depth out
    rw [linesOnto, outline, Outline.lines_item, right.last, left, Array.toList_push]
    simp only [List.append_assoc]
    rfl
  | list t ts head tail =>
    intro chained next depth out
    rw [linesOnto, outline, Outline.lines_item, traced_all tail, head, Array.toList_push]
    simp only [List.append_assoc]
    rfl
  | seq s t first second =>
    intro chained next depth out
    cases chained with
    | true =>
      simp only [linesOnto, outline, if_true]
      rw [second, first]
    | false =>
      simp only [linesOnto, outline, Bool.false_eq_true, if_false]
      rw [Outline.lines_item, second.last, first, Array.toList_push]
      simp only [List.append_assoc]
      rfl
  | define id name ps t ih =>
    intro chained next depth out
    rw [linesOnto, outline, Outline.lines_item, ih.last, Outline.lines_item, Array.toList_push, Array.toList_push]
    simp only [List.append_assoc]
    rfl
  | call name ts args =>
    intro chained next depth out
    cases ts with
    | nil =>
      simp only [linesOnto, outline, List.isEmpty_nil, if_true]
      rw [Outline.lines_item, Array.toList_push, List.append_assoc]
      rfl
    | cons t ts =>
      simp only [linesOnto, outline, List.isEmpty_cons, Bool.false_eq_true, if_false]
      rw [traced_all args, Outline.lines_item, Outline.lines_item, Array.toList_push, Array.toList_push]
      simp only [List.append_assoc, Outline.lines_done, List.append_nil]
      rfl
  | cond t onTrue onFalse test yes no =>
    intro chained next depth out
    have shape : (cond t onTrue onFalse).outline chained next =
        .item (cond t onTrue onFalse).label (t.outline false (outlineBranches onTrue onFalse)) next := rfl
    rw [linesOnto, traced_branches yes no, test, shape, Outline.lines_item, Array.toList_push]
    simp only [List.append_assoc]
    rfl

theorem trace_eq (t : Node) (depth : Nat) : t.trace depth = (t.outline false .done).text depth := by
  have added := t.traced.last false depth #[]
  rw [trace, Line.renderAll_eq, lines, added, Outline.text_eq]
  rfl

/-- What stands below a node's own line. -/
def underneath (t : Node) : Outline :=
  match t.outline false .done with
  | .done => .done
  | .item _ below _ => below

theorem outline_false (t : Node) (next : Outline) : t.outline false next = .item t.label t.underneath next := by
  cases t <;> rfl

/-- The outline of a tree that is the rest of a chain. -/
def chain (t : Node) : Outline := t.outline true .done

theorem chain_seq (s t : Node) : (seq s t).chain = .item s.label s.underneath t.chain :=
  s.outline_false t.chain

theorem chain_of_ne_seq {t : Node} (other : ∀ first second, t ≠ seq first second) :
    t.chain = .item t.label t.underneath .done := by
  cases t with
  | seq first second => exact absurd rfl (other first second)
  | _ => rfl

theorem chain_ne_done (t : Node) : t.chain ≠ .done := by
  cases t with
  | seq first second =>
    rw [chain_seq]
    exact Outline.noConfusion
  | _ => exact Outline.noConfusion

/-- The names that a node itself mentions. -/
def names : Node → List String
  | .var name | .assign name _ | .call name _ => [name]
  | .params ps => ps.names
  | .define _ name ps _ => name :: ps.names
  | _ => []

/-- The names of parameters that a node itself mentions. -/
def parameters : Node → List String
  | .params ps | .define _ _ ps _ => ps.names
  | _ => []

/-- No name in the tree contains a newline, and no name of a parameter contains a comma. -/
def Plain (t : Node) : Prop :=
  ∀ s ∈ t.subtrees, (∀ name ∈ s.names, '\n' ∉ name.toList) ∧ ∀ name ∈ s.parameters, ',' ∉ name.toList

theorem Plain.child {t child : Node} (plain : t.Plain) (member : child ∈ t.children) : child.Plain :=
  fun s inside => plain s (mem_subtrees_of_child member inside)

theorem Plain.own {t : Node} (plain : t.Plain) :
    (∀ name ∈ t.names, '\n' ∉ name.toList) ∧ ∀ name ∈ t.parameters, ',' ∉ name.toList :=
  plain t (by rw [subtrees_eq]; exact List.mem_cons_self)

/-- No name in the tree contains a newline. -/
def Unbroken (t : Node) : Prop := ∀ s ∈ t.subtrees, ∀ name ∈ s.names, '\n' ∉ name.toList

instance (t : Node) : Decidable t.Unbroken :=
  inferInstanceAs (Decidable (∀ s ∈ t.subtrees, ∀ name ∈ s.names, '\n' ∉ name.toList))

theorem Plain.unbroken {t : Node} (plain : t.Plain) : t.Unbroken := fun s inside => (plain s inside).1

theorem Unbroken.child {t child : Node} (unbroken : t.Unbroken) (member : child ∈ t.children) : child.Unbroken :=
  fun s inside => unbroken s (mem_subtrees_of_child member inside)

theorem Unbroken.own {t : Node} (unbroken : t.Unbroken) : ∀ name ∈ t.names, '\n' ∉ name.toList :=
  unbroken t (by rw [subtrees_eq]; exact List.mem_cons_self)

end Node

/-- Names one after the other, with a comma and a blank between them. -/
theorem toList_intercalate_names (first : String) (rest : List String) :
    (", ".intercalate (first :: rest)).toList =
      first.toList ++ rest.flatMap fun name => ',' :: ' ' :: name.toList := by
  induction rest generalizing first with
  | nil => simp
  | cons name rest ih =>
    rw [String.intercalate_cons_cons, String.toList_append, String.toList_append, ih]
    simp

theorem names_of_flatMap_eq {rest others : List String} {first second : String}
    (free : ∀ name ∈ first :: rest, ',' ∉ name.toList) (clean : ∀ name ∈ second :: others, ',' ∉ name.toList)
    (same : (first.toList ++ rest.flatMap fun name => ',' :: ' ' :: name.toList) =
      second.toList ++ others.flatMap fun name => ',' :: ' ' :: name.toList) : first = second ∧ rest = others := by
  have firstFree := free first List.mem_cons_self
  have secondFree := clean second List.mem_cons_self
  induction rest generalizing first second others with
  | nil =>
    cases others with
    | nil => exact ⟨String.toList_inj.mp (by simpa using same), rfl⟩
    | cons name others =>
      have comma : ',' ∈ first.toList := by
        rw [List.flatMap_nil, List.append_nil] at same
        simp [same]
      exact absurd comma firstFree
  | cons name rest ih =>
    cases others with
    | nil =>
      have comma : ',' ∈ second.toList := by
        rw [List.flatMap_nil, List.append_nil] at same
        simp [← same]
      exact absurd comma secondFree
    | cons other others =>
      obtain ⟨heads, tails⟩ := Text.eq_of_append_cons firstFree secondFree same
      obtain ⟨rfl, rfl⟩ := ih (fun n member => free n (List.mem_cons_of_mem _ member))
        (fun n member => clean n (List.mem_cons_of_mem _ member)) (List.cons.inj tails).2
        (free name (by simp)) (clean other (by simp))
      exact ⟨String.toList_inj.mp heads, rfl⟩

namespace Params

theorem newline_notMem {params : Params} (free : ∀ name ∈ params.names, '\n' ∉ name.toList) :
    params.label.Plain := by
  intro member
  rw [names, toList_intercalate_names] at member
  rcases List.mem_append.mp member with first | later
  · exact free _ List.mem_cons_self first
  · obtain ⟨name, listed, inside⟩ := List.mem_flatMap.mp later
    exact free name (List.mem_cons_of_mem _ listed) (by simpa using inside)

/-- Parameters without commas in their names can be read off their line. -/
theorem eq_of_label_eq {params other : Params} (free : ∀ name ∈ params.names, ',' ∉ name.toList)
    (clean : ∀ name ∈ other.names, ',' ∉ name.toList) (same : params.label = other.label) : params = other := by
  injection same with _ texts
  have lists := congrArg String.toList texts
  rw [names, names, toList_intercalate_names, toList_intercalate_names] at lists
  obtain ⟨first, rest⟩ := names_of_flatMap_eq free clean lists
  cases params
  cases other
  exact congrArg₂ mk first rest

end Params

namespace Node

theorem Unbroken.label {t : Node} (unbroken : t.Unbroken) : t.label.Plain := by
  have free := unbroken.own
  cases t with
  | var name | assign name _ | call name _ => exact free name List.mem_cons_self
  | define _ name _ _ => exact free name List.mem_cons_self
  | params ps => exact Params.newline_notMem free
  | _ => trivial

theorem plain_outlineAll {ts : List Node} (each : ∀ t ∈ ts, ∀ next, next.Plain → (t.outline false next).Plain) :
    (outlineAll ts).Plain := by
  induction ts with
  | nil => trivial
  | cons t ts ih =>
    exact each t List.mem_cons_self _ (ih fun u member => each u (List.mem_cons_of_mem t member))

theorem plain_outlineBranch {branch : Option Node} {next : Outline} (rest : next.Plain)
    (each : ∀ t ∈ branch, ∀ next, next.Plain → (t.outline false next).Plain) :
    (outlineBranch next branch).Plain := by
  cases branch with
  | none => exact rest
  | some t => exact each t rfl next rest

theorem Unbroken.outline {t : Node} (unbroken : t.Unbroken) (chained : Bool) {next : Outline} (rest : next.Plain) :
    (t.outline chained next).Plain := by
  induction t generalizing chained next with
  | num | var | params => exact ⟨unbroken.label, trivial, rest⟩
  | neg t ih | unary f t ih | assign name t ih =>
    have inside : t.Unbroken := unbroken.child (by simp [children])
    exact ⟨unbroken.label, ih inside false trivial, rest⟩
  | arith op l r left right | compare op l r left right | binary op l r left right =>
    have first : l.Unbroken := unbroken.child (by simp [children])
    have second : r.Unbroken := unbroken.child (by simp [children])
    exact ⟨unbroken.label, left first false (right second false trivial), rest⟩
  | list t ts head tail =>
    have first : t.Unbroken := unbroken.child (by simp [children])
    have others : (outlineAll ts).Plain := plain_outlineAll fun u member next after =>
      tail u member (unbroken.child (by simp [children, member])) false after
    exact ⟨unbroken.label, head first false others, rest⟩
  | cond t onTrue onFalse test yes no =>
    have first : t.Unbroken := unbroken.child (by simp [children])
    have last : (outlineBranch .done onFalse).Plain := plain_outlineBranch trivial fun u member next after =>
      no u member (unbroken.child (by simp [children, Option.mem_def.mp member])) false after
    have middle : (outlineBranch (outlineBranch .done onFalse) onTrue).Plain :=
      plain_outlineBranch last fun u member next after =>
        yes u member (unbroken.child (by simp [children, Option.mem_def.mp member])) false after
    refine ⟨unbroken.label, test first false ?_, rest⟩
    split
    · exact ⟨trivial, trivial, last⟩
    · exact middle
  | seq s t first second =>
    have before : s.Unbroken := unbroken.child (by simp [children])
    have after : t.Unbroken := unbroken.child (by simp [children])
    cases chained with
    | true => exact first before false (second after true rest)
    | false => exact ⟨unbroken.label, first before false (second after true trivial), rest⟩
  | define id name ps t ih =>
    have inside : t.Unbroken := unbroken.child (by simp [children])
    have listed : ps.label.Plain := Params.newline_notMem fun p member =>
      unbroken.own p (List.mem_cons_of_mem name member)
    exact ⟨unbroken.label, ⟨listed, trivial, ih inside false trivial⟩, rest⟩
  | call name ts args =>
    have others : (outlineAll ts).Plain := plain_outlineAll fun u member next after =>
      args u member (unbroken.child (by simp [children, member])) false after
    refine ⟨unbroken.label, ?_, rest⟩
    split
    · exact trivial
    · exact ⟨trivial, others, trivial⟩

theorem Plain.outline {t : Node} (plain : t.Plain) (chained : Bool) {next : Outline} (rest : next.Plain) :
    (t.outline chained next).Plain :=
  plain.unbroken.outline chained rest

end Node

end TreeCalc
