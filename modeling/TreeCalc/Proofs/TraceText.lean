import Mathlib.Data.List.Forall2
import TreeCalc.Proofs.NodeOutline

namespace TreeCalc

/-- The same tree twice, but for the identities of definitions, and with numbers that only need to agree. -/
inductive Node.Alike (agree : Float → Float → Prop) : Node → Node → Prop
  | num {x y} : agree x y → Alike agree (.num x) (.num y)
  | var {name} : Alike agree (.var name) (.var name)
  | neg {s t} : Alike agree s t → Alike agree (.neg s) (.neg t)
  | arith {op s₁ s₂ t₁ t₂} : Alike agree s₁ t₁ → Alike agree s₂ t₂ → Alike agree (.arith op s₁ s₂) (.arith op t₁ t₂)
  | compare {op s₁ s₂ t₁ t₂} : Alike agree s₁ t₁ → Alike agree s₂ t₂ →
      Alike agree (.compare op s₁ s₂) (.compare op t₁ t₂)
  | unary {f s t} : Alike agree s t → Alike agree (.unary f s) (.unary f t)
  | binary {f s₁ s₂ t₁ t₂} : Alike agree s₁ t₁ → Alike agree s₂ t₂ → Alike agree (.binary f s₁ s₂) (.binary f t₁ t₂)
  | list {s t ss ts} : Alike agree s t → List.Forall₂ (Alike agree) ss ts → Alike agree (.list s ss) (.list t ts)
  | assign {name s t} : Alike agree s t → Alike agree (.assign name s) (.assign name t)
  | cond {s t s₁ s₂ t₁ t₂} : Alike agree s t → Option.Rel (Alike agree) s₁ t₁ → Option.Rel (Alike agree) s₂ t₂ →
      Alike agree (.cond s s₁ s₂) (.cond t t₁ t₂)
  | seq {s₁ s₂ t₁ t₂} : Alike agree s₁ t₁ → Alike agree s₂ t₂ → Alike agree (.seq s₁ s₂) (.seq t₁ t₂)
  | params {names} : Alike agree (.params names) (.params names)
  | define {id other name ps s t} : Alike agree s t → Alike agree (.define id name ps s) (.define other name ps t)
  | call {name ss ts} : List.Forall₂ (Alike agree) ss ts → Alike agree (.call name ss) (.call name ts)

/-- The same tree but for numbers that are displayed in the same way, and for the identities of definitions. -/
abbrev Node.LooksLike : Node → Node → Prop := Node.Alike fun x y => Number.general x = Number.general y

namespace Node

theorem label_ne_empty (t : Node) : t.label ≠ .heading .empty := by
  cases t <;> simp [label, Params.label]

/-- What looks in an outline like the tree is like the tree. -/
def Shown (t : Node) : Prop :=
  ∀ u : Node, u.Plain → t.label = u.label → t.underneath = u.underneath → t.LooksLike u

/-- What looks like the tree at the end of a chain is like the tree. -/
def ShownLast (t : Node) : Prop := ∀ u : Node, u.Plain → t.chain = u.chain → t.LooksLike u

/-- A tree is told apart from what comes after it. -/
theorem Shown.cut {t u : Node} (shown : t.Shown) (plain : u.Plain) {next more : Outline}
    (same : t.outline false next = u.outline false more) : t.LooksLike u ∧ next = more := by
  rw [outline_false, outline_false] at same
  injection same with labels inside rest
  exact ⟨shown u plain labels inside, rest⟩

theorem Shown.last {t : Node} (shown : t.Shown) (other : ∀ first second, t ≠ seq first second) : t.ShownLast := by
  intro u plain same
  rw [chain_of_ne_seq other] at same
  cases u with
  | seq first second =>
    rw [chain_seq] at same
    injection same with _ _ rest
    exact absurd rest.symm second.chain_ne_done
  | _ =>
    injection same with labels inside
    exact shown _ plain labels inside

theorem shownLast_seq {s t : Node} (first : s.Shown) (second : t.ShownLast) : (seq s t).ShownLast := by
  intro u plain same
  rw [chain_seq] at same
  cases u with
  | seq s' t' =>
    rw [chain_seq] at same
    injection same with labels inside rest
    exact .seq (first s' (plain.child (by simp [children])) labels inside)
      (second t' (plain.child (by simp [children])) rest)
  | _ =>
    injection same with _ _ rest
    exact absurd rest t.chain_ne_done

theorem forall₂_of_outlineAll {ts us : List Node} (each : ∀ t ∈ ts, t.Shown) (plain : ∀ u ∈ us, u.Plain)
    (same : outlineAll ts = outlineAll us) : List.Forall₂ LooksLike ts us := by
  induction ts generalizing us with
  | nil =>
    cases us with
    | nil => exact .nil
    | cons u us =>
      rw [outlineAll, outlineAll, outline_false] at same
      cases same
  | cons t ts ih =>
    cases us with
    | nil =>
      rw [outlineAll, outlineAll, outline_false] at same
      cases same
    | cons u us =>
      obtain ⟨first, rest⟩ := (each t List.mem_cons_self).cut (plain u List.mem_cons_self) same
      exact .cons first (ih (fun v member => each v (List.mem_cons_of_mem t member))
        (fun v member => plain v (List.mem_cons_of_mem u member)) rest)

theorem rel_of_outlineBranch {branch other : Option Node} (each : ∀ t ∈ branch, t.Shown)
    (plain : ∀ u ∈ other, u.Plain) (same : outlineBranch .done branch = outlineBranch .done other) :
    Option.Rel LooksLike branch other := by
  cases branch with
  | none =>
    cases other with
    | none => exact .none
    | some u =>
      rw [outlineBranch, outlineBranch, outline_false] at same
      cases same
  | some t =>
    cases other with
    | none =>
      rw [outlineBranch, outlineBranch, outline_false] at same
      cases same
    | some u => exact .some ((each t rfl).cut (plain u rfl) same).1

/-- Both branches of a condition can be read off its outline, because no tree looks like a branch that is
missing. -/
theorem rel_of_outlineBranches {onTrue onFalse yes no : Option Node} (first : ∀ t ∈ onTrue, t.Shown)
    (second : ∀ t ∈ onFalse, t.Shown) (plainYes : ∀ u ∈ yes, u.Plain) (plainNo : ∀ u ∈ no, u.Plain)
    (same : outlineBranches onTrue onFalse = outlineBranches yes no) :
    Option.Rel LooksLike onTrue yes ∧ Option.Rel LooksLike onFalse no := by
  have present : ∀ (t : Node) (branch : Option Node), outlineBranches (some t) branch =
      .item t.label t.underneath (outlineBranch .done branch) := fun t _ => t.outline_false _
  cases onTrue with
  | none =>
    cases yes with
    | none =>
      refine ⟨.none, rel_of_outlineBranch second plainNo ?_⟩
      cases onFalse <;> cases no <;> simp_all [outlineBranches, outlineBranch]
    | some u =>
      rw [present] at same
      cases onFalse with
      | none => cases same
      | some t =>
        injection same with labels
        exact absurd labels.symm u.label_ne_empty
  | some t =>
    rw [present] at same
    cases yes with
    | none =>
      cases no with
      | none => cases same
      | some u =>
        injection same with labels
        exact absurd labels t.label_ne_empty
    | some u =>
      rw [present] at same
      injection same with labels inside rest
      exact ⟨.some (first t rfl u (plainYes u rfl) labels inside), rel_of_outlineBranch second plainNo rest⟩

theorem Shown.both {t : Node} (shown : t.Shown) (other : ∀ first second, t ≠ seq first second) :
    t.Shown ∧ t.ShownLast :=
  ⟨shown, shown.last other⟩

theorem Shown.pair {l r l' r' : Node} (left : l.Shown) (right : r.Shown) (first : l'.Plain) (second : r'.Plain)
    (same : l.outline false (r.outline false .done) = l'.outline false (r'.outline false .done)) :
    l.LooksLike l' ∧ r.LooksLike r' := by
  obtain ⟨before, rest⟩ := left.cut first same
  exact ⟨before, (right.cut second rest).1⟩

section
variable {t l r : Node} {ts : List Node} {onTrue onFalse : Option Node}

theorem shown_num (x : Float) : (num x).Shown := by
  intro u plain labels under
  cases u <;> simp [label, Params.label, Number.numeral] at labels
  exact .num labels

theorem shown_var (name : String) : (var name).Shown := by
  intro u plain labels under
  cases u <;> simp [label, Params.label] at labels
  exact labels ▸ .var

theorem shown_params {names : Params} (own : (params names).Plain) : (params names).Shown := by
  intro u plain labels under
  cases u with
  | params others => exact Params.eq_of_label_eq own.own.2 plain.own.2 labels ▸ .params
  | _ => simp [label, Params.label] at labels

theorem Shown.neg (shown : t.Shown) : (neg t).Shown := by
  intro u plain labels under
  cases u <;> simp [label, Params.label] at labels
  exact .neg (shown.cut (plain.child (by simp [children])) under).1

theorem Shown.unary (shown : t.Shown) (f : UnaryBuiltin) : (unary f t).Shown := by
  intro u plain labels under
  cases u <;> simp [label, Params.label] at labels
  exact labels ▸ .unary (shown.cut (plain.child (by simp [children])) under).1

theorem Shown.assign (shown : t.Shown) (name : String) : (assign name t).Shown := by
  intro u plain labels under
  cases u <;> simp [label, Params.label] at labels
  exact labels ▸ .assign (shown.cut (plain.child (by simp [children])) under).1

theorem Shown.arith (left : l.Shown) (right : r.Shown) (op : ArithOp) : (arith op l r).Shown := by
  intro u plain labels under
  cases u <;> simp [label, Params.label] at labels
  obtain ⟨first, second⟩ := left.pair right (plain.child (by simp [children]))
    (plain.child (by simp [children])) under
  exact labels ▸ .arith first second

theorem Shown.compare (left : l.Shown) (right : r.Shown) (op : CompareOp) : (compare op l r).Shown := by
  intro u plain labels under
  cases u <;> simp [label, Params.label] at labels
  obtain ⟨first, second⟩ := left.pair right (plain.child (by simp [children]))
    (plain.child (by simp [children])) under
  exact labels ▸ .compare first second

theorem Shown.binary (left : l.Shown) (right : r.Shown) (f : BinaryBuiltin) : (binary f l r).Shown := by
  intro u plain labels under
  cases u with
  | binary g l' r' =>
    obtain ⟨first, second⟩ := left.pair right (plain.child (by simp [children]))
      (plain.child (by simp [children])) under
    -- There is one function of this kind.
    cases f
    cases g
    exact .binary first second
  | _ => simp [label, Params.label] at labels

theorem Shown.list (head : t.Shown) (tail : ∀ v ∈ ts, v.Shown) : (list t ts).Shown := by
  intro u plain labels under
  cases u with
  | list u us =>
    obtain ⟨alike, rest⟩ := head.cut (plain.child (by simp [children])) under
    exact .list alike (forall₂_of_outlineAll tail (fun v member => plain.child (by simp [children, member])) rest)
  | _ => simp [label, Params.label] at labels

theorem Shown.cond (test : t.Shown) (yes : ∀ v ∈ onTrue, v.Shown) (no : ∀ v ∈ onFalse, v.Shown) :
    (cond t onTrue onFalse).Shown := by
  intro u plain labels under
  cases u with
  | cond u yes' no' =>
    obtain ⟨alike, rest⟩ := test.cut (plain.child (by simp [children])) under
    obtain ⟨first, second⟩ := rel_of_outlineBranches yes no
      (fun v member => plain.child (by simp [children, Option.mem_def.mp member]))
      (fun v member => plain.child (by simp [children, Option.mem_def.mp member])) rest
    exact .cond alike first second
  | _ => simp [label, Params.label] at labels

theorem Shown.seq (first : l.Shown) (second : r.ShownLast) : (seq l r).Shown := by
  intro u plain labels under
  cases u with
  | seq s' t' =>
    obtain ⟨alike, rest⟩ := first.cut (plain.child (by simp [children])) under
    exact .seq alike (second t' (plain.child (by simp [children])) rest)
  | _ => simp [label, Params.label] at labels

theorem Shown.define (shown : t.Shown) {id : Nat} {name : String} {ps : Params}
    (own : (define id name ps t).Plain) :
    (define id name ps t).Shown := by
  intro u plain labels under
  cases u with
  | define other name' qs u =>
    injection labels with _ names
    injection under with params _ bodies
    cases names
    cases Params.eq_of_label_eq own.own.2 plain.own.2 params
    exact .define (shown.cut (plain.child (by simp [children])) bodies).1
  | _ => simp [label, Params.label] at labels

/-- No arguments and a list of arguments are told apart by the heading of the list. -/
theorem outlineAll_of_underneath_call {name other : String} {us : List Node}
    (under : (call name ts).underneath = (call other us).underneath) : outlineAll ts = outlineAll us := by
  cases ts with
  | nil =>
    cases us with
    | nil => rfl
    | cons u us => cases under
  | cons t ts =>
    cases us with
    | nil => cases under
    | cons u us => injection under with _ lists

theorem Shown.call (args : ∀ v ∈ ts, v.Shown) (name : String) : (call name ts).Shown := by
  intro u plain labels under
  cases u with
  | call other us =>
    injection labels with _ names
    cases names
    exact .call (forall₂_of_outlineAll args (fun v member => plain.child (by simp [children, member]))
      (outlineAll_of_underneath_call under))
  | _ => simp [label, Params.label] at labels

end

/-- Trees with the same outline look alike: the label of a node tells its kind, and what stands below the label
tells its children. -/
theorem shown (t : Node) (plain : t.Plain) : t.Shown ∧ t.ShownLast := by
  induction t with
  | num x => exact (shown_num x).both (by simp)
  | var name => exact (shown_var name).both (by simp)
  | params names => exact (shown_params plain).both (by simp)
  | neg t ih => exact (ih (plain.child (by simp [children]))).1.neg.both (by simp)
  | unary f t ih => exact ((ih (plain.child (by simp [children]))).1.unary f).both (by simp)
  | assign name t ih => exact ((ih (plain.child (by simp [children]))).1.assign name).both (by simp)
  | define id name ps t ih => exact ((ih (plain.child (by simp [children]))).1.define plain).both (by simp)
  | arith op l r left right =>
    have first := (left (plain.child (by simp [children]))).1
    exact (first.arith (right (plain.child (by simp [children]))).1 op).both (by simp)
  | compare op l r left right =>
    have first := (left (plain.child (by simp [children]))).1
    exact (first.compare (right (plain.child (by simp [children]))).1 op).both (by simp)
  | binary f l r left right =>
    have first := (left (plain.child (by simp [children]))).1
    exact (first.binary (right (plain.child (by simp [children]))).1 f).both (by simp)
  | list t ts head tail =>
    have first := (head (plain.child (by simp [children]))).1
    exact (first.list fun v member => (tail v member (plain.child (by simp [children, member]))).1).both (by simp)
  | cond t onTrue onFalse test yes no =>
    have first := (test (plain.child (by simp [children]))).1
    refine (first.cond (fun v member => ?_) (fun v member => ?_)).both (by simp)
    · exact (yes v member (plain.child (by simp [children, Option.mem_def.mp member]))).1
    · exact (no v member (plain.child (by simp [children, Option.mem_def.mp member]))).1
  | seq s t first second =>
    have before := (first (plain.child (by simp [children]))).1
    have after := (second (plain.child (by simp [children]))).2
    exact ⟨before.seq after, shownLast_seq before after⟩
  | call name ts args =>
    exact (Shown.call (fun v member => (args v member (plain.child (by simp [children, member]))).1) name).both
      (by simp)

theorem outlineAll_eq_of_forall₂ {ts us : List Node} (alike : List.Forall₂ LooksLike ts us)
    (each : ∀ t ∈ ts, ∀ u, t.LooksLike u → ∀ chained next, t.outline chained next = u.outline chained next) :
    outlineAll ts = outlineAll us := by
  induction alike with
  | nil => rfl
  | @cons t u ts us first rest ih =>
    rw [outlineAll, outlineAll, each t List.mem_cons_self u first,
      ih fun v member => each v (List.mem_cons_of_mem t member)]

theorem outlineBranch_eq_of_rel {branch other : Option Node} (alike : Option.Rel LooksLike branch other)
    (each : ∀ t ∈ branch, ∀ u, t.LooksLike u → ∀ chained next, t.outline chained next = u.outline chained next)
    (next : Outline) : outlineBranch next branch = outlineBranch next other := by
  cases alike with
  | none => rfl
  | @some t u inside => exact each t rfl u inside false next

/-- Trees that look alike have the same outline. -/
theorem outline_eq_of_looksLike (t u : Node) (alike : t.LooksLike u) (chained : Bool) (next : Outline) :
    t.outline chained next = u.outline chained next := by
  induction t generalizing u chained next with
  | num x =>
    cases alike with
    | num agree => simp only [outline, label, Number.numeral, agree]
  | var | params =>
    cases alike
    rfl
  | neg t ih | unary f t ih | assign name t ih | define id name ps t ih =>
    cases alike
    next inside => simp only [outline, label, ih _ inside]
  | arith op l r left right | compare op l r left right | binary op l r left right =>
    cases alike
    next first second => simp only [outline, label, left _ first, right _ second]
  | seq s t first second =>
    cases alike with
    | seq before after => simp only [outline, label, first _ before, second _ after]
  | list t ts head tail =>
    cases alike with
    | list first others => simp only [outline, label, head _ first, outlineAll_eq_of_forall₂ others tail]
  | call name ts args =>
    cases alike with
    | @call _ _ us others =>
      have lengths : ts.isEmpty = us.isEmpty := by cases others <;> rfl
      simp only [outline, label, lengths, outlineAll_eq_of_forall₂ others args]
  | cond t onTrue onFalse test yes no =>
    cases alike with
    | @cond _ u _ _ yes' no' first second third =>
      have some : onTrue.isNone = yes'.isNone ∧ onFalse.isSome = no'.isSome := by
        constructor
        · cases second <;> rfl
        · cases third <;> rfl
      simp only [outline, label, test _ first, some.1, some.2, outlineBranch_eq_of_rel second yes,
        outlineBranch_eq_of_rel third no]

/-- A trace is unambiguous. If no name has a newline in it and no parameter a comma, two trees have the same
trace, at whatever level, exactly when they are the same tree with the same names, operators, branches, arguments
and parameters, and with numbers that are displayed in the same way. -/
theorem trace_eq_iff_looksLike {t u : Node} (plain : t.Plain) (free : u.Plain) (depth : Nat) :
    t.trace depth = u.trace depth ↔ t.LooksLike u := by
  constructor
  · intro same
    have nothing : Outline.done.Plain := trivial
    rw [trace_eq, trace_eq] at same
    have outlines := Outline.eq_of_text_eq (plain.outline false nothing) (free.outline false nothing) same
    exact ((t.shown plain).1.cut free outlines).1
  · intro alike
    rw [trace_eq, trace_eq, outline_eq_of_looksLike t u alike]

/-- Statements grouped to the left do not look like statements in a chain. -/
theorem trace_eq_iff_looksLike_grouped :
    (seq (seq (var "x") (var "y")) (var "z")).trace 2 ≠ (seq (var "x") (seq (var "y") (var "z"))).trace 2 := by
  have plain : (seq (seq (var "x") (var "y")) (var "z")).Plain := by
    intro s member
    simp only [subtrees, List.cons_append, List.nil_append, List.mem_cons, List.not_mem_nil, or_false] at member
    rcases member with rfl | rfl | rfl | rfl | rfl <;> simp [names, parameters]
  have free : (seq (var "x") (seq (var "y") (var "z"))).Plain := by
    intro s member
    simp only [subtrees, List.cons_append, List.nil_append, List.mem_cons, List.not_mem_nil, or_false] at member
    rcases member with rfl | rfl | rfl | rfl | rfl <;> simp [names, parameters]
  intro same
  have alike := (trace_eq_iff_looksLike plain free 2).mp same
  cases alike with
  | seq first _ => cases first

end Node

end TreeCalc
