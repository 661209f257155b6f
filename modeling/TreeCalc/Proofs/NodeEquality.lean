import TreeCalc.Node.Equality
import TreeCalc.Proofs.FloatEquality
import TreeCalc.Proofs.MadeDefinitions
import TreeCalc.Proofs.TraceText

namespace TreeCalc.Node

section Span
variable {R S T : Float → Float → Prop}

theorem forall₂_span {ts us vs : List Node} (left : List.Forall₂ (Alike R) ts us)
    (right : List.Forall₂ (Alike S) ts vs)
    (each : ∀ t ∈ ts, ∀ u v, t.Alike R u → t.Alike S v → u.Alike T v) : List.Forall₂ (Alike T) us vs := by
  induction left generalizing vs with
  | nil =>
    cases right
    exact .nil
  | @cons t u ts us first _ ih =>
    cases right with
    | cons second rest =>
      exact .cons (each t List.mem_cons_self u _ first second)
        (ih rest fun v member => each v (List.mem_cons_of_mem t member))

theorem rel_span {branch yes no : Option Node} (left : Option.Rel (Alike R) branch yes)
    (right : Option.Rel (Alike S) branch no) (each : ∀ t ∈ branch, ∀ u v, t.Alike R u → t.Alike S v → u.Alike T v) :
    Option.Rel (Alike T) yes no := by
  cases left with
  | none =>
    cases right
    exact .none
  | some first =>
    cases right with
    | some second => exact .some (each _ rfl _ _ first second)

/-- Two trees that are alike a third one are alike each other, in what their numbers then have in common. -/
theorem alike_span (t u v : Node) (left : t.Alike R u) (right : t.Alike S v)
    (agree : ∀ x, num x ∈ t.subtrees → ∀ y z, R x y → S x z → T y z) : u.Alike T v := by
  induction t using induct_children generalizing u v with
  | step t ih =>
    have below : ∀ child ∈ t.children, ∀ u v, child.Alike R u → child.Alike S v → u.Alike T v :=
      fun child member u v left right => ih child member u v left right fun x occurs =>
        agree x (mem_subtrees_of_child member occurs)
    -- The form of `t` is the form of both `u` and `v`.
    cases left with
    | num first =>
      cases right with
      | num second => exact .num (agree _ (by simp [subtrees]) _ _ first second)
    | var =>
      cases right
      exact .var
    | params =>
      cases right
      exact .params
    | neg first | unary first | assign first | define first =>
      cases right
      next second =>
        constructor
        exact below _ (by simp [children]) _ _ first second
    | arith first others | compare first others | binary first others | seq first others =>
      cases right
      next second rest =>
        constructor
        · exact below _ (by simp [children]) _ _ first second
        · exact below _ (by simp [children]) _ _ others rest
    | list first others =>
      cases right with
      | list second rest =>
        exact .list (below _ (by simp [children]) _ _ first second)
          (forall₂_span others rest fun child member => below child (by simp [children, member]))
    | call others =>
      cases right with
      | call rest => exact .call (forall₂_span others rest below)
    | cond first yes no =>
      cases right with
      | cond second onTrue onFalse =>
        refine .cond (below _ (by simp [children]) _ _ first second) (rel_span yes onTrue fun child member => ?_)
          (rel_span no onFalse fun child member => ?_)
        · exact below child (by simp [children, Option.mem_def.mp member])
        · exact below child (by simp [children, Option.mem_def.mp member])

theorem rel_self_iff {branch : Option Node} : Option.Rel (Alike R) branch branch ↔ ∀ t ∈ branch, t.Alike R t := by
  cases branch with
  | none => simp
  | some t =>
    constructor
    · intro alike u member
      cases alike with
      | some inside => exact Option.some.inj member ▸ inside
    · exact fun each => .some (each t rfl)

theorem alike_self_of_numbers (t : Node) (numbers : ∀ x, num x ∈ t.subtrees → R x x) : t.Alike R t := by
  induction t using induct_children with
  | step t ih =>
    have below : ∀ child ∈ t.children, child.Alike R child := fun child member =>
      ih child member fun x occurs => numbers x (mem_subtrees_of_child member occurs)
    cases t with
    | num x => exact .num (numbers x (by simp [subtrees]))
    | var => exact .var
    | params => exact .params
    | neg | unary | assign | define =>
      constructor
      exact below _ (by simp [children])
    | arith | compare | binary | seq => constructor <;> exact below _ (by simp [children])
    | list =>
      exact .list (below _ (by simp [children]))
        (List.forall₂_same.mpr fun u member => below u (by simp [children, member]))
    | call => exact .call (List.forall₂_same.mpr below)
    | cond =>
      exact .cond (below _ (by simp [children]))
        (rel_self_iff.mpr fun u member => below u (by simp [children, Option.mem_def.mp member]))
        (rel_self_iff.mpr fun u member => below u (by simp [children, Option.mem_def.mp member]))

theorem alike_self_child {t child : Node} (alike : t.Alike R t) (member : child ∈ t.children) :
    child.Alike R child := by
  cases alike with
  | num | var | params => cases member
  | neg inside | unary inside | assign inside | define inside => exact List.mem_singleton.mp member ▸ inside
  | arith first second | compare first second | binary first second | seq first second =>
    simp only [children, List.mem_cons, List.not_mem_nil, or_false] at member
    rcases member with rfl | rfl
    · exact first
    · exact second
  | list first others =>
    rcases List.mem_cons.mp member with rfl | later
    · exact first
    · exact List.forall₂_same.mp others child later
  | call others => exact List.forall₂_same.mp others child member
  | cond first yes no =>
    simp only [children, List.mem_cons, List.mem_append, Option.mem_toList] at member
    rcases member with rfl | onTrue | onFalse
    · exact first
    · exact rel_self_iff.mp yes child onTrue
    · exact rel_self_iff.mp no child onFalse

/-- A tree is alike itself just when each of its numbers agrees with itself. -/
theorem alike_self_iff (t : Node) : t.Alike R t ↔ ∀ x, num x ∈ t.subtrees → R x x := by
  refine ⟨fun alike x member => ?_, alike_self_of_numbers t⟩
  induction t using induct_children with
  | step t ih =>
    rw [subtrees_eq] at member
    rcases List.mem_cons.mp member with rfl | below
    · cases alike with
      | num own => exact own
    · obtain ⟨child, inside, occurs⟩ := List.mem_flatMap.mp below
      exact ih child inside (alike_self_child alike inside) occurs

/-- The same tree but for the identities of definitions. -/
abbrev Twin : Node → Node → Prop := Alike Eq

theorem twin_self (t : Node) : t.Twin t := (alike_self_iff t).mpr fun _ _ => rfl

theorem Alike.flip {t u : Node} (alike : t.Alike R u) : u.Alike (fun y x => R x y) t :=
  alike_span t u t alike t.twin_self fun _ _ _ _ related same => same ▸ related

theorem Alike.comp {t u v : Node} (left : t.Alike R u) (right : u.Alike S v)
    (agree : ∀ x y z, R x y → S y z → T x z) : t.Alike T v :=
  alike_span u t v left.flip right fun y _ x z first second => agree x y z first second

/-- Numbers that do not occur in the tree do not matter. -/
theorem alike_of_numbers {t u : Node} (alike : t.Alike R u) (agree : ∀ x, num x ∈ t.subtrees → ∀ y, R x y → S x y) :
    t.Alike S u :=
  alike_span t t u t.twin_self alike fun x occurs _ z same related => same ▸ agree x occurs z related

end Span

/-- The same tree but for numbers that are equal as floats, and for the identities of definitions. -/
abbrev Equal : Node → Node → Prop := Alike fun x y => (x == y) = true

theorem forall₂_of_sameAll {ss ts : List Node} (each : ∀ s ∈ ss, ∀ t, s.same t = true → s.Equal t)
    (same : sameAll ss ts = true) : List.Forall₂ Equal ss ts := by
  induction ss generalizing ts with
  | nil =>
    cases ts with
    | nil => exact .nil
    | cons t ts => cases same
  | cons s ss ih =>
    cases ts with
    | nil => cases same
    | cons t ts =>
      rw [sameAll, Bool.and_eq_true] at same
      exact .cons (each s List.mem_cons_self t same.1)
        (ih (fun u member => each u (List.mem_cons_of_mem s member)) same.2)

theorem rel_of_sameBranch {branch other : Option Node} (each : ∀ s ∈ branch, ∀ t, s.same t = true → s.Equal t)
    (same : sameBranch branch other = true) : Option.Rel Equal branch other := by
  cases branch with
  | none =>
    cases other with
    | none => exact .none
    | some t => cases same
  | some s =>
    cases other with
    | none => cases same
    | some t => exact .some (each s rfl t same)

theorem equal_of_same (t u : Node) (equal : t.same u = true) : t.Equal u := by
  induction t using induct_children generalizing u with
  | step t below =>
    cases t with
    | num x =>
      cases u with
      | num y => exact .num equal
      | _ => cases equal
    | var x =>
      cases u with
      | var y =>
        obtain rfl : x = y := eq_of_beq equal
        exact .var
      | _ => cases equal
    | params ps =>
      cases u with
      | params qs =>
        obtain rfl : ps = qs := eq_of_beq equal
        exact .params
      | _ => cases equal
    | neg s =>
      cases u with
      | neg => exact .neg (below s (by simp [children]) _ equal)
      | _ => cases equal
    | unary f s =>
      cases u with
      | unary =>
        simp only [same, Bool.and_eq_true, beq_iff_eq] at equal
        obtain ⟨rfl, inside⟩ := equal
        exact .unary (below s (by simp [children]) _ inside)
      | _ => cases equal
    | assign x s =>
      cases u with
      | assign =>
        simp only [same, Bool.and_eq_true, beq_iff_eq] at equal
        obtain ⟨rfl, inside⟩ := equal
        exact .assign (below s (by simp [children]) _ inside)
      | _ => cases equal
    | define id f ps s =>
      cases u with
      | define =>
        simp only [same, Bool.and_eq_true, beq_iff_eq] at equal
        obtain ⟨⟨rfl, rfl⟩, inside⟩ := equal
        exact .define (below s (by simp [children]) _ inside)
      | _ => cases equal
    | arith op l r =>
      cases u with
      | arith =>
        simp only [same, Bool.and_eq_true, beq_iff_eq] at equal
        obtain ⟨⟨rfl, first⟩, second⟩ := equal
        exact .arith (below l (by simp [children]) _ first) (below r (by simp [children]) _ second)
      | _ => cases equal
    | compare op l r =>
      cases u with
      | compare =>
        simp only [same, Bool.and_eq_true, beq_iff_eq] at equal
        obtain ⟨⟨rfl, first⟩, second⟩ := equal
        exact .compare (below l (by simp [children]) _ first) (below r (by simp [children]) _ second)
      | _ => cases equal
    | binary f l r =>
      cases u with
      | binary g =>
        simp only [same, Bool.and_eq_true] at equal
        obtain ⟨⟨functions, first⟩, second⟩ := equal
        obtain rfl : f = g := eq_of_beq functions
        exact .binary (below l (by simp [children]) _ first) (below r (by simp [children]) _ second)
      | _ => cases equal
    | seq l r =>
      cases u with
      | seq =>
        simp only [same, Bool.and_eq_true] at equal
        exact .seq (below l (by simp [children]) _ equal.1) (below r (by simp [children]) _ equal.2)
      | _ => cases equal
    | list s ss =>
      cases u with
      | list =>
        simp only [same, Bool.and_eq_true] at equal
        refine .list (below s (by simp [children]) _ equal.1) (forall₂_of_sameAll (fun v member => ?_) equal.2)
        exact below v (by simp [children, member])
      | _ => cases equal
    | call f ss =>
      cases u with
      | call =>
        simp only [same, Bool.and_eq_true, beq_iff_eq] at equal
        obtain ⟨rfl, args⟩ := equal
        exact .call (forall₂_of_sameAll below args)
      | _ => cases equal
    | cond s yes no =>
      cases u with
      | cond =>
        simp only [same, Bool.and_eq_true] at equal
        refine .cond (below s (by simp [children]) _ equal.1.1) (rel_of_sameBranch (fun v member => ?_) equal.1.2)
          (rel_of_sameBranch (fun v member => ?_) equal.2)
        · exact below v (by simp [children, Option.mem_def.mp member])
        · exact below v (by simp [children, Option.mem_def.mp member])
      | _ => cases equal

theorem sameAll_of_forall₂ {ss ts : List Node} (each : ∀ s ∈ ss, ∀ t, s.Equal t → s.same t = true)
    (equal : List.Forall₂ Equal ss ts) : sameAll ss ts = true := by
  induction equal with
  | nil => rfl
  | @cons s t ss ts first _ ih =>
    rw [sameAll, each s List.mem_cons_self t first, ih fun u member => each u (List.mem_cons_of_mem s member)]
    rfl

theorem sameBranch_of_rel {branch other : Option Node} (each : ∀ s ∈ branch, ∀ t, s.Equal t → s.same t = true)
    (equal : Option.Rel Equal branch other) : sameBranch branch other = true := by
  cases equal with
  | none => rfl
  | @some s t inside => exact each s rfl t inside

theorem same_of_equal (t u : Node) (equal : t.Equal u) : t.same u = true := by
  induction t generalizing u with
  | num x =>
    cases equal with
    | num agree => exact agree
  | var | params =>
    cases equal
    exact beq_self_eq_true _
  | neg t ih | unary f t ih | assign name t ih | define id name ps t ih =>
    cases equal
    next inside => simp only [same, ih _ inside, beq_self_eq_true, Bool.and_self]
  | arith op l r left right | compare op l r left right | binary op l r left right | seq l r left right =>
    cases equal
    next first second => simp only [same, left _ first, right _ second, beq_self_eq_true, Bool.and_self]
  | list t ts head tail =>
    cases equal with
    | list first others => simp only [same, head _ first, sameAll_of_forall₂ tail others, Bool.and_self]
  | call name ts args =>
    cases equal with
    | call others => simp only [same, sameAll_of_forall₂ args others, beq_self_eq_true, Bool.and_self]
  | cond t onTrue onFalse test yes no =>
    cases equal with
    | cond first second third =>
      simp only [same, test _ first, sameBranch_of_rel yes second, sameBranch_of_rel no third, Bool.and_self]

/-- Equality by content compares kinds, operators, names, missing parts, lists and definitions, and numbers as
floats. -/
theorem same_iff_equal (t u : Node) : t.same u = true ↔ t.Equal u := ⟨equal_of_same t u, same_of_equal t u⟩

theorem same_comm (t u : Node) : t.same u = u.same t := by
  have symmetric : ∀ t u : Node, t.same u = true → u.same t = true := fun t u equal =>
    same_of_equal u t (alike_of_numbers (equal_of_same t u equal).flip fun _ _ _ => Number.beq_symm)
  exact Bool.eq_iff_iff.mpr ⟨symmetric t u, symmetric u t⟩

theorem same_trans {t u v : Node} (first : t.same u = true) (second : u.same v = true) : t.same v = true :=
  same_of_equal t v ((equal_of_same t u first).comp (equal_of_same u v second) fun _ _ _ => Number.beq_trans)

theorem same_self_iff (t : Node) : t.same t = true ↔ ∀ x, num x ∈ t.subtrees → x.isNaN = false := by
  simp only [same_iff_equal, alike_self_iff, Number.beq_self_iff]

/-- Equal trees without a zero differ in no number. -/
theorem twin_of_same {t u : Node} (equal : t.same u = true)
    (nonzero : ∀ x, num x ∈ t.subtrees → (x == 0.0) = false) : t.Twin u :=
  alike_of_numbers (equal_of_same t u equal) fun x occurs _ same =>
    Number.eq_of_beq_of_nonzero same (nonzero x occurs)

end TreeCalc.Node
