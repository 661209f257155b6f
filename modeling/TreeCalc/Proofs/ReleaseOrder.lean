import TreeCalc.Proofs.Ledger
import TreeCalc.Proofs.OwnedNodes

namespace TreeCalc

namespace Handles

/-- One handle less to a definition, with its body left aside. -/
def lose (h : Handles) (d : Definition) : Handles :=
  if h.count d.id ≤ 1 then h.forget d.id else h.setCount d.id (h.count d.id - 1)

/-- The handles that go next when a definition loses one: those in its body if it was the last. -/
def following (h : Handles) (d : Definition) : List Definition := if h.count d.id ≤ 1 then d.body.made else []

theorem release_cons (h : Handles) (d : Definition) (ds : List Definition) :
    h.release (d :: ds) = (h.lose d).release (h.following d ++ ds) := by
  rw [release, lose, following]
  split
  · rw [Node.definitions_eq_made]
  · rfl

theorem release_append (h : Handles) (ds es : List Definition) :
    h.release (ds ++ es) = (h.release ds).release es := by
  fun_induction release h ds with
  | case1 h => rfl
  | case2 h d ds held last ih => rw [List.cons_append, release, if_pos last, ← List.append_assoc, ih]
  | case3 h d ds held more ih => rw [List.cons_append, release, if_neg more, ih]

theorem getElem?_lose (h : Handles) (d : Definition) (id : Nat) :
    (h.lose d).counts[id]? =
      if d.id = id then if h.count d.id ≤ 1 then none else some (h.count d.id - 1) else h.counts[id]? := by
  unfold lose
  by_cases last : h.count d.id ≤ 1
  · simp [last, forget, Std.ExtTreeMap.getElem?_erase]
  · simp [last, setCount, Std.ExtTreeMap.getElem?_insert]

theorem count_lose_of_ne (h : Handles) {d : Definition} {id : Nat} (apart : d.id ≠ id) :
    (h.lose d).count id = h.count id := by
  rw [count, getElem?_lose, if_neg apart, count]

theorem following_lose_of_ne (h : Handles) {d e : Definition} (apart : d.id ≠ e.id) :
    (h.lose d).following e = h.following e := by
  rw [following, count_lose_of_ne h apart, following]

/-- Handles to two definitions go in whatever order. -/
theorem lose_comm (h : Handles) {d e : Definition} (apart : d.id ≠ e.id) :
    (h.lose d).lose e = (h.lose e).lose d := by
  have equal : ((h.lose d).lose e).counts = ((h.lose e).lose d).counts := by
    apply Std.ExtTreeMap.ext_getElem?
    intro id
    rw [getElem?_lose, getElem?_lose, getElem?_lose, getElem?_lose, count_lose_of_ne h apart,
      count_lose_of_ne h apart.symm]
    by_cases first : d.id = id
    · have second : e.id ≠ id := fun same => apart (first.trans same.symm)
      rw [if_neg second, if_pos first, if_pos first]
    · rw [if_neg first, if_neg first]
  exact congrArg Handles.mk equal

end Handles

namespace Definition

theorem sizeAll_perm {ds es : List Definition} (same : ds.Perm es) : sizeAll ds = sizeAll es := by
  induction same with
  | nil => rfl
  | cons d _ ih => simp only [sizeAll, ih]
  | swap d e ds => simp only [sizeAll]; omega
  | trans _ _ first second => exact first.trans second

/-- What is still to be released gets smaller with every handle, for a body is smaller than its definition. -/
theorem sizeAll_following_lt (h : Handles) (d : Definition) (ds : List Definition) :
    sizeAll (h.following d ++ ds) < sizeAll (d :: ds) := by
  have bound := Node.sizeAll_definitions_le d.body
  rw [Node.definitions_eq_made] at bound
  rw [sizeAll_append, sizeAll_cons, Handles.following]
  split
  · omega
  · rw [sizeAll]
    omega

end Definition

namespace Handles
open Definition
variable {U : Definition → Prop}

theorem known_following (coherent : Coherent U) {d : Definition} (known : U d) (h : Handles) :
    ∀ e ∈ h.following d, U e := by
  intro e member
  rw [following] at member
  split at member
  · exact coherent.closed d known e member
  · cases member

theorem known_following_append (coherent : Coherent U) {d : Definition} {ds : List Definition}
    (known : ∀ e ∈ d :: ds, U e) (h : Handles) : ∀ e ∈ h.following d ++ ds, U e :=
  List.forall_mem_append.mpr
    ⟨known_following coherent (known d List.mem_cons_self) h,
      fun e member => known e (List.mem_cons_of_mem d member)⟩

/-- Where the order of fewer handles does not matter, a handle passes those that go with the body before it. -/
theorem release_cons_cons (coherent : Coherent U) (h : Handles) {d e : Definition} {ds : List Definition}
    (apart : d.id ≠ e.id) (known : ∀ f ∈ d :: e :: ds, U f)
    (smaller : ∀ (h : Handles) (fs gs : List Definition), sizeAll fs < sizeAll (d :: e :: ds) → (∀ f ∈ fs, U f) →
      fs.Perm gs → h.release fs = h.release gs) :
    h.release (d :: e :: ds) = ((h.lose d).lose e).release (h.following e ++ (h.following d ++ ds)) := by
  have less := sizeAll_following_lt h d (e :: ds)
  calc h.release (d :: e :: ds)
    _ = (h.lose d).release (h.following d ++ e :: ds) := release_cons h d (e :: ds)
    _ = (h.lose d).release (e :: (h.following d ++ ds)) :=
      smaller _ _ _ less (known_following_append coherent known h) List.perm_middle
    _ = ((h.lose d).lose e).release (h.following e ++ (h.following d ++ ds)) := by
      rw [release_cons, following_lose_of_ne h apart]

/-- The order in which handles are released does not matter, whatever the counts are. -/
theorem release_perm (coherent : Coherent U) (h : Handles) {ds es : List Definition} (known : ∀ d ∈ ds, U d)
    (same : ds.Perm es) : h.release ds = h.release es := by
  -- A handle may be the last one to its definition, and then the body puts others in its place, so the induction on
  -- how the orders differ stands inside one on the size of all that is to be released.
  induction size : sizeAll ds using Nat.strongRecOn generalizing h ds es with
  | ind n ih =>
    have smaller : ∀ (h : Handles) (fs gs : List Definition), sizeAll fs < n → (∀ d ∈ fs, U d) → fs.Perm gs →
        h.release fs = h.release gs := fun h fs gs less all equal => ih _ less h all equal rfl
    induction same with
    | nil => rfl
    | @cons d fs gs equal _ =>
      have less := sizeAll_following_lt h d fs
      rw [release_cons, release_cons]
      exact smaller _ _ _ (by omega) (known_following_append coherent known h) (equal.append_left _)
    | swap d e fs =>
      have turned : ∀ f ∈ d :: e :: fs, U f := fun f member => known f ((List.Perm.swap e d fs).mem_iff.mp member)
      have length := sizeAll_perm (List.Perm.swap e d fs)
      by_cases same : d.id = e.id
      · rw [coherent.unique d e (turned d List.mem_cons_self) (known e List.mem_cons_self) same]
      · rw [release_cons_cons coherent h (Ne.symm same) known (size ▸ smaller),
          release_cons_cons coherent h same turned (length.trans size ▸ smaller), lose_comm h same]
        have first := sizeAll_following_lt h e (d :: fs)
        have second := sizeAll_following_lt h d fs
        simp only [sizeAll_append, sizeAll_cons] at first second size
        refine smaller _ _ _ (by simp only [sizeAll_append]; omega) ?_ (List.perm_append_comm_assoc _ _ _)
        rw [List.forall_mem_append]
        exact ⟨known_following coherent (turned d List.mem_cons_self) h, known_following_append coherent
          (fun f member => turned f (List.mem_cons_of_mem d member)) h⟩
    | @trans fs gs ks first second left right =>
      have between : ∀ d ∈ gs, U d := fun d member => known d (first.mem_iff.mpr member)
      have length := sizeAll_perm first
      exact (left known size).trans (right between (by omega))

end Handles

mutual

/-- Drops a tree by recursion over it, part by part from left to right. A definition gives a handle back, and
drops its body if this was the last one. -/
def Node.dropFrom (h : Handles) : Node → Handles
  | .num _ => h
  | .var _ => h
  | .neg t => t.dropFrom h
  | .arith _ l r => r.dropFrom (l.dropFrom h)
  | .compare _ l r => r.dropFrom (l.dropFrom h)
  | .unary _ t => t.dropFrom h
  | .binary _ l r => r.dropFrom (l.dropFrom h)
  | .list t ts => Node.dropAllFrom (t.dropFrom h) ts
  | .assign _ t => t.dropFrom h
  | .cond t onTrue onFalse => Node.dropBranchFrom (Node.dropBranchFrom (t.dropFrom h) onTrue) onFalse
  | .seq s t => t.dropFrom (s.dropFrom h)
  | .params _ => h
  | .define id _ _ t => if h.count id ≤ 1 then t.dropFrom (h.forget id) else h.setCount id (h.count id - 1)
  | .call _ ts => Node.dropAllFrom h ts

def Node.dropAllFrom (h : Handles) : List Node → Handles
  | [] => h
  | t :: ts => Node.dropAllFrom (t.dropFrom h) ts

def Node.dropBranchFrom (h : Handles) : Option Node → Handles
  | none => h
  | some t => t.dropFrom h

end

namespace Node

theorem dropAllFrom_eq (h : Handles) (ts : List Node) : dropAllFrom h ts = ts.foldl dropFrom h := by
  induction ts generalizing h with
  | nil => rfl
  | cons t ts ih => rw [dropAllFrom, List.foldl_cons, ih]

theorem dropBranchFrom_eq (h : Handles) (branch : Option Node) :
    dropBranchFrom h branch = branch.toList.foldl dropFrom h := by
  cases branch <;> rfl

theorem dropFrom_eq_foldl {t : Node} (plain : t.definition? = none) (h : Handles) :
    t.dropFrom h = t.parts.foldl dropFrom h := by
  cases t with
  | define => cases plain
  | _ => simp [dropFrom, parts, children, dropAllFrom_eq, dropBranchFrom_eq]

theorem foldl_dropFrom {ts : List Node} (each : ∀ t ∈ ts, ∀ h : Handles, t.dropFrom h = h.release t.made)
    (h : Handles) : ts.foldl dropFrom h = h.release (ts.flatMap made) := by
  induction ts generalizing h with
  | nil => rw [List.flatMap_nil, Handles.release, List.foldl_nil]
  | cons t ts ih =>
    rw [List.foldl_cons, each t List.mem_cons_self, ih fun u member => each u (List.mem_cons_of_mem t member),
      List.flatMap_cons, Handles.release_append]

/-- Dropping a tree by recursion is releasing the definitions made in it. -/
theorem dropFrom_eq_release {U : Definition → Prop} (coherent : Coherent U) (t : Node) (known : ∀ d ∈ t.made, U d)
    (h : Handles) : t.dropFrom h = h.release t.made := by
  induction t using induct_children generalizing h with
  | step t ih =>
    cases own : t.definition? with
    | none =>
      have listed : t.made = t.parts.reverse.flatMap made := by rw [made_eq, own]; rfl
      have turned : t.made.Perm (t.parts.flatMap made) := listed ▸ (List.reverse_perm t.parts).flatMap_right made
      rw [dropFrom_eq_foldl own, Handles.release_perm coherent h known turned]
      refine foldl_dropFrom (fun c member h => ih c (mem_children_of_part member) (fun d made => ?_) h) h
      exact known d (turned.mem_iff.mpr (List.mem_flatMap.mpr ⟨c, member, made⟩))
    | some d =>
      obtain ⟨id, name, ps, body, rfl⟩ : ∃ id name ps body, t = .define id name ps body := by
        cases t <;> simp [definition?] at own ⊢
      have here : U ⟨id, name, ps, body⟩ := known _ List.mem_cons_self
      have inside := ih body List.mem_cons_self (coherent.closed _ here)
      rw [dropFrom, made, Handles.release_cons, Handles.lose, Handles.following, List.append_nil]
      split
      · exact inside _
      · rw [Handles.release]

/-- If an identity in a tree belongs to one definition only, releasing the definitions made in the tree, in any
order, comes to the same as the recursion. -/
theorem release_eq_dropFrom {t : Node} (unique : ∀ d ∈ t.nested, ∀ e ∈ t.nested, d.id = e.id → d = e)
    {ds : List Definition} (same : ds.Perm t.made) (h : Handles) : h.release ds = t.dropFrom h := by
  have coherent : Coherent (· ∈ t.nested) :=
    ⟨fun d e left right => unique d left e right, fun d member e inside => nested_closed member inside⟩
  rw [dropFrom_eq_release coherent t t.made_subset_nested h,
    Handles.release_perm coherent h t.made_subset_nested same.symm]

end Node

end TreeCalc
