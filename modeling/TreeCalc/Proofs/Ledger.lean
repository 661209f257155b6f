import TreeCalc.Proofs.FreshIdentities

namespace TreeCalc

namespace Definition

/-- How many of the given handles are handles to the definition with an identity. -/
def tally (id : Nat) (ds : List Definition) : Nat := ds.countP (·.id == id)

/-- The definitions made in the bodies of the given ones. -/
def bodies (ds : List Definition) : List Definition := ds.flatMap (·.body.made)

@[simp] theorem tally_nil (id : Nat) : tally id [] = 0 := rfl

@[simp] theorem tally_cons (id : Nat) (d : Definition) (ds : List Definition) :
    tally id (d :: ds) = (if d.id = id then 1 else 0) + tally id ds := by
  simp only [tally, List.countP_cons, beq_iff_eq]
  omega

@[simp] theorem tally_append (id : Nat) (ds es : List Definition) :
    tally id (ds ++ es) = tally id ds + tally id es :=
  List.countP_append

theorem tally_pos {id : Nat} {ds : List Definition} : 0 < tally id ds ↔ ∃ d ∈ ds, d.id = id := by
  simp [tally, List.countP_pos_iff]

theorem tally_perm {id : Nat} {ds es : List Definition} (same : ds.Perm es) : tally id ds = tally id es :=
  same.countP_eq _

@[simp] theorem bodies_nil : bodies [] = [] := rfl

@[simp] theorem bodies_cons (d : Definition) (ds : List Definition) :
    bodies (d :: ds) = d.body.made ++ bodies ds := rfl

@[simp] theorem bodies_append (ds es : List Definition) : bodies (ds ++ es) = bodies ds ++ bodies es :=
  List.flatMap_append

end Definition

open Definition

/-- Definitions among which an identity belongs to one only, and with each of which come those in its body. -/
structure Coherent (U : Definition → Prop) : Prop where
  unique : ∀ d e, U d → U e → d.id = e.id → d = e
  closed : ∀ d, U d → ∀ e ∈ d.body.made, U e

/-- The counts are right: `alive` are the definitions with a count, and the count of each is the number of the
handles in `held` and in the bodies of what is alive, less those in `owed` that are still to be counted. -/
structure Ledger (U : Definition → Prop) (h : Handles) (alive held owed : List Definition) : Prop where
  known : ∀ d ∈ alive, U d
  distinct : alive.Pairwise (·.id ≠ ·.id)
  counted : ∀ id, h.count id + tally id owed = tally id held + tally id (bodies alive)
  live : ∀ id, 0 < h.count id ↔ ∃ d ∈ alive, d.id = id
  listed : ∀ id, id ∈ h.counts ↔ 0 < h.count id

namespace Handles

theorem mem_counts_setCount (h : Handles) (id other : Nat) (n : Nat) :
    other ∈ (h.setCount id n).counts ↔ id = other ∨ other ∈ h.counts := by
  simp [setCount, Std.ExtTreeMap.mem_insert]

theorem listed_setCount {h : Handles} (listed : ∀ id, id ∈ h.counts ↔ 0 < h.count id) {n : Nat} (positive : 0 < n)
    (own id : Nat) : id ∈ (h.setCount own n).counts ↔ 0 < (h.setCount own n).count id := by
  rw [mem_counts_setCount, count_setCount]
  by_cases same : own = id
  · simp [same, positive]
  · simpa [same] using listed id

theorem mem_counts_forget (h : Handles) (id other : Nat) :
    other ∈ (h.forget id).counts ↔ id ≠ other ∧ other ∈ h.counts := by
  simp [forget, Std.ExtTreeMap.mem_erase]

end Handles

namespace Ledger
variable {U : Definition → Prop} {h : Handles} {alive held owed : List Definition} {d : Definition}

theorem mem_of_count (ledger : Ledger U h alive held owed) (coherent : Coherent U) (known : U d)
    (positive : 0 < h.count d.id) : d ∈ alive := by
  obtain ⟨e, member, same⟩ := (ledger.live d.id).mp positive
  have equal := coherent.unique e d (ledger.known e member) known same
  exact equal ▸ member

/-- The first handle to a definition: it comes to life, and the handles in its body are to be counted. -/
theorem birth (ledger : Ledger U h alive held (d :: owed)) (known : U d) (dead : h.count d.id = 0) :
    Ledger U (h.setCount d.id 1) (d :: alive) held (d.body.made ++ owed) := by
  have absent : ∀ e ∈ alive, d.id ≠ e.id := by
    intro e member same
    have positive := (ledger.live e.id).mpr ⟨e, member, rfl⟩
    rw [← same] at positive
    omega
  refine ⟨?_, List.pairwise_cons.mpr ⟨absent, ledger.distinct⟩, ?_, ?_, ?_⟩
  · intro e member
    rcases List.mem_cons.mp member with rfl | inside
    · exact known
    · exact ledger.known e inside
  · intro id
    have before := ledger.counted id
    rw [Handles.count_setCount]
    simp only [tally_cons, tally_append, bodies_cons] at before ⊢
    by_cases same : d.id = id
    · subst same
      simp only [if_true] at before ⊢
      omega
    · simp only [if_neg same] at before ⊢
      omega
  · intro id
    have before := ledger.live id
    rw [Handles.count_setCount]
    by_cases same : d.id = id
    · simp [same]
    · simpa [same] using before
  · exact Handles.listed_setCount ledger.listed Nat.one_pos d.id

theorem recount {n : Nat} {held' owed' : List Definition} (ledger : Ledger U h alive held owed)
    (positive : 0 < h.count d.id) (still : 0 < n)
    (balance : ∀ id,
      (if d.id = id then n else h.count id) + tally id owed' = tally id held' + tally id (bodies alive)) :
    Ledger U (h.setCount d.id n) alive held' owed' := by
  refine ⟨ledger.known, ledger.distinct, ?_, ?_, ?_⟩
  · intro id
    rw [Handles.count_setCount]
    exact balance id
  · intro id
    have before := ledger.live id
    rw [Handles.count_setCount]
    by_cases same : d.id = id
    · subst same
      simpa [still, positive] using before
    · simpa [same] using before
  · exact Handles.listed_setCount ledger.listed still d.id

/-- The last handle to a definition goes: with it goes the definition, and the handles in its body are the next. -/
theorem death (ledger : Ledger U h alive (d :: held) []) (coherent : Coherent U) (known : U d)
    (last : h.count d.id ≤ 1) : ∃ rest, Ledger U (h.forget d.id) rest (d.body.made ++ held) [] := by
  have here := ledger.counted d.id
  simp only [tally_nil, tally_cons, if_true] at here
  have member := ledger.mem_of_count coherent known (by omega : 0 < h.count d.id)
  obtain ⟨front, back, rfl⟩ := List.append_of_mem member
  have apart : ∀ e ∈ front ++ back, e.id ≠ d.id := by
    obtain ⟨_, right, across⟩ := List.pairwise_append.mp ledger.distinct
    intro e inside
    rcases List.mem_append.mp inside with inFront | inBack
    · exact across e inFront d List.mem_cons_self
    · exact ((List.pairwise_cons.mp right).1 e inBack).symm
  refine ⟨front ++ back, ?_, ?_, ?_, ?_, ?_⟩
  · intro e inside
    rcases List.mem_append.mp inside with inFront | inBack
    · exact ledger.known e (List.mem_append_left _ inFront)
    · exact ledger.known e (List.mem_append_right _ (List.mem_cons_of_mem _ inBack))
  · exact ledger.distinct.sublist (List.Sublist.append_left (List.sublist_cons_self d back) front)
  · intro id
    have before := ledger.counted id
    rw [Handles.count_forget]
    simp only [tally_nil, tally_cons, tally_append, bodies_append, bodies_cons] at here before ⊢
    by_cases same : d.id = id
    · subst same
      simp only [if_true] at before ⊢
      omega
    · simp only [if_neg same] at before ⊢
      omega
  · intro id
    have before := ledger.live id
    rw [Handles.count_forget]
    by_cases same : d.id = id
    · subst same
      simpa using apart
    · simp only [if_neg same, before, List.mem_append, List.mem_cons]
      constructor
      · rintro ⟨e, inFront | rfl | inBack, equal⟩
        · exact ⟨e, Or.inl inFront, equal⟩
        · exact absurd equal same
        · exact ⟨e, Or.inr inBack, equal⟩
      · rintro ⟨e, inFront | inBack, equal⟩
        · exact ⟨e, Or.inl inFront, equal⟩
        · exact ⟨e, Or.inr (Or.inr inBack), equal⟩
  · intro id
    have before := ledger.listed id
    rw [Handles.mem_counts_forget, Handles.count_forget]
    by_cases same : d.id = id
    · simp [same]
    · simpa [same] using before

end Ledger

/-- The counts are right for what is held, less what is still owed. -/
def Balanced (U : Definition → Prop) (h : Handles) (held owed : List Definition) : Prop :=
  ∃ alive, Ledger U h alive held owed

namespace Balanced
variable {U : Definition → Prop} {h : Handles} {held ds : List Definition}

theorem pay (books : Balanced U h held ds) (coherent : Coherent U) (known : ∀ d ∈ ds, U d) :
    Balanced U (h.retain ds) held [] := by
  fun_induction Handles.retain h ds with
  | case1 h => exact books
  | case2 h d ds count counted dead ih =>
    obtain ⟨alive, ledger⟩ := books
    have here := known d List.mem_cons_self
    have born := ledger.birth here dead
    rw [← Node.definitions_eq_made] at born
    have first : counted = h.setCount d.id 1 := by simp only [counted, dead]
    refine ih ⟨_, first ▸ born⟩ ?_
    intro e member
    rcases List.mem_append.mp member with inside | later
    · exact coherent.closed d here e (Node.definitions_eq_made _ ▸ inside)
    · exact known e (List.mem_cons_of_mem d later)
  | case3 h d ds count counted living ih =>
    obtain ⟨alive, ledger⟩ := books
    have positive : 0 < h.count d.id := Nat.pos_of_ne_zero living
    refine ih ⟨alive, ledger.recount positive (Nat.succ_pos _) ?_⟩ fun e member =>
      known e (List.mem_cons_of_mem d member)
    intro id
    have before := ledger.counted id
    simp only [tally_cons] at before
    by_cases same : d.id = id
    · subst same
      simp only [if_true, count] at before ⊢
      omega
    · simp only [if_neg same] at before ⊢
      omega

theorem release (books : Balanced U h (ds ++ held) []) (coherent : Coherent U) (known : ∀ d ∈ ds, U d) :
    Balanced U (h.release ds) held [] := by
  fun_induction Handles.release h ds with
  | case1 h => exact books
  | case2 h d ds count last ih =>
    obtain ⟨alive, ledger⟩ := books
    have here := known d List.mem_cons_self
    obtain ⟨rest, gone⟩ := Ledger.death ledger coherent here last
    have order : d.body.made ++ (ds ++ held) = d.body.definitions ++ ds ++ held := by
      rw [Node.definitions_eq_made, List.append_assoc]
    refine ih ⟨rest, order ▸ gone⟩ ?_
    intro e member
    rcases List.mem_append.mp member with inside | later
    · exact coherent.closed d here e (Node.definitions_eq_made _ ▸ inside)
    · exact known e (List.mem_cons_of_mem d later)
  | case3 h d ds count more ih =>
    obtain ⟨alive, ledger⟩ := books
    refine ih ⟨alive, ledger.recount (by omega) (by omega : 0 < count - 1) ?_⟩
      fun e member => known e (List.mem_cons_of_mem d member)
    intro id
    have before := ledger.counted id
    simp only [List.cons_append, tally_nil, tally_cons] at before ⊢
    by_cases same : d.id = id
    · subst same
      simp only [if_true] at before ⊢
      omega
    · simp only [if_neg same] at before ⊢
      omega

end Balanced

end TreeCalc
