import Mathlib.Data.List.Pairwise
import TreeCalc.Proofs.Ledger

namespace TreeCalc

namespace Definition

/-- The definitions that live while the given handles are held: those held and all that are made in their bodies, at
any depth, each of them once. -/
def reached (held : List Definition) : List Definition :=
  (held.flatMap fun d => d.toNode.nested).pwFilter fun d e => d.id ≠ e.id

/-- The places in which handles are while the given ones are held: these, and the nodes that make definitions in the
bodies of those that live. -/
def places (held : List Definition) : List Definition := held ++ bodies (reached held)

theorem nested_toNode (d : Definition) : d.toNode.nested = d :: d.body.nested := by
  rw [Node.nested_eq]
  simp [toNode, Node.definition?, Node.children]

theorem size_lt_of_mem_made {d : Definition} {t : Node} (member : d ∈ t.made) : d.toNode.size ≤ t.size := by
  have part : ∀ ds : List Definition, d ∈ ds → d.toNode.size ≤ sizeAll ds := by
    intro ds
    induction ds with
    | nil => simp
    | cons e ds ih =>
      intro inside
      rcases List.mem_cons.mp inside with rfl | later
      · simp only [sizeAll]
        omega
      · have rest := ih later
        simp only [sizeAll]
        omega
  have whole := Node.sizeAll_definitions_le t
  rw [Node.definitions_eq_made] at whole
  have single := part t.made member
  omega

theorem mem_reached {U : Definition → Prop} (coherent : Coherent U) {held : List Definition}
    (known : ∀ d ∈ held, U d) {d : Definition} : d ∈ reached held ↔ ∃ e ∈ held, d ∈ e.toNode.nested := by
  have all : ∀ e ∈ held.flatMap fun d => d.toNode.nested, U e := by
    intro e member
    obtain ⟨f, inside, nested⟩ := List.mem_flatMap.mp member
    refine Node.forall_nested coherent.closed f.toNode ?_ e nested
    intro g made
    have same : g = f := by simpa [toNode, Node.made] using made
    exact same ▸ known f inside
  rw [← List.mem_flatMap]
  constructor
  · intro member
    exact List.pwFilter_subset _ member
  · intro member
    have covered := not_congr (List.forall_mem_pwFilter (R := fun d e : Definition => d.id ≠ e.id)
      (fun {x y z} apart => by omega) d (held.flatMap fun d => d.toNode.nested))
    have found : ¬ ∀ e ∈ reached held, d.id ≠ e.id := covered.mpr fun apart => apart d member rfl
    simp only [not_forall, not_not] at found
    obtain ⟨e, inside, same⟩ := found
    have equal := coherent.unique d e (all d member) (all e (List.pwFilter_subset _ inside)) same
    exact equal ▸ inside

theorem reached_distinct (held : List Definition) : (reached held).Pairwise (·.id ≠ ·.id) :=
  List.pairwise_pwFilter _

end Definition

open Definition

namespace Ledger
variable {U : Definition → Prop} {h : Handles} {alive held : List Definition}

/-- What has a count is held or is made in a body that has one, so going up from body to body leads to a handle. -/
theorem exists_held (ledger : Ledger U h alive held []) (coherent : Coherent U) (known : ∀ d ∈ held, U d)
    {d : Definition} (member : d ∈ alive) : ∃ e ∈ held, d ∈ e.toNode.nested := by
  -- A definition is larger than those in its body, so the room that is left above it gets smaller on the way up.
  induction room : sizeAll alive - d.toNode.size using Nat.strongRecOn generalizing d with
  | ind room ih =>
    have positive := (ledger.live d.id).mpr ⟨d, member, rfl⟩
    have counted := ledger.counted d.id
    simp only [tally_nil] at counted
    by_cases direct : 0 < tally d.id held
    · obtain ⟨e, inside, same⟩ := tally_pos.mp direct
      have equal := coherent.unique e d (known e inside) (ledger.known d member) same
      exact ⟨e, inside, by rw [equal, nested_toNode]; exact List.mem_cons_self⟩
    · obtain ⟨e, inside, same⟩ := tally_pos.mp (by omega : 0 < tally d.id (bodies alive))
      obtain ⟨parent, above, made⟩ := List.mem_flatMap.mp inside
      have child := coherent.closed parent (ledger.known parent above) e made
      have equal := coherent.unique e d child (ledger.known d member) same
      subst equal
      have smaller := size_lt_of_mem_made made
      have grown : parent.toNode.size = 1 + parent.body.size := rfl
      have bound : parent.toNode.size ≤ sizeAll alive := by
        obtain ⟨front, back, split⟩ := List.append_of_mem above
        rw [split, sizeAll_append, sizeAll]
        omega
      obtain ⟨root, rooted, below⟩ := ih (sizeAll alive - parent.toNode.size) (by omega) above rfl
      exact ⟨root, rooted, Node.nested_closed below made⟩

theorem mem_alive (ledger : Ledger U h alive held []) (coherent : Coherent U) (known : ∀ d ∈ held, U d)
    {d e : Definition} (rooted : e ∈ held) (below : d ∈ e.toNode.nested) : d ∈ alive := by
  have here : e ∈ alive := by
    have direct := tally_pos.mpr ⟨e, rooted, rfl⟩
    have counted := ledger.counted e.id
    simp only [tally_nil] at counted
    exact ledger.mem_of_count coherent (known e rooted) (by omega)
  have closed : ∀ f, f ∈ alive → ∀ g ∈ f.body.made, g ∈ alive := by
    intro f living g made
    have inside : g ∈ bodies alive := List.mem_flatMap.mpr ⟨f, living, made⟩
    have listed := tally_pos.mpr ⟨g, inside, rfl⟩
    have counted := ledger.counted g.id
    simp only [tally_nil] at counted
    exact ledger.mem_of_count coherent (coherent.closed f (ledger.known f living) g made) (by omega)
  refine Node.forall_nested closed e.toNode ?_ d below
  intro f made
  have same : f = e := by simpa [toNode, Node.made] using made
  exact same ▸ here

theorem perm_reached (ledger : Ledger U h alive held []) (coherent : Coherent U) (known : ∀ d ∈ held, U d) :
    alive.Perm (reached held) := by
  have apart : ∀ {ds : List Definition}, ds.Pairwise (·.id ≠ ·.id) → ds.Nodup := fun distinct =>
    distinct.imp fun differ same => differ (congrArg Definition.id same)
  refine (List.perm_ext_iff_of_nodup (apart ledger.distinct) (apart (reached_distinct held))).mpr ?_
  intro d
  rw [mem_reached coherent known]
  constructor
  · exact ledger.exists_held coherent known
  · rintro ⟨e, rooted, below⟩
    exact ledger.mem_alive coherent known rooted below

end Ledger

/-- The counts agree with the places: a definition's count is the number of places that hold it, and a definition is
forgotten just when there is none. No two definitions in these places have one identity. -/
structure Handles.Exact (h : Handles) (held : List Definition) : Prop where
  count_eq : ∀ id, h.count id = tally id (places held)
  forgotten_iff : ∀ id, id ∉ h.counts ↔ ∀ d ∈ places held, d.id ≠ id
  unique : ∀ d ∈ places held, ∀ e ∈ places held, d.id = e.id → d = e

theorem Handles.Exact.count_pos {h : Handles} {held : List Definition} (exact : h.Exact held) {d : Definition}
    (member : d ∈ held) : 0 < h.count d.id := by
  rw [exact.count_eq]
  exact tally_pos.mpr ⟨d, List.mem_append_left _ member, rfl⟩

theorem Handles.Exact.listed {h : Handles} {held : List Definition} (exact : h.Exact held) {d : Definition}
    (member : d ∈ held) : d.id ∈ h.counts := by
  by_contra absent
  exact (exact.forgotten_iff d.id).mp absent d (List.mem_append_left _ member) rfl

namespace Balanced
variable {U V : Definition → Prop} {h : Handles} {held ds : List Definition}

theorem empty : Balanced U {} [] [] := by
  have nothing : ∀ id, ({} : Handles).count id = 0 := by
    intro id
    simp [Handles.count]
  refine ⟨[], by simp, .nil, ?_, ?_, ?_⟩
  · intro id
    simp [nothing]
  · intro id
    simp [nothing]
  · intro id
    simp [nothing]

theorem congr {other : List Definition} (books : Balanced U h held [])
    (same : ∀ id, tally id other = tally id held) :
    Balanced U h other [] := by
  obtain ⟨alive, ledger⟩ := books
  exact ⟨alive, ledger.known, ledger.distinct, fun id => by rw [same]; exact ledger.counted id, ledger.live,
    ledger.listed⟩

theorem mono (books : Balanced U h held []) (more : ∀ d, U d → V d) : Balanced V h held [] := by
  obtain ⟨alive, ledger⟩ := books
  exact ⟨alive, fun d member => more d (ledger.known d member), ledger.distinct, ledger.counted, ledger.live,
    ledger.listed⟩

theorem retain (books : Balanced U h held []) (coherent : Coherent U) (known : ∀ d ∈ ds, U d) :
    Balanced U (h.retain ds) (ds ++ held) [] := by
  obtain ⟨alive, ledger⟩ := books
  have owing : Balanced U h (ds ++ held) ds := by
    refine ⟨alive, ledger.known, ledger.distinct, ?_, ledger.live, ledger.listed⟩
    intro id
    have before := ledger.counted id
    simp only [tally_nil, tally_append] at before ⊢
    omega
  exact owing.pay coherent known

theorem exact (books : Balanced U h held []) (coherent : Coherent U) (known : ∀ d ∈ held, U d) : h.Exact held := by
  obtain ⟨alive, ledger⟩ := books
  have same := ledger.perm_reached coherent known
  have counts : ∀ id, h.count id = tally id (places held) := by
    intro id
    have before := ledger.counted id
    have inBodies : tally id (bodies alive) = tally id (bodies (reached held)) := tally_perm (same.flatMap_right _)
    simp only [places, tally_nil, tally_append] at before ⊢
    omega
  have all : ∀ d ∈ places held, U d := by
    intro d member
    rcases List.mem_append.mp member with direct | inBody
    · exact known d direct
    · obtain ⟨parent, above, made⟩ := List.mem_flatMap.mp inBody
      exact coherent.closed parent (ledger.known parent (same.mem_iff.mpr above)) d made
  refine ⟨counts, ?_, fun d left e right => coherent.unique d e (all d left) (all e right)⟩
  intro id
  rw [ledger.listed, counts, tally_pos]
  simp

end Balanced

end TreeCalc
