import Mathlib.Data.List.Basic
import TreeCalc.Proofs.NodeOutline

namespace TreeCalc

namespace Line

variable {widest : UInt64} {line : Line}

/-- Margins wrap around. -/
theorem toNat_pad (line : Line) : line.pad.toNat = 2 * line.depth % UInt64.size := by
  rw [pad, UInt64.toNat_mul, UInt64.toNat_ofNat', Nat.mod_mul_mod, Nat.mul_comm]
  rfl

theorem toNat_pad_le (line : Line) : line.pad.toNat ≤ 2 * line.depth := by
  rw [toNat_pad]
  exact Nat.mod_le _ _

/-- A margin that can be asked for has not wrapped around. -/
theorem toNat_pad_of_le (fits : 2 * line.depth ≤ widest.toNat) : line.pad.toNat = 2 * line.depth := by
  rw [toNat_pad, Nat.mod_eq_of_lt (Nat.lt_of_le_of_lt fits widest.toNat_lt_size)]

theorem write_eq_render (fits : 2 * line.depth ≤ widest.toNat) : line.write widest = some line.render := by
  have same := toNat_pad_of_le fits
  have narrow : line.pad ≤ widest := UInt64.le_iff_toNat_le.mpr (same ▸ fits)
  rw [write, if_pos narrow, same]
  rfl

theorem length_margin (blanks : Nat) (text : String) :
    (String.ofList (List.replicate blanks ' ') ++ text ++ "\n").length = blanks + text.length + 1 := by
  rw [String.length_append, String.length_append, String.length_ofList, List.length_replicate]
  rfl

/-- A line that is written has at most the blanks of its level, and it has all of them only if these could be asked
for. -/
theorem length_write {text : String} (written : line.write widest = some text) :
    text.length ≤ line.render.length ∧ (text.length = line.render.length → 2 * line.depth ≤ widest.toNat) := by
  rw [write] at written
  split at written
  · rename_i narrow
    cases written
    have bound := line.toNat_pad_le
    have wide := UInt64.le_iff_toNat_le.mp narrow
    rw [render, length_margin, length_margin]
    omega
  · cases written

theorem foldlM_write (lines : List Line) (out : String) :
    lines.foldlM (fun out line => (line.write widest).map (out ++ ·)) out =
      (lines.mapM (write widest)).map fun texts => out ++ String.join texts := by
  induction lines generalizing out with
  | nil => simp
  | cons line lines ih =>
    rw [List.foldlM_cons, List.mapM_cons]
    cases line.write widest with
    | none => rfl
    | some text =>
      rw [Option.map_some, Option.bind_eq_bind, Option.bind_some, ih, Option.bind_eq_bind, Option.bind_some]
      cases lines.mapM (write widest) with
      | none => rfl
      | some texts => simp [String.join_cons, String.append_assoc]

theorem mapM_write_of_fits {lines : List Line} (fits : ∀ line ∈ lines, 2 * line.depth ≤ widest.toNat) :
    lines.mapM (write widest) = some (lines.map render) := by
  induction lines with
  | nil => rfl
  | cons line lines ih =>
    obtain ⟨first, others⟩ := List.forall_mem_cons.mp fits
    rw [List.mapM_cons, write_eq_render first, ih others]
    rfl

theorem length_mapM_write {lines : List Line} {texts : List String}
    (written : lines.mapM (write widest) = some texts) :
    (String.join texts).length ≤ (String.join (lines.map render)).length ∧
      ((String.join texts).length = (String.join (lines.map render)).length →
        ∀ line ∈ lines, 2 * line.depth ≤ widest.toNat) := by
  induction lines generalizing texts with
  | nil =>
    cases written
    exact ⟨Nat.le_refl _, by simp⟩
  | cons line lines ih =>
    rw [List.mapM_cons] at written
    obtain ⟨text, first, written⟩ := Option.bind_eq_some_iff.mp written
    obtain ⟨others, rest, written⟩ := Option.bind_eq_some_iff.mp written
    cases written
    obtain ⟨short, exactly⟩ := length_write first
    obtain ⟨shorter, wholly⟩ := ih rest
    rw [List.map_cons, String.join_cons, String.join_cons, String.length_append, String.length_append,
      List.forall_mem_cons]
    exact ⟨by omega, fun same => ⟨exactly (by omega), wholly (by omega)⟩⟩

theorem renderAll_eq_join (lines : Array Line) : renderAll lines = String.join (lines.toList.map render) := by
  rw [renderAll_eq, Text.ofLines, List.map_map]
  rfl

end Line

namespace Node

/-- No line of the tree, its root at the given level, has a margin that is wider. -/
def Fits (widest : UInt64) (t : Node) (depth : Nat) : Prop :=
  ∀ line ∈ (t.lines depth).toList, 2 * line.depth ≤ widest.toNat

instance (widest : UInt64) (t : Node) (depth : Nat) : Decidable (t.Fits widest depth) :=
  inferInstanceAs (Decidable (∀ line ∈ (t.lines depth).toList, 2 * line.depth ≤ widest.toNat))

variable {widest : UInt64} {t : Node}

theorem write_eq_join (t : Node) (depth : UInt64) :
    t.write widest depth = ((t.lines depth.toNat).toList.mapM (Line.write widest)).map String.join := by
  rw [write, ← Array.foldlM_toList, Line.foldlM_write]
  simp only [String.empty_append]

/-- What is written is the trace exactly if no margin is too wide. Otherwise a margin is refused, or it wraps
around and the text is shorter. -/
theorem write_eq_trace_iff {depth : UInt64} :
    t.write widest depth = some (t.trace depth.toNat) ↔ t.Fits widest depth.toNat := by
  rw [write_eq_join, trace, Line.renderAll_eq_join]
  constructor
  · intro written
    obtain ⟨texts, each, same⟩ := Option.map_eq_some_iff.mp written
    exact (Line.length_mapM_write each).2 (congrArg String.length same)
  · intro fits
    rw [Line.mapM_write_of_fits fits]
    rfl

theorem lines_eq (t : Node) (depth : Nat) : (t.lines depth).toList = (t.outline false .done).lines depth :=
  t.traced.last false depth #[]

/-- The root's own line has a margin too. -/
theorem Fits.root {depth : Nat} (fits : t.Fits widest depth) : 2 * depth ≤ widest.toNat := by
  refine fits ⟨depth, t.label.text⟩ ?_
  rw [lines_eq, outline_false, Outline.lines_item]
  exact List.mem_cons_self

end Node

end TreeCalc
