import Mathlib.Data.List.SplitBy
import TreeCalc.Program
import TreeCalc.Proofs.TraceWidths

namespace TreeCalc

namespace Text

/-- The lines of a text, each of them without the newline that ends it. What follows the last newline is no line. -/
def lines (text : String) : List String := ((text.toList.splitOn '\n').map String.ofList).dropLast

def blanks (count : Nat) : String := String.ofList (List.replicate count ' ')

/-- The text with so many blanks in front of every line. -/
def indented (count : Nat) (text : String) : String := ofLines ((lines text).map (blanks count ++ ·))

/-- How many blanks a line starts with. -/
def margin (line : String) : Nat := (line.toList.takeWhile (· == ' ')).length

/-- The level of a line, which has two blanks for each. -/
def level (line : String) : Nat := margin line / 2

def levels (text : String) : List Nat := (lines text).map level

/-- The lines of a text in blocks, each of which starts with a line at level zero. -/
def blocks (text : String) : List (List String) := (lines text).splitBy fun _ line => level line != 0

/-- An outline of one entry at the given level: every line is ended and starts with an even number of blanks, all
lines after the first one are deeper than it, and none is more than one level deeper than the line before it. -/
structure Outlined (depth : Nat) (text : String) : Prop where
  ended : ofLines (lines text) = text
  even : ∀ line ∈ lines text, margin line % 2 = 0
  first : (levels text).head? = some depth
  deeper : ∀ level ∈ (levels text).tail, depth < level
  steps : (levels text).IsChain fun before after => after ≤ before + 1

theorem splitOn_ofLines (line : String) (others : List String) (unbroken : '\n' ∉ line.toList) :
    (ofLines (line :: others)).toList.splitOn '\n' = line.toList :: (ofLines others).toList.splitOn '\n' := by
  have plain : ∀ c ∈ line.toList, (c == '\n') = false := fun c member =>
    beq_false_of_ne fun same => unbroken (same ▸ member)
  rw [toList_ofLines_cons, List.splitOn, List.splitOnP_append_cons _ _ (by decide),
    List.splitOnP_eq_singleton plain]
  rfl

/-- Lines that were put together come apart again. -/
theorem lines_ofLines {all : List String} (unbroken : ∀ line ∈ all, '\n' ∉ line.toList) :
    lines (ofLines all) = all := by
  induction all with
  | nil => rfl
  | cons line others ih =>
    have rest := ih fun other member => unbroken other (List.mem_cons_of_mem line member)
    have some : ((ofLines others).toList.splitOn '\n').map String.ofList ≠ [] := by
      simp [List.splitOn, List.splitOnP_ne_nil]
    rw [lines, splitOn_ofLines line others (unbroken line List.mem_cons_self), List.map_cons, String.ofList_toList,
      List.dropLast_cons_of_ne_nil some]
    exact congrArg (line :: ·) rest

/-- The first line of an outline is at its level, and the others are deeper. -/
theorem Outlined.exists_cons {depth : Nat} {text : String} (outlined : Outlined depth text) :
    ∃ line others, lines text = line :: others ∧ level line = depth ∧ ∀ other ∈ others, depth < level other := by
  have first := outlined.first
  have deeper := outlined.deeper
  unfold levels at first deeper
  cases listed : lines text with
  | nil =>
    rw [listed] at first
    cases first
  | cons line others =>
    rw [listed] at first deeper
    exact ⟨line, others, rfl, Option.some.inj first, fun other member => deeper _ (List.mem_map_of_mem member)⟩

/-- Blocks come apart again where a line is at level zero. -/
theorem splitBy_flatten_blocks {blocks : List (List String)} (each : ∀ block ∈ blocks, ∃ line others,
      block = line :: others ∧ level line = 0 ∧ ∀ other ∈ others, 0 < level other) :
    blocks.flatten.splitBy (fun _ line => level line != 0) = blocks := by
  refine List.splitBy_flatten ?_ ?_ (List.Pairwise.isChain (List.pairwise_of_forall_mem_list ?_))
  · intro empty
    obtain ⟨line, others, block, -, -⟩ := each [] empty
    cases block
  · intro block member
    obtain ⟨line, others, rfl, -, deeper⟩ := each block member
    clear member
    induction others generalizing line with
    | nil => exact .singleton line
    | cons other others ih =>
      refine .cons_cons ?_ (ih other fun further member => deeper further (List.mem_cons_of_mem other member))
      have positive := deeper other List.mem_cons_self
      exact bne_iff_ne.mpr positive.ne'
  · intro before earlier after later
    obtain ⟨line, others, rfl, -, -⟩ := each before earlier
    obtain ⟨next, following, rfl, zero, -⟩ := each after later
    exact ⟨List.cons_ne_nil _ _, List.cons_ne_nil _ _, by simp [zero]⟩

end Text

namespace Item

theorem margin_written (item : Item) : Text.margin item.written = 2 * item.depth := by
  rw [Text.margin, takeWhile_blank, List.length_replicate]

theorem level_written (item : Item) : Text.level item.written = item.depth := by
  rw [Text.level, margin_written]
  omega

/-- The item so many levels deeper. -/
def shift (k : Nat) (item : Item) : Item := ⟨item.depth + k, item.label⟩

theorem written_shift (k : Nat) (item : Item) : (item.shift k).written = Text.blanks (2 * k) ++ item.written := by
  have room : 2 * (item.depth + k) = 2 * k + 2 * item.depth := by omega
  apply String.toList_inj.mp
  rw [String.toList_append, toList_written, toList_written, shift, Text.blanks, String.toList_ofList, room,
    List.replicate_add, List.append_assoc]

end Item

namespace Outline

theorem items_shift (outline : Outline) (depth k : Nat) :
    outline.items (depth + k) = (outline.items depth).map (Item.shift k) := by
  induction outline generalizing depth with
  | done => rfl
  | item label below next inside after =>
    have room : depth + k + 1 = depth + 1 + k := by omega
    simp only [items, List.map_cons, List.map_append, room, inside, after]
    rfl

theorem head?_items (outline : Outline) (depth : Nat) :
    ∀ item ∈ (outline.items depth).head?, item.depth = depth := by
  cases outline with
  | done => simp [items]
  | item label below next =>
    rintro item first
    cases Option.some.inj first
    rfl

/-- No item is more than one level deeper than the item before it: what stands below an item starts one level
deeper, and what comes next is on a level that all items in between have at least. -/
theorem steps_items (outline : Outline) (depth : Nat) :
    (outline.items depth).IsChain fun before after => after.depth ≤ before.depth + 1 := by
  induction outline generalizing depth with
  | done => exact .nil
  | item label below next inside after =>
    rw [items, List.isChain_cons]
    constructor
    · intro second member
      rw [List.head?_append] at member
      rcases Option.or_eq_some_iff.mp member with under | ⟨_, beside⟩
      · exact (below.head?_items _ second under).le
      · rw [next.head?_items _ second beside]
        exact Nat.le_succ depth
    · rw [List.isChain_append]
      refine ⟨inside _, after _, fun last final second member => ?_⟩
      have bound := le_depth last (List.mem_of_getLast? final)
      rw [next.head?_items _ second member]
      omega

theorem lines_text {outline : Outline} (plain : outline.Plain) (depth : Nat) :
    Text.lines (outline.text depth) = (outline.items depth).map Item.written :=
  Text.lines_ofLines plain.newline_notMem

theorem levels_text {outline : Outline} (plain : outline.Plain) (depth : Nat) :
    Text.levels (outline.text depth) = (outline.items depth).map Item.depth := by
  rw [Text.levels, lines_text plain, List.map_map]
  exact List.map_congr_left fun item _ => item.level_written

/-- The text of an outline at a deeper level is its text with more blanks in front of the lines. -/
theorem text_shift {outline : Outline} (plain : outline.Plain) (depth k : Nat) :
    outline.text (depth + k) = Text.indented (2 * k) (outline.text depth) := by
  rw [Text.indented, lines_text plain, text, items_shift, List.map_map, List.map_map]
  congr 1
  exact List.map_congr_left fun item _ => item.written_shift k

theorem outlined_text {label : Label} {below : Outline} (plain : (item label below .done).Plain) (depth : Nat) :
    Text.Outlined depth ((item label below .done).text depth) := by
  have listed := lines_text plain depth
  have depths := levels_text plain depth
  have items : (item label below .done).items depth = ⟨depth, label⟩ :: below.items (depth + 1) := by
    rw [Outline.items, Outline.items, List.append_nil]
  refine ⟨?_, ?_, ?_, ?_, ?_⟩
  · rw [listed]
    rfl
  · intro line member
    rw [listed] at member
    obtain ⟨item, _, rfl⟩ := List.mem_map.mp member
    rw [item.margin_written]
    omega
  · rw [depths, items]
    rfl
  · intro level member
    rw [depths, items, List.map_cons, List.tail_cons] at member
    obtain ⟨item, inside, rfl⟩ := List.mem_map.mp member
    exact le_depth item inside
  · rw [depths, List.isChain_map]
    exact steps_items _ depth

end Outline

namespace Node

variable {t : Node}

theorem Unbroken.plain (unbroken : t.Unbroken) : (Outline.item t.label t.underneath .done).Plain := by
  rw [← outline_false]
  exact unbroken.outline false trivial

theorem trace_eq_text (t : Node) (depth : Nat) :
    t.trace depth = (Outline.item t.label t.underneath .done).text depth := by
  rw [trace_eq, outline_false]

theorem trace_outlined (unbroken : t.Unbroken) (depth : Nat) : Text.Outlined depth (t.trace depth) := by
  rw [trace_eq_text]
  exact Outline.outlined_text unbroken.plain depth

/-- The trace at a deeper level has more blanks in front of its lines. -/
theorem trace_add (unbroken : t.Unbroken) (depth k : Nat) :
    t.trace (depth + k) = Text.indented (2 * k) (t.trace depth) := by
  rw [trace_eq_text, trace_eq_text, Outline.text_shift unbroken.plain]

/-- Lines with margins that can be asked for have such margins higher up too. -/
theorem Fits.of_add {widest : UInt64} {depth k : Nat} (fits : t.Fits widest (depth + k)) : t.Fits widest depth := by
  intro line member
  rw [lines_eq, Outline.lines] at member
  obtain ⟨item, inside, rfl⟩ := List.mem_map.mp member
  have deeper : (item.shift k).line ∈ (t.lines (depth + k)).toList := by
    rw [lines_eq, Outline.lines, Outline.items_shift]
    exact List.mem_map_of_mem (List.mem_map_of_mem inside)
  have bound : 2 * (item.depth + k) ≤ widest.toNat := fits _ deeper
  change 2 * item.depth ≤ widest.toNat
  omega

/-- What is written at a deeper level has more blanks in front of its lines, if these can be asked for. -/
theorem write_add (unbroken : t.Unbroken) {widest depth k : UInt64} (fits : t.Fits widest (depth.toNat + k.toNat)) :
    t.write widest (depth + k) = some (Text.indented (2 * k.toNat) (t.trace depth.toNat)) := by
  have room := fits.root
  have bound := widest.toNat_lt_size
  have sum : (depth + k).toNat = depth.toNat + k.toNat := by
    rw [UInt64.toNat_add]
    exact Nat.mod_eq_of_lt (by unfold UInt64.size at bound; omega)
  rw [← trace_add unbroken, ← sum]
  exact write_eq_trace_iff.mpr (sum ▸ fits)

/-- Margins are counted in 64 bits: `2 ^ 63` levels deeper the line has no more blanks than before. -/
theorem margins_wrap :
    (var "x").Unbroken ∧ (var "x").write Line.widest 0 = some "variable: x\n" ∧
      (var "x").write Line.widest (0 + 9223372036854775808) = some "variable: x\n" ∧
      (var "x").write Line.widest (0 + 9223372036854775808) ≠
        some (Text.indented (2 * (9223372036854775808 : UInt64).toNat) "variable: x\n") := by
  have unbroken : (var "x").Unbroken := by decide
  have plain : (var "x").trace 0 = "variable: x\n" := by decide +kernel
  refine ⟨unbroken, by decide +kernel, by decide +kernel, fun same => ?_⟩
  rw [← plain, ← trace_add unbroken] at same
  have wide := (write_eq_trace_iff.mp same).root
  exact absurd wide (by decide)

theorem newline_notMem_lines_trace (unbroken : t.Unbroken) (depth : Nat) :
    ∀ line ∈ Text.lines (t.trace depth), '\n' ∉ line.toList := by
  rw [trace_eq_text, Outline.lines_text unbroken.plain]
  exact unbroken.plain.newline_notMem

end Node

namespace Program

theorem trace_eq_join (program : Program) :
    program.trace = String.join (program.units.toList.map (Node.trace · 0)) := by
  have joined : ∀ (units : List Node) (out : String),
      units.foldl (fun out t => out ++ t.trace 0) out = out ++ String.join (units.map (Node.trace · 0)) := by
    intro units
    induction units with
    | nil => simp
    | cons t units ih =>
      intro out
      rw [List.foldl_cons, ih, List.map_cons, String.join_cons, String.append_assoc]
  rw [trace, ← Array.foldl_toList, joined, String.empty_append]

variable {program : Program}

/-- The lines of a program's trace are those of its units, one unit after the other. -/
theorem lines_trace (unbroken : ∀ t ∈ program.units.toList, t.Unbroken) :
    Text.lines program.trace = (program.units.toList.map fun t => Text.lines (t.trace 0)).flatten := by
  have joined : ∀ units : List Node, (∀ t ∈ units, t.Unbroken) →
      String.join (units.map (Node.trace · 0)) =
        Text.ofLines (units.map fun t => Text.lines (t.trace 0)).flatten := by
    intro units each
    induction units with
    | nil => rfl
    | cons t units ih =>
      rw [List.map_cons, String.join_cons, List.map_cons, List.flatten_cons, Text.ofLines_append,
        (Node.trace_outlined (each t List.mem_cons_self) 0).ended,
        ih fun u member => each u (List.mem_cons_of_mem t member)]
  rw [trace_eq_join, joined _ unbroken]
  refine Text.lines_ofLines fun line member => ?_
  obtain ⟨_, block, inside⟩ := List.mem_flatten.mp member
  obtain ⟨t, unit, rfl⟩ := List.mem_map.mp block
  exact Node.newline_notMem_lines_trace (unbroken t unit) 0 line inside

/-- The lines of a program's trace fall into blocks as the program falls into units. -/
theorem blocks_trace (unbroken : ∀ t ∈ program.units.toList, t.Unbroken) :
    Text.blocks program.trace = program.units.toList.map fun t => Text.lines (t.trace 0) := by
  rw [Text.blocks, lines_trace unbroken]
  refine Text.splitBy_flatten_blocks fun block member => ?_
  obtain ⟨t, unit, rfl⟩ := List.mem_map.mp member
  exact (Node.trace_outlined (unbroken t unit) 0).exists_cons

/-- A trace is an outline. What is written of a tree is its trace exactly if no margin is too wide. Then its root
is at the given level and all else below it, level by level, and at another level it is the same text with other
margins. The trace of a program is those of its units one after the other, and they are found again where a line
is at level zero. Names must not contain newlines for that. -/
theorem trace_is_outline :
    (∀ (widest : UInt64) (t : Node) (depth : UInt64),
      t.write widest depth = some (t.trace depth.toNat) ↔ t.Fits widest depth.toNat) ∧
    (∀ (widest : UInt64) (t : Node), t.Unbroken → ∀ depth k : UInt64, t.Fits widest (depth.toNat + k.toNat) →
      ∃ text, t.write widest depth = some text ∧ Text.Outlined depth.toNat text ∧
        t.write widest (depth + k) = some (Text.indented (2 * k.toNat) text)) ∧
    ∀ program : Program, program.trace = String.join (program.units.toList.map (Node.trace · 0)) ∧
      ((∀ t ∈ program.units.toList, t.Unbroken) →
        (Text.blocks program.trace).map Text.ofLines = program.units.toList.map (Node.trace · 0)) := by
  refine ⟨fun widest t depth => Node.write_eq_trace_iff, fun widest t unbroken depth k fits => ?_,
    fun program => ⟨program.trace_eq_join, fun unbroken => ?_⟩⟩
  · exact ⟨t.trace depth.toNat, Node.write_eq_trace_iff.mpr fits.of_add, Node.trace_outlined unbroken _,
      Node.write_add unbroken fits⟩
  · rw [blocks_trace unbroken, List.map_map]
    exact List.map_congr_left fun t unit => (Node.trace_outlined (unbroken t unit) 0).ended

/-- A definition whose body calls with an argument, and a condition in which a branch is missing before one that
is not. -/
def defineAndChoose : Program :=
  ⟨#[.define 0 "f" ⟨"a", ["b"]⟩ (.call "f" [.neg (.var "b")]),
    .cond (.var "c") none (some (.assign "x" (.num 1.0)))]⟩

theorem trace_is_outline_defineAndChoose :
    (∀ t ∈ defineAndChoose.units.toList, t.Unbroken ∧ t.Fits Line.widest 32000 ∧
      ∃ text, t.write Line.widest 0 = some text ∧ Text.Outlined 0 text ∧
        t.write Line.widest (0 + 32000) = some (Text.indented 64000 text)) ∧
    (Text.blocks defineAndChoose.trace).map Text.ofLines =
      ["function: f\n  paramlist: a, b\n  call: f\n    exprlist\n      - negate\n        variable: b\n",
        "condition\n  variable: c\n  (empty)\n  assignment: x\n    1\n"] := by
  have unbroken : ∀ t ∈ defineAndChoose.units.toList, t.Unbroken := by decide
  have fits : ∀ t ∈ defineAndChoose.units.toList, t.Fits Line.widest 32000 := by decide +kernel
  obtain ⟨-, trees, programs⟩ := trace_is_outline
  refine ⟨fun t unit => ⟨unbroken t unit, fits t unit, trees _ t (unbroken t unit) 0 32000 (fits t unit)⟩, ?_⟩
  rw [(programs defineAndChoose).2 unbroken]
  decide +kernel

end Program

end TreeCalc
