import Mathlib.Data.List.Nodup
import TreeCalc.Node.Trace
import TreeCalc.Proofs.Numerals
import TreeCalc.Proofs.TextLines

namespace TreeCalc

/-- The words that stand before a name in a trace. -/
inductive Keyword where
  | var
  | assign
  | params
  | define
  | call
  deriving DecidableEq

def Keyword.text : Keyword → String
  | var => "variable"
  | assign => "assignment"
  | params => "paramlist"
  | define => "function"
  | call => "call"

/-- The lines of a trace that are the same whatever the names and numbers of the tree. -/
inductive Heading where
  | negate
  | arith (op : ArithOp)
  | compare (op : CompareOp)
  | unary (func : UnaryBuiltin)
  | binary (func : BinaryBuiltin)
  | exprlist
  | condition
  | statement
  /-- In the place of a branch that is missing. -/
  | empty
  deriving DecidableEq

namespace Heading

def text : Heading → String
  | negate => "- negate"
  | arith op => op.symbol ++ " " ++ op.word
  | compare op => op.symbol ++ " compare"
  | unary func => func.name ++ " function"
  | binary func => func.name ++ " function"
  | exprlist => "exprlist"
  | condition => "condition"
  | statement => "statement"
  | empty => "(empty)"

def all : List Heading :=
  [negate, exprlist, condition, statement, empty, binary .pow] ++
    [.add, .sub, .mul, .div, .mod, .pow].map arith ++ [.gt, .lt, .notEq, .eq, .gtEq, .ltEq].map compare ++
    [.sqrt, .exp, .log, .display].map unary

theorem mem_all (heading : Heading) : heading ∈ all := by
  cases heading with
  | arith op => cases op <;> decide
  | compare op => cases op <;> decide
  | unary func => cases func <;> decide
  | binary func => cases func; decide
  | _ => decide

theorem text_injective : Function.Injective text := by
  intro h k same
  have distinct : (all.map text).Nodup := by decide
  exact List.inj_on_of_nodup_map distinct h.mem_all k.mem_all same

/-- A heading has something in it that no displayed number has, no colon, and no blank in front. -/
theorem shape (heading : Heading) : (∃ c ∈ heading.text.toList, Number.isNumeral c = false) ∧
    ':' ∉ heading.text.toList ∧ '\n' ∉ heading.text.toList ∧ heading.text.toList.head? ≠ some ' ' := by
  have every : ∀ h ∈ all, h.text.toList.any (fun c => !Number.isNumeral c) = true ∧
      ':' ∉ h.text.toList ∧ '\n' ∉ h.text.toList ∧ h.text.toList.head? ≠ some ' ' := by decide
  obtain ⟨foreign, others⟩ := every heading heading.mem_all
  obtain ⟨c, member, apart⟩ := List.any_eq_true.mp foreign
  exact ⟨⟨c, member, by simpa using apart⟩, others⟩

end Heading

/-- What a line of a trace says. -/
inductive Label where
  | number (numeral : Number.Numeral)
  | named (keyword : Keyword) (name : String)
  | heading (title : Heading)

namespace Label

def text : Label → String
  | number numeral => numeral.text
  | named keyword name => keyword.text ++ ": " ++ name
  | heading title => title.text

theorem toList_text_named (keyword : Keyword) (name : String) :
    (named keyword name).text.toList = keyword.text.toList ++ ':' :: ' ' :: name.toList := by
  simp [text]

theorem colon_mem_named (keyword : Keyword) (name : String) : ':' ∈ (named keyword name).text.toList := by
  simp [toList_text_named]

theorem text_named_injective {keyword other : Keyword} {name second : String}
    (same : (named keyword name).text = (named other second).text) : keyword = other ∧ name = second := by
  have before : ∀ k : Keyword, ':' ∉ k.text.toList := by
    intro k
    cases k <;> decide
  have apart : ∀ k l : Keyword, k.text.toList = l.text.toList → k = l := by
    intro k l
    cases k <;> cases l <;> decide
  have lists := congrArg String.toList same
  rw [toList_text_named, toList_text_named] at lists
  obtain ⟨front, back⟩ := Text.eq_of_append_cons (before keyword) (before other) lists
  exact ⟨apart _ _ front, String.toList_inj.mp (List.cons.inj back).2⟩

/-- Two lines of a trace that look the same say the same. -/
theorem text_injective : Function.Injective text := by
  intro left right same
  have lists := congrArg String.toList same
  have foreign : Number.isNumeral ':' = false := by decide
  cases left with
  | number numeral =>
    cases right with
    | number other =>
      cases numeral
      cases other
      cases (show _ = _ from same)
      rfl
    | named keyword name => exact absurd (lists ▸ colon_mem_named keyword name) (numeral.notMem foreign)
    | heading title =>
      obtain ⟨c, member, strange⟩ := title.shape.1
      exact absurd (lists ▸ member) (numeral.notMem strange)
  | named keyword name =>
    cases right with
    | number numeral => exact absurd (lists ▸ colon_mem_named keyword name) (numeral.notMem foreign)
    | named other second =>
      obtain ⟨rfl, rfl⟩ := text_named_injective same
      rfl
    | heading title => exact absurd (lists ▸ colon_mem_named keyword name) title.shape.2.1
  | heading title =>
    cases right with
    | number numeral =>
      obtain ⟨c, member, strange⟩ := title.shape.1
      exact absurd (lists ▸ member) (numeral.notMem strange)
    | named keyword name => exact absurd (lists ▸ colon_mem_named keyword name) title.shape.2.1
    | heading other => rw [Heading.text_injective same]

/-- The name in a label, if it has one, contains no newline. -/
def Plain : Label → Prop
  | named _ name => '\n' ∉ name.toList
  | number _ | heading _ => True

theorem Plain.newline_notMem {label : Label} (plain : label.Plain) : '\n' ∉ label.text.toList := by
  cases label with
  | number numeral => exact numeral.notMem (by decide)
  | heading title => exact title.shape.2.2.1
  | named keyword name =>
    have before : '\n' ∉ keyword.text.toList := by cases keyword <;> decide
    rw [toList_text_named]
    simp [before, show '\n' ∉ name.toList from plain]

/-- So the blanks in front of a line are its indentation and nothing else. -/
theorem head_ne_blank (label : Label) : label.text.toList.head? ≠ some ' ' := by
  cases label with
  | number numeral => exact fun blank => numeral.notMem (by decide) (List.mem_of_head? blank)
  | heading title => exact title.shape.2.2.2
  | named keyword name =>
    rw [toList_text_named]
    cases keyword <;> simp [Keyword.text]

end Label

namespace Line

/-- A line without the newline at its end. -/
def written (line : Line) : String := String.ofList (List.replicate (2 * line.depth) ' ') ++ line.text

theorem toList_written (line : Line) :
    line.written.toList = List.replicate (2 * line.depth) ' ' ++ line.text.toList := by
  simp [written]

theorem renderAll_eq (lines : Array Line) : renderAll lines = Text.ofLines (lines.toList.map written) := by
  have joined : ∀ (rest : List Line) (out : String),
      rest.foldl (fun out line => out ++ line.render) out = out ++ Text.ofLines (rest.map written) := by
    intro rest
    induction rest with
    | nil => simp [Text.ofLines]
    | cons line rest ih =>
      intro out
      rw [List.foldl_cons, ih]
      simp [Text.ofLines, String.join_cons, render, written, String.append_assoc]
  rw [renderAll, ← Array.foldl_toList, joined, String.empty_append]

end Line

/-- A label at its level. -/
structure Item where
  depth : Nat
  label : Label

namespace Item

def line (item : Item) : Line := ⟨item.depth, item.label.text⟩

def written (item : Item) : String := item.line.written

theorem toList_written (item : Item) :
    item.written.toList = List.replicate (2 * item.depth) ' ' ++ item.label.text.toList :=
  item.line.toList_written

theorem takeWhile_blank (item : Item) :
    item.written.toList.takeWhile (· == ' ') = List.replicate (2 * item.depth) ' ' := by
  have ends : item.label.text.toList.takeWhile (· == ' ') = [] := by
    have start := item.label.head_ne_blank
    cases chars : item.label.text.toList with
    | nil => rfl
    | cons c rest =>
      have strange : (c == ' ') = false := by simpa [chars] using start
      simp [strange]
  rw [toList_written, List.takeWhile_append_of_pos (by simp), ends, List.append_nil]

/-- The level and the label can be read off the line. -/
theorem written_injective : Function.Injective written := by
  intro item other same
  have blanks : List.replicate (2 * item.depth) ' ' = List.replicate (2 * other.depth) ' ' := by
    rw [← item.takeWhile_blank, ← other.takeWhile_blank, same]
  have depths := congrArg List.length blanks
  have texts := congrArg String.toList same
  rw [toList_written, toList_written, blanks] at texts
  have labels := Label.text_injective (String.toList_inj.mp (List.append_cancel_left texts))
  cases item
  cases other
  simp only [List.length_replicate, mk.injEq] at depths labels ⊢
  exact ⟨by omega, labels⟩

end Item

/-- Labels one below the other: an item with what stands below it, one level deeper, and with what comes next on its
own level. -/
inductive Outline where
  | done
  | item (label : Label) (below next : Outline)

namespace Outline

/-- The items of an outline from top to bottom, the first of them at the given level. -/
def items (depth : Nat) : Outline → List Item
  | done => []
  | item label below next => ⟨depth, label⟩ :: (below.items (depth + 1) ++ next.items depth)

theorem le_depth {outline : Outline} {depth : Nat} : ∀ item ∈ outline.items depth, depth ≤ item.depth := by
  induction outline generalizing depth with
  | done => simp [items]
  | item label below next inside after =>
    intro item member
    rcases List.mem_cons.mp member with rfl | later
    · exact Nat.le_refl depth
    · rcases List.mem_append.mp later with deeper | beside
      · have bound := inside item deeper
        omega
      · exact after item beside

/-- What stands below an item reaches to the next item that is not deeper. -/
theorem takeWhile_deeper (below next : Outline) (depth : Nat) :
    (below.items (depth + 1) ++ next.items depth).takeWhile (depth < ·.depth) = below.items (depth + 1) := by
  have ends : (next.items depth).takeWhile (depth < ·.depth) = [] := by
    cases next <;> simp [items]
  have deeper : ∀ item ∈ below.items (depth + 1), decide (depth < item.depth) = true := by
    intro item member
    exact decide_eq_true (le_depth item member)
  rw [List.takeWhile_append_of_pos deeper, ends, List.append_nil]

/-- The levels of its items determine the nesting of an outline. -/
theorem items_injective (depth : Nat) : Function.Injective (items depth) := by
  intro outline
  induction outline generalizing depth with
  | done =>
    intro other same
    cases other with
    | done => rfl
    | item label below next => cases same
  | item label below next inside after =>
    intro other same
    cases other with
    | done => cases same
    | item second under following =>
      obtain ⟨first, rest⟩ := List.cons.inj same
      have deeper : below.items (depth + 1) = under.items (depth + 1) := by
        rw [← takeWhile_deeper below next, ← takeWhile_deeper under following, rest]
      rw [deeper] at rest
      cases first
      rw [inside _ deeper, after _ (List.append_cancel_left rest)]

/-- The lines of an outline. -/
def lines (depth : Nat) (outline : Outline) : List Line := (outline.items depth).map Item.line

@[simp] theorem lines_done (depth : Nat) : done.lines depth = [] := rfl

theorem lines_item (depth : Nat) (label : Label) (below next : Outline) :
    (item label below next).lines depth = ⟨depth, label.text⟩ :: (below.lines (depth + 1) ++ next.lines depth) := by
  simp [lines, items, Item.line]

/-- The text of an outline, one item a line. -/
def text (depth : Nat) (outline : Outline) : String := Text.ofLines ((outline.items depth).map Item.written)

theorem text_eq (depth : Nat) (outline : Outline) :
    outline.text depth = Text.ofLines ((outline.lines depth).map Line.written) := by
  rw [text, lines, List.map_map]
  rfl

/-- No name in the outline contains a newline. -/
def Plain : Outline → Prop
  | done => True
  | item label below next => label.Plain ∧ below.Plain ∧ next.Plain

theorem Plain.newline_notMem {outline : Outline} (plain : outline.Plain) {depth : Nat} :
    ∀ line ∈ (outline.items depth).map Item.written, '\n' ∉ line.toList := by
  induction outline generalizing depth with
  | done => simp [items]
  | item label below next inside after =>
    obtain ⟨own, under, following⟩ := plain
    have first : '\n' ∉ (Item.mk depth label).written.toList := by
      simp [Item.toList_written, own.newline_notMem]
    simp only [items, List.map_cons, List.map_append, List.mem_cons, List.mem_append]
    rintro line (rfl | deeper | beside)
    · exact first
    · exact inside under line deeper
    · exact after following line beside

/-- The text of an outline determines it. -/
theorem eq_of_text_eq {outline other : Outline} (plain : outline.Plain) (free : other.Plain) {depth : Nat}
    (same : outline.text depth = other.text depth) : outline = other := by
  have lines := Text.eq_of_ofLines_eq plain.newline_notMem free.newline_notMem same
  have listed := List.map_injective_iff.mpr Item.written_injective lines
  exact items_injective depth listed

end Outline

end TreeCalc
