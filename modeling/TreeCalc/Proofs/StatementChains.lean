import TreeCalc.Proofs.NodeOutline

namespace TreeCalc.Node

/-- The statements of a chain, along its right side. Any of them but the last may be a sequence itself. -/
def statements : Node → List Node
  | .seq first second => first :: second.statements
  | t => [t]

/-- The last of the statements, if there is one, is not a sequence itself. -/
def Flat (statements : List Node) : Prop := ∀ last ∈ statements.getLast?, ∀ first second, last ≠ seq first second

theorem statements_of_ne_seq {t : Node} (other : ∀ first second, t ≠ seq first second) : t.statements = [t] := by
  cases t with
  | seq first second => exact absurd rfl (other first second)
  | _ => rfl

theorem block_concat (earlier : List Node) (last : Node) :
    block (earlier ++ [last]) = some (earlier.foldr seq last) := by
  simp [block, after]

theorem eq_foldr_of_block {statements : List Node} {chain : Node} (built : block statements = some chain) :
    ∃ earlier last, statements = earlier ++ [last] ∧ chain = earlier.foldr seq last := by
  rcases List.eq_nil_or_concat' statements with rfl | ⟨earlier, last, rfl⟩
  · cases built
  · exact ⟨earlier, last, rfl, Option.some.inj (built.symm.trans (block_concat earlier last))⟩

/-- Whatever stands last in a chain is continued by it, a chain no less than a single statement. -/
theorem statements_foldr (earlier : List Node) (last : Node) :
    (earlier.foldr seq last).statements = earlier ++ last.statements := by
  induction earlier with
  | nil => rfl
  | cons first earlier ih => rw [List.foldr_cons, statements, ih, List.cons_append]

/-- A block of which the last statement is no sequence is a chain of just its statements. -/
theorem statements_of_block {statements : List Node} {chain : Node} (flat : Flat statements)
    (built : block statements = some chain) : chain.statements = statements := by
  obtain ⟨earlier, last, rfl, rfl⟩ := eq_foldr_of_block built
  have other : ∀ first second, last ≠ seq first second := flat last (by simp)
  rw [statements_foldr, statements_of_ne_seq other]

/-- A chain in the last place of a block is no different from its statements in that place. -/
theorem block_append_block (earlier : List Node) {later : List Node} {inner : Node}
    (built : block later = some inner) :
    block (earlier ++ [inner]) = block (earlier ++ later) := by
  obtain ⟨front, last, rfl, rfl⟩ := eq_foldr_of_block built
  rw [block_concat, ← List.append_assoc, block_concat, List.foldr_append]

/-- A block of at least two statements is a sequence. -/
theorem exists_block_seq {statements : List Node} (several : 2 ≤ statements.length) :
    ∃ first second, block statements = some (seq first second) := by
  rcases List.eq_nil_or_concat' statements with rfl | ⟨earlier, last, rfl⟩
  · simp at several
  · cases earlier with
    | nil => simp at several
    | cons first earlier => exact ⟨first, earlier.foldr seq last, block_concat (first :: earlier) last⟩

/-- Where the walk along a chain stands: the statements visited so far, the lines written for them and those before
them, and the rest of the chain. -/
structure Walk where
  visited : List Node
  out : Array Line
  rest : Node

/-- Walks along a chain as long as the rest of it is a sequence, and writes the first statement of that before it
goes on with the second. -/
def walk (depth : Nat) (visited : List Node) (out : Array Line) : Node → Walk
  | .seq first second => second.walk depth (visited ++ [first]) (first.linesOnto out depth false)
  | t => ⟨visited, out, t⟩

/-- The walk of a sequence: its heading and its first statement come before, and then it goes along the second. -/
def Walk.ofSeq (depth : Nat) (out : Array Line) (first second : Node) : Walk :=
  second.walk (depth + 1) [first] (first.linesOnto (out.push ⟨depth, "statement"⟩) (depth + 1) false)

/-- The walk visits the statements one by one, and what it stops at is the last of them. -/
theorem walk_visited (t : Node) (depth : Nat) (visited : List Node) (out : Array Line) :
    (t.walk depth visited out).visited ++ [(t.walk depth visited out).rest] = visited ++ t.statements := by
  induction t generalizing visited out with
  | seq first second _ ih => rw [walk, statements, ih, List.append_assoc, List.singleton_append]
  | _ => rfl

theorem linesOnto_walk (t : Node) (depth : Nat) (visited : List Node) (out : Array Line) :
    t.linesOnto out depth true =
      (t.walk depth visited out).rest.linesOnto (t.walk depth visited out).out depth false := by
  induction t generalizing visited out with
  | seq first second _ ih => rw [walk, ← ih, linesOnto, if_pos rfl]
  | _ => rfl

theorem Walk.ofSeq_visited (depth : Nat) (out : Array Line) (first second : Node) :
    (ofSeq depth out first second).visited ++ [(ofSeq depth out first second).rest] =
      (seq first second).statements :=
  second.walk_visited (depth + 1) [first] _

/-- The trace of a sequence is written by its walk. -/
theorem Walk.linesOnto_ofSeq (depth : Nat) (out : Array Line) (first second : Node) :
    (seq first second).linesOnto out depth false =
      (ofSeq depth out first second).rest.linesOnto (ofSeq depth out first second).out (depth + 1) false := by
  rw [linesOnto, if_neg Bool.false_ne_true]
  exact second.linesOnto_walk (depth + 1) [first] _

/-- The lines of a chain are those of its statements, in their order. -/
theorem linesOnto_chained (t : Node) (depth : Nat) (out : Array Line) :
    t.linesOnto out depth true = t.statements.foldl (fun out s => s.linesOnto out depth false) out := by
  induction t generalizing out with
  | seq first second _ ih => rw [linesOnto, if_pos rfl, statements, List.foldl_cons, ih]
  | _ => rfl

theorem renderAll_linesOnto (t : Node) (depth : Nat) (out : Array Line) :
    Line.renderAll (t.linesOnto out depth false) = Line.renderAll out ++ t.trace depth := by
  rw [trace_eq, Outline.text_eq, Line.renderAll_eq, t.traced.last, List.map_append, Text.ofLines_append,
    Line.renderAll_eq]

theorem renderAll_foldl_linesOnto (ts : List Node) (depth : Nat) (out : Array Line) :
    Line.renderAll (ts.foldl (fun out s => s.linesOnto out depth false) out) =
      Line.renderAll out ++ String.join (ts.map (trace · depth)) := by
  induction ts generalizing out with
  | nil => simp
  | cons t ts ih =>
    rw [List.foldl_cons, ih, renderAll_linesOnto, List.map_cons, String.join_cons, String.append_assoc]

/-- Every sequence has one heading, whatever else is nested in it to the right, and below it its statements. -/
theorem trace_seq (first second : Node) (depth : Nat) :
    (seq first second).trace depth = Line.render ⟨depth, "statement"⟩ ++
      String.join ((seq first second).statements.map (trace · (depth + 1))) := by
  have written : (seq first second).lines depth = (seq first second).statements.foldl
      (fun out s => s.linesOnto out (depth + 1) false) #[⟨depth, "statement"⟩] := by
    rw [lines, linesOnto, if_neg Bool.false_ne_true, linesOnto_chained]
    rfl
  have heading : Line.renderAll #[⟨depth, "statement"⟩] = Line.render ⟨depth, "statement"⟩ := String.empty_append
  rw [trace, written, renderAll_foldl_linesOnto, heading]

/-- Blocks are rendered as what they were built from. A block in the last place of a block is the same tree as its
statements in that place. The trace of a block of two statements or more, the last of them no sequence, is one
heading and below it the traces of the statements, which the walk along the chain visits once each; and a sequence
in any other place than the last keeps a heading of its own, with its statements below that. -/
theorem block_rendered_flat :
    (∀ earlier later : List Node, later ≠ [] →
      ∃ inner, block later = some inner ∧ block (earlier ++ [inner]) = block (earlier ++ later)) ∧
    (∀ statements : List Node, 2 ≤ statements.length → Flat statements →
      ∃ first second, block statements = some (seq first second) ∧ ∀ depth,
        (seq first second).trace depth =
          Line.render ⟨depth, "statement"⟩ ++ String.join (statements.map (trace · (depth + 1))) ∧
        ∀ out, (Walk.ofSeq depth out first second).visited ++
          [(Walk.ofSeq depth out first second).rest] = statements ∧
          (seq first second).linesOnto out depth false = (Walk.ofSeq depth out first second).rest.linesOnto
            (Walk.ofSeq depth out first second).out (depth + 1) false) ∧
    ∀ (earlier : List Node) (first second : Node) (later : List Node), later ≠ [] → Flat later →
      ∃ chain, block (earlier ++ seq first second :: later) = some chain ∧ ∀ depth,
        chain.trace depth = Line.render ⟨depth, "statement"⟩ ++ String.join (earlier.map (trace · (depth + 1))) ++
          (Line.render ⟨depth + 1, "statement"⟩ ++
            String.join ((seq first second).statements.map (trace · (depth + 2)))) ++
          String.join (later.map (trace · (depth + 1))) := by
  refine ⟨fun earlier later nonempty => ?_, fun statements several flat => ?_,
    fun earlier first second later nonempty flat => ?_⟩
  · obtain ⟨front, last, rfl⟩ := (List.eq_nil_or_concat' later).resolve_left nonempty
    exact ⟨_, block_concat front last, block_append_block earlier (block_concat front last)⟩
  · obtain ⟨first, second, built⟩ := exists_block_seq several
    have listed := statements_of_block flat built
    refine ⟨first, second, built, fun depth => ⟨?_, fun out => ⟨?_, Walk.linesOnto_ofSeq depth out first second⟩⟩⟩
    · rw [trace_seq, listed]
    · rw [Walk.ofSeq_visited, listed]
  · have several : 2 ≤ (earlier ++ seq first second :: later).length := by
      have positive := List.length_pos_iff.mpr nonempty
      rw [List.length_append, List.length_cons]
      omega
    have closed : Flat (earlier ++ seq first second :: later) := by
      intro last final
      rw [List.getLast?_append_of_ne_nil _ (List.cons_ne_nil _ _), List.getLast?_cons_of_ne_nil nonempty] at final
      exact flat last final
    obtain ⟨head, rest, built⟩ := exists_block_seq several
    refine ⟨_, built, fun depth => ?_⟩
    rw [trace_seq, statements_of_block closed built, List.map_append, List.map_cons, String.join_append,
      String.join_cons, trace_seq]
    simp only [String.append_assoc]

/-- A sequence in the middle of a chain, and one in an argument of the last statement. -/
def nestedBothWays : List Node :=
  [.assign "a" (.num 1.0), .seq (.var "b") (.seq (.var "c") (.var "d")), .call "f" [.seq (.var "a") (.var "b")]]

theorem block_rendered_flat_bothWays :
    (2 ≤ nestedBothWays.length ∧ Flat nestedBothWays) ∧
    (∃ inner, block nestedBothWays = some inner ∧ block [.var "z", inner] = block (.var "z" :: nestedBothWays)) ∧
    ∃ first second, block nestedBothWays = some (seq first second) ∧
      (Walk.ofSeq 1 #[] first second).visited = nestedBothWays.take 2 ∧
      (seq first second).trace 1 =
        "  statement\n    assignment: a\n      1\n" ++
          "    statement\n      variable: b\n      variable: c\n      variable: d\n" ++
          "    call: f\n      exprlist\n        statement\n          variable: a\n          variable: b\n" := by
  have several : 2 ≤ nestedBothWays.length := by decide
  have flat : Flat nestedBothWays := by simp [Flat, nestedBothWays]
  obtain ⟨joined, rendered, grouped⟩ := block_rendered_flat
  obtain ⟨first, second, built, shown⟩ := rendered nestedBothWays several flat
  obtain ⟨chain, again, traced⟩ := grouped (nestedBothWays.take 1) (.var "b") (.seq (.var "c") (.var "d"))
    (nestedBothWays.drop 2) (by decide) (by simp [Flat, nestedBothWays])
  have same : seq first second = chain := Option.some.inj (built.symm.trans again)
  refine ⟨⟨several, flat⟩, joined [.var "z"] nestedBothWays (List.cons_ne_nil _ _), first, second, built, ?_, ?_⟩
  · have visited := congrArg List.dropLast ((shown 1).2 #[]).1
    rwa [List.dropLast_concat] at visited
  · rw [same, traced 1]
    decide +kernel

end TreeCalc.Node
