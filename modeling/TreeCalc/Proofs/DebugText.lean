import TreeCalc.Node.Debug
import TreeCalc.Proofs.QuotedNames
import TreeCalc.Proofs.ReadBack
import TreeCalc.Proofs.TraceText

namespace TreeCalc

/-- What is written for `a` can be told from whatever follows it: only what is written for something alike starts
the same text, and leaves the same rest. -/
def Text.Told {α : Type} (write : α → String) (alike : α → α → Prop) (a : α) : Prop :=
  ∀ (b : α) (rest more : List Char), (write a).toList ++ rest = (write b).toList ++ more → alike a b ∧ rest = more

theorem Text.Told.cut {α : Type} {write : α → String} {alike : α → α → Prop} {a b : α} (told : Told write alike a)
    {mark rest more : List Char} (same : (write a).toList ++ (mark ++ rest) = (write b).toList ++ (mark ++ more)) :
    alike a b ∧ rest = more :=
  (told b _ _ same).imp_right List.append_cancel_left

theorem Text.told_quoted (name : String) : Told quoted Eq name := fun _ _ _ => eq_of_quoted_append

theorem Text.prefixes_nested {left right rest more : List Char} (same : left ++ rest = right ++ more) :
    left <+: right ∨ right <+: left :=
  List.prefix_or_prefix_of_prefix (same ▸ List.prefix_append left rest) (List.prefix_append right more)

/-- How the debug text of a tree starts: with the name of its kind and, where there is one, the operation. -/
inductive Opening where
  | num
  | var
  | neg
  | arith (op : ArithOp)
  | compare (op : CompareOp)
  | unary (func : UnaryBuiltin)
  | binary (func : BinaryBuiltin)
  | list
  | assign
  | cond
  | seq
  | params
  | define
  | call
  deriving DecidableEq

namespace Opening

def text : Opening → String
  | num => "Constant("
  | var => "VariableRef("
  | neg => "Negate("
  | arith op => "BinaryArith \x7b op: " ++ op.debugName ++ ", left: "
  | compare op => "Compare \x7b op: " ++ op.debugName ++ ", left: "
  | unary f => "UnaryBuiltin \x7b func: " ++ f.debugName ++ ", operand: "
  | binary f => "BinaryBuiltin \x7b func: " ++ f.debugName ++ ", left: "
  | list => "ExprList(ExprList \x7b head: "
  | assign => "Assignment \x7b name: "
  | cond => "Condition \x7b cond: "
  | seq => "Sequence \x7b first: "
  | params => "ParamList("
  | define => "FunctionDef(SharedFunction(FunctionDef \x7b name: "
  | call => "FunctionCall \x7b name: "

def all : List Opening :=
  [num, var, neg, list, assign, cond, seq, params, define, call, binary .pow] ++
    [ArithOp.add, .sub, .mul, .div, .mod, .pow].map arith ++
    [CompareOp.gt, .lt, .notEq, .eq, .gtEq, .ltEq].map compare ++
    [UnaryBuiltin.sqrt, .exp, .log, .display].map unary

theorem mem_all (o : Opening) : o ∈ all := by
  cases o with
  | arith op | compare op | unary op | binary op => cases op <;> decide
  | _ => decide

/-- No kind of tree starts like another one. -/
theorem eq_of_text_starts {o p : Opening} (starts : o.text.toList <+: p.text.toList) : o = p := by
  have apart : ∀ o ∈ all, ∀ p ∈ all, o.text.toList.isPrefixOf p.text.toList = true → o = p := by decide +kernel
  exact apart o o.mem_all p p.mem_all (List.isPrefixOf_iff_prefix.mpr starts)

theorem eq_of_text_append {o p : Opening} {rest more : List Char}
    (same : o.text.toList ++ rest = p.text.toList ++ more) :
    o = p ∧ rest = more := by
  obtain rfl : o = p := (Text.prefixes_nested same).elim eq_of_text_starts fun other =>
    (eq_of_text_starts other).symm
  exact ⟨rfl, List.append_cancel_left same⟩

end Opening

namespace Node

def opening : Node → Opening
  | num _ => .num
  | var _ => .var
  | neg _ => .neg
  | arith op _ _ => .arith op
  | compare op _ _ => .compare op
  | unary f _ => .unary f
  | binary f _ _ => .binary f
  | list _ _ => .list
  | assign _ _ => .assign
  | cond _ _ _ => .cond
  | seq _ _ => .seq
  | params _ => .params
  | define _ _ _ _ => .define
  | call _ _ => .call

def debugTail (ts : List Node) : String := debugTailOnto "" ts

def debugBranch (branch : Option Node) : String := debugBranchOnto "" branch

/-- The debug text of a tree after its opening, and whatever follows it. -/
def debugParts (rest : List Char) : Node → List Char
  | num x => (Number.exactText x).toList ++ (")".toList ++ rest)
  | var x => (Text.quoted x).toList ++ (")".toList ++ rest)
  | neg t => t.debug.toList ++ (")".toList ++ rest)
  | arith _ l r | compare _ l r | binary _ l r =>
    l.debug.toList ++ (", right: ".toList ++ (r.debug.toList ++ (" \x7d".toList ++ rest)))
  | unary _ t => t.debug.toList ++ (" \x7d".toList ++ rest)
  | list t ts => t.debug.toList ++ (", tail: ".toList ++ ((debugTail ts).toList ++ (" \x7d)".toList ++ rest)))
  | assign x t => (Text.quoted x).toList ++ (", value: ".toList ++ (t.debug.toList ++ (" \x7d".toList ++ rest)))
  | cond t onTrue onFalse =>
    t.debug.toList ++ (", then_branch: ".toList ++ ((debugBranch onTrue).toList ++
      (", else_branch: ".toList ++ ((debugBranch onFalse).toList ++ (" \x7d".toList ++ rest)))))
  | seq s t => s.debug.toList ++ (", second: ".toList ++ (t.debug.toList ++ (" \x7d".toList ++ rest)))
  | params ps => ps.debug.toList ++ (")".toList ++ rest)
  | define _ f ps t =>
    (Text.quoted f).toList ++ (", params: ".toList ++ (ps.debug.toList ++
      (", body: ".toList ++ (t.debug.toList ++ (" \x7d))".toList ++ rest)))))
  | call f ts =>
    (Text.quoted f).toList ++ (", args: ".toList ++ ((debugTail ts).toList ++ (" \x7d".toList ++ rest)))

theorem debugTailOnto_eq {ts : List Node} (each : ∀ t ∈ ts, ∀ out, t.debugOnto out = out ++ t.debug)
    (out : String) :
    debugTailOnto out ts = out ++ debugTail ts := by
  induction ts generalizing out with
  | nil => rw [debugTail, debugTailOnto, debugTailOnto, String.empty_append]
  | cons t ts ih =>
    have first := each t List.mem_cons_self
    have rest := ih fun u member => each u (List.mem_cons_of_mem t member)
    rw [debugTail]
    simp only [debugTailOnto, first, rest, String.append_assoc, String.empty_append]

theorem debugBranchOnto_eq {branch : Option Node} (each : ∀ t ∈ branch, ∀ out, t.debugOnto out = out ++ t.debug)
    (out : String) : debugBranchOnto out branch = out ++ debugBranch branch := by
  cases branch with
  | none => rw [debugBranch, debugBranchOnto, debugBranchOnto, String.empty_append]
  | some t =>
    have inside := each t rfl
    rw [debugBranch]
    simp only [debugBranchOnto, inside, String.append_assoc, String.empty_append]

/-- What is written for a tree does not depend on what has been written before. -/
theorem debugOnto_eq (t : Node) (out : String) : t.debugOnto out = out ++ t.debug := by
  induction t generalizing out with
  | num | var | params =>
    rw [debug]
    simp only [debugOnto, String.append_assoc, String.empty_append]
  | neg t ih | unary f t ih | assign x t ih | define id f ps t ih =>
    rw [debug]
    simp only [debugOnto, ih, String.append_assoc, String.empty_append]
  | arith op l r left right | compare op l r left right | binary op l r left right | seq l r left right =>
    rw [debug]
    simp only [debugOnto, left, right, String.append_assoc, String.empty_append]
  | list t ts head tail =>
    rw [debug]
    simp only [debugOnto, head, debugTailOnto_eq tail, String.append_assoc, String.empty_append]
  | cond t onTrue onFalse test yes no =>
    rw [debug]
    simp only [debugOnto, test, debugBranchOnto_eq yes, debugBranchOnto_eq no, String.append_assoc,
      String.empty_append]
  | call f ts args =>
    rw [debug]
    simp only [debugOnto, debugTailOnto_eq args, String.append_assoc, String.empty_append]

theorem debug_append (t : Node) (rest : List Char) :
    t.debug.toList ++ rest = t.opening.text.toList ++ t.debugParts rest := by
  have tail : ∀ ts out, debugTailOnto out ts = out ++ debugTail ts :=
    fun ts => debugTailOnto_eq fun t _ => t.debugOnto_eq
  have branch : ∀ b out, debugBranchOnto out b = out ++ debugBranch b := fun b =>
    debugBranchOnto_eq fun t _ => t.debugOnto_eq
  rw [debug]
  -- Only the node itself is opened: the text of each of its parts is named once it stands alone.
  cases t <;> dsimp only [opening, Opening.text, debugParts] <;> simp only [debugOnto] <;>
    simp only [debugOnto_eq, tail, branch, String.empty_append, String.toList_append, List.append_assoc]

end Node

open Text (Told told_quoted)

namespace Params

theorem debugRest_cons_append (name : String) (names : List String) (rest : List Char) :
    (debugRest (name :: names)).toList ++ rest =
      "Some(ParamList \x7b name: ".toList ++ ((Text.quoted name).toList ++ (", rest: ".toList ++
        ((debugRest names).toList ++ (" \x7d)".toList ++ rest)))) := by
  have opened : debugRest (name :: names) =
      "Some(ParamList \x7b name: " ++ Text.quoted name ++ ", rest: " ++ debugRest names ++ " \x7d)" := rfl
  simp only [opened, String.toList_append, List.append_assoc]

theorem told_debugRest (names : List String) : Told debugRest Eq names := by
  induction names with
  | nil =>
    intro others rest more same
    cases others with
    | nil => exact ⟨rfl, List.append_cancel_left same⟩
    | cons name others =>
      rw [debugRest_cons_append] at same
      exact absurd (Text.prefixes_nested same) (by decide +kernel)
  | cons name names ih =>
    intro others rest more same
    rw [debugRest_cons_append] at same
    cases others with
    | nil => exact absurd (Text.prefixes_nested same) (by decide +kernel)
    | cons other others =>
      rw [debugRest_cons_append] at same
      obtain ⟨rfl, later⟩ := (told_quoted name).cut (List.append_cancel_left same)
      obtain ⟨rfl, rest⟩ := ih.cut later
      exact ⟨rfl, rest⟩

theorem debug_append (params : Params) (rest : List Char) :
    params.debug.toList ++ rest = "ParamList \x7b name: ".toList ++ ((Text.quoted params.first).toList ++
      (", rest: ".toList ++ ((debugRest params.rest).toList ++ (" \x7d".toList ++ rest)))) := by
  unfold debug
  simp only [String.toList_append, List.append_assoc]

theorem told_debug (params : Params) : Told debug Eq params := by
  intro others rest more same
  rw [debug_append, debug_append] at same
  obtain ⟨firsts, later⟩ := (told_quoted params.first).cut (List.append_cancel_left same)
  obtain ⟨others, rest⟩ := (told_debugRest params.rest).cut later
  cases params
  cases firsts
  cases others
  exact ⟨rfl, rest⟩

end Params

namespace Node

/-- The same tree but for numbers that are not numbers, and for the identities of definitions. -/
abbrev SameContent : Node → Node → Prop := Alike Number.SameNumber

theorem told_of_parts {t : Node}
    (parts : ∀ (u : Node) (rest more : List Char), t.opening = u.opening → t.debugParts rest = u.debugParts more →
      t.SameContent u ∧ rest = more) : Told debug SameContent t := by
  intro u rest more same
  simp only [debug_append] at same
  obtain ⟨openings, inside⟩ := Opening.eq_of_text_append same
  exact parts u rest more openings inside

theorem debugTail_cons_append (t : Node) (ts : List Node) (rest : List Char) :
    (debugTail (t :: ts)).toList ++ rest =
      "Some(ExprList \x7b head: ".toList ++ (t.debug.toList ++ (", tail: ".toList ++
        ((debugTail ts).toList ++ (" \x7d)".toList ++ rest)))) := by
  unfold debugTail
  rw [debugTailOnto, debugTailOnto_eq fun t _ => t.debugOnto_eq, debugOnto_eq]
  simp only [debugTail, String.empty_append, String.toList_append, List.append_assoc]

theorem debugBranch_some_append (t : Node) (rest : List Char) :
    (debugBranch (some t)).toList ++ rest = "Some(".toList ++ (t.debug.toList ++ (")".toList ++ rest)) := by
  unfold debugBranch
  rw [debugBranchOnto, debugOnto_eq]
  simp only [String.empty_append, String.toList_append, List.append_assoc]

theorem told_debugTail {ts : List Node} (each : ∀ t ∈ ts, Told debug SameContent t) :
    Told debugTail (List.Forall₂ SameContent) ts := by
  induction ts with
  | nil =>
    intro us rest more same
    cases us with
    | nil => exact ⟨.nil, List.append_cancel_left same⟩
    | cons u us =>
      rw [debugTail_cons_append] at same
      exact absurd (Text.prefixes_nested same) (by decide +kernel)
  | cons t ts ih =>
    intro us rest more same
    rw [debugTail_cons_append] at same
    cases us with
    | nil => exact absurd (Text.prefixes_nested same) (by decide +kernel)
    | cons u us =>
      rw [debugTail_cons_append] at same
      obtain ⟨first, later⟩ := (each t List.mem_cons_self).cut (List.append_cancel_left same)
      obtain ⟨others, rest⟩ := (ih fun v member => each v (List.mem_cons_of_mem t member)).cut later
      exact ⟨.cons first others, rest⟩

theorem told_debugBranch {branch : Option Node} (each : ∀ t ∈ branch, Told debug SameContent t) :
    Told debugBranch (Option.Rel SameContent) branch := by
  intro other rest more same
  cases branch with
  | none =>
    cases other with
    | none => exact ⟨.none, List.append_cancel_left same⟩
    | some u =>
      rw [debugBranch_some_append] at same
      exact absurd (Text.prefixes_nested same) (by decide +kernel)
  | some t =>
    rw [debugBranch_some_append] at same
    cases other with
    | none => exact absurd (Text.prefixes_nested same) (by decide +kernel)
    | some u =>
      rw [debugBranch_some_append] at same
      obtain ⟨inside, rest⟩ := (each t rfl).cut (List.append_cancel_left same)
      exact ⟨.some inside, rest⟩

/-- The debug text of a tree ends where the tree does, and tells what the tree is. -/
theorem told_debug (t : Node) : Told debug SameContent t := by
  -- Equal openings leave one form for the other tree; the parts are then cut off in the order they are written.
  induction t with
  | num x =>
    refine told_of_parts fun u _ _ openings same => ?_
    cases u <;> cases openings
    obtain ⟨texts, rest⟩ :=
      Text.eq_of_append_cons (Number.bracket_notMem_exactText _) (Number.bracket_notMem_exactText _) same
    exact ⟨.num ((Number.exactText_eq_iff _ _).mp (String.toList_inj.mp texts)), rest⟩
  | var name =>
    refine told_of_parts fun u _ _ openings same => ?_
    cases u <;> cases openings
    obtain ⟨rfl, rest⟩ := (told_quoted name).cut same
    exact ⟨.var, rest⟩
  | params names =>
    refine told_of_parts fun u _ _ openings same => ?_
    cases u <;> cases openings
    obtain ⟨rfl, rest⟩ := names.told_debug.cut same
    exact ⟨.params, rest⟩
  | neg t ih =>
    refine told_of_parts fun u _ _ openings same => ?_
    cases u <;> cases openings
    obtain ⟨inside, rest⟩ := ih.cut same
    exact ⟨.neg inside, rest⟩
  | unary f t ih =>
    refine told_of_parts fun u _ _ openings same => ?_
    cases u <;> cases openings
    obtain ⟨inside, rest⟩ := ih.cut same
    exact ⟨.unary inside, rest⟩
  | assign name t ih =>
    refine told_of_parts fun u _ _ openings same => ?_
    cases u <;> cases openings
    obtain ⟨rfl, value⟩ := (told_quoted name).cut same
    obtain ⟨inside, rest⟩ := ih.cut value
    exact ⟨.assign inside, rest⟩
  | arith op l r left right =>
    refine told_of_parts fun u _ _ openings same => ?_
    cases u <;> cases openings
    obtain ⟨first, later⟩ := left.cut same
    obtain ⟨second, rest⟩ := right.cut later
    exact ⟨.arith first second, rest⟩
  | compare op l r left right =>
    refine told_of_parts fun u _ _ openings same => ?_
    cases u <;> cases openings
    obtain ⟨first, later⟩ := left.cut same
    obtain ⟨second, rest⟩ := right.cut later
    exact ⟨.compare first second, rest⟩
  | binary f l r left right =>
    refine told_of_parts fun u _ _ openings same => ?_
    cases u <;> cases openings
    obtain ⟨first, later⟩ := left.cut same
    obtain ⟨second, rest⟩ := right.cut later
    exact ⟨.binary first second, rest⟩
  | seq s t first second =>
    refine told_of_parts fun u _ _ openings same => ?_
    cases u <;> cases openings
    obtain ⟨before, later⟩ := first.cut same
    obtain ⟨after, rest⟩ := second.cut later
    exact ⟨.seq before after, rest⟩
  | list t ts head tail =>
    refine told_of_parts fun u _ _ openings same => ?_
    cases u <;> cases openings
    obtain ⟨first, later⟩ := head.cut same
    obtain ⟨others, rest⟩ := (told_debugTail tail).cut later
    exact ⟨.list first others, rest⟩
  | cond t onTrue onFalse test yes no =>
    refine told_of_parts fun u _ _ openings same => ?_
    cases u <;> cases openings
    obtain ⟨first, branches⟩ := test.cut same
    obtain ⟨second, later⟩ := (told_debugBranch yes).cut branches
    obtain ⟨third, rest⟩ := (told_debugBranch no).cut later
    exact ⟨.cond first second third, rest⟩
  | define id name ps t ih =>
    refine told_of_parts fun u _ _ openings same => ?_
    cases u <;> cases openings
    obtain ⟨rfl, header⟩ := (told_quoted name).cut same
    obtain ⟨rfl, body⟩ := ps.told_debug.cut header
    obtain ⟨inside, rest⟩ := ih.cut body
    exact ⟨.define inside, rest⟩
  | call name ts args =>
    refine told_of_parts fun u _ _ openings same => ?_
    cases u <;> cases openings
    obtain ⟨rfl, later⟩ := (told_quoted name).cut same
    obtain ⟨others, rest⟩ := (told_debugTail args).cut later
    exact ⟨.call others, rest⟩

theorem eq_of_toList_append_nil {left right : String} (same : left.toList ++ [] = right.toList ++ []) :
    left = right :=
  String.toList_inj.mp (by rwa [List.append_nil, List.append_nil] at same)

theorem debug_eq_of_parts {t u : Node} (openings : t.opening = u.opening)
    (parts : t.debugParts [] = u.debugParts []) :
    t.debug = u.debug := by
  apply eq_of_toList_append_nil
  rw [debug_append, debug_append, openings, parts]

theorem debugTail_eq_of_forall₂ {ts us : List Node} (alike : List.Forall₂ SameContent ts us)
    (each : ∀ t ∈ ts, ∀ u, t.SameContent u → t.debug = u.debug) : debugTail ts = debugTail us := by
  induction alike with
  | nil => rfl
  | @cons t u ts us first _ ih =>
    have rest := ih fun v member => each v (List.mem_cons_of_mem t member)
    apply eq_of_toList_append_nil
    rw [debugTail_cons_append, debugTail_cons_append, each t List.mem_cons_self u first, rest]

theorem debugBranch_eq_of_rel {branch other : Option Node} (alike : Option.Rel SameContent branch other)
    (each : ∀ t ∈ branch, ∀ u, t.SameContent u → t.debug = u.debug) : debugBranch branch = debugBranch other := by
  cases alike with
  | none => rfl
  | @some t u inside =>
    apply eq_of_toList_append_nil
    rw [debugBranch_some_append, debugBranch_some_append, each t rfl u inside]

theorem debug_eq_of_sameContent (t u : Node) (same : t.SameContent u) : t.debug = u.debug := by
  induction t generalizing u with
  | num x =>
    cases same with
    | num numbers =>
      exact debug_eq_of_parts rfl (by simp only [debugParts, (Number.exactText_eq_iff _ _).mpr numbers])
  | var | params =>
    cases same
    rfl
  | neg t ih | unary f t ih | assign name t ih | define id name ps t ih =>
    cases same
    next inside => exact debug_eq_of_parts rfl (by simp only [debugParts, ih _ inside])
  | arith op l r left right | compare op l r left right | binary op l r left right | seq l r left right =>
    cases same
    next first second => exact debug_eq_of_parts rfl (by simp only [debugParts, left _ first, right _ second])
  | list t ts head tail =>
    cases same with
    | list first others =>
      exact debug_eq_of_parts rfl (by simp only [debugParts, head _ first, debugTail_eq_of_forall₂ others tail])
  | call name ts args =>
    cases same with
    | call others => exact debug_eq_of_parts rfl (by simp only [debugParts, debugTail_eq_of_forall₂ others args])
  | cond t onTrue onFalse test yes no =>
    cases same with
    | cond first second third =>
      exact debug_eq_of_parts rfl (by
        simp only [debugParts, test _ first, debugBranch_eq_of_rel second yes, debugBranch_eq_of_rel third no])

/-- A debug text is unambiguous, whatever stands in the names: it tells kinds, operations, names, missing parts,
lists and definitions, and every number up to which NaN it is. -/
theorem debug_eq_iff_sameContent (t u : Node) : t.debug = u.debug ↔ t.SameContent u := by
  refine ⟨fun texts => ?_, debug_eq_of_sameContent t u⟩
  have followed : t.debug.toList ++ [] = u.debug.toList ++ [] := by rw [texts]
  exact (t.told_debug u [] [] followed).1

end Node

end TreeCalc
