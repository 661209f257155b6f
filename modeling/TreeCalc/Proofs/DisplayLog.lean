import Mathlib.Data.List.DropRight
import TreeCalc.Proofs.Numerals
import TreeCalc.Proofs.SessionDeeds
import TreeCalc.Proofs.TextLines

namespace TreeCalc

namespace Output
variable {output : Output}

/-- Lines written one after the other stand one after the other, unless the output is silent. -/
theorem println_all (heard : output.mode ≠ .silent) (lines : List String) :
    lines.foldl println output = { output with text := output.text ++ Text.ofLines lines } := by
  induction lines generalizing output with
  | nil =>
    have nothing : Text.ofLines [] = "" := rfl
    rw [nothing, String.append_empty]
    rfl
  | cons line lines ih =>
    have first : output.println line = { output with text := output.text ++ line ++ "\n" } := by
      unfold println
      split
      · next silent => exact absurd silent heard
      · rfl
      · rfl
    have joined : Text.ofLines (line :: lines) = line ++ "\n" ++ Text.ofLines lines :=
      Text.ofLines_append [line] lines
    have still : (Output.mk output.mode (output.text ++ line ++ "\n")).mode ≠ .silent := heard
    rw [List.foldl_cons, first, ih still, joined]
    simp only [String.append_assoc]

theorem println_all_silent (silent : output.mode = .silent) (lines : List String) :
    lines.foldl println output = output := by
  induction lines with
  | nil => rfl
  | cons line lines ih =>
    have first : output.println line = output := by simp only [println, silent]
    rw [List.foldl_cons, first, ih]

end Output

theorem newline_notMem_general (x : Float) : '\n' ∉ (Number.general x).toList :=
  (Number.numeral x).notMem (by decide)

theorem newline_notMem_marked {text : String} (plain : '\n' ∉ text.toList) :
    '\n' ∉ (displayMark ++ text).toList := by
  rw [String.toList_append, List.mem_append]
  rintro (mark | inside)
  · revert mark
    decide
  · exact plain inside

/-- The text with which numbers are displayed. -/
def displayText (xs : List Float) : String := Text.ofLines (xs.map displayLine)

theorem count_newline_displayText (xs : List Float) : (displayText xs).toList.count '\n' = xs.length := by
  have plain : ∀ line ∈ xs.map displayLine, '\n' ∉ line.toList := by
    intro line member
    obtain ⟨x, _, rfl⟩ := List.mem_map.mp member
    exact newline_notMem_marked (newline_notMem_general x)
  rw [displayText, Text.count_newline_ofLines plain, List.length_map]

theorem eq_of_displayText_eq {xs : List Float} {texts : List String} (plain : ∀ text ∈ texts, '\n' ∉ text.toList)
    (same : displayText xs = Text.ofLines (texts.map (displayMark ++ ·))) : texts = xs.map Number.general := by
  have marked : ∀ texts : List String, (∀ text ∈ texts, '\n' ∉ text.toList) →
      ∀ line ∈ texts.map (displayMark ++ ·), '\n' ∉ line.toList := by
    intro texts plain line member
    obtain ⟨text, inside, rfl⟩ := List.mem_map.mp member
    exact newline_notMem_marked (plain text inside)
  have numbers : ∀ text ∈ xs.map Number.general, '\n' ∉ text.toList := by
    intro text member
    obtain ⟨x, _, rfl⟩ := List.mem_map.mp member
    exact newline_notMem_general x
  have shape : xs.map displayLine = (xs.map Number.general).map (displayMark ++ ·) := by
    rw [List.map_map]
    rfl
  rw [displayText, shape] at same
  have lines := Text.eq_of_ofLines_eq (marked _ numbers) (marked _ plain) same
  have injective : Function.Injective (displayMark ++ · : String → String) :=
    fun s t => (String.append_right_inj _).mp
  exact (List.map_injective_iff.mpr injective lines).symm

/-- What was written from one environment to another: a text that is captured or goes to standard output, or is
lost. -/
structure Env.Gains (env after : Env) (text : String) : Prop where
  mode : after.output.mode = env.output.mode
  captured : env.output.mode = .capture → after.output.captured = env.output.captured ++ text
  printed : env.output.mode = .stdout → after.output.printed = env.output.printed ++ text
  silent : env.output.mode = .silent → after.output = env.output

theorem Env.Gains.of_watched {env after : Env} {acts : List Act}
    (watched : after.watched = acts.foldl Watched.record env.watched) :
    env.Gains after (displayText (Act.shown acts)) := by
  rw [Watched.record_all] at watched
  have output : after.output = ((Act.shown acts).map displayLine).foldl Output.println env.output :=
    congrArg Watched.output watched
  by_cases heard : env.output.mode = .silent
  · rw [Output.println_all_silent heard] at output
    have apart : env.output.mode ≠ .capture ∧ env.output.mode ≠ .stdout := by simp [heard]
    exact ⟨by rw [output], fun capture => absurd capture apart.1, fun stdout => absurd stdout apart.2,
      fun _ => output⟩
  · rw [Output.println_all heard] at output
    refine ⟨by rw [output], ?_, ?_, fun silent => absurd silent heard⟩
    · intro capture
      simp only [output, Output.captured, if_pos capture]
      rfl
    · intro stdout
      simp only [output, Output.printed, if_pos stdout]
      rfl

/-- From one environment to another just these numbers were displayed. -/
structure Env.Logs (env after : Env) (xs : List Float) : Prop where
  /-- Their lines were added to the captured text, and nothing else was. -/
  appended : after.output.captured = env.output.captured ++ displayText xs
  /-- There is one more newline for every displayed number. -/
  newlines : after.output.captured.toList.count '\n' = env.output.captured.toList.count '\n' + xs.length
  /-- Displays are counted in a word of sixty-four bits. -/
  writes : after.counters.map (·.displayWrites.toNat) =
    env.counters.map fun c => (c.displayWrites.toNat + xs.length) % UInt64.size
  /-- What was added can be cut into displayed texts in one way only. -/
  unique : ∀ texts : List String, (∀ text ∈ texts, '\n' ∉ text.toList) →
    after.output.captured = env.output.captured ++ Text.ofLines (texts.map (displayMark ++ ·)) →
      texts = xs.map Number.general

/-- What the acts of an evaluation do to an output that captures is to log the displays among them. -/
theorem Env.Logs.of_watched {env after : Env} {acts : List Act} (captures : env.output.mode = .capture)
    (watched : after.watched = acts.foldl Watched.record env.watched) : env.Logs after (Act.shown acts) := by
  have appended := (Env.Gains.of_watched watched).captured captures
  rw [Watched.record_all] at watched
  have counters : after.counters = env.counters.map _ := congrArg Watched.counters watched
  refine ⟨appended, ?_, ?_, ?_⟩
  · rw [appended, String.toList_append, List.count_append, count_newline_displayText]
  · rw [counters, Option.map_map]
    exact congrArg (fun f => env.counters.map f) (funext fun c => Counters.toNat_add_ofNat _ _)
  · intro texts plain same
    rw [appended] at same
    exact eq_of_displayText_eq plain ((String.append_right_inj _).mp same)

namespace Deed

/-- The line that a deed writes. -/
def line? : Deed → Option String
  | act a => a.shown?.map displayLine
  | print line => some line
  | clear => none

def isClear : Deed → Bool
  | clear => true
  | act _ | print _ => false

/-- The lines written since the output was last cleared. -/
def linesSinceClear (deeds : List Deed) : List String := (deeds.rtakeWhile (!·.isClear)).filterMap line?

theorem linesSinceClear_concat {d : Deed} (keeps : d.isClear = false) (deeds : List Deed) :
    linesSinceClear (deeds ++ [d]) = linesSinceClear deeds ++ d.line?.toList := by
  rw [linesSinceClear, List.rtakeWhile_concat_pos _ _ _ (by simp [keeps]), List.filterMap_append]
  cases line : d.line? <;> simp [linesSinceClear, line]

theorem linesSinceClear_concat_clear (deeds : List Deed) : linesSinceClear (deeds ++ [clear]) = [] := by
  rw [linesSinceClear, List.rtakeWhile_concat_neg _ _ _ (by simp [isClear])]
  rfl

end Deed

/-- An output that captures from the start keeps just what was written since it was last cleared. -/
theorem Watched.output_undergo_all {w : Watched} (begins : w.output = ⟨.capture, ""⟩) (deeds : List Deed) :
    (deeds.foldl Watched.undergo w).output = ⟨.capture, Text.ofLines (Deed.linesSinceClear deeds)⟩ := by
  have written : ∀ (lines : List String) (line : String),
      (Output.mk .capture (Text.ofLines lines)).println line = ⟨.capture, Text.ofLines (lines ++ [line])⟩ := by
    intro lines line
    have heard : (Output.mk .capture (Text.ofLines lines)).mode ≠ .silent := nofun
    rw [Text.ofLines_append]
    exact Output.println_all heard [line]
  -- The last deed decides whether what stands before it counts, so the induction is from the end.
  induction deeds using List.reverseRecOn with
  | nil => exact begins
  | append_singleton deeds d ih =>
    rw [List.foldl_append, List.foldl_cons, List.foldl_nil]
    cases d with
    | clear =>
      rw [Deed.linesSinceClear_concat_clear]
      simp only [undergo, ih]
      rfl
    | print line =>
      rw [Deed.linesSinceClear_concat rfl]
      simp only [undergo, ih]
      exact written _ line
    | act a =>
      rw [Deed.linesSinceClear_concat rfl]
      cases a with
      | display x =>
        simp only [undergo, record, ih]
        exact written _ (displayLine x)
      | call nesting =>
        simp only [undergo, record, ih, Deed.line?, Act.shown?, Option.map_none, Option.toList_none,
          List.append_nil]

/-- A function that displays its parameter and calls itself with one less, down to zero. -/
def Definition.countdown : Definition :=
  ⟨0, "countdown", ⟨"n", []⟩, .cond (.compare .gt (.var "n") (.num 0.0))
    (some (.seq (.unary .display (.var "n")) (.call "countdown" [.arith .sub (.var "n") (.num 1.0)]))) none⟩

namespace Session

theorem Past.output {setup : Setup} {deeds : List Deed} {s : Session} (past : Past setup deeds s)
    (captures : setup.hostMode.getD setup.mode = .capture) :
    s.env.output = ⟨.capture, Text.ofLines (Deed.linesSinceClear deeds)⟩ := by
  refine (congrArg Watched.output past.watched).trans (Watched.output_undergo_all ?_ deeds)
  simp only [captures]

/-- The captured text is a log. An evaluation of a tree or of a program adds a line for every number that it
displays, in order and whatever calls are running, and nothing else; the counters count as many; and from what was
added one reads off what was displayed. In a session the text is what was written since it was last cleared, by
evaluations and by the host. -/
theorem captured_text_is_log :
    (∀ (t : Node) (fuel : Nat) (env after : Env) (x : Float), env.output.mode = .capture →
      t.evaluate fuel env = some (x, after) → env.Logs after (Act.shown (t.acts fuel env))) ∧
    (∀ (program : Program) (fuel : Nat) (env after : Env) (x : Float), env.output.mode = .capture →
      program.evaluateAll fuel env = some (x, after) → env.Logs after (Act.shown (program.acts fuel env))) ∧
    ∀ (setup : Setup) (deeds : List Deed) (s : Session), setup.hostMode.getD setup.mode = .capture →
      Past setup deeds s → ∀ fuel,
        s.serve fuel .output = some (s, .text (Text.ofLines (Deed.linesSinceClear deeds))) := by
  refine ⟨?_, ?_, ?_⟩
  · intro t fuel env after x captures ends
    exact .of_watched captures (Node.evaluate_watched ends)
  · intro program fuel env after x captures ends
    exact .of_watched captures (Program.evaluateAll_watched ends)
  · intro setup deeds s captures past fuel
    simp only [serve, past.output captures, Output.captured, if_pos]

/-- Displays inside calls inside one another come in the order of the calls. What the host writes stands between
what evaluations display, and what was written before the output was cleared is gone. -/
theorem captured_text_is_log_countdown :
    (∃ x after, (Node.call "countdown" [.num 3.0]).evaluate 100
        { output := ⟨.capture, "before\n"⟩, counters := some {},
          functions := Table.empty.insert "countdown" .countdown } = some (x, after) ∧
      after.output.captured = "before\n= 3\n= 2\n= 1\n" ∧ after.counters.map (·.displayWrites.toNat) = some 3) ∧
    ∃ s, Past { mode := .capture }
        [.print "before", .clear, .act (.display 1.0), .print "between", .act (.display (-2.0))] s ∧
      s.serve 0 .output = some (s, .text "= 1\nbetween\n= -2\n") := by
  refine ⟨?_, ?_⟩
  · let env : Env :=
      { output := ⟨.capture, "before\n"⟩, counters := some {},
        functions := Table.empty.insert "countdown" .countdown }
    have ends : ((Node.call "countdown" [.num 3.0]).evaluate 100 env).isSome = true := by decide +kernel
    obtain ⟨⟨x, after⟩, run⟩ := Option.isSome_iff_exists.mp ends
    have logs := captured_text_is_log.1 _ _ env after x rfl run
    refine ⟨x, after, run, ?_, ?_⟩
    · rw [logs.appended]
      decide +kernel
    · rw [logs.writes]
      decide +kernel
  · have past : ∃ s, Past { mode := .capture }
        [.print "before", .clear, .act (.display 1.0), .print "between", .act (.display (-2.0))] s := by
      have written : Past { mode := .capture } [.print "before"] _ := .serve .start 0 (.print "before") rfl
      have cleared : Past { mode := .capture } [.print "before", .clear] _ := written.serve 0 .clearOutput rfl
      have shown := cleared.serve 9 (.eval (.unary .display (.num 1.0)) 1) rfl
      have again := (shown.serve 0 (.print "between") rfl).serve 9 (.eval (.unary .display (.num (-2.0))) 1) rfl
      exact ⟨_, again⟩
    obtain ⟨s, past⟩ := past
    have text : Text.ofLines (Deed.linesSinceClear
        [.print "before", .clear, .act (.display 1.0), .print "between", .act (.display (-2.0))]) =
          "= 1\nbetween\n= -2\n" := by decide +kernel
    exact ⟨s, past, text ▸ captured_text_is_log.2.2 _ _ s rfl past 0⟩

end Session

end TreeCalc
