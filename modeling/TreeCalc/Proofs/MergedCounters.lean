import Mathlib.Data.List.Perm.Basic
import TreeCalc.Proofs.CallAccounting

namespace TreeCalc

/-- What counters count: a call that runs at some depth, or a displayed number. -/
inductive Counted where
  | call (depth : Nat)
  | display
  deriving DecidableEq

namespace Counted

def depth? : Counted → Option Nat
  | call depth => some depth
  | display => none

/-- The depths of the calls in order. -/
def depths (events : List Counted) : List Nat := events.filterMap depth?

def displays (events : List Counted) : Nat := events.countP (·.depth?.isNone)

def ofAct : Act → Counted
  | .call nesting => .call nesting
  | .display _ => .display

end Counted

namespace Counters

def count (c : Counters) : Counted → Counters
  | .call depth => c.countCall depth
  | .display => c.countDisplay

/-- The counters of a session in which just these events were counted. -/
def ofEvents (events : List Counted) : Counters := events.foldl count {}

theorem merge_comm (c d : Counters) : c.merge d = d.merge c := by
  simp only [merge, UInt64.add_comm, Nat.max_comm]

theorem merge_assoc (b c d : Counters) : (b.merge c).merge d = b.merge (c.merge d) := by
  simp only [merge, UInt64.add_assoc, Nat.max_assoc]

theorem merge_zero (c : Counters) : c.merge {} = c := by
  simp only [merge, UInt64.add_zero, Nat.max_zero]

instance merge_commutative : Std.Commutative merge := ⟨merge_comm⟩

instance merge_associative : Std.Associative merge := ⟨merge_assoc⟩

instance merge_identity : Std.LawfulCommIdentity merge {} where
  right_id := merge_zero

/-- Counting an event is merging the counters that know of this event alone. -/
theorem count_eq_merge (c : Counters) (event : Counted) : c.count event = c.merge (ofEvents [event]) := by
  cases event with
  | call depth => simp [count, ofEvents, countCall, merge]
  | display => simp [count, ofEvents, countDisplay, merge]

/-- Events are counted on top of what was counted before. -/
theorem foldl_count (events : List Counted) (c : Counters) : events.foldl count c = c.merge (ofEvents events) := by
  induction events generalizing c with
  | nil => exact c.merge_zero.symm
  | cons event events ih =>
    have whole : ofEvents (event :: events) = (ofEvents [event]).merge (ofEvents events) := ih (ofEvents [event])
    rw [List.foldl_cons, ih, count_eq_merge, whole, merge_assoc]

theorem ofEvents_append (xs ys : List Counted) : ofEvents (xs ++ ys) = (ofEvents xs).merge (ofEvents ys) := by
  rw [ofEvents, List.foldl_append, foldl_count]
  rfl

theorem ofEvents_cons (event : Counted) (events : List Counted) :
    ofEvents (event :: events) = (ofEvents [event]).merge (ofEvents events) :=
  ofEvents_append [event] events

instance count_rightCommutative : RightCommutative count where
  right_comm c d e := by
    -- Both sides are the counters of three parts, of which the last two change places.
    rw [count_eq_merge, count_eq_merge c, count_eq_merge, count_eq_merge c, merge_assoc, merge_assoc,
      merge_comm (ofEvents [d])]

/-- The order in which events are counted does not matter. -/
theorem ofEvents_perm {xs ys : List Counted} (same : xs.Perm ys) : ofEvents xs = ofEvents ys :=
  same.foldl_eq (f := count) {}

/-- The counters of several sessions taken together, one after the other. -/
def total (parts : List Counters) : Counters := parts.foldl merge {}

theorem total_append (parts more : List Counters) : total (parts ++ more) = (total parts).merge (total more) := by
  calc total (parts ++ more)
      = more.foldl merge (total parts) := List.foldl_append
    _ = more.foldl merge ((total parts).merge {}) := by rw [merge_zero]
    _ = (total parts).merge (total more) := List.foldl_assoc

theorem total_perm {parts others : List Counters} (same : parts.Perm others) : total parts = total others :=
  same.foldl_eq (f := merge) {}

/-- Sessions taken together have the counters of one session in which everything happened. -/
theorem total_ofEvents (sessions : List (List Counted)) :
    total (sessions.map ofEvents) = ofEvents sessions.flatten := by
  induction sessions with
  | nil => rfl
  | cons events sessions ih =>
    have alone : total [ofEvents events] = ofEvents events := Std.LawfulLeftIdentity.left_id _
    have apart := total_append [ofEvents events] (sessions.map ofEvents)
    rw [List.singleton_append, alone, ih] at apart
    rw [List.map_cons, List.flatten_cons, apart, ofEvents_append]

/-- What counters say of the events that were counted: how many calls and displays there were, as far as a word of
sixty-four bits can tell, and how deep the deepest call was. -/
structure Tallies (c : Counters) (events : List Counted) : Prop where
  functionCalls : c.functionCalls.toNat = (Counted.depths events).length % UInt64.size
  displayWrites : c.displayWrites.toNat = Counted.displays events % UInt64.size
  maxCallDepth : c.maxCallDepth = (Counted.depths events).foldr max 0

theorem toNat_add_of_mod {v w : UInt64} {m n : Nat} (first : v.toNat = m % UInt64.size)
    (second : w.toNat = n % UInt64.size) : (v + w).toNat = (m + n) % UInt64.size := by
  rw [UInt64.toNat_add, first, second]
  exact (Nat.add_mod m n UInt64.size).symm

theorem Tallies.merge {c d : Counters} {xs ys : List Counted} (first : c.Tallies xs) (second : d.Tallies ys) :
    (c.merge d).Tallies (xs ++ ys) := by
  have depths : Counted.depths (xs ++ ys) = Counted.depths xs ++ Counted.depths ys := List.filterMap_append
  refine ⟨?_, ?_, ?_⟩
  · rw [depths, List.length_append]
    exact toNat_add_of_mod first.functionCalls second.functionCalls
  · rw [Counted.displays, List.countP_append]
    exact toNat_add_of_mod first.displayWrites second.displayWrites
  · have deepest (ns : List Nat) (n : Nat) : ns.foldr max n = max (ns.foldr max 0) n :=
      calc ns.foldr max n
          = ns.foldr max (max 0 n) := by rw [Nat.zero_max]
        _ = max (ns.foldr max 0) n := List.foldr_assoc
    rw [depths, List.foldr_append, deepest, ← first.maxCallDepth, ← second.maxCallDepth]
    rfl

theorem ofEvents_tallies (events : List Counted) : (ofEvents events).Tallies events := by
  induction events with
  | nil => exact ⟨rfl, rfl, rfl⟩
  | cons event events ih =>
    have one : (ofEvents [event]).Tallies [event] := by
      cases event with
      | call depth => exact ⟨rfl, rfl, Nat.max_comm 0 depth⟩
      | display => exact ⟨rfl, rfl, rfl⟩
    exact ofEvents_cons event events ▸ one.merge ih

end Counters

/-- A plan by which counters are merged, two at a time. -/
inductive Merging where
  | part (c : Counters)
  | merge (left right : Merging)

namespace Merging

/-- What is merged, from left to right. -/
def parts : Merging → List Counters
  | part c => [c]
  | merge left right => left.parts ++ right.parts

def result : Merging → Counters
  | part c => c
  | merge left right => left.result.merge right.result

theorem result_eq_total (plan : Merging) : plan.result = Counters.total plan.parts := by
  induction plan with
  | part c => exact (Std.LawfulLeftIdentity.left_id c).symm
  | merge left right first second => rw [result, parts, Counters.total_append, first, second]

end Merging

theorem Watched.counters_record_all (acts : List Act) {w : Watched} (idle : w.callDepth = 0) :
    (acts.foldl record w).counters = w.counters.map fun c => (acts.map Counted.ofAct).foldl Counters.count c := by
  induction acts generalizing w with
  | nil => simp
  | cons a acts ih =>
    have still : (w.record a).callDepth = 0 := by cases a <;> exact idle
    rw [List.foldl_cons, ih still, List.map_cons]
    cases a with
    | display x => simp [record, Counted.ofAct, Counters.count, Function.comp_def]
    | call nesting => simp [record, idle, Counted.ofAct, Counters.count, Function.comp_def]

/-- The counters of a session are those of the events in its evaluations. -/
theorem Session.Past.counters_eq_ofEvents {setup : Setup} {deeds : List Deed} {s : Session}
    (past : Past setup deeds s) (counting : setup.counting = true) :
    s.env.counters = some (Counters.ofEvents ((Deed.acts deeds).map Counted.ofAct)) := by
  let w : Watched := ⟨⟨setup.hostMode.getD setup.mode, ""⟩, some {}, 0⟩
  obtain ⟨output, watched⟩ := Watched.counters_undergo_all deeds w
  have shown : s.env.watched = deeds.foldl Watched.undergo w := by
    rw [past.watched, if_pos counting]
  rw [← shown] at watched
  have counters : s.env.counters = ((Deed.acts deeds).foldl Watched.record w).counters :=
    congrArg Watched.counters watched
  rw [counters, Watched.counters_record_all _ rfl]
  rfl

/-- Merging counters is counting in one session. It is commutative and associative, and counters at zero change
nothing; what two parts of a session count from zero each is merged to what is counted in the whole. So counters
come to the same total however they are ordered and grouped, and the total of sessions is what one session counts
in which all their events happen, in whatever order. Counts are told modulo two to the power of sixty-four, in the
parts as in the total. -/
theorem Counters.merge_counts_together :
    (∀ c d : Counters, c.merge d = d.merge c) ∧
    (∀ b c d : Counters, (b.merge c).merge d = b.merge (c.merge d)) ∧
    (∀ c : Counters, c.merge {} = c ∧ merge {} c = c) ∧
    (∀ xs ys, ofEvents (xs ++ ys) = (ofEvents xs).merge (ofEvents ys)) ∧
    (∀ plan other : Merging, plan.parts.Perm other.parts → plan.result = other.result) ∧
    (∀ (sessions : List (List Counted)) (plan : Merging) (events : List Counted),
      plan.parts.Perm (sessions.map ofEvents) → events.Perm sessions.flatten →
      plan.result = ofEvents events ∧ plan.result.Tallies events) ∧
    ∀ (setup : Setup) (deeds : List Deed) (s : Session), Session.Past setup deeds s → setup.counting = true →
      s.env.counters = some (ofEvents ((Deed.acts deeds).map Counted.ofAct)) := by
  refine ⟨merge_comm, merge_assoc, ?_, ofEvents_append, ?_, ?_, ?_⟩
  · intro c
    exact ⟨c.merge_zero, (merge_comm {} c).trans c.merge_zero⟩
  · intro plan other same
    rw [plan.result_eq_total, other.result_eq_total, total_perm same]
  · intro sessions plan events same shuffled
    have counted : plan.result = ofEvents events := by
      rw [plan.result_eq_total, total_perm same, total_ofEvents, ofEvents_perm shuffled]
    exact ⟨counted, counted ▸ ofEvents_tallies events⟩
  · exact fun setup deeds s past counting => past.counters_eq_ofEvents counting

/-- Two sessions, merged the later one first, and one session in which their events alternate. -/
theorem Counters.merge_counts_together_alternating :
    (Merging.merge (.part (ofEvents [.call 3, .display])) (.part (ofEvents [.call 1, .display]))).result =
        ofEvents [.call 1, .call 3, .display, .display] ∧
      (ofEvents [.call 1, .call 3, .display, .display]).maxCallDepth = 3 ∧
      (Merging.merge (.part { functionCalls := 18446744073709551615 }) (.part { functionCalls := 2 })).result =
        (Merging.merge (.part { functionCalls := 2 }) (.part { functionCalls := 18446744073709551615 })).result ∧
      (Session.start { counting := true }).env.counters = some (ofEvents []) := by
  obtain ⟨-, -, -, -, regrouped, together, sessions⟩ := merge_counts_together
  obtain ⟨counted, tallies⟩ := together [[.call 1, .display], [.call 3, .display]]
    (.merge (.part (ofEvents [.call 3, .display])) (.part (ofEvents [.call 1, .display])))
    [.call 1, .call 3, .display, .display] (by decide) (by decide)
  refine ⟨counted, ?_, ?_, ?_⟩
  · rw [← counted, tallies.maxCallDepth]
    decide
  · exact regrouped _ _ (by decide)
  · exact sessions { counting := true } [] _ .start rfl

end TreeCalc
