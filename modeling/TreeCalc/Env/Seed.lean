import TreeCalc.Env.Basic
import TreeCalc.Number.Literal
import TreeCalc.Text.Blank

namespace TreeCalc

/-- What can be wrong with one `name=value` in a seed. -/
inductive SeedError where
  | missingEquals (pair : String)
  | emptyName (pair : String)
  | invalidValue (name value : String)
  deriving DecidableEq

def SeedError.message : SeedError → String
  | missingEquals pair => s!"expected `name=value`, found `{pair}`"
  | emptyName pair => s!"missing variable name in `{pair}`"
  | invalidValue name value => s!"invalid value `{value}` for variable `{name}`"

namespace Seed

/-- The bindings of a seed are set apart by commas and blanks. -/
def isSeparator (c : Char) : Bool := c == ',' || Text.isBlank c

theorem isSeparator_iff {c : Char} : isSeparator c = true ↔ c = ',' ∨ c ∈ Text.whiteSpace := by
  rw [isSeparator, Bool.or_eq_true, beq_iff_eq, Text.isBlank_iff_mem]

/-- Reads `name=value`. The name ends before the first equals sign. -/
def readPair (pair : List Char) : Except SeedError (String × Float) :=
  let name := pair.takeWhile (· != '=')
  match pair.dropWhile (· != '=') with
  | [] => .error (.missingEquals (String.ofList pair))
  | _ :: value =>
    if name.isEmpty then .error (.emptyName (String.ofList pair))
    else
      match Number.read? (String.ofList value) with
      | none => .error (.invalidValue (String.ofList name) (String.ofList value))
      | some x => .ok (String.ofList name, x)

/-- Reads all bindings of a seed, or finds the leftmost fault. -/
def read (text : String) : Except SeedError (List (String × Float)) :=
  (Text.runs isSeparator text.toList).mapM readPair

end Seed

/-- Assigns from left to right. -/
def Env.assignAll (env : Env) (bindings : List (String × Float)) : Env :=
  bindings.foldl (fun env binding => env.assign binding.1 binding.2) env

theorem Env.assignAll_eq (bindings : List (String × Float)) (env : Env) :
    env.assignAll bindings = { env with vars := (env.assignAll bindings).vars } := by
  induction bindings generalizing env with
  | nil => rfl
  | cons binding bindings ih => exact ih (env.assign binding.1 binding.2)

/-- Assigns all bindings of a seed, or none of them if there is a fault. -/
def Env.seed (env : Env) (text : String) : Except SeedError Env := (Seed.read text).map env.assignAll

end TreeCalc
