import Std.Data.ExtTreeMap

namespace TreeCalc

instance nameOrder_trans : Std.TransCmp String.compare := inferInstanceAs (Std.TransOrd String)

instance nameOrder_lawfulEq : Std.LawfulEqCmp String.compare := inferInstanceAs (Std.LawfulEqOrd String)

/-- A finite map from names. Names are ordered by code point, and two tables with the same bindings are
equal, whatever the order in which the bindings were made. -/
structure Table (α : Type) where
  entries : Std.ExtTreeMap String α String.compare := ∅

namespace Table
variable {α : Type}

def empty : Table α := {}

instance : Inhabited (Table α) := ⟨empty⟩

def get? (table : Table α) (name : String) : Option α := table.entries[name]?

def contains (table : Table α) (name : String) : Bool := (table.get? name).isSome

def insert (table : Table α) (name : String) (value : α) : Table α := ⟨table.entries.insert name value⟩

def erase (table : Table α) (name : String) : Table α := ⟨table.entries.erase name⟩

/-- Gives the name the binding it is to have: a value, or none at all. -/
def put (table : Table α) (name : String) : Option α → Table α
  | some value => table.insert name value
  | none => table.erase name

/-- The bound names in code point order. -/
def names (table : Table α) : List String := table.entries.keys

/-- The bindings in the order of their names. -/
def toList (table : Table α) : List (String × α) := table.entries.toList

@[simp] theorem get?_empty (name : String) : (empty : Table α).get? name = none :=
  Std.ExtTreeMap.getElem?_empty

@[simp] theorem get?_insert_self (table : Table α) (name : String) (value : α) :
    (table.insert name value).get? name = some value :=
  Std.ExtTreeMap.getElem?_insert_self

theorem get?_insert (table : Table α) (name other : String) (value : α) :
    (table.insert name value).get? other = if name = other then some value else table.get? other := by
  simp [insert, get?, Std.ExtTreeMap.getElem?_insert]

theorem get?_erase (table : Table α) (name other : String) :
    (table.erase name).get? other = if name = other then none else table.get? other := by
  simp [erase, get?, Std.ExtTreeMap.getElem?_erase]

theorem get?_put (table : Table α) (name other : String) (binding : Option α) :
    (table.put name binding).get? other = if name = other then binding else table.get? other := by
  cases binding with
  | none => exact get?_erase table name other
  | some value => exact get?_insert table name other value

/-- Tables are equal when every name has the same binding in both. -/
theorem ext {left right : Table α} (same : ∀ name, left.get? name = right.get? name) : left = right := by
  cases left
  cases right
  congr 1
  exact Std.ExtTreeMap.ext_getElem? same

theorem mem_names {table : Table α} {name : String} : name ∈ table.names ↔ table.contains name = true := by
  simp only [names, contains, get?, Std.ExtTreeMap.mem_keys, Std.ExtTreeMap.mem_iff_isSome_getElem?]

/-- Names are listed in strictly increasing order. -/
theorem names_sorted (table : Table α) : table.names.Pairwise fun a b => String.compare a b = .lt :=
  Std.ExtTreeMap.ordered_keys

end Table

end TreeCalc
