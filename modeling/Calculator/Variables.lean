import Std.Data.ExtTreeMap

/-!
# Variables

A table of variables gives numbers to some characters. Two tables are equal if they give the same
numbers to the same characters (`Variables.ext_get?`), and a table lists its entries by name.
-/

namespace Calculator

/-- A table of variables. -/
structure Variables where
  table : Std.ExtTreeMap Char Float := ∅

namespace Variables

instance : EmptyCollection Variables := ⟨{}⟩

/-- The value of a variable. -/
def get? (vars : Variables) (name : Char) : Option Float := vars.table[name]?

/-- Whether a variable has a value. -/
def contains (vars : Variables) (name : Char) : Bool := vars.table.contains name

/-- The table in which `name` has the value `value`. -/
def set (vars : Variables) (name : Char) (value : Float) : Variables :=
  ⟨vars.table.insert name value⟩

/-- The number of variables. -/
def size (vars : Variables) : Nat := vars.table.size

/-- Whether no variable has a value. -/
def isEmpty (vars : Variables) : Bool := vars.table.isEmpty

/-- All variables with their values, ordered by name. -/
def entries (vars : Variables) : List (Char × Float) := vars.table.toList

theorem ext_get? {vars vars' : Variables} (h : ∀ name, vars.get? name = vars'.get? name) :
    vars = vars' :=
  congrArg Variables.mk (Std.ExtTreeMap.ext_getElem? h)

@[simp]
theorem get?_empty (name : Char) : (∅ : Variables).get? name = none :=
  Std.ExtTreeMap.getElem?_empty

theorem get?_set (vars : Variables) (name name' : Char) (value : Float) :
    (vars.set name value).get? name' = if name = name' then some value else vars.get? name' := by
  simp [get?, set, Std.ExtTreeMap.getElem?_insert]

theorem contains_eq_isSome (vars : Variables) (name : Char) :
    vars.contains name = (vars.get? name).isSome :=
  Std.ExtTreeMap.contains_eq_isSome_getElem?

end Variables

end Calculator
