/-! Maps from names to values. -/

namespace TensorIR

/-- Values by name. A new value for a name takes the place of the old one. -/
structure NameMap (α : Type) where
  entries : List (String × α) := []
deriving Inhabited

namespace NameMap

variable {α : Type}

def get? (m : NameMap α) (name : String) : Option α := m.entries.lookup name

def contains (m : NameMap α) (name : String) : Bool := (m.get? name).isSome

theorem contains_eq_false {m : NameMap α} {name : String} :
    m.contains name = false ↔ m.get? name = none := by
  simp [contains]

def insert (m : NameMap α) (name : String) (a : α) : NameMap α := ⟨(name, a) :: m.entries⟩

@[simp]
theorem get?_empty (name : String) : ({} : NameMap α).get? name = none := rfl

theorem get?_insert (m : NameMap α) (name name' : String) (a : α) :
    (m.insert name a).get? name' = if name' = name then some a else m.get? name' := by
  rw [get?, insert, List.lookup_cons]
  by_cases h : name' = name
  · simp [h]
  · rw [beq_false_of_ne h, if_neg h, get?]

end NameMap

end TensorIR
