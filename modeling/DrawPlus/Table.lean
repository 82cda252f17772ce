/-!
# Tables in order of insertion

A table is a list of keys with their values in which a key stands where it was first inserted. A new
value for a key takes the place of the old one.
-/

namespace DrawPlus.Table

variable {α β : Type} [DecidableEq α]

/-- Give a key a value: in its place if it is there, else at the end. -/
def insert (key : α) (value : β) : List (α × β) → List (α × β)
  | [] => [(key, value)]
  | entry :: rest =>
    if entry.1 = key then (key, value) :: rest else entry :: insert key value rest

def erase (key : α) (table : List (α × β)) : List (α × β) :=
  table.filter fun entry => entry.1 ≠ key

theorem erase_cons (key : α) (entry : α × β) (table : List (α × β)) :
    erase key (entry :: table) =
      if entry.1 = key then erase key table else entry :: erase key table := by
  by_cases h : entry.1 = key <;> simp [erase, h]

def has (key : α) (table : List (α × β)) : Bool :=
  table.any fun entry => entry.1 = key

section

variable [BEq α] [LawfulBEq α]

theorem lookup_cons_eq_ite (entry : α × β) (rest : List (α × β)) (key : α) :
    (entry :: rest).lookup key = if entry.1 = key then some entry.2 else rest.lookup key := by
  rw [show entry :: rest = (entry.1, entry.2) :: rest from rfl, List.lookup_cons]
  by_cases h : entry.1 = key
  · simp [h]
  · rw [beq_eq_false_iff_ne.mpr (Ne.symm h), if_neg h]

@[simp]
theorem lookup_insert_self (key : α) (value : β) (table : List (α × β)) :
    (insert key value table).lookup key = some value := by
  induction table with
  | nil => simp [insert]
  | cons entry rest ih =>
    by_cases h : entry.1 = key <;> simp [insert, lookup_cons_eq_ite, h, ih]

theorem lookup_insert_of_ne {key other : α} (h : other ≠ key) (value : β)
    (table : List (α × β)) : (insert key value table).lookup other = table.lookup other := by
  induction table with
  | nil => simp [insert, lookup_cons_eq_ite, Ne.symm h]
  | cons entry rest ih =>
    by_cases he : entry.1 = key
    · simp [insert, lookup_cons_eq_ite, he, Ne.symm h]
    · simp [insert, lookup_cons_eq_ite, he, ih]

theorem lookup_erase_self (key : α) (table : List (α × β)) :
    (erase key table).lookup key = none := by
  induction table with
  | nil => rfl
  | cons entry rest ih =>
    by_cases h : entry.1 = key <;> simp [erase_cons, lookup_cons_eq_ite, h, ih]

theorem lookup_erase_of_ne {key other : α} (h : other ≠ key) (table : List (α × β)) :
    (erase key table).lookup other = table.lookup other := by
  induction table with
  | nil => rfl
  | cons entry rest ih =>
    by_cases he : entry.1 = key
    · simp [erase_cons, lookup_cons_eq_ite, he, ih, Ne.symm h]
    · simp [erase_cons, lookup_cons_eq_ite, he, ih]

end

end DrawPlus.Table
