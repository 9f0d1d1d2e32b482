/-!
# Fields

Named entries in the order in which the names first came up. Putting an entry under a name that is there already changes
the entry and keeps its place.
-/

namespace Agenda

set_option autoImplicit false

abbrev Fields (α : Type) := List (String × α)

namespace Fields

variable {α : Type}

def get? : Fields α → String → Option α
  | [], _ => none
  | (name, a) :: rest, key => if name = key then some a else get? rest key

/-- Puts an entry under a name: in its place if the name is there, else at the end. -/
def insert : Fields α → String → α → Fields α
  | [], key, a => [(key, a)]
  | (name, b) :: rest, key, a => if name = key then (name, a) :: rest else (name, b) :: insert rest key a

def keys (fields : Fields α) : List String := fields.map (·.1)

def insertAll (fields entries : Fields α) : Fields α :=
  entries.foldl (fun acc entry => acc.insert entry.1 entry.2) fields

/-- The entries of a list in which a name may come up again: it keeps its first place and its last entry. -/
def ofEntries (entries : List (String × α)) : Fields α := insertAll [] entries

@[simp] theorem get?_nil (key : String) : get? ([] : Fields α) key = none := rfl

theorem get?_cons (name : String) (a : α) (rest : Fields α) (key : String) :
    get? ((name, a) :: rest) key = if name = key then some a else get? rest key := rfl

@[simp] theorem get?_insert_self (fields : Fields α) (key : String) (a : α) :
    (fields.insert key a).get? key = some a := by
  induction fields with
  | nil => simp [insert, get?]
  | cons entry rest ih =>
    obtain ⟨name, b⟩ := entry
    by_cases h : name = key <;> simp [insert, get?, h, ih]

theorem get?_insert_of_ne (fields : Fields α) {key other : String} (a : α) (h : key ≠ other) :
    (fields.insert key a).get? other = fields.get? other := by
  induction fields with
  | nil => simp [insert, get?, h]
  | cons entry rest ih =>
    obtain ⟨name, b⟩ := entry
    by_cases hn : name = key
    · simp [insert, get?, hn, h]
    · by_cases ho : name = other
      · subst ho
        simp [insert, get?, hn]
      · simp [insert, get?, hn, ho, ih]

end Fields

end Agenda
