/-!
# Names with values, in order of first entry

* `put r name v`    gives the name a new value; a name already there keeps its place;
* `get? r name`     its value.
-/

namespace StaticPromotion

abbrev Registry (α : Type) := List (String × α)

namespace Registry

variable {α : Type}

def get? : Registry α → String → Option α
  | [], _ => none
  | entry :: rest, name => if entry.1 = name then some entry.2 else get? rest name

def put : Registry α → String → α → Registry α
  | [], name, v => [(name, v)]
  | entry :: rest, name, v =>
    if entry.1 = name then (name, v) :: rest else entry :: put rest name v

@[simp] theorem get?_put_self (r : Registry α) (name : String) (v : α) :
    (r.put name v).get? name = some v := by
  induction r with
  | nil => simp [put, get?]
  | cons entry rest ih => by_cases h : entry.1 = name <;> simp [put, get?, h, ih]

theorem get?_put_of_ne (r : Registry α) {name other : String} (v : α) (h : other ≠ name) :
    (r.put name v).get? other = r.get? other := by
  induction r with
  | nil => simp [put, get?, h.symm]
  | cons entry rest ih =>
    by_cases he : entry.1 = name
    · simp [put, get?, he, h.symm]
    · simp only [put, get?, he, if_false, ih]

end Registry

end StaticPromotion
