import MappedQuery.Number.Decimal

/-!
# Documents

A JSON document keeps the members of an object in order. Putting a member whose key is already
there keeps the key's place and takes the new value, so `Json.ofMembers` gives every key its
first place and its last value.
-/
namespace MappedQuery

/-- A JSON document. Whole numbers are kept exactly, all other numbers are finite doubles. -/
inductive Json where
  | null
  | bool (b : Bool)
  | integer (n : Int)
  | double (x : Double)
  | string (s : String)
  | array (elements : List Json)
  | object (members : List (String × Json))
deriving Repr, Inhabited

namespace Json

/-- The members with `key` bound to `value`, in the key's old place if it has one. -/
def put (key : String) (value : Json) : List (String × Json) → List (String × Json)
  | [] => [(key, value)]
  | (k, v) :: rest => if k = key then (key, value) :: rest else (k, v) :: put key value rest

/-- The object with these members, put one after the other. -/
def putAll (members : List (String × Json)) (more : List (String × Json)) :
    List (String × Json) :=
  more.foldl (fun ms m => put m.1 m.2 ms) members

def ofMembers (members : List (String × Json)) : Json := object (putAll [] members)

/-- The member of an object; other documents have none. -/
def get? (key : String) : Json → Option Json
  | object members => (members.find? (·.1 = key)).map (·.2)
  | _ => none

/-- The document of a double: infinities and not-a-number have none and become null. -/
def ofDouble (x : Double) : Json := if x.isFinite then double x else null

def asString? : Json → Option String
  | string s => some s
  | _ => none

def isNull : Json → Bool
  | null => true
  | _ => false

/-- The keys after a put: the same, or the new one at the end. -/
theorem keys_put (key : String) (value : Json) (members : List (String × Json)) :
    (put key value members).map Prod.fst =
      if key ∈ members.map Prod.fst then members.map Prod.fst
      else members.map Prod.fst ++ [key] := by
  induction members with
  | nil => simp [put]
  | cons m rest ih =>
    obtain ⟨k, v⟩ := m
    by_cases h : k = key
    · simp [put, h]
    · have h' : ¬ key = k := fun e => h e.symm
      by_cases hr : key ∈ rest.map Prod.fst
      · rw [if_pos hr] at ih
        simp only [put, if_neg h, List.map_cons, ih]
        rw [if_pos (List.mem_cons_of_mem _ hr)]
      · rw [if_neg hr] at ih
        simp only [put, if_neg h, List.map_cons, ih, List.cons_append]
        rw [if_neg (by simp only [List.mem_cons, not_or]; exact ⟨h', hr⟩)]

/-- A put binds its own key and leaves every other one as it was. -/
theorem find?_put (key other : String) (value : Json) (members : List (String × Json)) :
    (put key value members).find? (·.1 = other) =
      if key = other then some (key, value) else members.find? (·.1 = other) := by
  induction members with
  | nil => by_cases h : key = other <;> simp [put, h]
  | cons m rest ih =>
    obtain ⟨k, v⟩ := m
    by_cases hk : k = key <;> by_cases h : key = other <;> by_cases ho : k = other <;>
      simp_all [put]

end Json

end MappedQuery
