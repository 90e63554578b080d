import MappedQuery.Json.Basic

/-!
# Members of an object

An object that is put together from members has each of their keys once, with the value of the
last member of that key. What precedes the last member of a key is not in the object.
-/
namespace MappedQuery.Json

/-- The last member of a key. -/
def lastMember? (key : String) (members : List (String × Json)) : Option (String × Json) :=
  (members.filter (·.1 = key)).getLast?

theorem lastMember?_append (key : String) (ms ns : List (String × Json)) :
    lastMember? key (ms ++ ns) = (lastMember? key ns).or (lastMember? key ms) := by
  rw [lastMember?, List.filter_append, List.getLast?_append]
  rfl

@[simp] theorem lastMember?_nil (key : String) : lastMember? key [] = none := rfl

@[simp] theorem lastMember?_singleton (key : String) (m : String × Json) :
    lastMember? key [m] = if m.1 = key then some m else none := by
  by_cases h : m.1 = key <;> simp [lastMember?, h]

theorem mem_of_lastMember? {key : String} {ms : List (String × Json)} {m : String × Json}
    (h : lastMember? key ms = some m) : m ∈ ms ∧ m.1 = key := by
  have hmem := List.mem_filter.1 (List.mem_of_getLast? h)
  exact ⟨hmem.1, of_decide_eq_true hmem.2⟩

theorem lastMember?_eq_none {key : String} {ms : List (String × Json)} :
    lastMember? key ms = none ↔ ∀ m ∈ ms, m.1 ≠ key := by
  simp [lastMember?]

theorem find?_putAll (key : String) (ms acc : List (String × Json)) :
    (putAll acc ms).find? (·.1 = key) = (lastMember? key ms).or (acc.find? (·.1 = key)) := by
  induction ms generalizing acc with
  | nil => simp [putAll]
  | cons m ms ih =>
    have hstep : putAll acc (m :: ms) = putAll (put m.1 m.2 acc) ms := rfl
    rw [hstep, ih, find?_put, ← List.singleton_append, lastMember?_append, lastMember?_singleton]
    split <;> simp

/-- An object has the last of the members of a key. -/
theorem get?_ofMembers (key : String) (ms : List (String × Json)) :
    (ofMembers ms).get? key = (lastMember? key ms).map (·.2) := by
  rw [ofMembers, get?, find?_putAll]
  simp

theorem nodup_keys_putAll {acc : List (String × Json)} (hacc : (acc.map Prod.fst).Nodup)
    (ms : List (String × Json)) : ((putAll acc ms).map Prod.fst).Nodup := by
  induction ms generalizing acc with
  | nil => exact hacc
  | cons m ms ih =>
    refine ih ?_
    rw [keys_put]
    split
    · exact hacc
    · rename_i hnew
      refine List.nodup_append.2 ⟨hacc, by simp, fun key hkey other hother => ?_⟩
      rw [List.mem_singleton.1 hother]
      exact fun heq => hnew (heq ▸ hkey)

theorem put_of_not_mem {key : String} {ms : List (String × Json)} (h : key ∉ ms.map Prod.fst)
    (value : Json) : put key value ms = ms ++ [(key, value)] := by
  induction ms with
  | nil => rfl
  | cons m ms ih =>
    rw [List.map_cons, List.mem_cons, not_or] at h
    rw [put, if_neg fun heq => h.1 heq.symm, ih h.2]
    rfl

theorem putAll_of_nodup (acc ms : List (String × Json))
    (h : ((acc ++ ms).map Prod.fst).Nodup) : putAll acc ms = acc ++ ms := by
  induction ms generalizing acc with
  | nil => exact (List.append_nil acc).symm
  | cons m ms ih =>
    have hstep : putAll acc (m :: ms) = putAll (put m.1 m.2 acc) ms := rfl
    have hnew : m.1 ∉ acc.map Prod.fst := by
      rw [List.map_append, List.nodup_append] at h
      exact fun hmem => h.2.2 _ hmem _ (List.mem_map_of_mem List.mem_cons_self) rfl
    rw [List.append_cons] at h
    rw [hstep, put_of_not_mem hnew, ih _ h, ← List.append_cons]

/-- Members of which none has the key of another are the members of an object. -/
theorem ofMembers_of_nodup {ms : List (String × Json)} (h : (ms.map Prod.fst).Nodup) :
    ofMembers ms = object ms := by
  rw [ofMembers, putAll_of_nodup [] ms h, List.nil_append]

end MappedQuery.Json
