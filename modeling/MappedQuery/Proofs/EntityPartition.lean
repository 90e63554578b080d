import Mathlib.Data.List.Induction
import Mathlib.Data.List.Nodup
import Mathlib.Data.List.Perm.Basic
import MappedQuery.Proofs.EntityGroups

/-!
# Entities part the rows

Rows can be taken apart in one pass that remembers where the group of each key stands. `Grouping`
is what the pass has come to: after some items its groups are those of the items by key, and the
place it remembers of a key is where the key stands among those seen. So the entities of rows part
the rows that have a key: each such row is in one group, with the rows of its key and in their
order, and the groups stand in the order of their first rows.
-/
namespace MappedQuery.Sql

/-- Groups in the making, and where the group of each key stands among them. -/
structure Grouping (κ α : Type) where
  places : List (κ × Nat)
  groups : List (List α)

namespace Grouping

variable {α κ : Type} [DecidableEq κ]

def empty : Grouping κ α := ⟨[], []⟩

def place? (g : Grouping κ α) (k : κ) : Option Nat := (g.places.find? (·.1 = k)).map (·.2)

/-- Puts an item behind the others of its key, or into a new group; an item without a key is left
out. -/
def add (key? : α → Option κ) (g : Grouping κ α) (a : α) : Grouping κ α :=
  match key? a with
  | none => g
  | some k =>
    match g.place? k with
    | some place => { g with groups := g.groups.modify place (· ++ [a]) }
    | none => ⟨g.places ++ [(k, g.groups.length)], g.groups ++ [[a]]⟩

/-- Puts items into groups one after the other. -/
def ofItems (key? : α → Option κ) (items : List α) : Grouping κ α := items.foldl (add key?) empty

section Pass

variable {key? : α → Option κ} {items : List α} {g : Grouping κ α} {a : α} {k : κ}

/-- The keys of items, each where it is seen first. -/
def keysSeen (key? : α → Option κ) (items : List α) : List κ := firstSeen (items.filterMap key?)

@[simp] theorem ofItems_nil : ofItems key? ([] : List α) = empty := rfl

theorem ofItems_append_singleton (items : List α) (a : α) :
    ofItems key? (items ++ [a]) = (ofItems key? items).add key? a := by
  simp [ofItems, List.foldl_append]

theorem mem_keysSeen : k ∈ keysSeen key? items ↔ ∃ a ∈ items, key? a = some k := by
  simp [keysSeen]

theorem keysSeen_append_of_none (h : key? a = none) :
    keysSeen key? (items ++ [a]) = keysSeen key? items := by
  simp [keysSeen, h]

theorem keysSeen_append_of_mem (h : key? a = some k) (hk : k ∈ keysSeen key? items) :
    keysSeen key? (items ++ [a]) = keysSeen key? items := by
  have hseen : k ∈ items.filterMap key? := mem_firstSeen.1 hk
  rw [keysSeen, List.filterMap_append, firstSeen_append_of_subset]
  · rfl
  · simpa [h] using hseen

theorem keysSeen_append_of_not_mem (h : key? a = some k) (hk : k ∉ keysSeen key? items) :
    keysSeen key? (items ++ [a]) = keysSeen key? items ++ [k] := by
  have hnew : k ∉ items.filterMap key? := fun hmem => hk (mem_firstSeen.2 hmem)
  have hleft : [k].removeAll (items.filterMap key?) = [k] := by
    simpa [List.removeAll] using hnew
  have hone : (items ++ [a]).filterMap key? = items.filterMap key? ++ [k] := by simp [h]
  rw [keysSeen, hone, firstSeen, List.eraseDups_append, hleft]
  rfl

theorem filter_append_of_ne {l : κ} (h : key? a ≠ some l) :
    (items ++ [a]).filter (fun i => key? i = some l) = items.filter fun i => key? i = some l := by
  simp [List.filter_append, h]

/-- What a pass over items has come to: the groups of the items, each of which stands where the
place of its key says. -/
structure Holds (key? : α → Option κ) (items : List α) (g : Grouping κ α) : Prop where
  places : g.places = (keysSeen key? items).zipIdx
  groups : g.groups = (keysSeen key? items).map fun k => items.filter fun i => key? i = some k

theorem Holds.place? (h : Holds key? items g) (k : κ) :
    g.place? k = (keysSeen key? items).findIdx? (· = k) := by
  rw [Grouping.place?, h.places, List.findIdx?_eq_fst_find?_zipIdx]

theorem Holds.length (h : Holds key? items g) : g.groups.length = (keysSeen key? items).length := by
  rw [h.groups, List.length_map]

/-- A new group comes last. -/
theorem Holds.add_new (h : Holds key? items g) (hkey : key? a = some k)
    (hk : k ∉ keysSeen key? items) :
    Holds key? (items ++ [a]) ⟨g.places ++ [(k, g.groups.length)], g.groups ++ [[a]]⟩ := by
  have hseen := keysSeen_append_of_not_mem hkey hk
  constructor
  · simp [h.places, hseen, h.length, List.zipIdx_append]
  · have hone : (items ++ [a]).filter (fun i => key? i = some k) = [a] := by
      have hnone : items.filter (fun i => key? i = some k) = [] := by
        rw [List.filter_eq_nil_iff]
        intro i hi
        have hother : key? i ≠ some k := fun heq => hk (mem_keysSeen.2 ⟨i, hi, heq⟩)
        simpa using hother
      simp [List.filter_append, hnone, hkey]
    rw [hseen, List.map_append, List.map_singleton, hone, h.groups]
    refine congrArg (· ++ [[a]]) (List.map_congr_left fun l hl => ?_)
    have hne : key? a ≠ some l := by
      rintro heq
      rw [hkey] at heq
      exact hk (Option.some.inj heq ▸ hl)
    exact (filter_append_of_ne hne).symm

/-- An item of a key that was seen comes last in the group of the key. -/
theorem Holds.add_seen (h : Holds key? items g) (hkey : key? a = some k) {place : Nat}
    (hplace : g.place? k = some place) :
    Holds key? (items ++ [a]) { g with groups := g.groups.modify place (· ++ [a]) } := by
  rw [h.place?, List.findIdx?_eq_some_iff_getElem] at hplace
  obtain ⟨hlt, hhere, -⟩ := hplace
  have hat : (keysSeen key? items)[place] = k := by simpa using hhere
  have hnodup : (keysSeen key? items).Nodup := nodup_firstSeen _
  have hseen := keysSeen_append_of_mem hkey (hat ▸ List.getElem_mem hlt)
  constructor
  · rw [hseen]
    exact h.places
  · rw [hseen, h.groups]
    refine List.ext_getElem (by simp) fun i hi hi' => ?_
    have hi : i < (keysSeen key? items).length := by simpa using hi'
    rw [List.getElem_modify, List.getElem_map, List.getElem_map]
    by_cases hplace : place = i
    · subst hplace
      simp [hat, hkey, List.filter_append]
    · have hne : key? a ≠ some (keysSeen key? items)[i] := by
        intro heq
        rw [hkey, Option.some.injEq, ← hat] at heq
        exact hplace ((hnodup.getElem_inj_iff).1 heq)
      rw [if_neg hplace, filter_append_of_ne hne]

theorem Holds.add (h : Holds key? items g) (a : α) : Holds key? (items ++ [a]) (g.add key? a) := by
  unfold Grouping.add
  cases hkey : key? a with
  | none =>
    have hne (l : κ) : key? a ≠ some l := by simp [hkey]
    constructor
    · rw [keysSeen_append_of_none hkey]
      exact h.places
    · simp only [keysSeen_append_of_none hkey, filter_append_of_ne (hne _)]
      exact h.groups
  | some k =>
    dsimp only
    split
    · rename_i place hplace
      exact h.add_seen hkey hplace
    · rename_i hnone
      refine h.add_new hkey fun hk => ?_
      rw [h.place?, List.findIdx?_eq_none_iff] at hnone
      simpa using hnone k hk

theorem holds_ofItems (key? : α → Option κ) (items : List α) :
    Holds key? items (ofItems key? items) := by
  induction items using List.reverseRecOn with
  | nil => exact ⟨rfl, rfl⟩
  | append_singleton items a ih =>
    rw [ofItems_append_singleton]
    exact ih.add a

/-- One pass gives the groups of all items. -/
theorem groups_ofItems (key? : α → Option κ) (items : List α) :
    (ofItems key? items).groups = groupByKey key? items := by
  rw [groupByKey_eq]
  exact (holds_ofItems key? items).groups

/-- An item that is put into a group is in the groups once more. -/
private theorem perm_flatten_modify {groups : List (List α)} {place : Nat}
    (h : place < groups.length) (a : α) :
    (groups.modify place (· ++ [a])).flatten.Perm (groups.flatten ++ [a]) := by
  induction groups generalizing place with
  | nil => cases h
  | cons group rest ih =>
    cases place with
    | zero =>
      simp only [List.modify_zero_cons, List.flatten_cons, List.append_assoc]
      exact (List.perm_append_comm).append_left group
    | succ place =>
      simp only [List.modify_succ_cons, List.flatten_cons, List.append_assoc]
      exact (ih (Nat.succ_lt_succ_iff.1 h)).append_left group

private theorem heads_modify {groups : List (List α)} (hne : ∀ group ∈ groups, group ≠ [])
    (place : Nat) (a : α) :
    (groups.modify place (· ++ [a])).filterMap List.head? = groups.filterMap List.head? := by
  induction groups generalizing place with
  | nil => cases place <;> rfl
  | cons group rest ih =>
    obtain ⟨hgroup, hrest⟩ := List.forall_mem_cons.1 hne
    cases place with
    | zero =>
      obtain ⟨b, bs, rfl⟩ := List.exists_cons_of_ne_nil hgroup
      rfl
    | succ place =>
      rw [List.modify_succ_cons, List.filterMap_cons, List.filterMap_cons, ih hrest place]

theorem perm_flatten_add (h : Holds key? items g) (a : α) :
    (g.add key? a).groups.flatten.Perm (g.groups.flatten ++ [a].filter fun i => (key? i).isSome) := by
  unfold Grouping.add
  cases hkey : key? a with
  | none => simp [hkey]
  | some k =>
    have hkept : [a].filter (fun i => (key? i).isSome) = [a] := by simp [hkey]
    rw [hkept]
    dsimp only
    split
    · rename_i place hplace
      rw [h.place?, List.findIdx?_eq_some_iff_getElem] at hplace
      exact perm_flatten_modify (h.length ▸ hplace.1) a
    · simp

/-- What heads the groups stays, and what founds a group heads it. -/
theorem heads_add (hne : ∀ group ∈ g.groups, group ≠ []) (a : α) :
    (g.add key? a).groups.filterMap List.head? = g.groups.filterMap List.head? ∨
      (g.add key? a).groups.filterMap List.head? = g.groups.filterMap List.head? ++ [a] := by
  unfold Grouping.add
  split
  · exact .inl rfl
  · split
    · exact .inl (heads_modify hne _ a)
    · exact .inr (by simp)

end Pass

end Grouping

section Groups

variable {α κ : Type} [DecidableEq κ] {key? : α → Option κ} {items part : List α}

/-- The groups hold the items that have a key, each as often as it is there. -/
theorem perm_flatten_groupByKey (key? : α → Option κ) (items : List α) :
    (groupByKey key? items).flatten.Perm (items.filter fun i => (key? i).isSome) := by
  rw [← Grouping.groups_ofItems]
  induction items using List.reverseRecOn with
  | nil => exact .refl _
  | append_singleton items a ih =>
    rw [Grouping.ofItems_append_singleton, List.filter_append]
    exact (Grouping.perm_flatten_add (Grouping.holds_ofItems key? items) a).trans (ih.append_right _)

theorem mem_groupByKey : part ∈ groupByKey key? items ↔
    ∃ a ∈ items, ∃ k, key? a = some k ∧ part = items.filter fun i => key? i = some k := by
  rw [groupByKey_eq]
  simp only [List.mem_map, mem_firstSeen, List.mem_filterMap]
  constructor
  · rintro ⟨k, ⟨a, ha, hk⟩, rfl⟩
    exact ⟨a, ha, k, hk, rfl⟩
  · rintro ⟨a, ha, k, hk, rfl⟩
    exact ⟨k, ⟨a, ha, hk⟩, rfl⟩

theorem ne_nil_of_mem_groupByKey (h : part ∈ groupByKey key? items) : part ≠ [] := by
  obtain ⟨a, ha, k, hk, rfl⟩ := mem_groupByKey.1 h
  exact List.ne_nil_of_mem (List.mem_filter.2 ⟨ha, by simpa using hk⟩)

theorem sublist_of_mem_groupByKey (h : part ∈ groupByKey key? items) : part.Sublist items := by
  obtain ⟨a, ha, k, hk, rfl⟩ := mem_groupByKey.1 h
  exact List.filter_sublist

/-- Items that have a key are in one group if they have the same. -/
theorem exists_group_iff {i j : α} (hi : i ∈ items) (hj : j ∈ items) (hkey : (key? i).isSome) :
    (∃ part ∈ groupByKey key? items, i ∈ part ∧ j ∈ part) ↔ key? i = key? j := by
  constructor
  · rintro ⟨part, hpart, hip, hjp⟩
    obtain ⟨k, hk⟩ := exists_key_of_mem_groupByKey hpart
    rw [hk i hip, hk j hjp]
  · intro heq
    obtain ⟨k, hk⟩ := Option.isSome_iff_exists.1 hkey
    refine ⟨_, mem_groupByKey.2 ⟨i, hi, k, hk, rfl⟩, ?_, ?_⟩
    · simpa [hk] using hi
    · simpa [← heq, hk] using hj

/-- Groups stand in the order of their first items. -/
theorem heads_groupByKey (key? : α → Option κ) (items : List α) :
    ((groupByKey key? items).filterMap List.head?).Sublist items := by
  induction items using List.reverseRecOn with
  | nil => exact .refl _
  | append_singleton items a ih =>
    have hne : ∀ group ∈ (Grouping.ofItems key? items).groups, group ≠ [] := by
      rw [Grouping.groups_ofItems]
      exact fun group hgroup => ne_nil_of_mem_groupByKey hgroup
    rw [← Grouping.groups_ofItems] at ih ⊢
    rw [Grouping.ofItems_append_singleton]
    rcases Grouping.heads_add hne a with h | h
    · rw [h]
      exact ih.trans (List.sublist_append_left items [a])
    · rw [h]
      exact ih.append (.refl [a])

/-- The items of a group are one group. -/
theorem groupByKey_of_mem (h : part ∈ groupByKey key? items) : groupByKey key? part = [part] := by
  obtain ⟨k, hk⟩ := exists_key_of_mem_groupByKey h
  have hne := ne_nil_of_mem_groupByKey h
  have hseen : firstSeen (part.filterMap key?) = [k] := by
    have hblocks : firstSeen (([k].flatMap fun _ => part).filterMap key?) = [k].map id :=
      firstSeen_keys (by simpa using hne) (by simpa using hk) (by simp)
    simpa using hblocks
  have hall : part.filter (fun i => key? i = some k) = part := by
    rw [List.filter_eq_self]
    simpa using hk
  rw [groupByKey_eq, hseen, List.map_singleton, hall]

/-- Groups that hold the items that have a key: items with equal keys are in one group, the groups
stand in the order of their first items, and items in a group in the order in which they were. -/
structure PartsByKey (key? : α → Option κ) (items : List α) (parts : List (List α)) : Prop where
  nonempty : ∀ part ∈ parts, part ≠ []
  perm : parts.flatten.Perm (items.filter fun i => (key? i).isSome)
  together : ∀ i ∈ items, ∀ j ∈ items, (key? i).isSome →
    ((∃ part ∈ parts, i ∈ part ∧ j ∈ part) ↔ key? i = key? j)
  heads : (parts.filterMap List.head?).Sublist items
  order : ∀ part ∈ parts, part.Sublist items

theorem partsByKey_groupByKey (key? : α → Option κ) (items : List α) :
    PartsByKey key? items (groupByKey key? items) where
  nonempty _ := ne_nil_of_mem_groupByKey
  perm := perm_flatten_groupByKey key? items
  together _ hi _ hj hkey := exists_group_iff hi hj hkey
  heads := heads_groupByKey key? items
  order _ := sublist_of_mem_groupByKey

theorem groupByKey_map {β : Type} (key? : α → Option κ) (f : β → α) (items : List β) :
    groupByKey key? (items.map f) = (groupByKey (key? ∘ f) items).map (List.map f) := by
  simp only [groupByKey_eq, List.filterMap_map, List.filter_map, List.map_map]
  rfl

variable {κ' : Type} [DecidableEq κ']

theorem firstSeen_map {f : κ → κ'} (hf : Function.Injective f) (l : List κ) :
    firstSeen (l.map f) = (firstSeen l).map f := by
  induction l using firstSeen_induction with
  | nil => rfl
  | cons a as ih =>
    have hothers : (as.map f).filter (fun b => !b == f a) = (as.filter fun b => !b == a).map f := by
      rw [List.filter_map]
      congr 2
      funext b
      simp [hf.eq_iff]
    rw [List.map_cons, firstSeen_cons, firstSeen_cons, hothers, ih, List.map_cons]

/-- Keys can be told by other names. -/
theorem groupByKey_key_map {f : κ → κ'} (hf : Function.Injective f) (key? : α → Option κ)
    (items : List α) : groupByKey (fun i => (key? i).map f) items = groupByKey key? items := by
  have hkeys : items.filterMap (fun i => (key? i).map f) = (items.filterMap key?).map f := by
    rw [List.map_filterMap]
  rw [groupByKey_eq, groupByKey_eq, hkeys, firstSeen_map hf, List.map_map]
  refine List.map_congr_left fun k _ => List.filter_congr fun i _ => ?_
  cases key? i with
  | none => simp
  | some l => simp [hf.eq_iff]

end Groups

/-- A column of a key: what a cell that is not null is told from others by, a double by its
bits. -/
inductive KeyPart where
  | integer (n : Int64)
  | real (bits : UInt64)
  | text (s : String)
  | boolean (b : Bool)
deriving DecidableEq

namespace KeyPart

def ofCell? : Cell → Option KeyPart
  | .null => none
  | .integer n => some (integer n)
  | .real x => some (real x.bits)
  | .text s => some (text s)
  | .boolean b => some (boolean b)

def toCell : KeyPart → Cell
  | integer n => .integer n
  | real bits => .real ⟨bits⟩
  | text s => .text s
  | boolean b => .boolean b

theorem toCell_injective : Function.Injective toCell := by
  intro a b h
  cases a <;> cases b <;> simp_all [toCell]

theorem map_toCell_ofCell? (c : Cell) :
    (ofCell? c).map toCell = (some c).filter fun c => !c.isNull := by
  cases c <;> rfl

theorem isSome_ofCell? (c : Cell) : (ofCell? c).isSome ↔ c ≠ .null := by
  cases c <;> simp [ofCell?]

end KeyPart

theorem map_mapM {α β γ : Type} (f : α → Option β) (g : β → γ) (l : List α) :
    (l.mapM f).map (List.map g) = l.mapM fun a => (f a).map g := by
  induction l with
  | nil => rfl
  | cons a as ih =>
    rw [List.mapM_cons, List.mapM_cons, ← ih]
    cases f a with
    | none => rfl
    | some b => cases as.mapM f <;> rfl

theorem isSome_mapM {α β : Type} {f : α → Option β} {l : List α} :
    (l.mapM f).isSome ↔ ∀ a ∈ l, (f a).isSome := by
  induction l with
  | nil => simp
  | cons a as ih =>
    rw [List.mapM_cons, List.forall_mem_cons, ← ih]
    cases f a with
    | none => simp
    | some b => cases as.mapM f <;> simp

namespace ResultSet

/-- The key of the entity that a row holds of a table, none if a column of it is missing or
null. -/
def key? (r : ResultSet) (n : TableNode) (row : Nat) : Option (List KeyPart) :=
  n.keys.mapM fun column => (r.cell? row column).bind KeyPart.ofCell?

theorem isSome_key? {r : ResultSet} {n : TableNode} {row : Nat} : (r.key? n row).isSome ↔
    ∀ column ∈ n.keys, ∃ cell, r.cell? row column = some cell ∧ cell ≠ .null := by
  rw [key?, isSome_mapM]
  refine forall₂_congr fun column _ => ?_
  cases r.cell? row column with
  | none => simp
  | some cell => simpa using KeyPart.isSome_ofCell? cell

/-- The row with a place in the rows. -/
def row (r : ResultSet) (place : Nat) : Row := (r.rows[place]?).getD []

theorem getElem?_row (r : ResultSet) (place column : Nat) :
    (r.row place)[column]? = r.cell? place column := by
  unfold row cell?
  cases r.rows[place]? <;> rfl

theorem keyAt?_row (r : ResultSet) (n : TableNode) (place : Nat) :
    RowGroup.keyAt? n (r.row place) = (r.key? n place).map (List.map KeyPart.toCell) := by
  rw [key?, map_mapM, RowGroup.keyAt?]
  congr 1
  funext column
  rw [getElem?_row]
  cases r.cell? place column with
  | none => rfl
  | some cell => exact (KeyPart.map_toCell_ofCell? cell).symm

end ResultSet

namespace RowGroup

variable (tables : List TableNode) (index : Nat) (result : ResultSet)

/-- Rows of a result by their places, seen as entities of a table. -/
def atPlaces (places : List Nat) : RowGroup := ⟨tables, index, places.map result.row⟩

theorem entities_atPlaces (places : List Nat) :
    (atPlaces tables index result places).entities =
      (groupByKey (result.key? (tables.getD index default)) places).map
        (atPlaces tables index result) := by
  have hkey : (atPlaces tables index result places).key? ∘ result.row = fun place =>
      (result.key? (tables.getD index default) place).map (List.map KeyPart.toCell) :=
    funext fun place => result.keyAt?_row _ place
  have hrows : (atPlaces tables index result places).rows = places.map result.row := rfl
  rw [entities, hrows, groupByKey_map, hkey, groupByKey_key_map
    (List.map_injective_iff.2 KeyPart.toCell_injective), List.map_map]
  rfl

/-- Entities part the rows that have a key: those of no null or missing key column. The rows of a
part have one key, no two parts have the same, and the rows of a part are one entity. A pass over
the rows that keeps an index of the parts by their keys finds them. -/
theorem entities_part_rows (places : List Nat) :
    ∃ parts : List (List Nat),
      (atPlaces tables index result places).entities = parts.map (atPlaces tables index result) ∧
      PartsByKey (result.key? (tables.getD index default)) places parts ∧
      (∀ place, (result.key? (tables.getD index default) place).isSome ↔
        ∀ column ∈ (tables.getD index default).keys,
          ∃ cell, result.cell? place column = some cell ∧ cell ≠ .null) ∧
      (∀ part ∈ parts, (atPlaces tables index result part).entities =
        [atPlaces tables index result part]) ∧
      (Grouping.ofItems (result.key? (tables.getD index default)) places).groups = parts := by
  refine ⟨groupByKey (result.key? (tables.getD index default)) places, ?_, ?_, ?_, ?_, ?_⟩
  · exact entities_atPlaces tables index result places
  · exact partsByKey_groupByKey _ places
  · exact fun place => ResultSet.isSome_key?
  · intro part hpart
    rw [entities_atPlaces, groupByKey_of_mem hpart, List.map_singleton]
  · exact Grouping.groups_ofItems _ places

end RowGroup

end MappedQuery.Sql
