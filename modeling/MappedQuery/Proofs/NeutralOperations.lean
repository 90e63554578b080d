import MappedQuery.Proofs.EndingPlans
import MappedQuery.Proofs.Readings
import MappedQuery.Proofs.RowsShown

/-!
# List operations that keep everything

A filter that always holds, an ordering by nothing and a limit that is not reached keep every
element of a list, in place. A list that is there is read alike with and without them. One that is
not there is null without them and empty with them, since list operations take a position apart
into elements before it is asked whether it holds anything. Filters that are pushed into a
statement are no longer read, so below these a list stays null.
-/
namespace MappedQuery

open Sql Sql.Planning

theorem stableSort_of_eq {α : Type} {cmp : α → α → Ordering} (h : ∀ a b, cmp a b = .eq)
    (items : List α) : stableSort cmp items = items := by
  have hinsert (a : α) (sorted : List α) : insertBackwards cmp a sorted = a :: sorted := by
    cases sorted with
    | nil => rfl
    | cons b rest => rw [insertBackwards, h a b]; rfl
  have hfold (items sorted : List α) :
      items.foldl (fun sorted a => insertBackwards cmp a sorted) sorted = items.reverse ++ sorted := by
    induction items generalizing sorted with
    | nil => rfl
    | cons a items ih => rw [List.foldl_cons, hinsert, ih, List.reverse_cons, List.append_cons]
  rw [stableSort, hfold, List.append_nil, List.reverse_reverse]

theorem satisfying_always (m : Mapping) (elements : List Cursor) :
    satisfying m .always elements = .ok elements := by
  have hholds : ∀ c ∈ elements, Predicate.always.holds m (id c) = .ok true := fun _ _ => rfl
  simpa using satisfying_map hholds

theorem ordered_nil (m : Mapping) (elements : List Cursor) :
    ordered m [] elements = .ok elements := by
  have hkeyed : keyed m [] elements = .ok (elements.map fun c => ([], c)) :=
    mapM_eq_pure fun c _ => rfl
  rw [ordered, hkeyed]
  change Except.ok _ = Except.ok _
  have hequal (a b : List Value × Cursor) : OrderSelection.compareAll [] a.1 b.1 = .eq := by
    simp [OrderSelection.compareAll]
  rw [stableSort_of_eq hequal, List.map_map]
  exact congrArg Except.ok (List.map_id _)

namespace Cursor

variable {c p : Cursor}

theorem exists_present? {inner : TypeRef} (htype : c.type = .nullable inner) :
    ∃ held?, c.present? = .ok held? := by
  unfold present?
  rw [htype]
  dsimp only
  split
  all_goals
    split <;> exact ⟨_, rfl⟩

/-- What a position holds has its elements. -/
theorem elements_of_present? (h : c.present? = .ok (some p)) (hlist : c.type.isList = true) :
    p.elements = c.elements := by
  obtain ⟨path, type, focus⟩ := c
  obtain ⟨htype, hpath, hfocus⟩ := present?_eq_some h
  obtain ⟨path', type', focus'⟩ := p
  obtain rfl : type = .nullable type' := htype
  obtain rfl : path' = path := hpath
  have helement : type'.element = (TypeRef.nullable type').element := by
    cases type' with
    | list item => rfl
    | named name => cases hlist
    | nullable inner => cases hlist
  rcases hfocus with ⟨hsame, -⟩ | ⟨r, g, hrows, -, hpresent⟩
  · obtain rfl : focus' = focus := hsame
    unfold elements
    dsimp only
    rw [helement]
  · obtain rfl : focus = .table r (.rows g) := hrows
    obtain rfl : focus' = .table r (.rows g.present) := hpresent
    unfold elements
    dsimp only
    rw [helement, RowGroup.entities_present]

theorem isNullable_of_absent (h : c.present? = .ok none) : ∃ inner, c.type = .nullable inner := by
  unfold present? at h
  split at h
  · rename_i htype
    exact ⟨_, htype⟩
  · cases h

/-- A position that holds nothing has no elements. -/
theorem elements_of_absent (h : c.present? = .ok none) : c.elements = [] := by
  obtain ⟨inner, htype⟩ := isNullable_of_absent h
  obtain ⟨path, type, ⟨d, json⟩ | ⟨r, group | cell⟩⟩ := c
  · obtain rfl : type = .nullable inner := htype
    cases json <;> first | rfl | cases h
  · obtain rfl : type = .nullable inner := htype
    have hrows : group.present.rows = [] := by
      by_contra hne
      rw [present?] at h
      simp [hne] at h
    have hentities : group.entities = [] := (RowGroup.entities_eq_nil_iff group).2 hrows
    exact congrArg (List.map _) hentities
  · obtain rfl : type = .nullable inner := htype
    cases hcell : cell.isNull with
    | true => simp [elements, hcell]
    | false => simp [present?, hcell] at h

end Cursor

namespace Query

/-- A query under list operations that keep all elements of a list that is no longer than a
number. -/
inductive KeepsAll (count : Nat) (q : Query) : Query → Prop where
  | refl : KeepsAll count q q
  | filter {w : Query} (h : KeepsAll count q w) : KeepsAll count q (.filter .always w)
  | orderBy {w : Query} (h : KeepsAll count q w) : KeepsAll count q (.orderBy [] w)
  | limit {w : Query} {limit : Nat} (hlimit : count ≤ limit) (h : KeepsAll count q w) :
    KeepsAll count q (.limit limit w)

/-- Whether there are list operations that are not filters. -/
def hasEvaluated : Query → Bool
  | .filter _ child => child.hasEvaluated
  | .unique _ | .limit .. | .orderBy .. => true
  | _ => false

/-- Reads the elements at a position, each as its type. -/
def readEach (m : Mapping) (object : Cursor → Run Members) (c : Cursor) : Run Json := do
  let values ← c.elements.mapM fun e => readAs m object e.type e
  pure (.array values)

section Reading

variable {m : Mapping} {answers : Answers m} {q w : Query} {c : Cursor} {count : Nat}

/-- What keeps everything leaves elements as they are. -/
theorem KeepsAll.refine_eq (h : KeepsAll count q w) (hq : q.isListOperation = false) {r : Refined}
    (hcount : r.elements.length ≤ count) : w.refine m r = .ok r := by
  induction h with
  | refl =>
    unfold refine
    split <;> first | rfl | cases hq
  | filter h ih => rw [refine, satisfying_always]; exact ih
  | orderBy h ih => rw [refine, ordered_nil]; exact ih
  | limit hlimit h ih =>
    rw [refine, List.take_of_length_le (hcount.trans hlimit)]
    exact ih

theorem KeepsAll.fields_eq (h : KeepsAll count q w) : fields m answers w = fields m answers q := by
  induction h with
  | refl => rfl
  | filter h ih | orderBy h ih | limit hlimit h ih =>
    funext c
    rw [fields]
    exact congrFun ih c

theorem KeepsAll.eq_of_not_isListOperation (h : KeepsAll count q w)
    (hw : w.isListOperation = false) : w = q := by
  cases h with
  | refl => rfl
  | filter | orderBy | limit => cases hw

/-- A list under operations that keep everything is read element by element, whether it is there
or not. -/
theorem KeepsAll.value_eq (h : KeepsAll c.elements.length q w) (hq : q.isListOperation = false)
    (hw : w.isListOperation = true) :
    w.value m answers c = readEach m (fields m answers q) c := by
  rw [value, readAt, if_pos hw, h.refine_eq hq le_rfl, h.fields_eq]
  rfl

theorem mapM_congr {f g : Cursor → Run Json} {l : List Cursor} (h : ∀ e ∈ l, f e = g e) :
    l.mapM f = l.mapM g := by
  induction l with
  | nil => rfl
  | cons e l ih =>
    rw [List.mapM_cons, List.mapM_cons, h e List.mem_cons_self,
      ih fun e he => h e (List.mem_cons_of_mem _ he)]

theorem readAs_list {object : Cursor → Run Members} {item : TypeRef} (htype : c.type.element = item) :
    readAs m object (.list item) c = readEach m object c := by
  have hitems : c.elements.mapM (readAs m object item) =
      c.elements.mapM fun e => readAs m object e.type e := by
    refine mapM_congr fun e he => ?_
    obtain ⟨-, helement, -⟩ := Cursor.mem_elements he
    rw [helement, htype]
  rw [readAs, hitems]
  rfl

/-- A list that is there is read element by element. -/
theorem value_of_present (hlist : c.type.isList = true) (hq : q.isListOperation = false)
    (hpresent : c.present? ≠ .ok none) :
    q.value m answers c = readEach m (fields m answers q) c := by
  rw [value, readAt, if_neg (Bool.eq_false_iff.1 hq)]
  cases htype : c.type with
  | named name => rw [htype] at hlist; cases hlist
  | list item => exact readAs_list (by rw [htype]; rfl)
  | nullable inner =>
    obtain ⟨item, rfl⟩ : ∃ item, inner = .list item := by
      rw [htype] at hlist
      cases inner with
      | list item => exact ⟨item, rfl⟩
      | named name => cases hlist
      | nullable inner => cases hlist
    obtain ⟨held?, hheld⟩ := Cursor.exists_present? htype
    cases held? with
    | none => exact absurd hheld hpresent
    | some held =>
      obtain ⟨hinner, -⟩ := Cursor.present?_eq_some hheld
      have hitem : held.type = .list item := TypeRef.nullable.inj (hinner.symm.trans htype)
      have hread : readAs m (fields m answers q) (.list item) held =
          readEach m (fields m answers q) held := readAs_list (by rw [hitem]; rfl)
      rw [readAs, hheld]
      change readAs m _ (.list item) held = _
      rw [hread, readEach, readEach, Cursor.elements_of_present? hheld hlist]

/-- A position that holds nothing is null, unless list operations are left to read. -/
theorem value_of_absent (hq : q.isListOperation = false) (hnone : c.present? = .ok none) :
    q.value m answers c = pure .null := by
  obtain ⟨inner, htype⟩ := Cursor.isNullable_of_absent hnone
  rw [value, readAt, if_neg (Bool.eq_false_iff.1 hq), htype, readAs, hnone]
  rfl

end Reading

section Planning

variable {r : TableRegistry} {steps count : Nat} {place : Place} {list : ListPlace}
  {d d' : Draft} {q w residual : Query}

theorem hasEvaluated_of_not_isListOperation (hq : q.isListOperation = false) :
    q.hasEvaluated = false := by
  cases q <;> first | rfl | cases hq

theorem not_isListOperation_of_planned {list? : Option ListPlace} (hq : q.isListOperation = false)
    (h : QueryPlanned r steps place list? q d residual d') : residual.isListOperation = false := by
  cases h <;> first | rfl | cases hq

/-- Planning keeps what keeps everything, but for the filters that it pushes. -/
theorem KeepsAll.planned (h : KeepsAll count q w) (hq : q.isListOperation = false)
    (hplanned : QueryPlanned r steps place (some list) w d residual d') :
    ∃ left list' d₁, QueryPlanned r steps place (some list') q d₁ left d' ∧
      left.isListOperation = false ∧ KeepsAll count left residual ∧
      (residual.isListOperation = true ↔
        list.pushable = false ∧ w.isListOperation = true ∨ w.hasEvaluated = true) := by
  induction h generalizing list d residual with
  | refl =>
    have hleft := not_isListOperation_of_planned hq hplanned
    refine ⟨residual, list, d, hplanned, hleft, .refl, ?_⟩
    rw [hq, hleft, hasEvaluated_of_not_isListOperation hq]
    simp
  | @filter w h ih =>
    cases hplanned with
    | pushed hpushable hcondition hpush hchild =>
      obtain ⟨left, list', d₁, hleft, hnone, hkeeps, hiff⟩ := ih hchild
      refine ⟨left, list', d₁, hleft, hnone, hkeeps, hiff.trans ?_⟩
      rw [hpushable, hasEvaluated]
      simp
    | filter hpushable hterms hchild =>
      obtain ⟨left, list', d₁, hleft, hnone, hkeeps, -⟩ := ih hchild
      exact ⟨left, list', d₁, hleft, hnone, .filter hkeeps,
        iff_of_true rfl (.inl ⟨hpushable, rfl⟩)⟩
  | orderBy h ih =>
    cases hplanned with
    | orderBy hterms hchild =>
      obtain ⟨left, list', d₁, hleft, hnone, hkeeps, -⟩ := ih hchild
      exact ⟨left, list', d₁, hleft, hnone, .orderBy hkeeps, iff_of_true rfl (.inr rfl)⟩
  | limit hlimit h ih =>
    cases hplanned with
    | limit hchild =>
      obtain ⟨left, list', d₁, hleft, hnone, hkeeps, -⟩ := ih hchild
      exact ⟨left, list', d₁, hleft, hnone, .limit hlimit hkeeps, iff_of_true rfl (.inr rfl)⟩

end Planning

/-- List operations that keep everything make no difference to a list that is there. One that is
not there is null without them and empty with them. Of a query over tables, planning leaves what
planning leaves below them, under those of them that are not pushed: orderings, limits, and filters
where these cannot be pushed. -/
theorem keepsAll_neutral_where_held {m : Mapping} {answers : Answers m} {c : Cursor} {q w : Query}
    (hlist : c.type.isList = true) (hq : q.isListOperation = false)
    (hw : KeepsAll c.elements.length q w) :
    (c.present? ≠ .ok none → w.value m answers c = q.value m answers c) ∧
    (c.present? = .ok none → q.value m answers c = pure .null ∧
      w.value m answers c = pure (if w.isListOperation then .array [] else .null)) ∧
    ∀ (r : TableRegistry) (steps : Nat) (place : Place) (list : ListPlace) (d d' : Draft)
      (residual : Query), Ends (planQuery r steps place (some list) w) d residual d' →
      ∃ left list' d₁, QueryPlanned r steps place (some list') q d₁ left d' ∧
        left.isListOperation = false ∧ KeepsAll c.elements.length left residual ∧
        (residual.isListOperation = true ↔
          list.pushable = false ∧ w.isListOperation = true ∨ w.hasEvaluated = true) := by
  refine ⟨fun hpresent => ?_, fun hnone => ⟨value_of_absent hq hnone, ?_⟩, ?_⟩
  · cases hoperation : w.isListOperation with
    | true => rw [hw.value_eq hq hoperation, value_of_present hlist hq hpresent]
    | false => rw [hw.eq_of_not_isListOperation hoperation]
  · cases hoperation : w.isListOperation with
    | true =>
      rw [hw.value_eq hq hoperation, readEach, Cursor.elements_of_absent hnone]
      rfl
    | false =>
      rw [hw.eq_of_not_isListOperation hoperation]
      exact value_of_absent hq hnone
  · exact fun r steps place list d d' residual hends => hw.planned hq (planQuery_planned hends)

end Query

namespace Markets

def registry : DocumentRegistry where
  schema := .ofTypes
    [.object ⟨"Query", [⟨"stalls", [], .nullable (.list (.named "Stall"))⟩], []⟩,
      .object ⟨"Stall", [⟨"name", [], .named "String"⟩], []⟩]
    "Query"
  types := [.object ⟨"Stall", [.source (.same "name")]⟩]
  elaborators := []

/-- The stalls of a market, if they are known. -/
def stalls (json : Json) : Cursor :=
  ⟨["stalls"], .nullable (.list (.named "Stall")), .document registry json⟩

def read (q : Query) (json : Json) : Run Json :=
  q.value (.documents registry) (fun d _ type s => d.target.readRoot type s) (stalls json)

def names : Query := .field "name"

/-- All stalls, and no more than ten. -/
def firstNames : Query := .filter .always (.limit 10 names)

/-- There is one stall, and it is among the first ten. -/
theorem stalls_are_kept :
    Query.KeepsAll (stalls (.array [.object [("name", .string "Fish")]])).elements.length names
        firstNames ∧
      read firstNames (.array [.object [("name", .string "Fish")]]) =
        read names (.array [.object [("name", .string "Fish")]]) := by
  have hkeeps : Query.KeepsAll
      (stalls (.array [.object [("name", .string "Fish")]])).elements.length names firstNames :=
    .filter (.limit (by decide) .refl)
  exact ⟨hkeeps, (Query.keepsAll_neutral_where_held rfl rfl hkeeps).1 nofun⟩

/-- Stalls that are not known are null, and none with a filter that always holds. -/
theorem unknown_stalls_become_none :
    Query.KeepsAll (stalls .null).elements.length names (.filter .always names) ∧
      read names .null = pure .null ∧ read (.filter .always names) .null = pure (.array []) ∧
      read (.filter .always names) .null ≠ read names .null := by
  refine ⟨.filter .refl, rfl, rfl, fun h => ?_⟩
  have hruns := congrArg (fun run => (run.run (.start fun _ _ => .ok ⟨[], []⟩)).1) h
  cases hruns

end Markets

end MappedQuery
