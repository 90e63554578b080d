import MappedQuery.Mapping.Rules
import MappedQuery.Proofs.EndingPlans

/-!
# Counted leaves

A plan tells how many leaf fields its query asks for. Each step of planning adds a number to the
count that does not depend on the draft: selecting a field of the query adds one if the field is
mapped to a column or computed, and nothing else that planning selects or joins is counted. So the
count is that of the leaves among the selections of the query.
-/
namespace MappedQuery.Sql

/-- A field that a query selects, where and as what type. -/
structure SelectedField where
  path : List String
  type : String
  name : String
deriving DecidableEq, Repr

section Requested

variable (r : TableRegistry)

/-- Whether a field is mapped to a column or computed. -/
def SelectedField.isLeaf (f : SelectedField) : Bool :=
  match r.fieldMapping? f.path f.type f.name with
  | some (.source (.column ..)) => true
  | some (.computed ..) => true
  | some (.computedAttribute _) => true
  | _ => false

/-- The type of the objects that an object field leads to. -/
def SelectedField.objectType? (f : SelectedField) : Option String :=
  match r.fieldMapping? f.path f.type f.name with
  | some (.source (.joined ..)) => (r.schema.field? f.type f.name).map (·.type.underlying)
  | _ => none

mutual

/-- The fields that a query selects at a path and below it, each as often as it is selected. What
stands below a leaf, below a delegated field or in a component belongs to no object of the plan. -/
def selectedFields (path : List String) (type : String) : Query → List SelectedField
  | .select name _ _ child =>
    if name = "__typename" then []
    else
      ⟨path, type, name⟩ ::
        match SelectedField.objectType? r ⟨path, type, name⟩ with
        | some below => selectedFields (path ++ [name]) below child
        | none => []
  | .filter _ child | .unique child | .limit _ child | .orderBy _ child =>
    selectedFields path type child
  | .group queries => selectedFieldsOfAll path type queries
  | .narrow type child => selectedFields path type child
  | .component .. | .introspect _ | .empty => []

def selectedFieldsOfAll (path : List String) (type : String) : List Query → List SelectedField
  | [] => []
  | q :: rest => selectedFields path type q ++ selectedFieldsOfAll path type rest

end

/-- The leaves among the fields that a query selects. -/
def requestedLeaves (path : List String) (type : String) (q : Query) : List SelectedField :=
  (selectedFields r path type q).filter (·.isLeaf r)

end Requested

namespace Planning

variable {r : TableRegistry} {α β : Type} {m n : Nat}

/-- A step of planning adds a number to the count of leaf fields whenever it ends. -/
structure Counts (n : Nat) (p : Planning α) : Prop where
  fields : ∀ {d : Draft} {a : α} {d' : Draft}, Ends p d a d' → d'.fields = d.fields + n

section Steps

variable {p : Planning α} {f : α → Planning β}

theorem counts_pure (a : α) : Counts 0 (pure a : Planning α) :=
  ⟨fun h => congrArg Draft.fields (ends_pure.1 h).2.symm⟩

theorem counts_throw (n : Nat) (fault : Fault) : Counts n (throw fault : Planning α) :=
  ⟨fun h => absurd h not_ends_throw⟩

theorem counts_unsupported (n : Nat) (what : Inexpressible) :
    Counts n (unsupported what : Planning α) :=
  ⟨fun h => absurd h not_ends_unsupported⟩

theorem counts_lift (x : Except Fault α) : Counts 0 (liftM x : Planning α) :=
  ⟨fun h => congrArg Draft.fields (ends_lift.1 h).2.symm⟩

theorem counts_get : Counts 0 (get : Planning Draft) :=
  ⟨fun h => congrArg Draft.fields (ends_get.1 h).2.symm⟩

theorem counts_modify {g : Draft → Draft} (h : ∀ d, (g d).fields = d.fields + n) :
    Counts n (modify g : Planning PUnit) :=
  ⟨fun hends => by rw [← ends_modify.1 hends, h]⟩

theorem Counts.bind (hp : Counts m p) (hf : ∀ a, Counts n (f a)) : Counts (m + n) (p >>= f) := by
  refine ⟨fun h => ?_⟩
  obtain ⟨a, d₁, hfirst, hrest⟩ := ends_bind.1 h
  rw [(hf a).fields hrest, hp.fields hfirst, Nat.add_assoc]

/-- What comes after an uncounted step counts for the whole. -/
theorem Counts.before (hp : Counts 0 p) (hf : ∀ a, Counts n (f a)) : Counts n (p >>= f) :=
  Nat.zero_add n ▸ hp.bind hf

/-- An uncounted step at the end adds nothing. -/
theorem Counts.after (hp : Counts n p) (hf : ∀ a, Counts 0 (f a)) : Counts n (p >>= f) :=
  hp.bind hf

theorem Counts.discard (hp : Counts n p) : Counts n (discard p) := by
  refine ⟨fun h => ?_⟩
  obtain ⟨a, h⟩ := ends_discard.1 h
  exact hp.fields h

theorem Counts.map (g : α → β) (hp : Counts n p) : Counts n (g <$> p) := by
  refine ⟨fun h => ?_⟩
  obtain ⟨a, h, -⟩ := ends_map.1 h
  exact hp.fields h

theorem counts_forM {step : α → Planning PUnit} (as : List α) (h : ∀ a, Counts 0 (step a)) :
    Counts 0 (as.forM step) := by
  induction as with
  | nil => exact ⟨fun hends => congrArg Draft.fields (ends_forM_nil.1 hends).symm⟩
  | cons a as ih =>
    refine ⟨fun hends => ?_⟩
    obtain ⟨d₁, hfirst, hrest⟩ := ends_forM_cons.1 hends
    rw [ih.fields hrest, (h a).fields hfirst]

end Steps

/-! ## What is selected besides -/

/-- Selecting a column is not counted, whether it was selected before or not. -/
theorem counts_ownColumn (node : Nat) (field : String) (column : ColumnRef) :
    Counts 0 (ownColumn node field column) := by
  refine ⟨fun h => ?_⟩
  rcases (ends_ownColumn.1 h).2 with ⟨-, rfl⟩ | ⟨-, -, rfl⟩ <;> rfl

theorem counts_ownKeys (index : Nat) (type : String) (keys : List ColumnRef) :
    Counts 0 (ownKeys index type keys) :=
  counts_forM keys fun key =>
    (counts_ownColumn index type key).before fun _ => counts_modify fun _ => rfl

/-- The keys and the discriminator of a table that is added are not counted. -/
theorem counts_addNode (path : List String) (type label : String) :
    Counts 0 (addNode r path type label) := by
  refine ⟨fun h => ?_⟩
  obtain ⟨-, first, rest, d₁, -, hkeys, hlast⟩ := ends_addNode h
  have hcount := (counts_ownKeys _ _ _).fields hkeys
  rcases hlast with ⟨-, rfl⟩ | ⟨-, column, cases, position, -, hcolumn⟩
  · exact hcount
  · exact ((counts_ownColumn _ _ _).fields hcolumn).trans hcount

/-- Joining an object field is not counted, whether its join is there or not. -/
theorem counts_joinField (place : Place) (field childType : String) (hops : List Hop)
    (filtered : Bool) : Counts 0 (joinField r place field childType hops filtered) := by
  refine ⟨fun {d joined d'} h => ?_⟩
  rcases ends_joinField h with ⟨child, -, -, -, -, rfl⟩ |
    ⟨-, -, label, table, child, d₁, d₂, hhops, hadd, -, rfl, -⟩
  · rfl
  · have hadded : d₂.fields = d₁.fields := (counts_addNode _ _ _).fields hadd
    obtain ⟨rfl, -, -⟩ := addHops_joins hhops
    exact hadded

/-- The columns that joins of delegated fields read are not counted. -/
theorem counts_selectAllColumns (place : Place) : Counts 0 (selectAllColumns r place) := by
  unfold selectAllColumns
  refine counts_get.before fun d => counts_forM _ fun f => ?_
  split
  · split
    · exact (counts_ownColumn _ _ _).discard
    · exact counts_pure _
  · exact counts_pure _

theorem counts_required {steps : Nat} {place : Place} (c : ComputedField)
    (h : ∀ sibling, Counts 0 (planField r steps place sibling false)) :
    Counts 0 (do
      c.required.forM fun sibling => discard (planField r steps place sibling false)
      pure none : Planning (Option JoinedField)) :=
  (counts_forM c.required fun sibling => (h sibling).discard).before fun _ => counts_pure none

/-- Selecting what a field is read from is not counted, nor are the siblings that it requires. -/
theorem counts_planField (steps : Nat) (place : Place) (name : String) (filtered : Bool) :
    Counts 0 (planField r steps place name filtered) := by
  induction steps using Nat.strongRecOn generalizing name filtered with
  | ind steps ih =>
    unfold planField
    split
    · exact (counts_ownColumn _ _ _).discard.before fun _ => counts_pure _
    · split
      · exact (counts_joinField _ _ _ _ _).map _
      · exact counts_throw _ _
    · rename_i c hidden hmapped
      cases steps with
      | zero => exact counts_throw _ _
      | succ steps => exact counts_required c fun sibling => ih steps (Nat.lt_succ_self _) _ _
    · rename_i c hmapped
      cases steps with
      | zero => exact counts_throw _ _
      | succ steps => exact counts_required c fun sibling => ih steps (Nat.lt_succ_self _) _ _
    · exact (counts_selectAllColumns place).before fun _ => counts_pure _
    · exact counts_throw _ _

/-- The operands of filters and orderings are not counted. -/
theorem counts_planTerms (steps : Nat) (place : Place) (ts : List Term) :
    Counts 0 (planTerms r steps place ts) := by
  refine counts_forM ts fun t => ?_
  unfold planTerm
  split
  · exact counts_pure _
  · exact (counts_planField _ _ _ _).discard
  · exact counts_unsupported _ _

theorem counts_pushCondition (node : Nat) (target : Target) (c : Condition) :
    Counts 0 (pushCondition node target c) := by
  cases target <;> exact counts_modify fun _ => rfl

/-! ## What is counted -/

/-- A field that the query selects is counted if it is a leaf. -/
theorem counts_selection (b : Bool) (q : Query) :
    Counts (if b then 1 else 0)
      (if b then do modify (fun d => { d with fields := d.fields + 1 }); pure q
        else pure q : Planning Query) := by
  cases b with
  | false => exact counts_pure q
  | true => exact (counts_modify fun _ => rfl).after fun _ => counts_pure q

theorem isLeafField_eq (place : Place) (name : String) :
    isLeafField r place name = SelectedField.isLeaf r ⟨place.path, place.type, name⟩ := by
  unfold isLeafField SelectedField.isLeaf
  split <;> simp_all

theorem length_requestedLeaves_select {path : List String} {type name : String}
    (hname : name ≠ "__typename") (alias? : Option String) (bindings : List Binding)
    (child : Query) :
    (requestedLeaves r path type (.select name alias? bindings child)).length =
      (SelectedField.objectType? r ⟨path, type, name⟩).elim 0
          (fun below => (requestedLeaves r (path ++ [name]) below child).length) +
        if SelectedField.isLeaf r ⟨path, type, name⟩ then 1 else 0 := by
  unfold requestedLeaves
  rw [selectedFields, if_neg hname, List.filter_cons]
  cases SelectedField.objectType? r ⟨path, type, name⟩ <;> split <;> simp

/-- An object field is planned below its path as the type of its objects, and no other field is. -/
theorem FieldPlanned.objectType? {steps : Nat} {place : Place} {name : String} {filtered : Bool}
    {d d' : Draft} {joined? : Option JoinedField}
    (h : FieldPlanned r place name filtered steps d joined? d') :
    SelectedField.objectType? r ⟨place.path, place.type, name⟩ = joined?.map (·.place.type) ∧
      ∀ below ∈ joined?, below.place.path = place.path ++ [name] := by
  unfold SelectedField.objectType?
  cases h with
  | column own column isKey hidden position hmapped => simp [hmapped]
  | joined own hops f below hmapped hf hjoins =>
    rw [hmapped, hf, Option.map_some, Option.map_some, hjoins.place_eq]
    refine ⟨rfl, fun j hj => ?_⟩
    rw [← Option.some.inj hj, hjoins.place_eq]
  | computed c hmapped => rcases hmapped with ⟨hidden, hmapped⟩ | hmapped <;> simp [hmapped]
  | delegate delegate hmapped => simp [hmapped]

mutual

/-- Planning a query counts the leaves among its selections. -/
theorem counts_planQuery {steps : Nat} : ∀ (q : Query) (place : Place) (list? : Option ListPlace),
    Counts (requestedLeaves r place.path place.type q).length (planQuery r steps place list? q)
  | .filter p child, place, none => by
    rw [planQuery]
    exact counts_unsupported _ _
  | .filter p child, place, some list => by
    rw [planQuery]
    split
    · refine counts_get.before fun d => (counts_lift _).before fun c => ?_
      exact (counts_pushCondition _ _ _).before fun _ => counts_planQuery child place _
    · exact (counts_planTerms _ _ _).before fun _ =>
        (counts_planQuery child place _).after fun _ => counts_pure _
  | .unique child, place, none => by
    rw [planQuery]
    exact counts_unsupported _ _
  | .unique child, place, some list => by
    rw [planQuery]
    exact (counts_planQuery child place _).after fun _ => counts_pure _
  | .orderBy selections child, place, none => by
    rw [planQuery]
    exact counts_unsupported _ _
  | .orderBy selections child, place, some list => by
    rw [planQuery]
    exact (counts_planTerms _ _ _).before fun _ =>
      (counts_planQuery child place _).after fun _ => counts_pure _
  | .limit count child, place, none => by
    rw [planQuery]
    exact counts_unsupported _ _
  | .limit count child, place, some list => by
    rw [planQuery]
    exact (counts_planQuery child place _).after fun _ => counts_pure _
  | .group queries, place, list? => by
    rw [planQuery]
    exact (counts_planAll queries place).after fun _ => counts_pure _
  | .select name alias? bindings child, place, list? => by
    refine ⟨fun {d q' d'} h => ?_⟩
    rw [planQuery] at h
    split at h
    · rename_i hname
      obtain ⟨-, rfl⟩ := ends_pure.1 h
      rw [requestedLeaves, selectedFields, if_pos hname]
      rfl
    · rename_i hname
      rw [length_requestedLeaves_select hname]
      obtain ⟨joined?, d₁, hfield, h⟩ := ends_bind.1 h
      obtain ⟨htype, hpath⟩ := (planField_planned hfield).objectType?
      have hcount := (counts_planField _ _ _ _).fields hfield
      have hleaf := fun q => counts_selection (isLeafField r place name) q
      rw [isLeafField_eq] at h hleaf
      cases joined? with
      | none =>
        obtain ⟨_, d₂, hpure, h⟩ := ends_bind.1 h
        obtain ⟨rfl, rfl⟩ := ends_pure.1 hpure
        rw [(hleaf _).fields h, hcount, htype]
        simp
      | some joined =>
        obtain ⟨child', d₂, hchild, h⟩ := ends_bind.1 h
        rw [(hleaf _).fields h, (counts_planQuery child joined.place _).fields hchild, hcount,
          htype, hpath joined rfl, Option.map_some, Option.elim_some, Nat.add_zero, Nat.add_assoc]
  | .narrow type child, place, list? => by
    rw [planQuery]
    exact (counts_planQuery child { place with type } none).after fun _ => counts_pure _
  | .component type field child, place, list? => by
    rw [planQuery]
    exact (counts_selectAllColumns place).before fun _ => counts_pure _
  | .empty, place, list? => by
    rw [planQuery]
    exact counts_pure _
  | .introspect child, place, list? => by
    rw [planQuery]
    exact counts_unsupported _ _

theorem counts_planAll {steps : Nat} : ∀ (queries : List Query) (place : Place),
    Counts (requestedLeaves r place.path place.type (.group queries)).length
      (planAll r steps place queries)
  | [], place => by
    rw [planAll]
    exact counts_pure _
  | q :: rest, place => by
    rw [planAll]
    have hsplit : (requestedLeaves r place.path place.type (.group (q :: rest))).length =
        (requestedLeaves r place.path place.type q).length +
          (requestedLeaves r place.path place.type (.group rest)).length := by
      simp only [requestedLeaves, selectedFields, selectedFieldsOfAll, List.filter_append,
        List.length_append]
    rw [hsplit]
    exact (counts_planQuery q place none).bind fun _ =>
      (counts_planAll rest place).after fun _ => counts_pure _

end

end Planning

open Planning

/-- A plan counts the leaves that its query asks for, each as often as it is selected. Nothing else
that is planned is counted: not the table of a type with its keys and its discriminator, not the
columns for joins of delegated fields, not what a field is read from, be it selected before or not,
with the siblings that it requires, and not the operands of filters and orderings. -/
theorem Plan.counts_requested_leaves {r : TableRegistry} {field : String} {type : TypeRef}
    {child : Query} {plan : Plan} (h : Plan.build r field type child = .ok plan) :
    plan.fields = (requestedLeaves r [field] type.underlying child).length ∧
      (∀ path objectType label, Counts 0 (addNode r path objectType label)) ∧
      (∀ place, Counts 0 (selectAllColumns r place)) ∧
      (∀ steps place name filtered, Counts 0 (planField r steps place name filtered)) ∧
      ∀ steps place operands, Counts 0 (planTerms r steps place operands) := by
  refine ⟨?_, counts_addNode, counts_selectAllColumns, counts_planField, counts_planTerms⟩
  rw [build_eq_buildWithin] at h
  unfold buildWithin at h
  obtain ⟨⟨residual, d⟩, hplanning, h⟩ := bind_eq_ok.1 h
  obtain rfl := pure_eq_ok.1 h
  obtain ⟨label, d₀, hlabel, hplanning⟩ := ends_bind.1 hplanning
  obtain ⟨rfl, rfl⟩ := ends_nextLabel.1 hlabel
  obtain ⟨root, d₁, hroot, hquery⟩ := ends_bind.1 hplanning
  have hstart : d₁.fields = 0 := (counts_addNode _ _ _).fields hroot
  have hcount := (counts_planQuery child ⟨root, [field], type.underlying⟩ _).fields hquery
  rw [hstart, Nat.zero_add] at hcount
  exact hcount

end MappedQuery.Sql

namespace MappedQuery.Ports

open Sql

/-- Ports with the country they lie in, and a title that is made of their name and depth. -/
def registry : TableRegistry where
  schema := Schema.ofTypes [
    .object ⟨"Query", [⟨"ports", [], .list (.named "Port")⟩], []⟩,
    .object ⟨"Port", [⟨"name", [], .named "String"⟩, ⟨"depth", [], .named "Int"⟩,
      ⟨"title", [], .named "String"⟩, ⟨"country", [], .named "Country"⟩], []⟩,
    .object ⟨"Country", [⟨"name", [], .named "String"⟩], []⟩] "Query"
  types := [
    .object ⟨"Query", [.root "ports" ()]⟩,
    .object ⟨"Port", [
      .source (.column "id" ⟨"port", "id"⟩ true true),
      .source (.column "name" ⟨"port", "name"⟩ false false),
      .source (.column "depth" ⟨"port", "depth"⟩ false false),
      .computed ⟨"title", ["name", "depth"], Computation.field "name"⟩ false,
      .source (.joined "country" [⟨⟨"port", "country_id"⟩, ⟨"country", "id"⟩⟩])]⟩,
    .object ⟨"Country", [
      .source (.column "id" ⟨"country", "id"⟩ true true),
      .source (.column "name" ⟨"country", "name"⟩ false false)]⟩]
  elaborators := []

/-- The deepest ports, the name of their country asked for twice. -/
def query : Query :=
  let country : Query := (Select.plain "country" (.field "name")).toQuery
  .limit 3 (.orderBy [⟨.path ["depth"], .descending, .last⟩]
    (.group [.field "__typename", .field "title", country, country]))

/-- Five columns are selected for three leaves. -/
theorem ports_have_three_leaves : ∃ plan,
    Plan.build registry "ports" (.list (.named "Port")) query = .ok plan ∧
      plan.statement.columns.length = 5 ∧ plan.fields = 3 := by
  have hcolumns : (Plan.build registry "ports" (.list (.named "Port")) query).toOption.map
      (·.statement.columns.length) = some 5 := by
    decide +kernel
  cases hplan : Plan.build registry "ports" (.list (.named "Port")) query with
  | error _ =>
    rw [hplan] at hcolumns
    cases hcolumns
  | ok plan =>
    rw [hplan] at hcolumns
    have hleaves : (requestedLeaves registry ["ports"] "Port" query).length = 3 := by
      decide +kernel
    exact ⟨plan, rfl, Option.some.inj hcolumns,
      (Plan.counts_requested_leaves hplan).1.trans hleaves⟩

end MappedQuery.Ports
