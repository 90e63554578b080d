import MappedQuery.Proofs.DelegatedRoots
import MappedQuery.Proofs.NarrowedTypes
import MappedQuery.Proofs.ObjectPositions

/-!
# Static types and paths

Where a field is delegated is decided twice. Before a query is run, its delegated fields are looked
for with the declared types and the names of the fields above them; when it is run, each field is
resolved with the concrete type and the path of the position it is read at. `Spot` is what the first
knows and `Visit` what both know of one part of a query. They agree on the mapping and on the path
at every part that is visited, and the position is of the declared type or of a narrower one, if
schemas declare the fields of a type as its supertypes do or more narrowly, data tell types that may
stand where they are told, and the fields on which delegation depends are selected where the object
type is known.
-/
namespace MappedQuery

namespace Schema

/-- What is of one type is of the other, and the two are the same unless the other is abstract. -/
structure Narrower (s : Schema) (type wider : String) : Prop where
  subtypes : ∀ t, s.isSubtype t type = true → s.isSubtype t wider = true
  eq : s.isAbstract wider = false → type = wider

theorem Narrower.refl (s : Schema) (type : String) : s.Narrower type type :=
  ⟨fun _ h => h, fun _ => rfl⟩

theorem isSubtype_self (s : Schema) (type : String) : s.isSubtype type type = true := by
  rw [isSubtype, search_self (a := ()) (by simp)]
  rfl

/-- A type declares the fields of its supertypes with their types or with narrower ones. -/
def FieldsNarrow (s : Schema) : Prop :=
  ∀ sub sup name f g, s.isSubtype sub sup = true → s.field? sub name = some f →
    s.field? sup name = some g → s.Narrower f.type.underlying g.type.underlying

/-- Types that declare all fields of one name with one type declare them as their supertypes do. -/
theorem fieldsNarrow_of_types {s : Schema} (h : ∀ d ∈ s.types, ∀ e ∈ s.types,
    ∀ f ∈ d.fields, ∀ g ∈ e.fields, f.name = g.name → f.type.underlying = g.type.underlying) :
    s.FieldsNarrow := by
  have hown {type name : String} {f : FieldDefinition} (hf : s.field? type name = some f) :
      ∃ d ∈ s.types, f ∈ d.fields ∧ f.name = name := by
    obtain ⟨owner, -, howner⟩ := reaches_of_field? hf
    obtain ⟨d, hd, hfound⟩ := Option.bind_eq_some_iff.1 howner
    exact ⟨d, List.mem_of_find?_eq_some hd, List.mem_of_find?_eq_some hfound,
      by simpa using List.find?_some hfound⟩
  intro sub sup name f g _ hf hg
  obtain ⟨d, hd, hfd, hfname⟩ := hown hf
  obtain ⟨e, he, hge, hgname⟩ := hown hg
  rw [h d hd e he f hfd g hge (hfname.trans hgname.symm)]
  exact .refl _ _

end Schema

namespace Cursor

/-- One position is reached from another by one step of reading. -/
inductive Step (c : Cursor) : Cursor → Prop
  | element {e : Cursor} (h : e ∈ c.elements) : Step c e
  | present {p : Cursor} (h : c.present? = .ok (some p)) : Step c p
  | narrow {n : Cursor} {type : String} (h : c.narrow type = .ok n) : Step c n
  | field {next : Cursor} {name : String} (h : c.field name = .ok next) : Step c next

/-- Wherever the data below a position tell the type of an object, an object of the type may stand
there. -/
def TypesTold (c : Cursor) : Prop :=
  ∀ o, Relation.ReflTransGen Step c o → ∀ t, o.concreteType = .ok t →
    o.schema.isSubtype t o.type.underlying = true

variable {c o : Cursor}

theorem TypesTold.step (h : c.TypesTold) (hstep : c.Step o) : o.TypesTold :=
  fun p hp => h p (hp.head hstep)

theorem schema_of_mem_elements (h : o ∈ c.elements) : o.schema = c.schema := by
  obtain ⟨path, type, ⟨d, json⟩ | ⟨r, group | cell⟩⟩ := c <;> unfold elements at h <;>
    grind [schema]

theorem schema_of_present? (h : c.present? = .ok (some o)) : o.schema = c.schema := by
  obtain ⟨path, type, ⟨d, json⟩ | ⟨r, group | cell⟩⟩ := c <;> cases type <;>
    grind [present?, schema, mismatch]

theorem narrow_eq_ok {n : Cursor} {type : String} (h : c.narrow type = .ok n) :
    n = { c with type := .named type } := by
  unfold narrow at h
  split at h
  · exact (Except.ok.inj h).symm
  · cases h

theorem concreteType_of_sourceField {φ ρ μ : Type} [SourceField φ] {r : Registry φ ρ μ}
    {name type : String} {f : φ} (h : c.sourceField r name = .ok (type, f)) :
    c.concreteType = .ok type := by
  unfold sourceField at h
  obtain ⟨concrete, hconcrete, h⟩ := bind_eq_ok.1 h
  split at h
  · split at h
    · cases h
    · cases pure_eq_ok.1 h
      exact hconcrete
  · cases h

theorem fieldType_eq_ok {type name : String} {t : TypeRef} (h : c.fieldType type name = .ok t) :
    ∃ f, c.schema.field? type name = some f ∧ f.type = t := by
  unfold fieldType at h
  split at h
  · rename_i f hf
    exact ⟨f, hf, Except.ok.inj h⟩
  · cases h

/-- A field is read at the path of its object and the name, as the type that the object type
declares it with. -/
theorem declared_of_field {next : Cursor} {name : String} (h : c.field name = .ok next) :
    ∃ type f, c.concreteType = .ok type ∧ c.schema.field? type name = some f ∧
      next.path = c.path ++ [name] ∧ next.type = f.type ∧ next.schema = c.schema := by
  unfold field at h
  split at h
  · rename_i r json hfocus
    obtain ⟨⟨owner, f⟩, hsource, h⟩ := bind_eq_ok.1 h
    obtain ⟨t, ht, h⟩ := bind_eq_ok.1 h
    obtain rfl := pure_eq_ok.1 h
    obtain ⟨g, hg, rfl⟩ := fieldType_eq_ok ht
    exact ⟨owner, g, concreteType_of_sourceField hsource, hg, rfl, rfl,
      by rw [schema, schema, hfocus]⟩
  · rename_i r e hfocus
    obtain ⟨⟨owner, f⟩, hsource, h⟩ := bind_eq_ok.1 h
    obtain ⟨t, ht, h⟩ := bind_eq_ok.1 h
    obtain ⟨extent, -, h⟩ := bind_eq_ok.1 h
    obtain rfl := pure_eq_ok.1 h
    obtain ⟨g, hg, rfl⟩ := fieldType_eq_ok ht
    exact ⟨owner, g, concreteType_of_sourceField hsource, hg, rfl, rfl,
      by rw [schema, schema, hfocus]⟩

end Cursor

/-- Where a query stands when its delegated fields are looked for. -/
structure Spot where
  mapping : Mapping
  type : String
  path : List String

namespace Spot

/-- Where the query below a field stands: paths start anew at a delegated field. Components are made
there by `Query.delegateAt_of_target` and `Query.delegateAt_of_no_target`. -/
def below (p : Spot) (name : String) : Spot :=
  let type := Query.selectedType p.mapping p.type name
  (p.mapping.delegateTarget? p.path p.type name).elim ⟨p.mapping, type, p.path ++ [name]⟩
    fun target => ⟨target, type, [name]⟩

/-- If objects of several types may stand at the spot, none of them has the field delegated, and if
one of them has the field at all the spot has it. -/
def Settles (p : Spot) (name : String) : Prop :=
  p.mapping.schema.isAbstract p.type = true →
    ∀ t, p.mapping.schema.isSubtype t p.type = true →
      p.mapping.delegateTarget? p.path t name = none ∧
        ((p.mapping.schema.field? t name).isSome = true →
          (p.mapping.schema.field? p.type name).isSome = true)

end Spot

namespace Query

mutual

/-- The query has no components, and it selects delegated fields only where the static type is the
object type that they are delegated for. -/
def DelegatesAt (p : Spot) : Query → Prop
  | .select name _ _ child =>
    name = "__typename" ∨ (p.Settles name ∧ child.DelegatesAt (p.below name))
  | .narrow condition child => child.DelegatesAt { p with type := condition }
  | .group queries => AllDelegateAt p queries
  | .filter _ child => child.DelegatesAt p
  | .unique child => child.DelegatesAt p
  | .limit _ child => child.DelegatesAt p
  | .orderBy _ child => child.DelegatesAt p
  | .component .. => False
  | .introspect _ => True
  | .empty => True

def AllDelegateAt (p : Spot) : List Query → Prop
  | [] => True
  | q :: rest => q.DelegatesAt p ∧ AllDelegateAt p rest

end

theorem delegatesAt_of_mem {p : Spot} : ∀ {queries : List Query}, AllDelegateAt p queries →
    ∀ q ∈ queries, q.DelegatesAt p
  | [], _, _, hq => by cases hq
  | first :: rest, h, q, hq => by
    rw [AllDelegateAt] at h
    rcases List.mem_cons.1 hq with rfl | hq
    · exact h.1
    · exact delegatesAt_of_mem h.2 q hq

/-- Functions that put list operations around a query. -/
inductive ListOperations : (Query → Query) → Prop
  | none : ListOperations fun q => q
  | filter {f : Query → Query} (p : Predicate) (h : ListOperations f) :
    ListOperations fun q => .filter p (f q)
  | unique {f : Query → Query} (h : ListOperations f) : ListOperations fun q => .unique (f q)
  | limit {f : Query → Query} (count : Nat) (h : ListOperations f) :
    ListOperations fun q => .limit count (f q)
  | orderBy {f : Query → Query} (selections : List OrderSelection) (h : ListOperations f) :
    ListOperations fun q => .orderBy selections (f q)

variable {f : Query → Query}

theorem ListOperations.delegatesAt (h : ListOperations f) {p : Spot} {q : Query}
    (hq : q.DelegatesAt p) : (f q).DelegatesAt p := by
  induction h with
  | none => exact hq
  | filter p _ ih | unique _ ih | limit count _ ih | orderBy selections _ ih =>
    rw [DelegatesAt]
    exact ih

end Query

namespace JoinRule

/-- A join fails whatever there is below a selection, or puts list operations around it. -/
def WrapsChild (join : JoinRule) : Prop :=
  ∀ object name alias? bindings,
    (∃ f, ∀ child, join object (.select name alias? bindings child) = .error f) ∨
      ∃ wrap, Query.ListOperations wrap ∧ ∀ child,
        join object (.select name alias? bindings child) =
          .ok (.select name alias? bindings (wrap child))

theorem wrapsChild_trivial : trivial.WrapsChild := fun _ _ _ _ =>
  .inr ⟨_, .none, fun _ => rfl⟩

theorem wrapsChild_onEqual (keys : List (Computation × String)) (unique : Bool) :
    (onEqual keys unique).WrapsChild := by
  intro object name alias? bindings
  unfold onEqual onChild
  dsimp only
  cases keys.mapM (m := Except Fault) fun key => do
      pure (Predicate.eq (Term.field key.2) (.const (← key.1 object))) with
  | error f => exact .inl ⟨f, fun _ => rfl⟩
  | ok equalities =>
    have hfilter : Query.ListOperations fun q => .filter (Predicate.all equalities) q :=
      .filter _ .none
    cases unique with
    | true => exact .inr ⟨_, hfilter.unique, fun _ => rfl⟩
    | false => exact .inr ⟨_, hfilter, fun _ => rfl⟩

end JoinRule

namespace Mapping

/-- A mapping leaves a field to another one. -/
def DelegatesTo (m target : Mapping) : Prop :=
  ∃ path type name d, m.resolve path type name = .delegated d ∧ d.target = target

/-- The data of all roots of a mapping tell types that may stand where they are told. -/
def RootsTold (m : Mapping) : Prop :=
  ∀ type s residual c, (m.openRoot type s).Gives (residual, c) → c.TypesTold

/-- The fields that a mapping delegates are declared alike by the mappings they are left to, and
joined by list operations. -/
structure DelegatesAlike (m : Mapping) : Prop where
  fields : m.schema.FieldsNarrow
  joins : ∀ path type name d, m.resolve path type name = .delegated d → d.join.WrapsChild
  declared : ∀ path type name d t, m.resolve path type name = .delegated d →
    d.target.rootFieldType? type name = some t →
      d.target.schema.Narrower t.underlying (Query.selectedType m type name)
  told : ∀ path type name d, m.resolve path type name = .delegated d → d.target.RootsTold

theorem delegated_of_delegateTarget? {m target : Mapping} {path : List String}
    {type name : String} (h : m.delegateTarget? path type name = some target) :
    ∃ d, m.resolve path type name = .delegated d ∧ d.target = target := by
  unfold delegateTarget? at h
  split at h
  · rename_i d hd
    exact ⟨d, hd, Option.some.inj h⟩
  · cases h

/-- All mappings that can be reached by delegation delegate so. -/
def GraphAlike (m : Mapping) : Prop :=
  ∀ target, Relation.ReflTransGen DelegatesTo m target → target.DelegatesAlike

theorem GraphAlike.target {m : Mapping} (h : m.GraphAlike) {path : List String}
    {type name : String} {d : Delegate Mapping} (hd : m.resolve path type name = .delegated d) :
    d.target.GraphAlike := fun target htarget =>
  h target (htarget.head ⟨path, type, name, d, hd, rfl⟩)

/-- What a join makes of a selection is the selection with list operations around its child. -/
theorem DelegatesAlike.joined {m : Mapping} (h : m.DelegatesAlike) {path : List String}
    {type name : String} {d : Delegate Mapping} (hd : m.resolve path type name = .delegated d)
    {object : ObjectView} {selected : Select} {alias? : Option String} {bindings : List Binding}
    {child : Query}
    (hjoin : d.join object (.select name alias? bindings child) = .ok selected.toQuery) :
    ∃ wrap, Query.ListOperations wrap ∧ selected = ⟨name, alias?, bindings, wrap child⟩ := by
  rcases h.joins path type name d hd object name alias? bindings with ⟨f, hf⟩ | ⟨wrap, hwrap, hok⟩
  · rw [hf] at hjoin
    cases hjoin
  · rw [hok] at hjoin
    cases selected
    cases hjoin
    exact ⟨wrap, hwrap, rfl⟩

theorem GraphAlike.alike {m : Mapping} (h : m.GraphAlike) : m.DelegatesAlike := h m .refl

theorem rootFieldType?_of_openType {m : Mapping} {type name : String} {t : TypeRef}
    (h : m.openType type name = .ok t) : m.rootFieldType? type name = some t := by
  unfold openType at h
  split at h
  · rename_i t' ht'
    exact ht'.trans (congrArg some (Except.ok.inj h))
  · cases h

/-- A root is opened at the path of its field, with the type that the field is declared with. -/
theorem openRoot_gives {m : Mapping} {type : String} {s : Select} {residual : Query} {c : Cursor}
    (h : (m.openRoot type s).Gives (residual, c)) :
    m.rootFieldType? type s.name = some c.type ∧ c.path = [s.name] ∧ c.schema = m.schema := by
  have hdeclared {t : TypeRef} (h : (Run.ofExcept (m.openType type s.name)).Gives t) :
      m.rootFieldType? type s.name = some t :=
    rootFieldType?_of_openType (Run.gives_ofExcept.1 h)
  unfold openRoot at h
  split at h
  · split at h
    · exact absurd h Run.not_gives_throw
    · obtain ⟨t, ht, h⟩ := h.bind
      cases Run.gives_pure.1 h
      exact ⟨hdeclared ht, rfl, rfl⟩
  · split at h
    · exact absurd h Run.not_gives_throw
    · obtain ⟨t, ht, h⟩ := h.bind
      obtain ⟨plan, -, h⟩ := h.bind
      obtain ⟨result, -, h⟩ := h.bind
      cases Run.gives_pure.1 h
      exact ⟨hdeclared ht, rfl, rfl⟩

end Mapping

/-- What is left of a query without some of its filters delegates where the query does. -/
theorem Query.DropsFilters.delegatesAt {q q' : Query} (h : q.DropsFilters q') {p : Spot}
    (hq : q.DelegatesAt p) : q'.DelegatesAt p := by
  induction h generalizing p with
  | refl q => exact hq
  | dropped _ ih =>
    rw [DelegatesAt] at hq
    exact ih hq
  | filter _ ih | unique _ ih | limit _ ih | orderBy _ ih | narrow _ ih =>
    rw [DelegatesAt] at hq ⊢
    exact ih hq
  | groupCons _ _ ih ihrest =>
    have hothers := @ihrest p
    rw [DelegatesAt, AllDelegateAt] at hq ⊢
    rw [DelegatesAt, DelegatesAt] at hothers
    exact ⟨ih hq.1, hothers hq.2⟩
  | select _ ih =>
    rw [DelegatesAt] at hq ⊢
    exact hq.imp id fun ⟨hsettles, hchild⟩ => ⟨hsettles, ih hchild⟩

namespace Spot

variable {p : Spot} {name : String}

theorem below_of_target {target : Mapping}
    (h : p.mapping.delegateTarget? p.path p.type name = some target) :
    p.below name = ⟨target, Query.selectedType p.mapping p.type name, [name]⟩ := by
  rw [below, h]
  rfl

theorem below_of_no_target (h : p.mapping.delegateTarget? p.path p.type name = none) :
    p.below name =
      ⟨p.mapping, Query.selectedType p.mapping p.type name, p.path ++ [name]⟩ := by
  rw [below, h]
  rfl

/-- A type that the spot's objects may have: the spot's own, if that is no abstract type. -/
def Admits (p : Spot) (type : String) : Prop :=
  p.mapping.schema.isSubtype type p.type = true ∧
    (p.mapping.schema.isAbstract p.type = false → type = p.type)

theorem admits_of_narrower {type : String} (h : p.mapping.schema.Narrower type p.type) :
    p.Admits type :=
  ⟨h.subtypes type (Schema.isSubtype_self _ _), h.eq⟩

/-- A field is delegated for all types of the spot's objects or for none of them. -/
theorem Settles.delegateTarget?_eq (h : p.Settles name) {type : String} (htype : p.Admits type) :
    p.mapping.delegateTarget? p.path type name =
      p.mapping.delegateTarget? p.path p.type name := by
  cases habstract : p.mapping.schema.isAbstract p.type with
  | false => rw [htype.2 habstract]
  | true => rw [(h habstract type htype.1).1, (h habstract p.type (Schema.isSubtype_self _ _)).1]

/-- A field that an object of the spot has delegated is delegated for the spot, which has the type
of the object. -/
theorem Settles.eq_of_delegated (h : p.Settles name) {type : String} (htype : p.Admits type)
    {d : Delegate Mapping} (hd : p.mapping.resolve p.path type name = .delegated d) :
    p.mapping.schema.isAbstract p.type = false ∧ type = p.type := by
  have hobject : p.mapping.schema.isAbstract p.type = false := by
    refine Bool.eq_false_iff.2 fun habstract => ?_
    have hnone := (h habstract type htype.1).1
    rw [Mapping.delegateTarget?_of_delegated hd] at hnone
    cases hnone
  exact ⟨hobject, htype.2 hobject⟩

/-- A field is declared for the types of the spot's objects as it is for the spot or more
narrowly. -/
theorem Settles.narrower (h : p.Settles name) (hfields : p.mapping.schema.FieldsNarrow)
    {type : String} (htype : p.Admits type) {f : FieldDefinition}
    (hf : p.mapping.schema.field? type name = some f) :
    p.mapping.schema.Narrower f.type.underlying
      (Query.selectedType p.mapping p.type name) := by
  rw [Query.selectedType]
  cases hwider : p.mapping.schema.field? p.type name with
  | some g => exact hfields type p.type name f g htype.1 hf hwider
  | none =>
    cases habstract : p.mapping.schema.isAbstract p.type with
    | false =>
      rw [htype.2 habstract, hwider] at hf
      cases hf
    | true =>
      have hdeclared := (h habstract type htype.1).2 (by rw [hf]; rfl)
      rw [hwider] at hdeclared
      cases hdeclared

end Spot

namespace Query

/-- The query with its delegated fields as components, where it stands. -/
def delegateAt (p : Spot) (q : Query) : Query := q.delegate p.mapping p.type p.path

variable {p : Spot} {name : String}

theorem delegateAt_typename (alias? : Option String) (bindings : List Binding) (child : Query) :
    (select "__typename" alias? bindings child).delegateAt p =
      select "__typename" alias? bindings child := by
  rw [delegateAt, delegate, if_pos rfl]

/-- A delegated field becomes a component, below which the query is changed as it stands there. -/
theorem delegateAt_of_target {target : Mapping} (hname : name ≠ "__typename")
    (htarget : p.mapping.delegateTarget? p.path p.type name = some target) (alias? : Option String)
    (bindings : List Binding) (child : Query) :
    (select name alias? bindings child).delegateAt p =
      component p.type name (select name alias? bindings (child.delegateAt (p.below name))) := by
  rw [Spot.below_of_target htarget]
  exact delegate_of_target (s := ⟨name, alias?, bindings, child⟩) htarget hname

theorem delegateAt_of_no_target (hname : name ≠ "__typename")
    (htarget : p.mapping.delegateTarget? p.path p.type name = none) (alias? : Option String)
    (bindings : List Binding) (child : Query) :
    (select name alias? bindings child).delegateAt p =
      select name alias? bindings (child.delegateAt (p.below name)) := by
  rw [Spot.below_of_no_target htarget]
  exact delegate_of_no_target (s := ⟨name, alias?, bindings, child⟩) htarget hname

/-- A selection becomes a selection or a component. -/
theorem delegateAt_select_cases (p : Spot) (name : String) (alias? : Option String)
    (bindings : List Binding) (child : Query) :
    (∃ child', (select name alias? bindings child).delegateAt p =
      select name alias? bindings child') ∨
    ∃ child', (select name alias? bindings child).delegateAt p =
      component p.type name (select name alias? bindings child') := by
  by_cases hname : name = "__typename"
  · subst hname
    exact .inl ⟨child, delegateAt_typename ..⟩
  · cases htarget : p.mapping.delegateTarget? p.path p.type name with
    | some target => exact .inr ⟨_, delegateAt_of_target hname htarget ..⟩
    | none => exact .inl ⟨_, delegateAt_of_no_target hname htarget ..⟩

theorem ListOperations.delegateAt {f : Query → Query} (h : ListOperations f) (p : Spot)
    (q : Query) : (f q).delegateAt p = f (q.delegateAt p) := by
  induction h with
  | none => rfl
  | filter predicate _ ih => exact congrArg (Query.filter predicate) ih
  | unique _ ih => exact congrArg Query.unique ih
  | limit count _ ih => exact congrArg (Query.limit count) ih
  | orderBy selections _ ih => exact congrArg (Query.orderBy selections) ih

end Query

namespace Cursor

/-- A position is where a spot says: at its path, and of its type or a narrower one. -/
structure StandsAt (c : Cursor) (p : Spot) : Prop where
  path : c.path = p.path
  schema : c.schema = p.mapping.schema
  narrower : p.mapping.schema.Narrower c.type.underlying p.type
  told : c.TypesTold

namespace StandsAt

variable {c o : Cursor} {p : Spot}

theorem element (h : c.StandsAt p) (ho : o ∈ c.elements) : o.StandsAt p where
  path := (mem_elements ho).1.trans h.path
  schema := (schema_of_mem_elements ho).trans h.schema
  narrower := by
    rw [(mem_elements ho).2.1, TypeRef.underlying_element]
    exact h.narrower
  told := h.told.step (.element ho)

theorem present (h : c.StandsAt p) (ho : c.present? = .ok (some o)) : o.StandsAt p where
  path := (present?_eq_some ho).2.1.trans h.path
  schema := (schema_of_present? ho).trans h.schema
  narrower := by
    have hnarrower := h.narrower
    rw [(present?_eq_some ho).1] at hnarrower
    exact hnarrower
  told := h.told.step (.present ho)

theorem objectAt (h : c.StandsAt p) (ho : c.ObjectAt o) : o.StandsAt p := by
  induction ho with
  | object => exact h
  | present hpresent _ ih => exact ih (h.present hpresent)
  | element _ he _ ih => exact ih (h.element he)

/-- The objects that a query is read of stand where the position does. -/
theorem readsObject {m : Mapping} {q : Query} (h : c.StandsAt p) (ho : q.ReadsObject m c o) :
    o.StandsAt p := by
  cases ho with
  | position _ ho => exact h.objectAt ho
  | refined _ hrefined _ he ho => exact (h.element (Query.subset_of_refine hrefined he)).objectAt ho

theorem narrow (h : c.StandsAt p) {type : String} (ho : c.narrow type = .ok o) :
    o.StandsAt { p with type } := by
  have htold := h.told.step (.narrow ho)
  obtain rfl := narrow_eq_ok ho
  exact ⟨h.path, h.schema, .refl _ _, htold⟩

/-- The concrete type at a position is one that the spot admits. -/
theorem admits (h : c.StandsAt p) {type : String} (htype : c.concreteType = .ok type) :
    p.Admits type := by
  have hsubtype := h.told c .refl type htype
  rw [h.schema] at hsubtype
  refine ⟨h.narrower.subtypes type hsubtype, fun hobject => ?_⟩
  have hdeclared := h.narrower.eq hobject
  rw [concreteType_of_not_isAbstract (by rw [h.schema, hdeclared, hobject]), hdeclared] at htype
  exact (Except.ok.inj htype).symm

/-- Where the spot has an object type, that is the concrete type. -/
theorem concreteType (h : c.StandsAt p) (hobject : p.mapping.schema.isAbstract p.type = false) :
    c.concreteType = .ok p.type := by
  have hdeclared := h.narrower.eq hobject
  rw [concreteType_of_not_isAbstract (by rw [h.schema, hdeclared, hobject]), hdeclared]

/-- A field that is not delegated stands below its object. -/
theorem field (h : c.StandsAt p) (hfields : p.mapping.schema.FieldsNarrow) {name : String}
    (hsettles : p.Settles name)
    (htarget : p.mapping.delegateTarget? p.path p.type name = none)
    (ho : c.field name = .ok o) : o.StandsAt (p.below name) := by
  have htold := h.told.step (.field ho)
  obtain ⟨type, f, htype, hf, hpath, hdeclared, hschema⟩ := declared_of_field ho
  rw [h.schema] at hf
  rw [Spot.below_of_no_target htarget]
  refine ⟨hpath.trans (congrArg (· ++ [name]) h.path), hschema.trans h.schema, ?_, htold⟩
  rw [hdeclared]
  exact hsettles.narrower hfields (h.admits htype) hf

end StandsAt

/-- A root stands at its field, where its declared type is told. -/
theorem standsAt_of_openRoot {m : Mapping} {type static : String} {s : Select} {residual : Query}
    {root : Cursor} (htold : m.RootsTold)
    (hdeclared : ∀ t, m.rootFieldType? type s.name = some t →
      m.schema.Narrower t.underlying static)
    (hroot : (m.openRoot type s).Gives (residual, root)) :
    root.StandsAt ⟨m, static, [s.name]⟩ := by
  obtain ⟨htype, hpath, hschema⟩ := Mapping.openRoot_gives hroot
  exact ⟨hpath, hschema, hdeclared _ htype, htold _ _ _ _ hroot⟩

/-- A root that is not delegated stands below its field. -/
theorem standsAt_of_own_root {m : Mapping} {s : Select} {residual : Query} {root : Cursor}
    (htold : m.RootsTold) (hown : m.delegateTarget? [] m.schema.queryType s.name = none)
    (hroot : (m.openRoot m.schema.queryType s).Gives (residual, root)) :
    root.StandsAt (Spot.below ⟨m, m.schema.queryType, []⟩ s.name) := by
  rw [Spot.below_of_no_target hown]
  refine standsAt_of_openRoot htold (fun t ht => ?_) hroot
  rw [Mapping.rootFieldType?, Option.or_self] at ht
  obtain ⟨f, hf, rfl⟩ := Option.map_eq_some_iff.1 ht
  rw [Query.selectedType, hf]
  exact .refl _ _

/-- A root that a delegated field is answered with stands below the field. -/
theorem standsAt_of_root {p : Spot} {d : Delegate Mapping} {s : Select} {residual : Query}
    {root : Cursor} (hm : p.mapping.DelegatesAlike)
    (hd : p.mapping.resolve p.path p.type s.name = .delegated d)
    (hroot : (d.target.openRoot p.type s).Gives (residual, root)) :
    root.StandsAt (p.below s.name) := by
  rw [Spot.below_of_target (Mapping.delegateTarget?_of_delegated hd)]
  exact standsAt_of_openRoot (hm.told _ _ _ d hd) (fun t => hm.declared _ _ _ d t hd) hroot

end Cursor

/-- A part of a query that is read at a position, and where it stands when delegated fields are
looked for. -/
structure Visit where
  spot : Spot
  query : Query
  mapping : Mapping
  cursor : Cursor

namespace Visit

/-- One step of reading a query. What the spot becomes is told by the spot alone, and the position
is reached as the reader of the query reaches it. -/
inductive Step : Visit → Visit → Prop
  | member {p : Spot} {q : Query} {queries : List Query} {m : Mapping} {c : Cursor}
    (h : q ∈ queries) : Step ⟨p, .group queries, m, c⟩ ⟨p, q, m, c⟩
  | narrow {p : Spot} {type : String} {child : Query} {m : Mapping} {c n : Cursor}
    (h : c.narrow type = .ok n) :
    Step ⟨p, .narrow type child, m, c⟩ ⟨{ p with type }, child, m, n⟩
  | filter {p : Spot} {predicate : Predicate} {child : Query} {m : Mapping} {c : Cursor} :
    Step ⟨p, .filter predicate child, m, c⟩ ⟨p, child, m, c⟩
  | unique {p : Spot} {child : Query} {m : Mapping} {c : Cursor} :
    Step ⟨p, .unique child, m, c⟩ ⟨p, child, m, c⟩
  | limit {p : Spot} {count : Nat} {child : Query} {m : Mapping} {c : Cursor} :
    Step ⟨p, .limit count child, m, c⟩ ⟨p, child, m, c⟩
  | orderBy {p : Spot} {selections : List OrderSelection} {child : Query} {m : Mapping}
    {c : Cursor} : Step ⟨p, .orderBy selections child, m, c⟩ ⟨p, child, m, c⟩
  | field {p : Spot} {name type : String} {alias? : Option String} {bindings : List Binding}
    {child : Query} {m : Mapping} {c next o : Cursor} (hname : name ≠ "__typename")
    (htype : c.concreteType = .ok type) (hresolve : m.resolve c.path type name = .source)
    (hnext : c.field name = .ok next) (ho : child.ReadsObject m next o) :
    Step ⟨p, .select name alias? bindings child, m, c⟩ ⟨p.below name, child, m, o⟩
  | delegated {p : Spot} {name type : String} {alias? : Option String} {bindings : List Binding}
    {child residual : Query} {m : Mapping} {c root o : Cursor} {d : Delegate Mapping} {s : Select}
    (hname : name ≠ "__typename") (htype : c.concreteType = .ok type)
    (hresolve : m.resolve c.path type name = .delegated d)
    (hjoin : d.join c.view (.select name alias? bindings child) = .ok s.toQuery)
    (hroot : (d.target.openRoot type s).Gives (residual, root))
    (ho : residual.ReadsObject d.target root o) :
    Step ⟨p, .select name alias? bindings child, m, c⟩ ⟨p.below name, residual, d.target, o⟩

/-- The spot and the position agree, and so they will below. -/
structure Agrees (v : Visit) : Prop where
  mapping : v.mapping = v.spot.mapping
  graph : v.mapping.GraphAlike
  stands : v.cursor.StandsAt v.spot
  delegates : v.query.DelegatesAt v.spot

/-- A step of reading keeps the spot and the position in agreement. -/
theorem Agrees.step {v w : Visit} (h : v.Agrees) (hstep : v.Step w) : w.Agrees := by
  obtain ⟨hm, hgraph, hc, hq⟩ := h
  cases hstep with
  | member hmem =>
    rw [Query.DelegatesAt] at hq
    exact ⟨hm, hgraph, hc, Query.delegatesAt_of_mem hq _ hmem⟩
  | narrow hn =>
    rw [Query.DelegatesAt] at hq
    exact ⟨hm, hgraph, hc.narrow hn, hq⟩
  | filter | unique | limit | orderBy =>
    rw [Query.DelegatesAt] at hq
    exact ⟨hm, hgraph, hc, hq⟩
  | @field p name type alias? bindings child m c next o hname htype hresolve hnext ho =>
    obtain rfl : m = p.mapping := hm
    rw [Query.DelegatesAt] at hq
    obtain ⟨hsettles, hchild⟩ := hq.resolve_left hname
    have hnone : p.mapping.delegateTarget? p.path p.type name = none := by
      rw [← hsettles.delegateTarget?_eq (hc.admits htype), ← hc.path, Mapping.delegateTarget?,
        hresolve]
    have hbelow := (hc.field hgraph.alike.fields hsettles hnone hnext).readsObject ho
    refine ⟨?_, hgraph, hbelow, hchild⟩
    rw [Spot.below_of_no_target hnone]
  | @delegated p name type alias? bindings child residual m c root o d s hname htype hresolve hjoin
      hroot ho =>
    obtain rfl : m = p.mapping := hm
    rw [Query.DelegatesAt] at hq
    obtain ⟨hsettles, hchild⟩ := hq.resolve_left hname
    rw [hc.path] at hresolve
    obtain ⟨-, rfl⟩ := hsettles.eq_of_delegated (hc.admits htype) hresolve
    obtain ⟨wrap, hwrap, rfl⟩ := hgraph.alike.joined hresolve hjoin
    have hbelow := (Cursor.standsAt_of_root hgraph.alike hresolve hroot).readsObject ho
    have hleft := (Mapping.dropsFilters_openRoot hroot).delegatesAt (hwrap.delegatesAt hchild)
    refine ⟨?_, hgraph.target hresolve, hbelow, hleft⟩
    rw [Spot.below_of_target (Mapping.delegateTarget?_of_delegated hresolve)]

theorem Agrees.steps {v w : Visit} (h : v.Agrees) (hsteps : Relation.ReflTransGen Step v w) :
    w.Agrees := by
  induction hsteps with
  | refl => exact h
  | tail _ hstep ih => exact ih.step hstep

end Visit

section Documents

variable {r : DocumentRegistry}

theorem Registry.delegate_of_resolve {path : List String} {type name : String}
    {d : Delegate Mapping} (h : r.resolve path type name = .delegated d) :
    FieldMapping.delegate d ∈ r.allFields ∧ d.name = name := by
  unfold resolve at h
  split at h
  · rename_i d' hd
    cases h
    exact ⟨mem_allFields_of_fieldMapping? hd, name_of_fieldMapping? hd⟩
  all_goals cases h

/-- A registry delegates alike to mappings of its schema, if no root has the name of a delegated
field. -/
theorem Registry.delegatesAlike_of_schema (hfields : r.schema.FieldsNarrow)
    (h : ∀ d, FieldMapping.delegate d ∈ r.allFields → d.join.WrapsChild ∧
      d.target.schema = r.schema ∧ r.schema.field? r.schema.queryType d.name = none ∧
        d.target.RootsTold) : (Mapping.documents r).DelegatesAlike where
  fields := hfields
  joins path type name d hd := (h d (delegate_of_resolve hd).1).1
  told path type name d hd := (h d (delegate_of_resolve hd).1).2.2.2
  declared path type name d t hd ht := by
    obtain ⟨hmem, rfl⟩ := delegate_of_resolve hd
    obtain ⟨-, hschema, hroot, -⟩ := h d hmem
    rw [Mapping.rootFieldType?, hschema, hroot, Option.or_none] at ht
    obtain ⟨f, hf, rfl⟩ := Option.map_eq_some_iff.1 ht
    have hselected : Query.selectedType (.documents r) type d.name = f.type.underlying := by
      rw [Query.selectedType]
      exact congrArg (fun f? => (Option.map _ f?).getD type) hf
    rw [hselected]
    exact .refl _ _

variable {docs : List Json}

/-- Documents that have only each other for their parts tell types that may stand where they are
told, if those are types of every abstract type. -/
structure Registry.PartsTold (r : DocumentRegistry) (docs : List Json) : Prop where
  null : .null ∈ docs
  members : ∀ members, .object members ∈ docs → ∀ m ∈ members, m.2 ∈ docs
  elements : ∀ elements, .array elements ∈ docs → ∀ e ∈ elements, e ∈ docs
  told : ∀ doc ∈ docs, ∀ t, doc.get? Cursor.typenameKey = some (.string t) →
    ∀ type, r.schema.isAbstract type = true → r.schema.isSubtype t type = true

theorem Registry.PartsTold.get? (h : r.PartsTold docs) {json : Json} (hjson : json ∈ docs)
    (key : String) : (json.get? key).getD .null ∈ docs := by
  cases hget : json.get? key with
  | none => exact h.null
  | some v =>
    cases json with
    | object members =>
      obtain ⟨m, hm, rfl⟩ := Option.map_eq_some_iff.1 hget
      exact h.members members hjson m (List.mem_of_find?_eq_some hm)
    | _ => cases hget

/-- A step of reading goes from a document to one of its parts. -/
theorem Registry.PartsTold.step (h : r.PartsTold docs) {c o : Cursor} (hstep : c.Step o)
    (hc : ∃ json ∈ docs, c.focus = .document r json) :
    ∃ json ∈ docs, o.focus = .document r json := by
  obtain ⟨json, hjson, hfocus⟩ := hc
  cases hstep with
  | element he =>
    unfold Cursor.elements at he
    rw [hfocus] at he
    cases json with
    | array elements =>
      obtain ⟨e, hmem, rfl⟩ := List.mem_map.1 he
      exact ⟨e, h.elements elements hjson e hmem, rfl⟩
    | null => cases he
    | bool _ | integer _ | double _ | string _ | object _ =>
      rw [List.mem_singleton.1 he]
      exact ⟨_, hjson, rfl⟩
  | present hpresent =>
    obtain ⟨-, -, ⟨hsame, -⟩ | ⟨r', g, htable, -⟩⟩ := Cursor.present?_eq_some hpresent
    · exact ⟨json, hjson, hsame.trans hfocus⟩
    · cases hfocus.symm.trans htable
  | narrow hnarrow =>
    rw [Cursor.narrow_eq_ok hnarrow]
    exact ⟨json, hjson, hfocus⟩
  | field hfield =>
    unfold Cursor.field at hfield
    rw [hfocus] at hfield
    obtain ⟨⟨owner, f⟩, -, hfield⟩ := bind_eq_ok.1 hfield
    obtain ⟨t, -, hfield⟩ := bind_eq_ok.1 hfield
    rw [← pure_eq_ok.1 hfield]
    exact ⟨_, h.get? hjson f.key, rfl⟩

theorem Registry.PartsTold.typesTold (h : r.PartsTold docs) {c : Cursor}
    (hc : ∃ json ∈ docs, c.focus = .document r json) : c.TypesTold := by
  intro o ho
  have hpart : ∃ json ∈ docs, o.focus = .document r json := by
    induction ho with
    | refl => exact hc
    | tail _ hstep ih => exact h.step hstep ih
  intro t ht
  obtain ⟨json, hjson, hfocus⟩ := hpart
  have hschema : o.schema = r.schema := by rw [Cursor.schema, hfocus]
  cases habstract : o.schema.isAbstract o.type.underlying with
  | false =>
    rw [Cursor.concreteType_of_not_isAbstract habstract] at ht
    rw [← Except.ok.inj ht]
    exact Schema.isSubtype_self _ _
  | true =>
    cases (Cursor.concreteType_of_isAbstract rfl habstract).1 ht with
    | document hdocument htold =>
      cases hfocus.symm.trans hdocument
      rw [hschema] at habstract ⊢
      exact h.told json hjson t htold _ habstract
    | rows hrows => cases hfocus.symm.trans hrows

/-- The roots of a registry tell types if their documents do. -/
theorem Registry.PartsTold.rootsTold (h : r.PartsTold docs)
    (hroots : ∀ name json, FieldMapping.root name json ∈ r.allFields → json ∈ docs) :
    (Mapping.documents r).RootsTold := by
  have hdata {path : List String} {type name : String} {json : Json}
      (hjson : r.rootData? path type name = some json) : json ∈ docs := by
    unfold rootData? at hjson
    split at hjson
    · rename_i root hroot
      cases hjson
      exact hroots _ _ (mem_allFields_of_fieldMapping? hroot)
    · cases hjson
  intro type s residual c hgives
  unfold Mapping.openRoot at hgives
  dsimp only at hgives
  split at hgives
  · exact absurd hgives Run.not_gives_throw
  · rename_i json hopen
    obtain ⟨t, -, hgives⟩ := hgives.bind
    cases Run.gives_pure.1 hgives
    refine h.typesTold ⟨json, ?_, rfl⟩
    rcases Option.or_eq_some_iff.1 hopen with hown | ⟨-, hquery⟩
    · exact hdata hown
    · exact hdata hquery

end Documents

end MappedQuery
