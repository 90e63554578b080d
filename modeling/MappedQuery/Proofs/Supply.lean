import MappedQuery.Interpret.Reading
import MappedQuery.Proofs.PlanCoverage

/-!
# What reading asks of a plan

Reading the rows of a statement fails for want of a column that was not selected or of a field that
was not joined only where it asks for one. The steps of reading that ask are few: the cell of a
column, the discriminator of an abstract position, the rows of a field. What a computed field
reads of its object goes through them.
-/
namespace MappedQuery

/-- Whether a fault says that what is read was not planned. -/
def Fault.lacking : Fault → Bool
  | .interpreter (.columnNotSelected ..) => true
  | .interpreter (.fieldNotJoined ..) => true
  | _ => false

/-- A computation does not fail for want of what was not planned. -/
def Served {α : Type} (x : Except Fault α) : Prop := ∀ f, x = .error f → f.lacking = false

section Served

variable {α β : Type}

@[simp] theorem served_ok (a : α) : Served (.ok a) := fun _ h => nomatch h

@[simp] theorem served_error {f : Fault} :
    Served (.error f : Except Fault α) ↔ f.lacking = false := by
  constructor
  · exact fun h => h f rfl
  · rintro hf g ⟨⟩
    exact hf

theorem Served.bind {x : Except Fault α} {f : α → Except Fault β} (hx : Served x)
    (hf : ∀ a, x = .ok a → Served (f a)) : Served (x >>= f) := by
  cases x with
  | error e => exact served_error.2 (served_error.1 hx)
  | ok a => exact hf a rfl

theorem Served.map {x : Except Fault α} (hx : Served x) (f : α → β) : Served (f <$> x) := by
  cases x with
  | error e => exact served_error.2 (served_error.1 hx)
  | ok a => exact served_ok _

theorem served_mapM {f : α → Except Fault β} {l : List α} (h : ∀ a ∈ l, Served (f a)) :
    Served (l.mapM f) := by
  induction l with
  | nil => exact served_ok _
  | cons a l ih =>
    rw [List.mapM_cons]
    refine (h a List.mem_cons_self).bind fun b _ => ?_
    exact (ih fun c hc => h c (List.mem_cons_of_mem _ hc)).bind fun bs _ => served_ok _

end Served

namespace Run

variable {α β : Type}

/-- A run does not fail for want of what was not planned, whatever the session. -/
protected def Served (x : Run α) : Prop := ∀ s, MappedQuery.Served (x.run s).1

@[simp] theorem served_pure (a : α) : Run.Served (pure a) := fun _ => served_ok a

@[simp] theorem served_throw {f : Fault} :
    Run.Served (throw f : Run α) ↔ f.lacking = false := by
  constructor
  · exact fun h => served_error.1 (h (.start fun _ _ => .ok ⟨[], []⟩))
  · exact fun hf _ => served_error.2 hf

theorem served_ofExcept {x : Except Fault α} (hx : MappedQuery.Served x) :
    Run.Served (ofExcept x) := by
  cases x with
  | error f => exact served_throw.2 (served_error.1 hx)
  | ok a => exact served_pure a

theorem Served.bind {x : Run α} {f : α → Run β} (hx : x.Served)
    (hf : ∀ a, (f a).Served) : (x >>= f).Served := by
  intro s
  have hs := hx s
  change MappedQuery.Served (ExceptT.bindCont f (x.run s).1 (x.run s).2).1
  cases hrun : (x.run s).1 with
  | ok a => exact hf a _
  | error e => exact served_error.2 (served_error.1 (hrun ▸ hs))

theorem served_ofExcept_bind {x : Except Fault α} {f : α → Run β} (hx : MappedQuery.Served x)
    (hf : ∀ a, x = .ok a → (f a).Served) : (ofExcept x >>= f).Served := by
  cases x with
  | error e => exact fun _ => served_error.2 (served_error.1 hx)
  | ok a => exact hf a rfl

theorem served_mapM {f : α → Run β} {l : List α} (h : ∀ a ∈ l, (f a).Served) :
    (l.mapM f).Served := by
  induction l with
  | nil => exact served_pure _
  | cons a l ih =>
    rw [List.mapM_cons]
    refine (h a List.mem_cons_self).bind fun b => ?_
    exact (ih fun c hc => h c (List.mem_cons_of_mem _ hc)).bind fun bs => served_pure _

end Run

/-- A computed field asks its object only for the siblings that it requires: it fails for want of
what was not planned only if one of these, or the type of the object, does. -/
def ComputedField.ReadsRequired (c : ComputedField) : Prop :=
  ∀ v : ObjectView, Served v.concreteType →
    (∀ sibling ∈ c.required, Served (v.leaf sibling) ∧ Served (v.nullableLeaf sibling) ∧
      Served (v.count sibling) ∧ Served (v.attributeValue sibling)) →
    Served (c.compute v)

namespace Sql

/-- The computed fields of a registry read the siblings that they require. -/
def ComputesFromRequired (r : TableRegistry) : Prop :=
  (∀ c hidden, .computed c hidden ∈ r.allFields → c.ReadsRequired) ∧
    ∀ c, .computedAttribute c ∈ r.allFields → c.ReadsRequired

/-- A node tells the concrete types of a declared type: the column of the discriminator of an
abstract type is selected. -/
def TableNode.Tells (n : TableNode) (r : TableRegistry) (path : List String)
    (declared : String) : Prop :=
  r.schema.isAbstract declared = true → ∀ column cases,
    r.fieldMapping? path declared TableField.discriminatorName =
      some (.source (.discriminator column cases)) → (n.column? column.column).isSome = true

namespace Extent

/-- Nothing is asked of the tables at a cell. -/
def Tells (e : Extent) (r : TableRegistry) (path : List String) (declared : String) : Prop :=
  match e with
  | .rows group => group.node.Tells r path declared
  | .cell _ => True

/-- What a field of a type is read from is there. -/
def Provides (e : Extent) (r : TableRegistry) (path : List String) (type name : String) : Prop :=
  match e with
  | .rows group => group.node.Selected r path type name
  | .cell _ => True

theorem Provides.required {e : Extent} {r : TableRegistry} {path : List String}
    {type name : String} {m : FieldMapping TableField Unit Mapping}
    (h : e.Provides r path type name) (hmapped : r.fieldMapping? path type name = some m) :
    ∀ sibling ∈ m.required, e.Provides r path type sibling := by
  cases e with
  | cell cell => exact fun _ _ => trivial
  | rows group => exact TableNode.Selected.required h hmapped

end Extent

/-- A type that the objects of a declared type can have at a path. -/
def CanBe (r : TableRegistry) (path : List String) (declared type : String) : Prop :=
  (r.schema.isAbstract declared = false ∧ type = declared) ∨
    (r.schema.isAbstract declared = true ∧ ∃ column cases,
      r.fieldMapping? path declared TableField.discriminatorName =
        some (.source (.discriminator column cases)) ∧ type ∈ cases.map (·.2))

/-- A type that the objects of a declared type can be read as: that type or one that they can
have. -/
def ReadAs (r : TableRegistry) (path : List String) (declared type : String) : Prop :=
  type = declared ∨ CanBe r path declared type

end Sql

namespace Cursor

open Sql

variable {c : Cursor} {r : TableRegistry} {e : Extent} {type name : String}

theorem served_columnCell {column : String}
    (h : ∀ group, e = .rows group → (group.node.column? column).isSome = true) :
    Served (c.columnCell e column) := by
  cases e with
  | cell cell => exact served_error.2 rfl
  | rows group =>
    obtain ⟨place, hplace⟩ := Option.isSome_iff_exists.1 (h group rfl)
    rw [columnCell, hplace]
    exact served_ok _

theorem served_leaf (c : Cursor) : Served c.leaf := by
  unfold leaf
  split
  · split
    · exact served_ok _
    · exact served_ok _
    · exact served_error.2 rfl
  · exact served_error.2 rfl

theorem served_present? (c : Cursor) : Served c.present? := by
  unfold present?
  split
  · split <;> split <;> exact served_ok _
  · exact served_error.2 rfl

theorem served_narrow (c : Cursor) (type : String) : Served (c.narrow type) := by
  unfold narrow
  split
  · exact served_ok _
  · exact served_error.2 rfl

theorem concreteType_table (hfocus : c.focus = .table r e) :
    c.concreteType = if r.schema.isAbstract c.type.underlying then
      c.entityType r e c.type.underlying else .ok c.type.underlying := by
  obtain ⟨path, type, focus⟩ := c
  cases hfocus
  rfl

theorem served_concreteType (hfocus : c.focus = .table r e)
    (h : e.Tells r c.path c.type.underlying) : Served c.concreteType := by
  rw [concreteType_table hfocus]
  split
  · rename_i habstract
    unfold entityType
    split
    · rename_i column cases hmapped
      refine (served_columnCell ?_).bind fun cell _ => ?_
      · rintro group rfl
        exact h habstract column cases hmapped
      · dsimp only
        split
        · exact served_ok _
        · exact served_error.2 rfl
    · exact served_error.2 rfl
  · exact served_ok _

theorem canBe_of_concreteType (hfocus : c.focus = .table r e)
    (h : c.concreteType = .ok type) : CanBe r c.path c.type.underlying type := by
  rw [concreteType_table hfocus] at h
  split at h
  · rename_i habstract
    refine .inr ⟨habstract, ?_⟩
    unfold entityType at h
    split at h
    · rename_i column cases hmapped
      obtain ⟨cell, -, h⟩ := bind_eq_ok.1 h
      dsimp only at h
      split at h
      · rename_i choice hfound
        obtain rfl := pure_eq_ok.1 h
        exact ⟨column, cases, hmapped, List.mem_map_of_mem (List.mem_of_find?_eq_some hfound)⟩
      · cases h
    · cases h
  · rename_i hconcrete
    cases h
    exact .inl ⟨Bool.eq_false_iff.2 hconcrete, rfl⟩

theorem field_table (hfocus : c.focus = .table r e) :
    c.field name = (do
      let (owner, f) ← c.sourceField r name
      let type ← c.fieldType owner name
      pure ⟨c.path ++ [name], type, .table r (← c.fieldExtent e owner name f)⟩) := by
  obtain ⟨path, declared, focus⟩ := c
  cases hfocus
  rfl

theorem sourceField_eq_ok {f : TableField} (h : c.sourceField r name = .ok (type, f)) :
    c.concreteType = .ok type ∧ r.fieldMapping? c.path type name = some (.source f) := by
  unfold sourceField at h
  obtain ⟨concrete, hconcrete, h⟩ := bind_eq_ok.1 h
  split at h
  · rename_i g hg
    split at h
    · cases h
    · cases pure_eq_ok.1 h
      obtain ⟨m, hmapped, hsource⟩ := Option.bind_eq_some_iff.1 hg
      cases m <;> cases hsource
      exact ⟨hconcrete, hmapped⟩
  · cases h

theorem served_sourceField (htype : Served c.concreteType) :
    Served (c.sourceField r name) := by
  unfold sourceField
  refine htype.bind fun type _ => ?_
  split
  · split
    · exact served_error.2 rfl
    · exact served_ok _
  · exact served_error.2 rfl

theorem served_fieldExtent {f : TableField}
    (hmapped : r.fieldMapping? c.path type name = some (.source f))
    (h : e.Provides r c.path type name) : Served (c.fieldExtent e type name f) := by
  cases e with
  | cell cell => cases f <;> exact served_error.2 rfl
  | rows group =>
    rcases TableNode.Selected.of_source h hmapped with
      ⟨own, column, isKey, hidden, rfl, hplace⟩ | ⟨own, hops, rfl, hchild⟩
    · refine (served_columnCell ?_).bind fun cell _ => served_ok _
      rintro _ ⟨⟩
      exact hplace
    · obtain ⟨child, hchild⟩ := Option.isSome_iff_exists.1 hchild
      simp only [fieldExtent, hchild, served_ok]

/-- A field that is provided is read without asking for more. -/
theorem served_field (hfocus : c.focus = .table r e) (htype : Served c.concreteType)
    (h : ∀ type, c.concreteType = .ok type → e.Provides r c.path type name) :
    Served (c.field name) := by
  rw [field_table hfocus]
  refine (served_sourceField htype).bind fun ⟨owner, f⟩ hsource => ?_
  obtain ⟨hconcrete, hmapped⟩ := sourceField_eq_ok hsource
  have hfieldType : Served (c.fieldType owner name) := by
    unfold fieldType
    split
    · exact served_ok _
    · exact served_error.2 rfl
  refine hfieldType.bind fun type _ => ?_
  exact (served_fieldExtent hmapped (h owner hconcrete)).bind fun extent _ => served_ok _

/-- What a field gives is a position below that of its object. -/
theorem field_eq_ok {next : Cursor} (hfocus : c.focus = .table r e)
    (h : c.field name = .ok next) : ∃ type f g extent, c.concreteType = .ok type ∧
      r.fieldMapping? c.path type name = some (.source f) ∧ r.schema.field? type name = some g ∧
      c.fieldExtent e type name f = .ok extent ∧
      next = ⟨c.path ++ [name], g.type, .table r extent⟩ := by
  rw [field_table hfocus] at h
  obtain ⟨⟨type, f⟩, hsource, h⟩ := bind_eq_ok.1 h
  obtain ⟨fieldType, hfieldType, h⟩ := bind_eq_ok.1 h
  obtain ⟨extent, hextent, h⟩ := bind_eq_ok.1 h
  obtain ⟨hconcrete, hmapped⟩ := sourceField_eq_ok hsource
  have hschema : c.schema = r.schema := by rw [schema, hfocus]
  unfold Cursor.fieldType at hfieldType
  split at hfieldType
  · rename_i g hg
    cases hfieldType
    exact ⟨type, f, g, extent, hconcrete, hmapped, hschema ▸ hg, hextent, (pure_eq_ok.1 h).symm⟩
  · cases hfieldType

/-- What a computed field reads of its object misses nothing if its siblings are provided. -/
theorem served_compute {f : ComputedField} (hf : f.ReadsRequired)
    (hfocus : c.focus = .table r e) (htype : Served c.concreteType)
    (h : ∀ type, c.concreteType = .ok type → ∀ sibling ∈ f.required,
      e.Provides r c.path type sibling) {read : String → Except Fault Value}
    (hread : ∀ sibling ∈ f.required, Served (read sibling)) :
    Served (f.compute (c.viewWith read)) := by
  refine hf _ htype fun sibling hsibling => ?_
  have hfield : Served (c.field sibling) :=
    served_field hfocus htype fun type hconcrete => h type hconcrete sibling hsibling
  refine ⟨hfield.bind fun next _ => served_leaf next, ?_, ?_, hread sibling hsibling⟩
  · refine hfield.bind fun next _ => (served_present? next).bind fun inner? _ => ?_
    cases inner? with
    | none => exact served_ok _
    | some inner => exact (served_leaf inner).map some
  · exact hfield.bind fun next _ => served_ok _

/-- Reading an attribute asks for the column of a hidden field or for what a computation reads. -/
theorem served_attribute? {read : String → Except Fault Value} (hr : ComputesFromRequired r)
    (hfocus : c.focus = .table r e) (hconcrete : c.concreteType = .ok type)
    (h : e.Provides r c.path type name)
    (hread : ∀ sibling, e.Provides r c.path type sibling → Served (read sibling)) :
    match c.attribute? type name with
    | some (.computed compute) => Served (compute (c.viewWith read))
    | some (.hidden value) => Served value
    | none => True := by
  have htype : Served c.concreteType := by
    rw [hconcrete]
    exact served_ok _
  have hattribute : c.attribute? type name = c.declaredAttribute? r type name fun f =>
      f.column?.map fun column => Sql.Cell.toValue <$> c.columnCell e column.column := by
    obtain ⟨path, declared, focus⟩ := c
    cases hfocus
    rfl
  rw [hattribute, declaredAttribute?]
  cases hmapped : r.fieldMapping? c.path type name with
  | none => trivial
  | some m =>
    have hrequired := h.required hmapped
    cases m with
    | root name data => trivial
    | delegate d => trivial
    | computed f hidden => trivial
    | computedAttribute f =>
      refine served_compute (hr.2 f (Registry.mem_allFields_of_fieldMapping? hmapped)) hfocus
        htype (fun concrete hother => ?_) fun sibling hsibling => ?_
      · cases hconcrete.symm.trans hother
        exact hrequired
      · exact hread sibling (hrequired sibling hsibling)
    | source f =>
      cases hhidden : SourceField.hidden f with
      | false => simp only [hhidden, Bool.false_eq_true, if_false]
      | true =>
        cases hcolumn : f.column? with
        | none => simp only [hhidden, if_true, hcolumn, Option.map_none]
        | some column =>
          simp only [hhidden, if_true, hcolumn, Option.map_some]
          refine (served_columnCell ?_).map _
          rintro group rfl
          rcases TableNode.Selected.of_source h hmapped with
            ⟨own, column, isKey, hidden, rfl, hplace⟩ | ⟨own, hops, rfl, -⟩
          · cases hcolumn
            exact hplace
          · cases hcolumn

/-- An attribute that is provided is read without asking for more. -/
theorem served_attributeWithin (hr : ComputesFromRequired r) (hfocus : c.focus = .table r e)
    (htype : Served c.concreteType) (steps : Nat) (name : String)
    (h : ∀ type, c.concreteType = .ok type → e.Provides r c.path type name) :
    Served (c.attributeWithin steps name) := by
  induction steps generalizing name with
  | zero => exact served_error.2 rfl
  | succ steps ih =>
    rw [attributeWithin]
    refine htype.bind fun type hconcrete => ?_
    have hattribute := served_attribute? hr hfocus hconcrete (h type hconcrete)
      fun sibling hsibling => ih sibling fun concrete hother => by
        cases hconcrete.symm.trans hother
        exact hsibling
    split
    · rename_i compute hcompute
      rw [hcompute] at hattribute
      exact hattribute
    · rename_i value hvalue
      rw [hvalue] at hattribute
      exact hattribute
    · exact served_error.2 rfl

end Cursor

end MappedQuery
