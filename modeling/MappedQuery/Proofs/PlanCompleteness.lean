import MappedQuery.Mapping.Rules
import MappedQuery.Proofs.AgreeingTypes
import MappedQuery.Proofs.Readings

/-!
# Plans are complete where types agree

Every step of reading asks only for what was selected if its position is ready for the query: the
list operations compare and order what was selected, the fields are read where they were planned,
and what is read below them is ready for the query below.
-/
namespace MappedQuery

open Sql

section Reading

variable {r : TableRegistry} {nodes : List TableNode}

namespace Predicate

/-- A predicate asks for what its operands ask for. -/
theorem served_holds {m : Mapping} {c : Cursor} {p : Predicate}
    (h : ∀ t ∈ p.terms, Served (t.value m c)) : Served (p.holds m c) := by
  have hboth : ∀ {a b : Term}, (∀ t ∈ [a, b], Served (t.value m c)) →
      Served (a.value m c) ∧ Served (b.value m c) :=
    fun h => ⟨h _ List.mem_cons_self, h _ (List.mem_cons_of_mem _ List.mem_cons_self)⟩
  have hequates : ∀ {a b : Term}, (∀ t ∈ [a, b], Served (t.value m c)) →
      Served (equates m c a b) :=
    fun h => (hboth h).2.bind fun right _ => (hboth h).1.bind fun left _ => served_ok _
  have hcompares : ∀ {a b : Term} (accept : Ordering → Bool),
      (∀ t ∈ [a, b], Served (t.value m c)) → Served (comparesAs m c accept a b) :=
    fun accept h => (hboth h).2.bind fun right _ => (hboth h).1.bind fun left _ => served_ok _
  induction p with
  | always => exact served_ok _
  | never => exact served_ok _
  | and p q ihp ihq =>
    refine (ihp fun t ht => h t (List.mem_append_left _ ht)).bind fun b _ => ?_
    cases b with
    | false => exact served_ok _
    | true => exact ihq fun t ht => h t (List.mem_append_right _ ht)
  | or p q ihp ihq =>
    refine (ihp fun t ht => h t (List.mem_append_left _ ht)).bind fun b _ => ?_
    cases b with
    | false => exact ihq fun t ht => h t (List.mem_append_right _ ht)
    | true => exact served_ok _
  | not p ih => exact (ih h).bind fun b _ => served_ok _
  | eq a b => exact hequates h
  | ne a b => exact (hequates h).bind fun b _ => served_ok _
  | lt a b => exact hcompares _ h
  | le a b => exact hcompares _ h
  | gt a b => exact hcompares _ h
  | ge a b => exact hcompares _ h
  | like t pattern ignoreCase => exact (h t List.mem_cons_self).bind fun v _ => served_ok _
  | isIn t values => exact (h t List.mem_cons_self).bind fun v _ => served_ok _
  | isNull t expected => exact (h t List.mem_cons_self).bind fun v _ => served_ok _

end Predicate

theorem served_satisfying {m : Mapping} {p : Predicate} {elements : List Cursor}
    (h : ∀ c ∈ elements, Served (p.holds m c)) : Served (satisfying m p elements) := by
  induction elements with
  | nil => exact served_ok _
  | cons c rest ih =>
    refine (h c List.mem_cons_self).bind fun kept _ => ?_
    exact (ih fun d hd => h d (List.mem_cons_of_mem _ hd)).bind fun others _ => served_ok _

theorem served_ordered {m : Mapping} {selections : List OrderSelection} {elements : List Cursor}
    (h : ∀ c ∈ elements, ∀ s ∈ selections, Served (s.term.value m c)) :
    Served (ordered m selections elements) := by
  refine (served_mapM fun c hc => ?_).bind fun items _ => served_ok _
  exact (served_mapM fun s hs => h c hc s hs).bind fun keys _ => served_ok _

namespace Cursor.Ready

variable {q child : Query} {c : Cursor}

theorem served_filter (hr : ComputesFromRequired r) {p : Predicate}
    (h : c.Ready r nodes (.filter p child)) : Served (p.holds (.tables r) c) := by
  refine Predicate.served_holds fun t ht => ?_
  cases h with
  | cell cell hfocus => exact served_value_cell hr hfocus t
  | rows place rows hfocus hpath hcovered hforeseen =>
    rw [Query.Covered] at hcovered
    rw [Query.Foreseen] at hforeseen
    exact served_value_rows hr hfocus hpath (hcovered.1 t ht) (hforeseen.1 t ht)

theorem served_orderBy (hr : ComputesFromRequired r) {selections : List OrderSelection}
    (h : c.Ready r nodes (.orderBy selections child)) {s : OrderSelection}
    (hs : s ∈ selections) : Served (s.term.value (.tables r) c) := by
  cases h with
  | cell cell hfocus => exact served_value_cell hr hfocus s.term
  | rows place rows hfocus hpath hcovered hforeseen =>
    rw [Query.Covered] at hcovered
    rw [Query.Foreseen] at hforeseen
    exact served_value_rows hr hfocus hpath (hcovered.1 s hs) (hforeseen.1 s hs)

end Cursor.Ready

namespace Cursor

variable {c : Cursor} {type name : String}

theorem not_delegated (h : ∀ d, r.fieldMapping? c.path type name ≠ some (.delegate d))
    (d : Delegate Mapping) : r.resolve c.path type name ≠ .delegated d := by
  intro hresolve
  unfold Registry.resolve at hresolve
  split at hresolve
  · rename_i d' hmapped
    exact h d' hmapped
  · cases hresolve
  · cases hresolve
  · cases hresolve

theorem type_of_cell {cell : Cell} (hfocus : c.focus = .table r (.cell cell))
    (h : c.concreteType = .ok type) : type = c.type.underlying := by
  rw [concreteType_table hfocus] at h
  split at h
  · unfold entityType at h
    split at h <;> cases h
  · cases h
    rfl

namespace Ready

variable {child : Query} {alias? : Option String} {bindings : List Binding}

theorem served_concreteType (h : c.Ready r nodes (.select name alias? bindings child)) :
    Served c.concreteType := by
  cases h with
  | cell cell hfocus => exact Cursor.served_concreteType hfocus trivial
  | rows place rows hfocus hpath hcovered hforeseen =>
    rw [Query.Foreseen] at hforeseen
    exact Cursor.served_concreteType hfocus (tells hpath hforeseen.1)

theorem undelegated (h : c.Ready r nodes (.select name alias? bindings child))
    (hname : name ≠ "__typename") (hconcrete : c.concreteType = .ok type)
    (d : Delegate Mapping) : r.resolve c.path type name ≠ .delegated d := by
  cases h with
  | cell cell hfocus hundelegated =>
    rw [Query.Undelegated] at hundelegated
    exact not_delegated (hundelegated type (.inl (type_of_cell hfocus hconcrete))).1 d
  | rows place rows hfocus hpath hcovered hforeseen =>
    rw [Query.Foreseen] at hforeseen
    obtain ⟨-, hall⟩ := hforeseen.2.resolve_left hname
    rw [← hpath] at hall
    exact not_delegated (hall type (canBe_of_concreteType hfocus hconcrete)).1 d

/-- The field that is selected is there. -/
theorem provides_select (h : c.Ready r nodes (.select name alias? bindings child))
    (hname : name ≠ "__typename") : ∃ e, c.focus = .table r e ∧
      ∀ type, c.concreteType = .ok type → e.Provides r c.path type name := by
  cases h with
  | cell cell hfocus => exact ⟨_, hfocus, fun _ _ => trivial⟩
  | rows place rows hfocus hpath hcovered hforeseen =>
    rw [Query.Covered] at hcovered
    rw [Query.Foreseen] at hforeseen
    refine ⟨_, hfocus, fun type hconcrete => ?_⟩
    exact provides hpath (hpath ▸ canBe_of_concreteType hfocus hconcrete)
      (hcovered.resolve_left hname).1 (hforeseen.2.resolve_left hname).1

/-- What is read of a field is ready for the query below the field. -/
theorem field {next : Cursor} (h : c.Ready r nodes (.select name alias? bindings child))
    (hname : name ≠ "__typename") (hnext : c.field name = .ok next) :
    next.Ready r nodes child := by
  cases h with
  | cell cell hfocus => exact absurd hnext (field_ne_ok hfocus)
  | rows place rows hfocus hpath hcovered hforeseen =>
    rw [Query.Covered] at hcovered
    rw [Query.Foreseen] at hforeseen
    obtain ⟨-, hjoined⟩ := hcovered.resolve_left hname
    obtain ⟨hfield, hall⟩ := hforeseen.2.resolve_left hname
    obtain ⟨type, f, g, extent, hconcrete, hmapped, hg, hextent, rfl⟩ := field_eq_ok hfocus hnext
    have hcanBe := canBe_of_concreteType hfocus hconcrete
    rw [hpath] at hcanBe hmapped
    obtain ⟨hcolumn, hbelow⟩ := (hall type hcanBe).2 g hg
    obtain ⟨n, hn, -, hforesees⟩ := hfield
    have hnode : RowGroup.node ⟨nodes, place.node, rows⟩ = n := by
      rw [RowGroup.node, List.getD_eq_getElem?_getD, hn]
      rfl
    cases f with
    | column own column isKey hidden =>
      obtain ⟨cell, -, hcell⟩ := bind_eq_ok.1 hextent
      obtain rfl := pure_eq_ok.1 hcell
      refine .cell cell rfl ?_
      rw [hpath]
      exact hcolumn own column isKey hidden hmapped
    | joined own hops =>
      obtain ⟨own', hops', hplanned⟩ := (hforesees type hcanBe).joined_of hmapped
      obtain ⟨n', i, f', hn', hi, hf', hcoveredChild⟩ := hjoined own' hops' hplanned
      cases hn.symm.trans hn'
      simp only [fieldExtent, hnode, hi] at hextent
      cases hextent
      exact .rows _ rows rfl (hpath ▸ rfl) hcoveredChild (hbelow own hops n i f' hmapped hn hi hf')
    | discriminator column cases => cases hextent

end Ready

end Cursor

/-- The encoders of a registry do not fail for want of what was not planned. -/
def Sql.EncodersServed (r : TableRegistry) : Prop :=
  ∀ type encode, r.encoder? type = some encode → ∀ v, Served (encode v)

namespace Query

/-- Refining ready elements asks for nothing more, and what is left is among them. -/
theorem served_refine (hr : ComputesFromRequired r) :
    ∀ {q : Query} (refined : Refined), (∀ c ∈ refined.elements, c.Ready r nodes q) →
      Served (q.refine (.tables r) refined) ∧
        ∀ left, q.refine (.tables r) refined = .ok left → left.elements ⊆ refined.elements
  | .filter p child, refined, h => by
    have hkept : Served (satisfying (.tables r) p refined.elements) :=
      served_satisfying fun c hc => (h c hc).served_filter hr
    have hchild : ∀ kept, satisfying (.tables r) p refined.elements = .ok kept →
        ∀ c ∈ kept, c.Ready r nodes child :=
      fun kept hok c hc => (h c (subset_of_satisfying hok hc)).filter
    rw [refine]
    refine ⟨hkept.bind fun kept hok => ?_, fun left hleft => ?_⟩
    · exact (served_refine hr { refined with elements := kept }
        (hchild kept hok)).1
    · obtain ⟨kept, hok, hleft⟩ := bind_eq_ok.1 hleft
      exact List.Subset.trans ((served_refine hr { refined with elements := kept }
        (hchild kept hok)).2 left hleft) (subset_of_satisfying hok)
  | .orderBy selections child, refined, h => by
    have hsorted : Served (ordered (.tables r) selections refined.elements) :=
      served_ordered fun c hc s hs => (h c hc).served_orderBy hr hs
    have hchild : ∀ sorted, ordered (.tables r) selections refined.elements = .ok sorted →
        ∀ c ∈ sorted, c.Ready r nodes child :=
      fun sorted hok c hc => (h c (subset_of_ordered hok hc)).orderBy
    rw [refine]
    refine ⟨hsorted.bind fun sorted hok => ?_, fun left hleft => ?_⟩
    · exact (served_refine hr { refined with elements := sorted }
        (hchild sorted hok)).1
    · obtain ⟨sorted, hok, hleft⟩ := bind_eq_ok.1 hleft
      exact List.Subset.trans ((served_refine hr
        { refined with elements := sorted } (hchild sorted hok)).2 left hleft)
        (subset_of_ordered hok)
  | .limit count child, refined, h => by
    have hchild : ∀ c ∈ refined.elements.take count, c.Ready r nodes child :=
      fun c hc => (h c (List.mem_of_mem_take hc)).limit
    have htaken := served_refine hr
      { refined with elements := refined.elements.take count } hchild
    rw [refine]
    exact ⟨htaken.1, fun left hleft =>
      List.Subset.trans (htaken.2 left hleft) (List.take_subset ..)⟩
  | .unique child, refined, h => by
    rw [refine]
    exact served_refine hr { refined with isUnique := true }
      fun c hc => (h c hc).unique
  | .select .., refined, _ | .group _, refined, _ | .narrow .., refined, _
  | .component .., refined, _ | .introspect _, refined, _ | .empty, refined, _ => by
    rw [refine]
    · refine ⟨served_ok _, ?_⟩
      rintro _ ⟨⟩
      exact List.Subset.refl _
    all_goals
      intros
      contradiction

variable {object : Cursor → Run Members} {q : Query}

theorem served_encode (hencoders : EncodersServed r) (type : String) (v : Value) :
    Served (Mapping.encode (.tables r) type v) := by
  unfold Mapping.encode
  split
  · exact served_ok _
  · split
    · rename_i encode hencode
      exact hencoders type encode hencode v
    · exact served_ok _

/-- Reading a ready position asks for what reading its objects asks for. -/
theorem served_readAs (hencoders : EncodersServed r)
    (hobject : ∀ {c : Cursor}, c.Ready r nodes q → (object c).Served) {type : TypeRef}
    {c : Cursor} (h : c.Ready r nodes q) : (readAs (.tables r) object type c).Served := by
  induction type generalizing c with
  | named name =>
    rw [readAs]
    split
    · refine Run.served_ofExcept ?_
      exact (Cursor.served_leaf c).bind fun v _ => served_encode hencoders name v
    · exact (hobject h).bind fun members => Run.served_pure _
  | list item ih =>
    rw [readAs]
    refine Run.Served.bind ?_ fun values => Run.served_pure _
    exact Run.served_mapM fun e he => ih (h.element he)
  | nullable inner ih =>
    rw [readAs]
    refine Run.served_ofExcept_bind (Cursor.served_present? c) fun present? hpresent => ?_
    cases present? with
    | none => exact Run.served_pure _
    | some present => exact ih (h.present hpresent)

theorem served_readAt (hr : ComputesFromRequired r) (hencoders : EncodersServed r)
    (hobject : ∀ {c : Cursor}, c.Ready r nodes q → (object c).Served) {c : Cursor}
    (h : c.Ready r nodes q) : (readAt (.tables r) object q c).Served := by
  unfold readAt
  split
  · obtain ⟨hrefine, hleft⟩ := served_refine hr ⟨c.elements, false⟩
      fun e he => h.element he
    refine Run.served_ofExcept_bind hrefine fun left hok => ?_
    have hread : ∀ e ∈ left.elements, (readAs (.tables r) object e.type e).Served :=
      fun e he => served_readAs hencoders hobject (h.element (hleft left hok he))
    dsimp only
    split
    · split
      · rename_i e he
        exact hread e (he ▸ List.mem_cons_self)
      · split
        · exact Run.served_pure _
        · exact Run.served_throw.2 rfl
    · exact (Run.served_mapM hread).bind fun values => Run.served_pure _
  · exact served_readAs hencoders hobject h

theorem served_atObject {read : Cursor → Run Members} {c : Cursor} (h : (read c).Served) :
    (atObject q read c).Served := by
  unfold atObject
  split
  · exact Run.served_throw.2 rfl
  · exact h

theorem served_computedField (hr : ComputesFromRequired r) (hencoders : EncodersServed r)
    {e : Extent} {type name : String} {compute : Computation} {c : Cursor}
    (hfocus : c.focus = .table r e) (hconcrete : c.concreteType = .ok type)
    (h : e.Provides r c.path type name)
    (hresolve : r.resolve c.path type name = .computed compute) :
    Served (computedField (.tables r) type name compute c) := by
  unfold computedField
  exact (Cursor.served_computed hr hfocus hconcrete h hresolve).bind fun v _ =>
    served_encode hencoders _ v

mutual

/-- Reading what a query asks for at a ready position misses nothing. -/
theorem served_fields (hr : ComputesFromRequired r) (hencoders : EncodersServed r)
    (answers : Answers (.tables r)) : ∀ {q : Query} {c : Cursor}, c.Ready r nodes q →
      (fields (.tables r) answers q c).Served
  | .group queries, c, h => by
    rw [fields]
    exact served_fieldsAll hr hencoders answers h
  | .select name alias? bindings child, c, h => by
    rw [fields]
    refine Run.served_ofExcept_bind h.served_concreteType fun type hconcrete => ?_
    dsimp only
    split
    · exact Run.served_pure _
    · rename_i hname
      obtain ⟨e, hfocus, hprovides⟩ := h.provides_select hname
      split
      · refine Run.served_ofExcept_bind
          (Cursor.served_field hfocus h.served_concreteType hprovides) fun next hnext => ?_
        refine Run.Served.bind ?_ fun value => Run.served_pure _
        exact served_readAt hr hencoders (served_fields hr hencoders answers)
          (h.field hname hnext)
      · rename_i compute hresolve
        refine Run.served_ofExcept_bind ?_ fun value _ => Run.served_pure _
        exact served_computedField hr hencoders hfocus hconcrete (hprovides type hconcrete)
          hresolve
      · rename_i d hresolve
        exact absurd hresolve (h.undelegated hname hconcrete d)
  | .component type field child, c, h => by
    cases h with
    | cell cell hfocus hundelegated =>
      rw [Query.Undelegated] at hundelegated
      exact hundelegated.elim
    | rows place rows hfocus hpath hcovered hforeseen =>
      rw [Query.Foreseen] at hforeseen
      exact hforeseen.elim
  | .narrow type child, c, h => by
    rw [fields]
    split
    · refine Run.served_ofExcept_bind (c.served_narrow type) fun narrowed hnarrowed => ?_
      exact served_atObject (served_fields hr hencoders answers (h.narrow hnarrowed))
    · exact Run.served_pure _
  | .empty, c, h => by
    rw [fields]
    exact Run.served_pure _
  | .filter p child, c, h => by
    rw [fields]
    exact served_fields hr hencoders answers h.filter
  | .unique child, c, h => by
    rw [fields]
    exact served_fields hr hencoders answers h.unique
  | .limit count child, c, h => by
    rw [fields]
    exact served_fields hr hencoders answers h.limit
  | .orderBy selections child, c, h => by
    rw [fields]
    exact served_fields hr hencoders answers h.orderBy
  | .introspect child, c, h => by
    rw [fields]
    exact Run.served_throw.2 rfl

theorem served_fieldsAll (hr : ComputesFromRequired r) (hencoders : EncodersServed r)
    (answers : Answers (.tables r)) : ∀ {queries : List Query} {c : Cursor},
      c.Ready r nodes (.group queries) → (fieldsAll (.tables r) answers queries c).Served
  | [], c, h => by
    rw [fieldsAll]
    exact Run.served_pure _
  | q :: rest, c, h => by
    obtain ⟨hfirst, hothers⟩ := h.group_cons
    rw [fieldsAll]
    refine (served_atObject (served_fields hr hencoders answers hfirst)).bind fun members => ?_
    exact (served_fieldsAll hr hencoders answers hothers).bind fun others =>
      Run.served_pure _

end

/-- A selection misses the discriminator of an abstract position if it was not selected. -/
theorem select_misses_type {answers : Answers (.tables r)} {c : Cursor} {group : RowGroup}
    (hfocus : c.focus = .table r (.rows group))
    (htells : ¬ group.node.Tells r c.path c.type.underlying) {name : String}
    {alias? : Option String} {bindings : List Binding} {child : Query} :
    ¬ (fields (.tables r) answers (.select name alias? bindings child) c).Served := by
  obtain ⟨habstract, column, cases, hmapped, hcolumn⟩ :
      r.schema.isAbstract c.type.underlying = true ∧ ∃ column cases,
        r.fieldMapping? c.path c.type.underlying TableField.discriminatorName =
          some (.source (.discriminator column cases)) ∧
            group.node.column? column.column = none := by
    simpa [TableNode.Tells] using htells
  have hconcrete : c.concreteType =
      .error (.interpreter (.columnNotSelected group.node.table column.column)) := by
    rw [Cursor.concreteType_table hfocus, if_pos habstract, Cursor.entityType, hmapped]
    simp only [Cursor.columnCell, hcolumn]
    rfl
  intro h
  rw [fields, hconcrete] at h
  cases served_error.1 (h (.start fun _ _ => .ok ⟨[], []⟩))

theorem field_misses {c : Cursor} {group : RowGroup} (hfocus : c.focus = .table r (.rows group))
    {type name : String} {f : TableField} {g : FieldDefinition}
    (hconcrete : c.concreteType = .ok type)
    (hmapped : r.fieldMapping? c.path type name = some (.source f))
    (hvisible : SourceField.hidden f = false) (hg : r.schema.field? type name = some g)
    (hselected : ¬ group.node.Selected r c.path type name) :
    ∃ fault, c.field name = .error fault ∧ fault.lacking = true := by
  have hsource : c.sourceField r name = .ok (type, f) := by
    rw [Cursor.sourceField, hconcrete]
    simp only [bind, Except.bind, Registry.sourceField?, hmapped, Option.bind_some,
      FieldMapping.source?, hvisible]
    rfl
  have hschema : c.schema = r.schema := by rw [Cursor.schema, hfocus]
  have htype : c.fieldType type name = .ok g.type := by
    rw [Cursor.fieldType, hschema, hg]
  rw [Cursor.field_table hfocus, hsource]
  simp only [bind, Except.bind, htype]
  cases f with
  | column own column isKey hidden =>
    cases hcolumn : group.node.column? column.column with
    | some place => exact absurd (.column hmapped (by rw [hcolumn]; rfl)) hselected
    | none =>
      simp only [Cursor.fieldExtent, Cursor.columnCell, hcolumn, bind, Except.bind]
      exact ⟨_, rfl, rfl⟩
  | joined own hops =>
    cases hchild : group.node.child? name with
    | some child => exact absurd (.joined hmapped (by rw [hchild]; rfl)) hselected
    | none =>
      simp only [Cursor.fieldExtent, hchild]
      exact ⟨_, rfl, rfl⟩
  | discriminator column cases => cases hvisible

/-- A selection misses a field of the source that was not selected. -/
theorem select_misses_field {answers : Answers (.tables r)} {c : Cursor} {group : RowGroup}
    (hfocus : c.focus = .table r (.rows group)) {type name : String} {f : TableField}
    {g : FieldDefinition} (hname : name ≠ "__typename") (hconcrete : c.concreteType = .ok type)
    (hmapped : r.fieldMapping? c.path type name = some (.source f))
    (hvisible : SourceField.hidden f = false) (hg : r.schema.field? type name = some g)
    (hselected : ¬ group.node.Selected r c.path type name) {alias? : Option String}
    {bindings : List Binding} {child : Query} :
    ¬ (fields (.tables r) answers (.select name alias? bindings child) c).Served := by
  obtain ⟨fault, hfault, hlacking⟩ :=
    field_misses hfocus hconcrete hmapped hvisible hg hselected
  have hresolve : r.resolve c.path type name = .source := by
    rw [Registry.resolve, hmapped]
  intro h
  rw [fields, hconcrete] at h
  simp only [Run.ofExcept, pure_bind, hname, if_false] at h
  split at h
  · rw [hfault] at h
    have hfalse := served_error.1 (h (.start fun _ _ => .ok ⟨[], []⟩))
    rw [hlacking] at hfalse
    cases hfalse
  · rename_i compute hother
    cases hresolve.symm.trans hother
  · rename_i d hother
    cases hresolve.symm.trans hother

/-- A root field whose query is foreseen by its plan is read without missing a column or a joined
field, whatever the rows that answer the plan; and it is foreseen if the types of the mapping
agree and fragments are on the types that their objects can have. Beyond that reading does fail:
a selection fails at an abstract position whose discriminator was not selected, and if the
concrete type has the field in a column or a table that was not. -/
theorem reading_is_served_where_foreseen {field : String} {type : TypeRef} {child : Query}
    {plan : Plan} (hplan : Plan.build r field type child = .ok plan)
    (hr : ComputesFromRequired r) (hencoders : EncodersServed r) :
    (plan.residual.Foreseen r plan.nodes ⟨0, [field], type.underlying⟩ type.underlying →
      ∀ answers rows, (plan.residual.value (.tables r) answers
        ⟨[field], type, .table r (.rows ⟨plan.nodes, 0, rows⟩)⟩).Served) ∧
    (TypesAgree r → child.Narrows r (ReadAs r) [field] type.underlying →
      child.Undelegated r [field] type.underlying →
        plan.residual.Foreseen r plan.nodes ⟨0, [field], type.underlying⟩ type.underlying) ∧
    ∀ answers c group name alias? bindings below, c.focus = .table r (.rows group) →
      (¬ group.node.Tells r c.path c.type.underlying ∨
        name ≠ "__typename" ∧ ∃ t f g, c.concreteType = .ok t ∧
          r.fieldMapping? c.path t name = some (.source f) ∧ SourceField.hidden f = false ∧
          r.schema.field? t name = some g ∧ ¬ group.node.Selected r c.path t name) →
      ¬ (fields (.tables r) answers (.select name alias? bindings below) c).Served := by
  refine ⟨fun hforeseen answers rows => ?_, fun hagree hnarrows hundelegated => ?_, ?_⟩
  · obtain ⟨types, -, -, hcovered⟩ := Plan.covers (fun _ _ => (trivial : (fun _ _ _ => True) _ _ _))
      (fun _ _ _ _ _ _ _ _ _ _ _ => trivial) hplan
      (narrows_of_forall fun _ _ _ => trivial)
    have hready : (Cursor.mk [field] type (.table r (.rows ⟨plan.nodes, 0, rows⟩))).Ready r
        plan.nodes plan.residual :=
      .rows ⟨0, [field], type.underlying⟩ rows rfl rfl hcovered hforeseen
    exact served_readAt hr hencoders (served_fields hr hencoders answers) hready
  · have hfields : ∀ path type t₁ t₂ name f₁ f₂, ReadAs r path type t₁ → ReadAs r path type t₂ →
        r.schema.field? t₁ name = some f₁ → r.schema.field? t₂ name = some f₂ →
          ReadAs r (path ++ [name]) f₁.type.underlying f₂.type.underlying :=
      fun path type t₁ t₂ name f₁ f₂ h₁ h₂ hf₁ hf₂ =>
        .inl (hagree.declared path type t₂ t₁ name f₂ f₁ h₂ h₁ hf₂ hf₁)
    obtain ⟨types, hplace, hnodes, hcovered⟩ := Plan.covers .refl hfields hplan hnarrows
    obtain ⟨_, _, _, _, _, _, hplanned, _⟩ := Plan.build_planned hplan
    exact hcovered.foreseen hagree hnodes hplace (.refl _ _) (hplanned.narrows hnarrows)
      (hplanned.undelegated hundelegated)
  · intro answers c group name alias? bindings below hfocus hmisses
    rcases hmisses with htells | ⟨hname, t, f, g, hconcrete, hmapped, hvisible, hg, hselected⟩
    · exact select_misses_type hfocus htells
    · exact select_misses_field hfocus hname hconcrete hmapped hvisible hg hselected

end Query

end Reading

namespace Characters

/-- Humans and droids in one table. -/
def registry : TableRegistry where
  schema := Schema.ofTypes [
    .object ⟨"Query", [⟨"characters", [], .list (.named "Character")⟩,
      ⟨"humans", [], .list (.named "Human")⟩], []⟩,
    .interface ⟨"Character", [⟨"name", [], .named "String"⟩], []⟩,
    .object ⟨"Human", [⟨"name", [], .named "String"⟩, ⟨"greeting", [], .named "String"⟩],
      ["Character"]⟩,
    .object ⟨"Droid", [⟨"name", [], .named "String"⟩], ["Character"]⟩] "Query"
  types := [
    .object ⟨"Query", [.root "characters" (), .root "humans" ()]⟩,
    .object ⟨"Character", [
      .source (.discriminator ⟨"character", "kind"⟩ [(.string "human", "Human"),
        (.string "droid", "Droid")]),
      .source (.column "id" ⟨"character", "id"⟩ true true),
      .source (.column "name" ⟨"character", "name"⟩ false false)]⟩,
    .object ⟨"Human", [.computed ⟨"greeting", ["name"], Computation.field "name"⟩ false]⟩]
  elaborators := []

/-- The names of all characters and the greetings of the humans among them. -/
def query : Query :=
  .group [.field "name", .narrow "Human" (.field "greeting")]

def nodes : List TableNode :=
  [⟨"t0", "character", [0], [("id", 0), ("kind", 1), ("name", 2)], [], false⟩]

theorem build_query : ∃ plan, Plan.build registry "characters" (.list (.named "Character")) query =
    .ok plan ∧ plan.nodes = nodes ∧ plan.residual = query :=
  ⟨_, rfl, rfl, rfl⟩

theorem computesFromRequired : ComputesFromRequired registry := by
  constructor
  · intro c hidden hc
    obtain ⟨rfl, rfl⟩ : c = ⟨"greeting", ["name"], Computation.field "name"⟩ ∧ hidden = false := by
      simpa [registry, Registry.allFields] using hc
    exact fun v _ h => (h "name" List.mem_cons_self).1
  · intro c hc
    simp [registry, Registry.allFields] at hc

theorem encodersServed : EncodersServed registry := by
  intro type encode h
  cases h

theorem canBe_cases {type : String} (h : CanBe registry ["characters"] "Character" type) :
    type = "Human" ∨ type = "Droid" := by
  rcases h with ⟨hconcrete, -⟩ | ⟨-, column, cases, hmapped, htype⟩
  · cases hconcrete
  · cases hmapped
    simpa using htype

/-- A leaf that is no object field is foreseen if its field is. -/
theorem foreseen_field {r : TableRegistry} {nodes : List TableNode} {place : Place}
    {declared name : String} {n : TableNode} (hn : nodes[place.node]? = some n)
    (htells : n.Tells r place.path declared)
    (hfield : ∀ type, CanBe r place.path declared type → ∃ m,
      r.fieldMapping? place.path type name = some m ∧ (∀ d, m ≠ .delegate d) ∧
        (∀ own hops, m ≠ .source (.joined own hops)) ∧
          n.Foresees r place.path place.type type name) :
    (Query.field name).Foreseen r nodes place declared := by
  rw [Query.field, Select.toQuery, Select.plain, Query.Foreseen]
  refine ⟨⟨n, hn, htells⟩, .inr ⟨⟨n, hn, htells, fun type htype => ?_⟩, fun type htype => ?_⟩⟩
  · obtain ⟨_, -, -, -, hforesees⟩ := hfield type htype
    exact hforesees
  · obtain ⟨m, hmapped, hdelegate, hjoined, -⟩ := hfield type htype
    refine ⟨fun d h => ?_, fun g _ => ⟨fun _ _ _ _ _ => ?_, fun own hops _ _ _ h => ?_⟩⟩
    · cases hmapped.symm.trans h
      exact hdelegate d rfl
    · rw [Query.Undelegated]
      trivial
    · cases hmapped.symm.trans h
      exact absurd rfl (hjoined own hops)

theorem query_foreseen :
    query.Foreseen registry nodes ⟨0, ["characters"], "Character"⟩ "Character" := by
  have hname (planned type : String)
      (hplanned : registry.fieldMapping? ["characters"] planned "name" =
        some (.source (.column "name" ⟨"character", "name"⟩ false false)))
      (htype : registry.fieldMapping? ["characters"] type "name" =
        some (.source (.column "name" ⟨"character", "name"⟩ false false))) :
      nodes[0].Foresees registry ["characters"] planned type "name" := by
    refine .alike (htype.trans hplanned.symm) fun m hm sibling hsibling => ?_
    cases htype.symm.trans hm
    cases hsibling
  rw [query, Query.Foreseen, Query.AllForeseen, Query.AllForeseen, Query.AllForeseen]
  refine ⟨foreseen_field (n := nodes[0]) rfl (fun _ column cases hmapped => ?_) fun type htype => ?_,
    ?_, trivial⟩
  · cases hmapped
    rfl
  · refine ⟨.source (.column "name" ⟨"character", "name"⟩ false false), ?_, fun _ => nofun,
      fun _ _ => nofun, ?_⟩
    · rcases canBe_cases htype with rfl | rfl <;> rfl
    · rcases canBe_cases htype with rfl | rfl
      · exact hname "Character" "Human" rfl rfl
      · exact hname "Character" "Droid" rfl rfl
  · rw [Query.Foreseen]
    refine fun _ => foreseen_field (n := nodes[0]) rfl nofun
      fun type htype => ?_
    obtain rfl := htype.eq_of_concrete rfl
    refine ⟨.computed ⟨"greeting", ["name"], Computation.field "name"⟩ false, rfl,
      fun _ => nofun, fun _ _ => nofun, .alike rfl fun m hm sibling hs => ?_⟩
    cases hm
    obtain rfl := List.mem_singleton.1 hs
    exact hname "Human" "Human" rfl rfl

/-- Names and greetings are read whatever the rows of the characters are. -/
theorem query_is_served : ∃ plan,
    Plan.build registry "characters" (.list (.named "Character")) query = .ok plan ∧
      ComputesFromRequired registry ∧ EncodersServed registry ∧
      ∀ answers rows, (plan.residual.value (.tables registry) answers
        ⟨["characters"], .list (.named "Character"),
          .table registry (.rows ⟨plan.nodes, 0, rows⟩)⟩).Served := by
  obtain ⟨plan, hplan, hnodes, hresidual⟩ := build_query
  refine ⟨plan, hplan, computesFromRequired, encodersServed, ?_⟩
  refine (Query.reading_is_served_where_foreseen hplan computesFromRequired
    encodersServed).1 ?_
  rw [hnodes, hresidual]
  exact query_foreseen

/-- A fragment on an interface asks for a discriminator that humans are not planned with. -/
example : (do
    let plan ← Plan.build registry "humans" (.list (.named "Human"))
      (.narrow "Character" (.field "name"))
    ((plan.residual.value (.tables registry) (fun _ _ _ _ => pure .null)
      ⟨["humans"], .list (.named "Human"),
        .table registry (.rows ⟨plan.nodes, 0, [[.integer 1, .text "Han"]]⟩)⟩).run
          (.start fun _ _ => .ok ⟨[], []⟩)).1) =
      .error (.interpreter (.columnNotSelected "character" "kind")) := by
  rfl

end Characters

end MappedQuery
