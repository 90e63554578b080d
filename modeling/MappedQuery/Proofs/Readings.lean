import MappedQuery.Interpret.Answer
import MappedQuery.Proofs.Sequencing

/-!
# How readings are put together

A position is read from computations that do not look at the session and from its objects, put
together one after the other. So what two runs have in common, if it is kept by putting runs
together, two readings have in common if they read the objects alike; and a property that is kept so
is one of a reading if it is one of the reading of the objects. The objects are those that the type
of the position leads to, of the elements that its list operations leave. `Mapping.ReadsWithin` says
of queries at positions that no reading of the fields of an object leads out of them.
-/
namespace MappedQuery

open Sql

theorem subset_of_satisfying {m : Mapping} {p : Predicate} {elements kept : List Cursor}
    (h : satisfying m p elements = .ok kept) : kept ⊆ elements := by
  induction elements generalizing kept with
  | nil =>
    cases h
    exact List.Subset.refl _
  | cons c rest ih =>
    obtain ⟨b, -, h⟩ := bind_eq_ok.1 h
    obtain ⟨others, hothers, h⟩ := bind_eq_ok.1 h
    obtain rfl := pure_eq_ok.1 h
    have hsubset := ih hothers
    split
    · exact List.cons_subset_cons c hsubset
    · exact List.subset_cons_of_subset c hsubset

/-- Where a predicate is decided, what satisfies it are the elements that it is decided for. -/
theorem satisfying_map {α : Type} {m : Mapping} {p : Predicate} {f : α → Cursor} {test : α → Bool}
    {l : List α} (h : ∀ a ∈ l, p.holds m (f a) = .ok (test a)) :
    satisfying m p (l.map f) = .ok ((l.filter test).map f) := by
  induction l with
  | nil => rfl
  | cons a rest ih =>
    have hrest := ih fun b hb => h b (List.mem_cons_of_mem _ hb)
    rw [List.map_cons, satisfying, h a List.mem_cons_self, hrest, List.filter_cons]
    cases test a <;> rfl

theorem map_snd_keyed {m : Mapping} {selections : List OrderSelection} {elements : List Cursor}
    {items : List (List Value × Cursor)} (h : keyed m selections elements = .ok items) :
    items.map (·.2) = elements := by
  unfold keyed at h
  induction elements generalizing items with
  | nil =>
    cases h
    rfl
  | cons c rest ih =>
    rw [List.mapM_cons] at h
    obtain ⟨item, hitem, h⟩ := bind_eq_ok.1 h
    obtain ⟨others, hothers, h⟩ := bind_eq_ok.1 h
    obtain rfl := pure_eq_ok.1 h
    obtain ⟨keys, -, hitem⟩ := bind_eq_ok.1 hitem
    obtain rfl := pure_eq_ok.1 hitem
    rw [List.map_cons, ih hothers]

theorem subset_of_ordered {m : Mapping} {selections : List OrderSelection}
    {elements sorted : List Cursor} (h : ordered m selections elements = .ok sorted) :
    sorted ⊆ elements := by
  obtain ⟨items, hitems, h⟩ := bind_eq_ok.1 h
  obtain rfl := pure_eq_ok.1 h
  have hsubset := ((perm_stableSort (fun a b => OrderSelection.compareAll selections a.1 b.1)
    items).map (·.2)).subset
  rwa [map_snd_keyed hitems] at hsubset

namespace Cursor

/-- The elements of rows are the rows of their entities. -/
theorem mem_elements {c e : Cursor} (h : e ∈ c.elements) :
    e.path = c.path ∧ e.type = c.type.element ∧ ∀ r g, e.focus = .table r (.rows g) →
      ∃ g', c.focus = .table r (.rows g') ∧ g ∈ g'.entities := by
  obtain ⟨path, type, ⟨d, json⟩ | ⟨r, group | cell⟩⟩ := c
  · have hdocument : ∃ j, e = ⟨path, type.element, .document d j⟩ := by
      unfold elements at h
      grind
    obtain ⟨j, rfl⟩ := hdocument
    exact ⟨rfl, rfl, by rintro r g ⟨⟩⟩
  · obtain ⟨entity, hentity, rfl⟩ := List.mem_map.1 h
    refine ⟨rfl, rfl, ?_⟩
    rintro r g ⟨⟩
    exact ⟨group, rfl, hentity⟩
  · have hcell : e = ⟨path, type.element, .table r (.cell cell)⟩ := by
      unfold elements at h
      grind
    subst hcell
    exact ⟨rfl, rfl, by rintro r g ⟨⟩⟩

/-- Of a position that may hold nothing the rows with a key are what it holds. -/
theorem present?_eq_some {c p : Cursor} (h : c.present? = .ok (some p)) :
    c.type = .nullable p.type ∧ p.path = c.path ∧
      ((p.focus = c.focus ∧ ∀ r g, c.focus ≠ .table r (.rows g)) ∨
        ∃ r g, c.focus = .table r (.rows g) ∧ g.present.rows ≠ [] ∧
          p.focus = .table r (.rows g.present)) := by
  unfold present? at h
  split at h
  · rename_i htype
    split at h
    · rename_i hfocus
      split at h <;> cases h
      exact ⟨htype, rfl, .inl ⟨rfl, fun r g heq => by cases hfocus.symm.trans heq⟩⟩
    · rename_i hfocus
      split at h <;> cases h
      rename_i hne
      exact ⟨htype, rfl, .inr ⟨_, _, hfocus, fun heq => hne (List.isEmpty_iff.2 heq), rfl⟩⟩
    · rename_i hfocus
      split at h <;> cases h
      exact ⟨htype, rfl, .inl ⟨rfl, fun r g heq => by cases hfocus.symm.trans heq⟩⟩
  · cases h

/-- The objects whose fields are read when a position is read as its type. -/
inductive ObjectAt : Cursor → Cursor → Prop
  | object {c : Cursor} {name : String} (htype : c.type = .named name) (hleaf : c.isLeaf = false) :
    ObjectAt c c
  | present {c p o : Cursor} (hpresent : c.present? = .ok (some p)) (ho : ObjectAt p o) :
    ObjectAt c o
  | element {c e o : Cursor} {item : TypeRef} (htype : c.type = .list item)
    (he : e ∈ c.elements) (ho : ObjectAt e o) : ObjectAt c o

end Cursor

namespace Query

/-- What is left of elements was among them. -/
theorem subset_of_refine {q : Query} {r left : Refined} (h : q.refine m r = .ok left) :
    left.elements ⊆ r.elements := by
  induction q, r using refine.induct with
  | case1 p child r ih =>
    obtain ⟨kept, hkept, h⟩ := bind_eq_ok.1 h
    exact List.Subset.trans (ih kept h) (subset_of_satisfying hkept)
  | case2 selections child r ih =>
    obtain ⟨sorted, hsorted, h⟩ := bind_eq_ok.1 h
    exact List.Subset.trans (ih sorted h) (subset_of_ordered hsorted)
  | case3 count child r ih => exact List.Subset.trans (ih h) (List.take_subset count r.elements)
  | case4 child r ih => exact ih h
  | case5 q r hfilter horder hlimit hunique =>
    rw [refine.eq_5 m q r hfilter horder hlimit hunique] at h
    cases h
    exact List.Subset.refl _

/-- The objects whose fields are read when a query is read at a position: those of the position, or
of what the list operations of the query leave of its elements. -/
inductive ReadsObject (m : Mapping) (q : Query) (c : Cursor) : Cursor → Prop
  | position {o : Cursor} (hplain : q.isListOperation = false) (ho : c.ObjectAt o) :
    ReadsObject m q c o
  | refined {left : Refined} {e o : Cursor} (hlist : q.isListOperation = true)
    (hrefined : q.refine m ⟨c.elements, false⟩ = .ok left)
    (hone : left.isUnique = true → left.elements = [e]) (he : e ∈ left.elements)
    (ho : e.ObjectAt o) : ReadsObject m q c o

end Query

namespace Run

/-- A relation of runs that is kept by putting runs together. -/
structure Congruence (C : (α : Type) → Run α → Run α → Prop) : Prop where
  ofExcept : ∀ {α : Type} (x : Except Fault α), C α (Run.ofExcept x) (Run.ofExcept x)
  bind : ∀ {α β : Type} {x y : Run α} {f g : α → Run β}, C α x y → (∀ a, C β (f a) (g a)) →
    C β (x >>= f) (y >>= g)

namespace Congruence

variable {C : (α : Type) → Run α → Run α → Prop} {α β : Type}

theorem pure (h : Congruence C) (a : α) : C α (Pure.pure a) (Pure.pure a) := h.ofExcept (.ok a)

theorem throw (h : Congruence C) (f : Fault) : C α (throwThe Fault f) (throwThe Fault f) :=
  h.ofExcept (.error f)

/-- After a computation without a session. -/
theorem after (h : Congruence C) {x : Except Fault α} {f g : α → Run β}
    (hf : ∀ a, x = .ok a → C β (f a) (g a)) :
    C β (Run.ofExcept x >>= f) (Run.ofExcept x >>= g) := by
  cases x with
  | error e => exact h.throw e
  | ok a => exact hf a rfl

theorem mapM (h : Congruence C) {f g : α → Run β} {l : List α} (hf : ∀ a ∈ l, C β (f a) (g a)) :
    C (List β) (l.mapM f) (l.mapM g) := by
  induction l with
  | nil => exact h.pure _
  | cons a l ih =>
    rw [List.mapM_cons, List.mapM_cons]
    exact h.bind (hf a List.mem_cons_self) fun b =>
      h.bind (ih fun c hc => hf c (List.mem_cons_of_mem _ hc)) fun bs => h.pure _

variable {m : Mapping} {object object' : Cursor → Run Members}

/-- A position is read through its objects only. -/
theorem readAs (h : Congruence C) : ∀ {type : TypeRef} {c : Cursor}, c.type = type →
    (∀ o, c.ObjectAt o → C Members (object o) (object' o)) →
      C Json (Query.readAs m object type c) (Query.readAs m object' type c)
  | .nullable inner, c, htype, hobject => by
    rw [Query.readAs, Query.readAs]
    refine h.after fun present? hpresent => ?_
    cases present? with
    | none => exact h.pure _
    | some p =>
      have hinner : p.type = inner := by
        have hnullable := (Cursor.present?_eq_some hpresent).1
        rw [htype] at hnullable
        exact (TypeRef.nullable.inj hnullable).symm
      exact h.readAs hinner fun o ho => hobject o (.present hpresent ho)
  | .list item, c, htype, hobject => by
    rw [Query.readAs, Query.readAs]
    refine h.bind (h.mapM fun e he => h.readAs ?_ fun o ho => hobject o (.element htype he ho))
      fun docs => h.pure _
    rw [(Cursor.mem_elements he).2.1, htype]
    rfl
  | .named name, c, htype, hobject => by
    rw [Query.readAs, Query.readAs]
    split
    · exact h.ofExcept _
    · rename_i hleaf
      exact h.bind (hobject c (.object htype (Bool.eq_false_iff.2 hleaf))) fun members => h.pure _

/-- Two queries with the same list operations read a position through the same objects. -/
theorem readAt (h : Congruence C) {q q' : Query} {c : Cursor}
    (hlist : q'.isListOperation = q.isListOperation)
    (hrefine : ∀ r, q'.refine m r = q.refine m r)
    (hobject : ∀ o, q.ReadsObject m c o → C Members (object' o) (object o)) :
    C Json (Query.readAt m object' q' c) (Query.readAt m object q c) := by
  unfold Query.readAt
  rw [hlist, hrefine]
  split
  · rename_i hoperation
    refine h.after fun left hleft => ?_
    by_cases hunique : left.isUnique = true
    · rw [if_pos hunique, if_pos hunique]
      split
      · rename_i e hone
        exact h.readAs rfl fun o ho => hobject o
          (.refined hoperation hleft (fun _ => hone) (hone ▸ List.mem_singleton_self e) ho)
      · split
        · exact h.pure _
        · exact h.throw _
    · rw [if_neg hunique, if_neg hunique]
      exact h.bind (h.mapM fun e he => h.readAs rfl fun o ho => hobject o
        (.refined hoperation hleft (fun hone => absurd hone hunique) he ho)) fun docs => h.pure _
  · rename_i hplain
    exact h.readAs rfl fun o ho => hobject o (.position (Bool.eq_false_iff.2 hplain) ho)

end Congruence

/-- A property of runs that is kept by putting runs together. -/
structure Compositional (U : (α : Type) → Run α → Prop) : Prop where
  ofExcept : ∀ {α : Type} (x : Except Fault α), U α (Run.ofExcept x)
  bind : ∀ {α β : Type} {x : Run α} {f : α → Run β}, U α x → (∀ a, U β (f a)) → U β (x >>= f)

end Run

/-- Queries at positions that no reading leads out of: below each of them are read queries at
positions that are among them. -/
structure Mapping.ReadsWithin (m : Mapping) (P : Query → Cursor → Prop) : Prop where
  present : ∀ {q c p}, P q c → c.present? = .ok (some p) → P q p
  element : ∀ {q c e}, P q c → e ∈ c.elements → P q e
  filter : ∀ {p child c}, P (.filter p child) c → P child c
  unique : ∀ {child c}, P (.unique child) c → P child c
  limit : ∀ {n child c}, P (.limit n child) c → P child c
  orderBy : ∀ {os child c}, P (.orderBy os child) c → P child c
  group : ∀ {queries c}, P (.group queries) c → ∀ q ∈ queries, P q c
  narrow : ∀ {type child c narrowed}, P (.narrow type child) c → c.narrow type = .ok narrowed →
    P child narrowed
  field : ∀ {name alias? bindings child c next}, P (.select name alias? bindings child) c →
    c.field name = .ok next → P child next

namespace Mapping.ReadsWithin

variable {m : Mapping} {P : Query → Cursor → Prop} {q : Query} {c o : Cursor}

theorem everywhere (m : Mapping) : m.ReadsWithin fun _ _ => True := by
  constructor <;> intros <;> trivial

theorem objectAt (h : m.ReadsWithin P) (ho : c.ObjectAt o) (hq : P q c) : P q o := by
  induction ho with
  | object => exact hq
  | present hpresent _ ih => exact ih (h.present hq hpresent)
  | element _ he _ ih => exact ih (h.element hq he)

theorem readsObject (h : m.ReadsWithin P) (ho : q.ReadsObject m c o) (hq : P q c) : P q o := by
  cases ho with
  | position _ ho => exact h.objectAt ho hq
  | refined _ hrefined _ he ho =>
    exact h.objectAt ho (h.element hq (Query.subset_of_refine hrefined he))

end Mapping.ReadsWithin

/-- What is asked for the delegated fields of queries at positions has a property. -/
structure Run.Asks (U : (α : Type) → Run α → Prop) {m : Mapping} (P : Query → Cursor → Prop)
    (answers : Answers m) : Prop where
  select : ∀ {name : String} {alias? : Option String} {bindings : List Binding} {child : Query}
    {c : Cursor} {type : String} {d : Delegate Mapping}
    (hresolve : m.resolve c.path type name = .delegated d),
    P (.select name alias? bindings child) c → c.concreteType = .ok type →
      U Json (Query.askDelegate answers d (Mapping.sizeOf_target_lt hresolve) type c
        (.select name alias? bindings child))
  component : ∀ {type field name : String} {alias? : Option String} {bindings : List Binding}
    {below : Query} {c : Cursor} {d : Delegate Mapping}
    (hresolve : m.resolve c.path type field = .delegated d),
    P (.component type field (.select name alias? bindings below)) c →
      U Json (Query.askDelegate answers d (Mapping.sizeOf_target_lt hresolve) type c
        (.select name alias? bindings below))

namespace Run.Compositional

variable {U : (α : Type) → Run α → Prop} {α β : Type}

theorem pure (h : Compositional U) (a : α) : U α (Pure.pure a) := h.ofExcept (.ok a)

theorem throw (h : Compositional U) (f : Fault) : U α (throwThe Fault f) := h.ofExcept (.error f)

/-- A property of runs as a relation of equal ones. -/
theorem congruence (h : Compositional U) : Congruence fun α x y => x = y ∧ U α x where
  ofExcept x := ⟨rfl, h.ofExcept x⟩
  bind hx hf := ⟨by rw [hx.1, funext fun a => (hf a).1], h.bind hx.2 fun a => (hf a).2⟩

theorem after (h : Compositional U) {x : Except Fault α} {f : α → Run β}
    (hf : ∀ a, x = .ok a → U β (f a)) : U β (Run.ofExcept x >>= f) :=
  (h.congruence.after fun a ha => ⟨rfl, hf a ha⟩).2

variable {m : Mapping}

theorem readAt (h : Compositional U) {object : Cursor → Run Members} {q : Query} {c : Cursor}
    (hobject : ∀ o, q.ReadsObject m c o → U Members (object o)) :
    U Json (Query.readAt m object q c) :=
  (h.congruence.readAt rfl (fun _ => rfl) fun o ho => ⟨rfl, hobject o ho⟩).2

theorem atObject (h : Compositional U) {read : Cursor → Run Members} (q : Query) {c : Cursor}
    (hread : U Members (read c)) : U Members (Query.atObject q read c) := by
  unfold Query.atObject
  split
  · exact h.throw _
  · exact hread

variable {P : Query → Cursor → Prop} {answers : Answers m}

mutual

/-- The fields of an object are read with a property if what is asked for delegated fields has it. -/
theorem fields (h : Compositional U) (hP : m.ReadsWithin P) (hasks : Asks U P answers) :
    ∀ (q : Query) (c : Cursor), P q c → U Members (Query.fields m answers q c)
  | .group queries, c, hq => by
    rw [Query.fields]
    exact fieldsAll h hP hasks queries c (hP.group hq)
  | .select name alias? bindings child, c, hq => by
    rw [Query.fields]
    refine h.after fun type htype => ?_
    split
    · exact h.pure _
    · split
      · refine h.after fun next hnext => h.bind ?_ fun value => h.pure _
        exact h.readAt fun o ho => fields h hP hasks child o (hP.readsObject ho (hP.field hq hnext))
      · exact h.after fun value _ => h.pure _
      · rename_i d hresolve
        exact h.bind (hasks.select hresolve hq htype) fun value => h.pure _
  | .component type field child, c, hq => by
    cases child with
    | select name alias? bindings below =>
      rw [Query.fields]
      split
      · rename_i d hresolve
        exact h.bind (hasks.component hresolve hq) fun value => h.pure _
      · exact h.throw _
    | _ =>
      rw [Query.fields]
      · exact h.throw _
      · simp
  | .narrow type child, c, hq => by
    rw [Query.fields]
    split
    · exact h.after fun narrowed hnarrowed =>
        h.atObject child (fields h hP hasks child narrowed (hP.narrow hq hnarrowed))
    · exact h.pure _
  | .empty, c, hq => by
    rw [Query.fields]
    exact h.pure _
  | .filter p child, c, hq => by
    rw [Query.fields]
    exact fields h hP hasks child c (hP.filter hq)
  | .unique child, c, hq => by
    rw [Query.fields]
    exact fields h hP hasks child c (hP.unique hq)
  | .limit n child, c, hq => by
    rw [Query.fields]
    exact fields h hP hasks child c (hP.limit hq)
  | .orderBy os child, c, hq => by
    rw [Query.fields]
    exact fields h hP hasks child c (hP.orderBy hq)
  | .introspect child, c, hq => by
    rw [Query.fields]
    exact h.throw _

theorem fieldsAll (h : Compositional U) (hP : m.ReadsWithin P) (hasks : Asks U P answers) :
    ∀ (queries : List Query) (c : Cursor), (∀ q ∈ queries, P q c) →
      U Members (Query.fieldsAll m answers queries c)
  | [], c, hq => by
    rw [Query.fieldsAll]
    exact h.pure _
  | q :: rest, c, hq => by
    rw [Query.fieldsAll]
    exact h.bind (h.atObject q (fields h hP hasks q c (hq q List.mem_cons_self))) fun _ =>
      h.bind (fieldsAll h hP hasks rest c fun a ha => hq a (List.mem_cons_of_mem q ha)) fun _ =>
        h.pure _

end

/-- A position is read with a property if what is asked for delegated fields has it. -/
theorem value (h : Compositional U) (hP : m.ReadsWithin P) (hasks : Asks U P answers) {q : Query}
    {c : Cursor} (hq : P q c) : U Json (q.value m answers c) :=
  h.readAt fun o ho => h.fields hP hasks q o (hP.readsObject ho hq)

end Run.Compositional

end MappedQuery
