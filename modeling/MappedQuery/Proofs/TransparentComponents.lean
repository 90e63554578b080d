import MappedQuery.Json.Printer
import MappedQuery.Proofs.DelegatedPlans

/-!
# Transparent components

A component says before a query is run what reading would find out: that a field is delegated, and
for which type. It is therefore read as the selection is that it was made of, as long as what is
known of types and paths beforehand holds of the positions that reading comes to. The proof follows
the reader. Within one mapping it is an induction on the query, given that delegated fields are
answered alike; that they are is an induction on the mapping, since what a field is delegated to is
a part of it.

A keeper of pets shows what it takes. With a type that is told or declared otherwise than was known
beforehand another mapping answers, and a fault that shows a query shows its components.
-/
namespace MappedQuery

namespace Run

variable {α β : Type} {R : α → β → Prop}

/-- What is related is what the runs may give. -/
protected theorem Alike.gives {x : Run α} {y : Run β} (h : Run.Alike R x y) :
    Run.Alike (fun a b => R a b ∧ y.Gives b) x y := by
  intro s t hst
  have hrelated := h s t hst
  cases hx : x.run.run s with
  | mk left s' =>
    cases hy : y.run.run t with
    | mk right t' =>
      rw [hx, hy] at hrelated
      obtain ⟨houtcome, hleft⟩ := hrelated
      refine ⟨?_, hleft⟩
      cases houtcome with
      | fault h => exact .fault h
      | result h => exact .result ⟨h, t, t', hy⟩

end Run

namespace Mapping

/-- The answers of the mappings that fields are delegated to. -/
def answers (m : Mapping) : Answers m := fun d _ type s => d.target.readRoot type s

end Mapping

namespace Query

section Fields

variable {m : Mapping} {answers : Answers m} {c : Cursor} {name type : String}
  {alias? : Option String} {bindings : List Binding} {child : Query}

theorem fields_of_error {f : Fault} (htype : c.concreteType = .error f) :
    fields m answers (.select name alias? bindings child) c = throw f := by
  rw [fields, htype]
  rfl

theorem fields_source (hname : name ≠ "__typename") (htype : c.concreteType = .ok type)
    (h : m.resolve c.path type name = .source) :
    fields m answers (.select name alias? bindings child) c = (do
      let next ← Run.ofExcept (c.field name)
      pure [(alias?.getD name, ← readAt m (fields m answers child) child next)]) := by
  rw [fields, htype]
  change (if name = "__typename" then _ else _) = _
  rw [if_neg hname]
  split
  · rfl
  all_goals
    rename_i heq
    cases h.symm.trans heq

theorem fields_computed (hname : name ≠ "__typename") (htype : c.concreteType = .ok type)
    {compute : Computation} (h : m.resolve c.path type name = .computed compute) :
    fields m answers (.select name alias? bindings child) c = (do
      pure [(alias?.getD name, ← Run.ofExcept (computedField m type name compute c))]) := by
  rw [fields, htype]
  change (if name = "__typename" then _ else _) = _
  rw [if_neg hname]
  split
  · rename_i heq
    cases h.symm.trans heq
  · rename_i heq
    cases h.symm.trans heq
    rfl
  · rename_i heq
    cases h.symm.trans heq

theorem fields_delegated (hname : name ≠ "__typename") (htype : c.concreteType = .ok type)
    {d : Delegate Mapping} (h : m.resolve c.path type name = .delegated d) :
    fields m answers (.select name alias? bindings child) c = (do
      pure [(alias?.getD name, ← askDelegate answers d (Mapping.sizeOf_target_lt h) type c
        (.select name alias? bindings child))]) := by
  rw [fields, htype]
  change (if name = "__typename" then _ else _) = _
  rw [if_neg hname]
  split
  · rename_i heq
    cases h.symm.trans heq
  · rename_i heq
    cases h.symm.trans heq
  · rename_i heq
    cases h.symm.trans heq
    rfl

theorem fields_component {d : Delegate Mapping} (h : m.resolve c.path type name = .delegated d)
    (field : String) :
    fields m answers (.component type name (.select field alias? bindings child)) c = (do
      pure [(alias?.getD field, ← askDelegate answers d (Mapping.sizeOf_target_lt h) type c
        (.select field alias? bindings child))]) := by
  rw [fields]
  split
  · rename_i heq
    cases h.symm.trans heq
    rfl
  · rename_i hother
    exact absurd h (hother d)

end Fields

theorem isListOperation_delegateAt (q : Query) (p : Spot) :
    (q.delegateAt p).isListOperation = q.isListOperation := by
  cases q with
  | select name alias? bindings child =>
    rcases delegateAt_select_cases p name alias? bindings child with ⟨_, h⟩ | ⟨_, h⟩ <;>
      rw [h] <;> rfl
  | _ => rfl

/-- Components stand below the list operations of a query, which refine lists as before. -/
theorem refine_delegateAt (q : Query) (p : Spot) (m : Mapping) (r : Refined) :
    (q.delegateAt p).refine m r = q.refine m r := by
  cases q with
  | filter predicate child =>
    exact bind_congr fun elements => refine_delegateAt child p m { r with elements }
  | orderBy selections child =>
    exact bind_congr fun elements => refine_delegateAt child p m { r with elements }
  | limit count child => exact refine_delegateAt child p m _
  | unique child => exact refine_delegateAt child p m _
  | select name alias? bindings child =>
    rcases delegateAt_select_cases p name alias? bindings child with ⟨_, h⟩ | ⟨_, h⟩ <;>
      rw [h] <;> rfl
  | _ => rfl

section Components

variable {m : Mapping} {answers : Answers m}

/-- The answers for a delegated field do not depend on whether there are components below it. -/
def AnswersAlike (answers : Answers m) : Prop :=
  ∀ (d : Delegate Mapping) (h : sizeOf d.target < sizeOf m) (path : List String)
    (type name : String) (alias? : Option String) (bindings : List Binding) (q : Query),
    m.resolve path type name = .delegated d → q.DelegatesAt (Spot.below ⟨m, type, path⟩ name) →
      Run.Alike (· = ·)
        (answers d h type ⟨name, alias?, bindings, q.delegateAt (Spot.below ⟨m, type, path⟩ name)⟩)
        (answers d h type ⟨name, alias?, bindings, q⟩)

theorem alike_askDelegate (hanswers : AnswersAlike answers) (hm : m.DelegatesAlike)
    {d : Delegate Mapping} {path : List String} {type name : String}
    (hd : m.resolve path type name = .delegated d) (h : sizeOf d.target < sizeOf m) (c : Cursor)
    (alias? : Option String) (bindings : List Binding) {q : Query}
    (hq : q.DelegatesAt (Spot.below ⟨m, type, path⟩ name)) :
    Run.Alike (· = ·)
      (askDelegate answers d h type c
        (.select name alias? bindings (q.delegateAt (Spot.below ⟨m, type, path⟩ name))))
      (askDelegate answers d h type c (.select name alias? bindings q)) := by
  unfold askDelegate
  rcases hm.joins path type name d hd c.view name alias? bindings with ⟨f, hf⟩ | ⟨wrap, hwrap, hok⟩
  · rw [hf, hf]
    exact Run.alike_throw rfl
  · rw [hok, hok, ← hwrap.delegateAt]
    exact hanswers d h path type name alias? bindings (wrap q) hd (hwrap.delegatesAt hq)

/-- List operations at an object are refused alike. -/
theorem alike_atObject {q : Query} {p : Spot} {c : Cursor}
    (h : Run.Alike (· = ·) (fields m answers (q.delegateAt p) c) (fields m answers q c)) :
    Run.Alike (· = ·) (atObject (q.delegateAt p) (fields m answers (q.delegateAt p)) c)
      (atObject q (fields m answers q) c) := by
  unfold atObject
  rw [isListOperation_delegateAt]
  split
  · refine Run.alike_throw ?_
    rw [Fault.withoutComponents, InterpreterFault.withoutComponents, delegateAt,
      q.withoutComponents_delegate]
    rfl
  · exact h

mutual

/-- The members of an object are the same whether its delegated fields are components or not. -/
theorem alike_fields (hanswers : AnswersAlike answers) (hm : m.DelegatesAlike) :
    ∀ (q : Query) (type : String) (path : List String) (c : Cursor),
      c.StandsAt ⟨m, type, path⟩ → q.DelegatesAt ⟨m, type, path⟩ →
        Run.Alike (· = ·) (fields m answers (q.delegateAt ⟨m, type, path⟩) c)
          (fields m answers q c)
  | .group queries, type, path, c, hc, hq => by
    rw [DelegatesAt] at hq
    rw [delegateAt, delegate, fields, fields]
    exact alike_fieldsAll hanswers hm queries type path c hc hq
  | .select name alias? bindings child, type, path, c, hc, hq => by
    by_cases hname : name = "__typename"
    · subst hname
      rw [delegateAt_typename, fields]
      refine Run.alike_after fun concrete _ => ?_
      rw [if_pos rfl]
      exact Run.alike_pure rfl
    rw [DelegatesAt] at hq
    obtain ⟨hsettles, hchild⟩ := hq.resolve_left hname
    cases htarget : m.delegateTarget? path type name with
    | some target =>
      -- The field is delegated for the object type, which the component says and the selection
      -- finds at the position.
      obtain ⟨d, hd, -⟩ := Mapping.delegated_of_delegateTarget? htarget
      obtain ⟨hobject, -⟩ := hsettles.eq_of_delegated (Spot.admits_of_narrower (.refl _ _)) hd
      have hresolve : m.resolve c.path type name = .delegated d := hc.path ▸ hd
      rw [delegateAt_of_target (p := ⟨m, type, path⟩) hname htarget, fields_component hresolve,
        fields_delegated hname (hc.concreteType hobject) hresolve]
      exact (alike_askDelegate hanswers hm hd _ c alias? bindings hchild).bind fun doc _ hdoc =>
        Run.alike_pure (by rw [hdoc])
    | none =>
      rw [delegateAt_of_no_target (p := ⟨m, type, path⟩) hname htarget]
      cases htype : c.concreteType with
      | error f =>
        rw [fields_of_error htype, fields_of_error htype]
        exact Run.alike_throw rfl
      | ok concrete =>
        have hadmits := hc.admits htype
        cases hresolve : m.resolve c.path concrete name with
        | source =>
          rw [fields_source hname htype hresolve, fields_source hname htype hresolve]
          refine Run.alike_after fun next hnext => ?_
          have hbelow := hc.field hm.fields hsettles htarget hnext
          rw [Spot.below_of_no_target (p := ⟨m, type, path⟩) htarget] at hchild hbelow ⊢
          refine (Run.congruence_alike.readAt (isListOperation_delegateAt child _) (refine_delegateAt child _ m)
            fun o ho => ?_).bind fun doc _ hdoc => Run.alike_pure (by rw [hdoc])
          exact alike_fields hanswers hm child (selectedType m type name) (path ++ [name]) o
            (hbelow.readsObject ho) hchild
        | computed compute =>
          rw [fields_computed hname htype hresolve, fields_computed hname htype hresolve]
          exact Run.alike_after fun doc _ => Run.alike_pure rfl
        | delegated d =>
          rw [hc.path] at hresolve
          obtain ⟨-, rfl⟩ := hsettles.eq_of_delegated hadmits hresolve
          cases htarget.symm.trans (Mapping.delegateTarget?_of_delegated hresolve)
  | .narrow condition child, type, path, c, hc, hq => by
    rw [DelegatesAt] at hq
    rw [delegateAt, delegate, fields, fields]
    split
    · refine Run.alike_after fun narrowed hnarrowed => ?_
      exact alike_atObject (alike_fields hanswers hm child condition path narrowed
        (hc.narrow hnarrowed) hq)
    · exact Run.alike_pure rfl
  | .filter _ child, type, path, c, hc, hq | .unique child, type, path, c, hc, hq
  | .limit _ child, type, path, c, hc, hq | .orderBy _ child, type, path, c, hc, hq => by
    rw [DelegatesAt] at hq
    rw [delegateAt, delegate, fields, fields]
    exact alike_fields hanswers hm child type path c hc hq
  | .component .., _, _, _, _, hq => by
    rw [DelegatesAt] at hq
    exact hq.elim
  | .introspect child, type, path, c, hc, hq => by
    rw [delegateAt, delegate, fields]
    exact Run.alike_throw rfl
  | .empty, type, path, c, hc, hq => by
    rw [delegateAt, delegate, fields]
    exact Run.alike_pure rfl

theorem alike_fieldsAll (hanswers : AnswersAlike answers) (hm : m.DelegatesAlike) :
    ∀ (queries : List Query) (type : String) (path : List String) (c : Cursor),
      c.StandsAt ⟨m, type, path⟩ → AllDelegateAt ⟨m, type, path⟩ queries →
        Run.Alike (· = ·) (fieldsAll m answers (delegateAll m type path queries) c)
          (fieldsAll m answers queries c)
  | [], type, path, c, hc, hq => by
    rw [delegateAll, fieldsAll]
    exact Run.alike_pure rfl
  | q :: rest, type, path, c, hc, hq => by
    rw [AllDelegateAt] at hq
    rw [delegateAll, fieldsAll, fieldsAll]
    refine (alike_atObject (alike_fields hanswers hm q type path c hc hq.1)).bind
      fun members _ hmembers => ?_
    exact (alike_fieldsAll hanswers hm rest type path c hc hq.2).bind fun others _ hothers =>
      Run.alike_pure (by rw [hmembers, hothers])

end

/-- The document of a position is the same whether delegated fields below it are components or
not. -/
theorem alike_value (hanswers : AnswersAlike answers) (hm : m.DelegatesAlike) {q : Query}
    {type : String} {path : List String} {c : Cursor} (hc : c.StandsAt ⟨m, type, path⟩)
    (hq : q.DelegatesAt ⟨m, type, path⟩) :
    Run.Alike (· = ·) ((q.delegateAt ⟨m, type, path⟩).value m answers c) (q.value m answers c) :=
  Run.congruence_alike.readAt (isListOperation_delegateAt q _) (refine_delegateAt q _ m) fun o ho =>
    alike_fields hanswers hm q type path o (hc.readsObject ho) hq

end Components

end Query

namespace Mapping

/-- A root is opened alike, and what is left of the query below it has the components that are made
of what is left without them. -/
theorem alike_openRoot {p : Spot} {type name : String} (hfields : p.mapping.schema.FieldsNarrow)
    (hpath : p.path = [name])
    (hdeclared : ∀ t, p.mapping.rootFieldType? type name = some t →
      p.mapping.schema.Narrower t.underlying p.type)
    (alias? : Option String) (bindings : List Binding) {q : Query} (hq : q.DelegatesAt p) :
    Run.Alike (fun a b => a = (b.1.delegateAt p, b.2))
      (p.mapping.openRoot type ⟨name, alias?, bindings, q.delegateAt p⟩)
      (p.mapping.openRoot type ⟨name, alias?, bindings, q⟩) := by
  cases hmapping : p.mapping with
  | documents r =>
    unfold openRoot
    dsimp only
    split
    · exact Run.alike_throw rfl
    · exact Run.alike_after fun t _ => Run.alike_pure rfl
  | tables r =>
    rw [hmapping] at hdeclared hfields
    unfold openRoot
    dsimp only
    split
    · exact Run.alike_throw rfl
    · refine Run.alike_after fun t ht => ?_
      have hplan := Run.alike_ofExcept (Sql.Plan.alike_build hfields hmapping hpath
        (hdeclared t (rootFieldType?_of_openType ht)) hq)
      refine hplan.bind fun a b hab => ?_
      obtain ⟨hstatement, hnodes, hcount, hresidual⟩ := hab
      rw [hstatement, hcount]
      refine (Run.alike_send _ _ _ _).bind fun result _ hresult => Run.alike_pure ?_
      rw [hresult, hnodes, hresidual]

/-- A root is read alike, if the delegated fields below it are answered alike. -/
theorem alike_readRoot {m : Mapping} (hanswers : Query.AnswersAlike m.answers)
    (hm : m.DelegatesAlike) (htold : m.RootsTold) {type static name : String}
    (hdeclared : ∀ t, m.rootFieldType? type name = some t → m.schema.Narrower t.underlying static)
    (alias? : Option String) (bindings : List Binding) {q : Query}
    (hq : q.DelegatesAt ⟨m, static, [name]⟩) :
    Run.Alike (· = ·)
      (m.readRoot type ⟨name, alias?, bindings, q.delegateAt ⟨m, static, [name]⟩⟩)
      (m.readRoot type ⟨name, alias?, bindings, q⟩) := by
  rw [readRoot, readRoot]
  refine (alike_openRoot (p := ⟨m, static, [name]⟩) hm.fields rfl hdeclared alias? bindings
    hq).gives.bind fun opened opened' hopened => ?_
  obtain ⟨residual, c⟩ := opened'
  obtain ⟨rfl, hgives⟩ := hopened
  have hc : c.StandsAt ⟨m, static, [name]⟩ :=
    Cursor.standsAt_of_openRoot htold hdeclared hgives
  exact Query.alike_value hanswers hm hc ((dropsFilters_openRoot hgives).delegatesAt hq)

/-- Delegated fields are answered alike, by induction on the mapping: those below a delegated field
are the delegated fields of a smaller one. -/
theorem GraphAlike.answersAlike {m : Mapping} (hm : m.GraphAlike) :
    Query.AnswersAlike m.answers := by
  intro d h path type name alias? bindings q hd hq
  rw [Spot.below_of_target (p := ⟨m, type, path⟩) (delegateTarget?_of_delegated hd)] at hq ⊢
  exact alike_readRoot (hm.target hd).answersAlike (hm.target hd).alike
    (hm.alike.told path type name d hd) (fun t => hm.alike.declared path type name d t hd) alias?
    bindings hq
termination_by sizeOf m

end Mapping

/-- A query is read alike with its delegated fields as components and with plain selections of
them, wherever reading comes to below a root that is not delegated. There the mapping and the path
are those that delegated fields are looked for with, also below delegated fields. -/
theorem Query.components_read_alike {m m' : Mapping} {s : Select} {left first part q : Query}
    {root c : Cursor} {p : Spot} (hgraph : m.GraphAlike) (htold : m.RootsTold)
    (hown : m.delegateTarget? [] m.schema.queryType s.name = none)
    (hroot : (m.openRoot m.schema.queryType s).Gives (left, root))
    (hfirst : first.DelegatesAt (Spot.below ⟨m, m.schema.queryType, []⟩ s.name))
    (hvisit : Relation.ReflTransGen Visit.Step
      ⟨Spot.below ⟨m, m.schema.queryType, []⟩ s.name, first, m, root⟩ ⟨p, part, m', c⟩)
    (hq : q.DelegatesAt p) :
    m' = p.mapping ∧ c.path = p.path ∧
      Run.Alike (· = ·) ((q.delegate p.mapping p.type p.path).value m' m'.answers c)
        (q.value m' m'.answers c) := by
  have hmapping : m = (Spot.below ⟨m, m.schema.queryType, []⟩ s.name).mapping := by
    rw [Spot.below_of_no_target hown]
  obtain ⟨hmapping', hgraph', hc, -⟩ := Visit.Agrees.steps
    ⟨hmapping, hgraph, Cursor.standsAt_of_own_root htold hown hroot, hfirst⟩ hvisit
  obtain rfl : m' = p.mapping := hmapping'
  exact ⟨rfl, hc.path, alike_value hgraph'.answersAlike hgraph'.alike hc hq⟩

namespace Switchboard

/-- A dog is a pet if it has the interface, and it is kept by something. -/
def schema (interfaces : List String) (kept answered : String) : Schema := Schema.ofTypes [
  .object ⟨"Query", [⟨"pet", [], .named "Pet"⟩], []⟩,
  .interface ⟨"Pet", [⟨"keeper", [], .named "Person"⟩], []⟩,
  .object ⟨"Dog", [⟨"keeper", [], .named kept⟩], interfaces⟩,
  .object ⟨"Person", [⟨"name", [], .named "String"⟩, ⟨"phone", [], .named answered⟩], []⟩,
  .object ⟨"Machine", [⟨"name", [], .named "String"⟩, ⟨"phone", [], .named "Phone"⟩], []⟩,
  .object ⟨"Phone", [⟨"owner", [], .named "String"⟩, ⟨"number", [], .named "String"⟩], []⟩,
  .object ⟨"Relay", [⟨"owner", [], .named "String"⟩, ⟨"number", [], .named "String"⟩], []⟩] "Query"

def phone (owner number : String) : Json :=
  .object [("owner", .string owner), ("number", .string number)]

def keeper : Json := .object [("name", .string "Ann"), ("phone", phone "Ann" "own")]

/-- The phones that the exchange knows. -/
def phones : Json := .array [phone "Bob" "other", phone "Ann" "switched"]

def dog : Json := .object [("__typename", .string "Dog"), ("keeper", keeper)]

def numbers : DocumentRegistry where
  schema := schema ["Pet"] "Person" "Phone"
  types := [.object ⟨"Query", [.root "number" (.string "listed")]⟩]
  elaborators := []

def listed : Delegate Mapping := ⟨"number", .documents numbers, .trivial⟩

/-- The numbers of phones are looked up, but for those that are read below a keeper. -/
def exchange (answered : String) : DocumentRegistry where
  schema := schema ["Pet"] "Person" answered
  types := [
    .object ⟨"Query", [.root "phone" phones]⟩,
    .byPath "Phone" [(["keeper", "phone"], ⟨"Phone", [.source (.same "number")]⟩),
      (["phone"], ⟨"Phone", [.source (.same "owner"), .delegate listed]⟩)],
    .object ⟨"Relay", [.source (.same "owner"), .source (.same "number")]⟩]
  elaborators := []

/-- The phone whose owner has the name. -/
def switched (answered : String) : Delegate Mapping :=
  ⟨"phone", .documents (exchange answered), .onEqual [(.field "name", "owner")] true⟩

/-- The phones of persons are those of the exchange, and machines have their own. -/
def registry (interfaces : List String) (kept answered : String) : DocumentRegistry where
  schema := schema interfaces kept "Phone"
  types := [
    .object ⟨"Query", [.root "pet" dog]⟩,
    .object ⟨"Dog", [.source (.same "keeper")]⟩,
    .object ⟨"Person", [.source (.same "name"), .delegate (switched answered)]⟩,
    .object ⟨"Machine", [.source (.same "name"), .source (.same "phone")]⟩,
    .object ⟨"Phone", [.source (.same "number")]⟩]
  elaborators := []

variable (interfaces : List String) (kept answered : String)

def pet : Cursor :=
  ⟨["pet"], .named "Pet", .document (registry interfaces kept answered) dog⟩

/-- The number under which the keeper of the pet is reached. -/
def question : Query :=
  .select "keeper" none [] (.select "phone" none [] (.field "number"))

/-- A list operation where there is an object. -/
def misplaced : Query :=
  .select "keeper" none [] (.group [.select "phone" none [] (.field "number"),
    .limit 1 (.select "phone" none [] (.field "number"))])

/-- The result of a query at the pet. -/
def result (q : Query) : Except Fault Json :=
  ((q.value (.documents (registry interfaces kept answered))
    (Mapping.documents (registry interfaces kept answered)).answers
    (pet interfaces kept answered)).run.run (.start fun _ _ => .ok ⟨[], []⟩)).1

/-- What a response shows of a result. -/
def shown (result : Except Fault Json) : List String × List Problem :=
  ((RootResult.ofRoot "pet" result).members.map fun m => m.2.compact,
    (RootResult.ofRoot "pet" result).problems)

def spot : Spot := ⟨.documents (registry interfaces kept answered), "Pet", ["pet"]⟩

variable {interfaces : List String} {kept answered : String}

theorem eq_pet_of_isAbstract {type : String}
    (h : (schema interfaces kept answered).isAbstract type = true) : type = "Pet" := by
  rw [Schema.isAbstract] at h
  cases hfind : (schema interfaces kept answered).find? type with
  | none =>
    rw [hfind] at h
    cases h
  | some d =>
    rw [hfind] at h
    have hname := Schema.name_of_find? hfind
    have hmem := List.mem_of_find?_eq_some hfind
    simp only [schema, Schema.ofTypes, List.mem_append, List.mem_map, List.mem_cons,
      List.not_mem_nil, or_false] at hmem
    rcases hmem with ⟨_, -, rfl⟩ | rfl | rfl | rfl | rfl | rfl | rfl | rfl
    all_goals first | exact hname.symm | cases h

theorem eq_switched {d : Delegate Mapping}
    (h : FieldMapping.delegate d ∈ (registry interfaces kept answered).allFields) :
    d = switched answered := by
  simpa [registry, Registry.allFields] using h

theorem eq_listed {d : Delegate Mapping}
    (h : FieldMapping.delegate d ∈ (exchange answered).allFields) : d = listed := by
  simpa [exchange, Registry.allFields] using h

theorem no_delegate {d : Delegate Mapping} : FieldMapping.delegate d ∉ numbers.allFields := by
  simp [numbers, Registry.allFields]

/-- A mapping that is reached from the registry. -/
theorem eq_of_reached {m : Mapping} (h : Relation.ReflTransGen Mapping.DelegatesTo
    (.documents (registry interfaces kept answered)) m) :
    m = .documents (registry interfaces kept answered) ∨ m = .documents (exchange answered) ∨
      m = .documents numbers := by
  induction h with
  | refl => exact .inl rfl
  | tail _ hstep ih =>
    obtain ⟨path, type, name, d, hd, rfl⟩ := hstep
    rcases ih with rfl | rfl | rfl
    · rw [eq_switched (Registry.delegate_of_resolve hd).1]
      exact .inr (.inl rfl)
    · rw [eq_listed (Registry.delegate_of_resolve hd).1]
      exact .inr (.inr rfl)
    · exact absurd (Registry.delegate_of_resolve hd).1 no_delegate

theorem keeper_settles : (spot interfaces kept answered).Settles "keeper" := by
  intro _ t _
  refine ⟨?_, fun _ => rfl⟩
  cases htarget : (spot interfaces kept answered).mapping.delegateTarget? ["pet"] t "keeper" with
  | none => exact htarget
  | some target =>
    obtain ⟨d, hd, -⟩ := Mapping.delegated_of_delegateTarget? htarget
    obtain ⟨hmem, hname⟩ := Registry.delegate_of_resolve hd
    obtain rfl := eq_switched hmem
    exact absurd (show "phone" = "keeper" from hname) (by decide)

theorem number_delegatesAt :
    (Query.field "number").DelegatesAt ⟨.documents (exchange answered), "Phone", ["phone"]⟩ := by
  rw [Query.field, Select.plain, Select.toQuery, Query.DelegatesAt]
  refine .inr ⟨fun habstract => ?_, ?_⟩
  · have hpet : "Phone" = "Pet" := eq_pet_of_isAbstract habstract
    exact absurd hpet (by decide)
  · rw [Query.DelegatesAt]
    trivial

/-- The phone is selected where a keeper is a person. -/
theorem phone_delegatesAt :
    (Query.select "phone" none [] (.field "number")).DelegatesAt
      ((spot interfaces kept answered).below "keeper") := by
  have hplace : (spot interfaces kept answered).below "keeper" =
      ⟨.documents (registry interfaces kept answered), "Person", ["pet", "keeper"]⟩ := rfl
  have hbelow : Spot.below
      ⟨.documents (registry interfaces kept answered), "Person", ["pet", "keeper"]⟩ "phone" =
        ⟨.documents (exchange answered), "Phone", ["phone"]⟩ := rfl
  rw [hplace, Query.DelegatesAt, hbelow]
  refine .inr ⟨fun habstract => ?_, number_delegatesAt⟩
  have hpet : "Person" = "Pet" := eq_pet_of_isAbstract habstract
  exact absurd hpet (by decide)

theorem question_delegatesAt : question.DelegatesAt (spot interfaces kept answered) := by
  rw [question, Query.DelegatesAt]
  exact .inr ⟨keeper_settles, phone_delegatesAt⟩

theorem misplaced_delegatesAt : misplaced.DelegatesAt (spot interfaces kept answered) := by
  have hlimit : (Query.limit 1 (.select "phone" none [] (.field "number"))).DelegatesAt
      ((spot interfaces kept answered).below "keeper") := by
    rw [Query.DelegatesAt]
    exact phone_delegatesAt
  rw [misplaced, Query.DelegatesAt, Query.DelegatesAt, Query.AllDelegateAt, Query.AllDelegateAt,
    Query.AllDelegateAt]
  exact .inr ⟨keeper_settles, phone_delegatesAt, hlimit, trivial⟩

/-- The documents of the roots with all their parts. -/
def docs : List Json :=
  [.null, dog, keeper, phone "Ann" "own", phones, phone "Bob" "other", phone "Ann" "switched",
    .string "Dog", .string "Ann", .string "Bob", .string "own", .string "other",
    .string "switched", .string "listed"]

theorem partsTold {r : DocumentRegistry} (hschema : r.schema = schema ["Pet"] "Person" "Phone") :
    r.PartsTold docs where
  null := by simp [docs]
  members members hmembers m hm := by
    simp only [docs, dog, keeper, phone, phones, List.mem_cons, List.not_mem_nil, or_false,
      reduceCtorEq, false_or, Json.object.injEq] at hmembers
    rcases hmembers with rfl | rfl | rfl | rfl | rfl <;>
      · simp only [List.mem_cons, List.not_mem_nil, or_false] at hm
        rcases hm with rfl | rfl <;> simp [docs, keeper, phone]
  elements elements helements e he := by
    have hphones : elements = [phone "Bob" "other", phone "Ann" "switched"] := by
      simpa [docs, dog, keeper, phone, phones] using helements
    rw [hphones] at he
    simp only [List.mem_cons, List.not_mem_nil, or_false] at he
    rcases he with rfl | rfl <;> simp [docs]
  told doc hdoc t ht type htype := by
    rw [hschema] at htype ⊢
    obtain rfl := eq_pet_of_isAbstract htype
    have hdog : t = "Dog" := by
      simp only [docs, List.mem_cons, List.not_mem_nil, or_false] at hdoc
      rcases hdoc with rfl | rfl | rfl | rfl | rfl | rfl | rfl | rfl | rfl | rfl | rfl | rfl | rfl |
        rfl
      · cases ht
      · exact (Json.string.inj (Option.some.inj ht)).symm
      all_goals cases ht
    rw [hdog]
    rfl

theorem fieldsNarrow : (schema ["Pet"] "Person" "Phone").FieldsNarrow :=
  Schema.fieldsNarrow_of_types (by decide)

theorem registry_rootsTold : (Mapping.documents (registry ["Pet"] "Person" "Phone")).RootsTold :=
  (partsTold rfl).rootsTold fun name json h => by
    have hroot : name = "pet" ∧ json = dog := by simpa [registry, Registry.allFields] using h
    simp [hroot.2, docs]

theorem exchange_rootsTold : (Mapping.documents (exchange "Phone")).RootsTold :=
  (partsTold rfl).rootsTold fun name json h => by
    have hroot : name = "phone" ∧ json = phones := by
      simpa [exchange, Registry.allFields] using h
    simp [hroot.2, docs]

theorem numbers_rootsTold : (Mapping.documents numbers).RootsTold :=
  (partsTold rfl).rootsTold fun name json h => by
    have hroot : name = "number" ∧ json = .string "listed" := by
      simpa [numbers, Registry.allFields] using h
    simp [hroot.2, docs]

/-- Persons keep dogs and have phones, and so everything is told as it is declared. -/
theorem graphAlike : (Mapping.documents (registry ["Pet"] "Person" "Phone")).GraphAlike := by
  intro m hm
  rcases eq_of_reached hm with rfl | rfl | rfl
  · refine Registry.delegatesAlike_of_schema fieldsNarrow fun d hd => ?_
    obtain rfl := eq_switched hd
    exact ⟨JoinRule.wrapsChild_onEqual _ _, rfl, rfl, exchange_rootsTold⟩
  · refine Registry.delegatesAlike_of_schema fieldsNarrow fun d hd => ?_
    obtain rfl := eq_listed hd
    exact ⟨JoinRule.wrapsChild_trivial, rfl, rfl, numbers_rootsTold⟩
  · exact Registry.delegatesAlike_of_schema fieldsNarrow fun d hd => absurd hd no_delegate

theorem pet_opens (q : Query) :
    ((Mapping.documents (registry interfaces kept answered)).openRoot "Query"
      ⟨"pet", none, [], q⟩).Gives (q, pet interfaces kept answered) :=
  Run.gives_pure.2 rfl

/-- The phone that the exchange has for the keeper of the pet. -/
def switchedPhone : Cursor :=
  ⟨["phone"], .named "Phone", .document (exchange "Phone") (phone "Ann" "switched")⟩

/-- What the join asks the exchange for the keeper. -/
def joined : Query :=
  .unique (.filter (.all [.eq (.field "owner") (.const (.string "Ann"))]) (.field "number"))

/-- Reading the question comes to the phone of the keeper, by a delegated field. -/
theorem question_reaches :
    Relation.ReflTransGen Visit.Step
      ⟨spot ["Pet"] "Person" "Phone", question, .documents (registry ["Pet"] "Person" "Phone"),
        pet ["Pet"] "Person" "Phone"⟩
      ⟨⟨.documents (exchange "Phone"), "Phone", ["phone"]⟩, joined,
        .documents (exchange "Phone"), switchedPhone⟩ := by
  have hkeeper : Visit.Step
      ⟨spot ["Pet"] "Person" "Phone", question, .documents (registry ["Pet"] "Person" "Phone"),
        pet ["Pet"] "Person" "Phone"⟩
      ⟨(spot ["Pet"] "Person" "Phone").below "keeper",
        .select "phone" none [] (.field "number"),
        .documents (registry ["Pet"] "Person" "Phone"),
        ⟨["pet", "keeper"], .named "Person",
          .document (registry ["Pet"] "Person" "Phone") keeper⟩⟩ :=
    have hdog : (pet ["Pet"] "Person" "Phone").concreteType = .ok "Dog" := rfl
    .field (by decide) hdog rfl rfl (.position rfl (.object rfl rfl))
  have hjoin : (switched "Phone").join (Cursor.view ⟨["pet", "keeper"], .named "Person",
      .document (registry ["Pet"] "Person" "Phone") keeper⟩)
        (.select "phone" none [] (.field "number")) =
      .ok (Select.toQuery ⟨"phone", none, [], joined⟩) := rfl
  have hphone : joined.ReadsObject (.documents (exchange "Phone"))
      ⟨["phone"], .named "Phone", .document (exchange "Phone") phones⟩ switchedPhone := by
    have hrefined : joined.refine (.documents (exchange "Phone"))
        ⟨Cursor.elements ⟨["phone"], .named "Phone", .document (exchange "Phone") phones⟩, false⟩ =
          .ok ⟨[switchedPhone], true⟩ := by rfl
    exact .refined rfl hrefined (fun _ => rfl) (List.mem_singleton_self _) (.object rfl rfl)
  exact .head hkeeper (.single (.delegated (by decide) rfl rfl hjoin (Run.gives_pure.2 rfl) hphone))

/-- The number of that phone is a component, as the path starts anew at the phone, and it is read
alike. -/
theorem number_reads_alike :
    (Mapping.documents (registry ["Pet"] "Person" "Phone")).GraphAlike ∧
      (Mapping.documents (registry ["Pet"] "Person" "Phone")).RootsTold ∧
      question.DelegatesAt (spot ["Pet"] "Person" "Phone") ∧
      (Query.field "number").delegate (.documents (exchange "Phone")) "Phone" ["phone"] =
        .component "Phone" "number" (.field "number") ∧
      Run.Alike (· = ·)
        ((Query.component "Phone" "number" (.field "number")).value (.documents (exchange "Phone"))
          (Mapping.documents (exchange "Phone")).answers switchedPhone)
        ((Query.field "number").value (.documents (exchange "Phone"))
          (Mapping.documents (exchange "Phone")).answers switchedPhone) := by
  have halike := Query.components_read_alike graphAlike registry_rootsTold rfl
    (pet_opens question) question_delegatesAt question_reaches number_delegatesAt
  exact ⟨graphAlike, registry_rootsTold, question_delegatesAt, rfl, halike.2.2⟩

/-- All delegates of the mapping put list operations around selections, and none is for an abstract
type. -/
structure Plain (m : Mapping) : Prop where
  joins : ∀ path type name d, m.resolve path type name = .delegated d → d.join.WrapsChild
  objects : ∀ path type name, m.schema.isAbstract type = true →
    m.delegateTarget? path type name = none

theorem plain_of_reached {m : Mapping} (h : Relation.ReflTransGen Mapping.DelegatesTo
    (.documents (registry interfaces kept answered)) m) : Plain m := by
  have hplain (r : DocumentRegistry) (hpets : ∀ type, r.schema.isAbstract type = true →
      r.schema.interfaces type = [] ∧ r.typeMapping? type = none)
      (hjoins : ∀ d, FieldMapping.delegate d ∈ r.allFields → d.join.WrapsChild) :
      Plain (.documents r) := by
    refine ⟨fun path type name d hd => ?_, fun path type name htype => ?_⟩
    · exact hjoins d (Registry.delegate_of_resolve hd).1
    · obtain ⟨hinterfaces, hmapped⟩ := hpets type htype
      have hfield : r.fieldMapping? path type name = none := by
        rw [Registry.fieldMapping?, Schema.search_of_no_interfaces hinterfaces,
          Registry.objectMapping?, hmapped]
        rfl
      rw [Mapping.delegateTarget?, Mapping.resolve, Registry.resolve, hfield]
  rcases eq_of_reached h with rfl | rfl | rfl
  · refine hplain _ (fun type htype => ?_) fun d hd => ?_
    · obtain rfl := eq_pet_of_isAbstract htype
      exact ⟨rfl, rfl⟩
    · rw [eq_switched hd]
      exact JoinRule.wrapsChild_onEqual _ _
  · refine hplain _ (fun type htype => ?_) fun d hd => ?_
    · obtain rfl := eq_pet_of_isAbstract htype
      exact ⟨rfl, rfl⟩
    · rw [eq_listed hd]
      exact JoinRule.wrapsChild_trivial
  · refine hplain _ (fun type htype => ?_) fun d hd => absurd hd no_delegate
    obtain rfl := eq_pet_of_isAbstract htype
    exact ⟨rfl, rfl⟩

/-- Plain delegates, and a query that selects their fields on their types, below a root that is not
delegated; and yet another result with components. -/
def Changed (interfaces : List String) (kept answered : String) (q : Query) : Prop :=
  (∀ m, Relation.ReflTransGen Mapping.DelegatesTo
    (.documents (registry interfaces kept answered)) m → Plain m) ∧
  (Mapping.documents (registry interfaces kept answered)).delegateTarget? [] "Query" "pet" = none ∧
  ((Mapping.documents (registry interfaces kept answered)).openRoot "Query"
    ⟨"pet", none, [], q⟩).Gives (q, pet interfaces kept answered) ∧
  (pet interfaces kept answered).ObjectAt (pet interfaces kept answered) ∧
  q.DelegatesAt (spot interfaces kept answered) ∧
  result interfaces kept answered (q.delegateAt (spot interfaces kept answered)) ≠
    result interfaces kept answered q

theorem changed_of_shown {q : Query} (hq : q.DelegatesAt (spot interfaces kept answered))
    (h : shown (result interfaces kept answered (q.delegateAt (spot interfaces kept answered))) ≠
      shown (result interfaces kept answered q)) : Changed interfaces kept answered q :=
  ⟨fun _ => plain_of_reached, rfl, pet_opens q, .object rfl rfl, hq, fun heq => h (by rw [heq])⟩

theorem results_differ :
    shown (result ["Pet"] "Machine" "Phone"
        (question.delegateAt (spot ["Pet"] "Machine" "Phone"))) ≠
      shown (result ["Pet"] "Machine" "Phone" question) ∧
    shown (result [] "Machine" "Phone" (question.delegateAt (spot [] "Machine" "Phone"))) ≠
      shown (result [] "Machine" "Phone" question) ∧
    shown (result ["Pet"] "Person" "Relay"
        (question.delegateAt (spot ["Pet"] "Person" "Relay"))) ≠
      shown (result ["Pet"] "Person" "Relay" question) ∧
    shown (result ["Pet"] "Person" "Phone"
        (misplaced.delegateAt (spot ["Pet"] "Person" "Phone"))) ≠
      shown (result ["Pet"] "Person" "Phone" misplaced) := by
  decide +kernel

/-- The number is another one where a dog is kept by a machine, be it a pet or not, and where the
exchange declares another kind of phone. What is misplaced is shown with its components. -/
theorem components_change_results : Changed ["Pet"] "Machine" "Phone" question ∧
    Changed [] "Machine" "Phone" question ∧ Changed ["Pet"] "Person" "Relay" question ∧
    Changed ["Pet"] "Person" "Phone" misplaced := by
  obtain ⟨hmachine, hstranger, hrelay, hmisplaced⟩ := results_differ
  exact ⟨changed_of_shown question_delegatesAt hmachine,
    changed_of_shown question_delegatesAt hstranger, changed_of_shown question_delegatesAt hrelay,
    changed_of_shown misplaced_delegatesAt hmisplaced⟩

end Switchboard

end MappedQuery
