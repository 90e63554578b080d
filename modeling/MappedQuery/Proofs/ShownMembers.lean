import MappedQuery.Interpret.Answer
import MappedQuery.Proofs.EndingPlans
import MappedQuery.Proofs.ObjectMembers

/-!
# What a response shows of a query

The members of an object are those of the selections that apply to it, groups and fragments taken
apart. Each of their keys is there. Two selections may have one key, with different selections
below them: the member is then that of the last one, and nothing below the others is shown. So a
chain of selections leads to a value of the response if each of them is the last of its key.
-/
namespace MappedQuery

namespace Run

variable {α β : Type}

/-- What a run may give, in some session. -/
def Gives (x : Run α) (a : α) : Prop := ∃ s s', x.run.run s = (.ok a, s')

theorem gives_pure {a b : α} : (pure a : Run α).Gives b ↔ a = b := by
  constructor
  · rintro ⟨s, s', h⟩
    cases h
    rfl
  · rintro rfl
    exact ⟨.start fun _ _ => .ok ⟨[], []⟩, _, rfl⟩

theorem not_gives_throw {f : Fault} {a : α} : ¬ (throw f : Run α).Gives a := by
  rintro ⟨s, s', h⟩
  cases h

theorem gives_ofExcept {x : Except Fault α} {a : α} : (ofExcept x).Gives a ↔ x = .ok a := by
  cases x with
  | error f => exact ⟨fun h => absurd h not_gives_throw, fun h => by cases h⟩
  | ok b =>
    change (pure b : Run α).Gives a ↔ _
    rw [gives_pure, Except.ok.injEq]

theorem Gives.bind {x : Run α} {f : α → Run β} {b : β} (h : (x >>= f).Gives b) :
    ∃ a, x.Gives a ∧ (f a).Gives b := by
  obtain ⟨s, s', h⟩ := h
  change ((ExceptT.bindCont f (x.run.run s).1).run (x.run.run s).2) = _ at h
  rcases hx : x.run.run s with ⟨_ | a, s₁⟩
  · rw [hx] at h
    cases h
  · rw [hx] at h
    exact ⟨a, ⟨s, s₁, hx⟩, s₁, s', h⟩

theorem Gives.mapM {f : α → Run β} {l : List α} {bs : List β} (h : (l.mapM f).Gives bs) :
    List.Forall₂ (fun a b => (f a).Gives b) l bs := by
  induction l generalizing bs with
  | nil =>
    rw [List.mapM_nil, gives_pure] at h
    subst h
    exact .nil
  | cons a l ih =>
    rw [List.mapM_cons] at h
    obtain ⟨b, hb, h⟩ := h.bind
    obtain ⟨bs', hbs', h⟩ := h.bind
    rw [gives_pure] at h
    subst h
    exact .cons hb (ih hbs')

end Run

/-- The last item of a key. -/
def lastKeyed? {α : Type} (key? : α → Option String) (key : String) (l : List α) : Option α :=
  (l.filter fun a => key? a = some key).getLast?

theorem lastKeyed?_cons {α : Type} (key? : α → Option String) (key : String) (a : α) (l : List α) :
    lastKeyed? key? key (a :: l) =
      (lastKeyed? key? key l).or (if key? a = some key then some a else none) := by
  rw [lastKeyed?, lastKeyed?, ← List.singleton_append, List.filter_append, List.getLast?_append]
  by_cases h : key? a = some key <;> simp [h]

theorem lastKeyed?_filter_isSome {α : Type} (key? : α → Option String) (key : String)
    (l : List α) : lastKeyed? key? key (l.filter fun a => (key? a).isSome) =
      lastKeyed? key? key l := by
  rw [lastKeyed?, lastKeyed?, List.filter_filter]
  congr 1
  refine List.filter_congr fun a _ => ?_
  by_cases h : key? a = some key <;> simp [h]

theorem isSome_eq_of_rel {α β : Type} {R : α → β → Prop} {a? : Option α} {b? : Option β}
    (h : Option.Rel R a? b?) : a?.isSome = b?.isSome := by
  cases h <;> rfl

/-- Where items correspond to members of their keys, so do the last ones. -/
theorem lastMember?_of_forall₂ {α : Type} {key? : α → Option String}
    {R : α → String × Json → Prop} (hkey : ∀ a m, R a m → key? a = some m.1) {l : List α}
    {ms : Members} (h : List.Forall₂ R l ms) (key : String) :
    Option.Rel R (lastKeyed? key? key l) (Json.lastMember? key ms) := by
  induction h with
  | nil => exact .none
  | @cons a m l ms ham hrest ih =>
    rw [lastKeyed?_cons, ← List.singleton_append, Json.lastMember?_append,
      Json.lastMember?_singleton]
    generalize lastKeyed? key? key l = a? at ih
    generalize Json.lastMember? key ms = m? at ih
    cases ih with
    | some hlast => exact .some hlast
    | none =>
      rw [Option.none_or, Option.none_or]
      by_cases hm : m.1 = key
      · rw [if_pos hm, if_pos (hm ▸ hkey a m ham)]
        exact .some ham
      · rw [if_neg hm, if_neg fun ha => hm (Option.some.inj ((hkey a m ham).symm.trans ha))]
        exact .none

/-- So the object of the members shows under each key what corresponds to the last item of it. -/
theorem get?_ofMembers_of_forall₂ {α : Type} {key? : α → Option String} {P : α → Json → Prop}
    {l : List α} {ms : Members}
    (h : List.Forall₂ (fun a m => key? a = some m.1 ∧ P a m.2) l ms) (key : String) :
    Option.Rel P (lastKeyed? key? key l) ((Json.ofMembers ms).get? key) := by
  have hlast := lastMember?_of_forall₂ (fun _ _ ham => ham.1) h key
  rw [Json.get?_ofMembers]
  generalize lastKeyed? key? key l = a? at hlast ⊢
  generalize Json.lastMember? key ms = m? at hlast ⊢
  cases hlast with
  | none => exact .none
  | some ham => exact .some ham.2

namespace Query

/-- The key of a selection, also of one that another mapping answers. -/
def key? : Query → Option String
  | .select name alias? _ _ => some (alias?.getD name)
  | .component _ _ (.select name alias? _ _) => some (alias?.getD name)
  | _ => none

mutual

/-- The selections of a query that apply to an object, each with the object as seen through the
fragments around it. -/
def selections : Query → Cursor → List (Query × Cursor)
  | .group queries, c => selectionsAll queries c
  | .narrow type child, c =>
    if c.narrowsTo type then child.selections { c with type := .named type } else []
  | .select name alias? bindings child, c => [(.select name alias? bindings child, c)]
  | .component type field child, c => [(.component type field child, c)]
  | .filter _ child, c | .unique child, c | .limit _ child, c | .orderBy _ child, c =>
    child.selections c
  | .introspect _, _ | .empty, _ => []

def selectionsAll : List Query → Cursor → List (Query × Cursor)
  | [], _ => []
  | q :: rest, c => q.selections c ++ selectionsAll rest c

end

/-- The last of the selections of a key that apply to an object. -/
def lastSelection? (q : Query) (c : Cursor) (key : String) : Option (Query × Cursor) :=
  lastKeyed? (fun a => a.1.key?) key (q.selections c)

mutual

/-- What is shown of a query at a position: what is left of a list is shown element by element. -/
inductive Displays : Mapping → Query → Cursor → Json → Prop
  | position {m : Mapping} {q : Query} {c : Cursor} {doc : Json}
    (hplain : q.isListOperation = false) (h : DisplaysAs m q c.type c doc) : Displays m q c doc
  | refined {m : Mapping} {q : Query} {c : Cursor} {r : Refined} {docs : List Json}
    (hlist : q.isListOperation = true) (hrefined : q.refine m ⟨c.elements, false⟩ = .ok r)
    (hmany : r.isUnique = false) (hlength : docs.length = r.elements.length)
    (h : ∀ (i : Nat) (e : Cursor) (doc : Json), r.elements[i]? = some e → docs[i]? = some doc →
      DisplaysAs m q e.type e doc) :
    Displays m q c (.array docs)
  | single {m : Mapping} {q : Query} {c e : Cursor} {r : Refined} {doc : Json}
    (hlist : q.isListOperation = true) (hrefined : q.refine m ⟨c.elements, false⟩ = .ok r)
    (hunique : r.isUnique = true) (hone : r.elements = [e]) (h : DisplaysAs m q e.type e doc) :
    Displays m q c doc
  | nothing {m : Mapping} {q : Query} {c : Cursor} {r : Refined}
    (hlist : q.isListOperation = true) (hrefined : q.refine m ⟨c.elements, false⟩ = .ok r)
    (hunique : r.isUnique = true) (hnone : r.elements = []) : Displays m q c .null

/-- What is shown of a query at a position that is read as a type. -/
inductive DisplaysAs : Mapping → Query → TypeRef → Cursor → Json → Prop
  | absent {m : Mapping} {q : Query} {inner : TypeRef} {c : Cursor}
    (habsent : c.present? = .ok none) : DisplaysAs m q (.nullable inner) c .null
  | present {m : Mapping} {q : Query} {inner : TypeRef} {c present : Cursor} {doc : Json}
    (hpresent : c.present? = .ok (some present)) (h : DisplaysAs m q inner present doc) :
    DisplaysAs m q (.nullable inner) c doc
  | list {m : Mapping} {q : Query} {item : TypeRef} {c : Cursor} {docs : List Json}
    (hlength : docs.length = c.elements.length)
    (h : ∀ (i : Nat) (e : Cursor) (doc : Json), c.elements[i]? = some e → docs[i]? = some doc →
      DisplaysAs m q item e doc) :
    DisplaysAs m q (.list item) c (.array docs)
  | leaf {m : Mapping} {q : Query} {type : String} {c : Cursor} {v : Value} {doc : Json}
    (hleaf : c.isLeaf = true) (hv : c.leaf = .ok v) (hdoc : m.encode type v = .ok doc) :
    DisplaysAs m q (.named type) c doc
  /-- An object has the keys of the selections that apply to it and no others. -/
  | object {m : Mapping} {q : Query} {type : String} {c : Cursor}
    {members : List (String × Json)} (hobject : c.isLeaf = false)
    (hkeys : ∀ key, ((Json.object members).get? key).isSome = (q.lastSelection? c key).isSome)
    (h : ∀ key s o doc, q.lastSelection? c key = some (s, o) →
      (Json.object members).get? key = some doc → MemberDisplays m s o doc) :
    DisplaysAs m q (.named type) c (.object members)

/-- What is shown of a selection on an object. -/
inductive MemberDisplays : Mapping → Query → Cursor → Json → Prop
  | typename {m : Mapping} {alias? : Option String} {bindings : List Binding} {child : Query}
    {o : Cursor} {type : String} (htype : o.concreteType = .ok type) :
    MemberDisplays m (.select "__typename" alias? bindings child) o (.string type)
  | source {m : Mapping} {name type : String} {alias? : Option String} {bindings : List Binding}
    {child : Query} {o next : Cursor} {doc : Json} (htype : o.concreteType = .ok type)
    (hresolve : m.resolve o.path type name = .source) (hnext : o.field name = .ok next)
    (h : Displays m child next doc) : MemberDisplays m (.select name alias? bindings child) o doc
  | computed {m : Mapping} {name type : String} {alias? : Option String} {bindings : List Binding}
    {child : Query} {o : Cursor} {compute : Computation} {doc : Json}
    (htype : o.concreteType = .ok type) (hresolve : m.resolve o.path type name = .computed compute)
    (hdoc : computedField m type name compute o = .ok doc) :
    MemberDisplays m (.select name alias? bindings child) o doc
  | delegated {m : Mapping} {name type : String} {alias? : Option String}
    {bindings : List Binding} {child residual : Query} {o c : Cursor} {d : Delegate Mapping}
    {s : Select} {doc : Json} (htype : o.concreteType = .ok type)
    (hresolve : m.resolve o.path type name = .delegated d)
    (hjoin : d.join o.view (.select name alias? bindings child) = .ok s.toQuery)
    (hopen : (d.target.openRoot type s).Gives (residual, c))
    (h : Displays d.target residual c doc) :
    MemberDisplays m (.select name alias? bindings child) o doc
  | component {m : Mapping} {type field name : String} {alias? : Option String}
    {bindings : List Binding} {child residual : Query} {o c : Cursor} {d : Delegate Mapping}
    {s : Select} {doc : Json} (hresolve : m.resolve o.path type field = .delegated d)
    (hjoin : d.join o.view (.select name alias? bindings child) = .ok s.toQuery)
    (hopen : (d.target.openRoot type s).Gives (residual, c))
    (h : Displays d.target residual c doc) :
    MemberDisplays m (.component type field (.select name alias? bindings child)) o doc

end

/-- A member is that of a selection: it has its key and shows it. -/
def Answered (m : Mapping) (s : Query × Cursor) (member : String × Json) : Prop :=
  s.1.key? = some member.1 ∧ MemberDisplays m s.1 s.2 member.2

/-- Members that are those of the selections which apply to an object make up the object. -/
theorem DisplaysAs.ofMembers {m : Mapping} {q : Query} {type : String} {c : Cursor} {ms : Members}
    (hobject : c.isLeaf = false) (h : List.Forall₂ (Answered m) (q.selections c) ms) :
    DisplaysAs m q (.named type) c (Json.ofMembers ms) := by
  have hlast (key : String) : Option.Rel (fun s doc => MemberDisplays m s.1 s.2 doc)
      (q.lastSelection? c key) ((Json.ofMembers ms).get? key) := get?_ofMembers_of_forall₂ h key
  refine .object hobject (fun key => (isSome_eq_of_rel (hlast key)).symm)
    fun key s o doc hs hdoc => ?_
  have hkey := hlast key
  change (Json.ofMembers ms).get? key = some doc at hdoc
  rw [hs, hdoc] at hkey
  cases hkey with
  | some hdisplays => exact hdisplays

section Reading

variable {m : Mapping} {answers : Answers m}

theorem displaysAs_readAs {q : Query} {object : Cursor → Run Members}
    (hobject : ∀ c ms, (object c).Gives ms → List.Forall₂ (Answered m) (q.selections c) ms) :
    ∀ {type : TypeRef} {c : Cursor} {doc : Json}, (readAs m object type c).Gives doc →
      DisplaysAs m q type c doc
  | .nullable inner, c, doc, h => by
    rw [readAs] at h
    obtain ⟨present?, hpresent, h⟩ := h.bind
    rw [Run.gives_ofExcept] at hpresent
    cases present? with
    | none =>
      obtain rfl := Run.gives_pure.1 h
      exact .absent hpresent
    | some present => exact .present hpresent (displaysAs_readAs hobject h)
  | .list item, c, doc, h => by
    rw [readAs] at h
    obtain ⟨docs, hdocs, h⟩ := h.bind
    obtain rfl := Run.gives_pure.1 h
    have hall := hdocs.mapM
    refine .list hall.length_eq.symm fun i e doc he hdoc => ?_
    obtain ⟨hi, rfl⟩ := List.getElem?_eq_some_iff.1 he
    obtain ⟨hj, rfl⟩ := List.getElem?_eq_some_iff.1 hdoc
    exact displaysAs_readAs hobject ((List.forall₂_iff_get.1 hall).2 i hi hj)
  | .named type, c, doc, h => by
    rw [readAs] at h
    split at h
    · rename_i hleaf
      rw [Run.gives_ofExcept] at h
      obtain ⟨v, hv, hdoc⟩ := bind_eq_ok.1 h
      exact .leaf hleaf hv hdoc
    · rename_i hleaf
      obtain ⟨ms, hms, h⟩ := h.bind
      obtain rfl := Run.gives_pure.1 h
      exact .ofMembers (Bool.eq_false_iff.2 hleaf) (hobject c ms hms)

/-- What `readAt` gives is shown, if the object reader gives members of the selections. -/
theorem displays_readAt {q : Query} {object : Cursor → Run Members}
    (hobject : ∀ c ms, (object c).Gives ms → List.Forall₂ (Answered m) (q.selections c) ms)
    {c : Cursor} {doc : Json} (h : (readAt m object q c).Gives doc) : Displays m q c doc := by
  unfold readAt at h
  split at h
  · rename_i hlist
    obtain ⟨r, hrefined, h⟩ := h.bind
    rw [Run.gives_ofExcept] at hrefined
    dsimp only at h
    split at h
    · rename_i hunique
      split at h
      · rename_i e hone
        exact .single hlist hrefined hunique hone (displaysAs_readAs hobject h)
      · split at h
        · rename_i hnone
          obtain rfl := Run.gives_pure.1 h
          exact .nothing hlist hrefined hunique
            (List.isEmpty_iff.1 (Bool.and_eq_true_iff.1 hnone).1)
        · exact absurd h Run.not_gives_throw
    · rename_i hmany
      obtain ⟨docs, hdocs, h⟩ := h.bind
      obtain rfl := Run.gives_pure.1 h
      have hall := hdocs.mapM
      refine .refined hlist hrefined (Bool.eq_false_iff.2 hmany) hall.length_eq.symm
        fun i e doc he hdoc => ?_
      obtain ⟨hi, rfl⟩ := List.getElem?_eq_some_iff.1 he
      obtain ⟨hj, rfl⟩ := List.getElem?_eq_some_iff.1 hdoc
      exact displaysAs_readAs hobject ((List.forall₂_iff_get.1 hall).2 i hi hj)
  · rename_i hplain
    exact .position (Bool.eq_false_iff.2 hplain) (displaysAs_readAs hobject h)

/-- Answers for delegated fields are those of roots that are opened and shown. -/
def DisplayedAnswers (answers : Answers m) : Prop :=
  ∀ d h type s doc, (answers d h type s).Gives doc →
    ∃ residual c, (d.target.openRoot type s).Gives (residual, c) ∧ Displays d.target residual c doc

theorem displays_askDelegate (hanswers : DisplayedAnswers answers) {d : Delegate Mapping}
    {hd : sizeOf d.target < sizeOf m} {type : String} {c : Cursor} {selection : Query} {doc : Json}
    (h : (askDelegate answers d hd type c selection).Gives doc) : ∃ s residual c',
      d.join c.view selection = .ok (Select.toQuery s) ∧
        (d.target.openRoot type s).Gives (residual, c') ∧ Displays d.target residual c' doc := by
  unfold askDelegate at h
  obtain ⟨asked, hasked, h⟩ := h.bind
  rw [Run.gives_ofExcept] at hasked
  split at h
  · rename_i name alias? bindings child
    obtain ⟨residual, c', hopen, hshows⟩ := hanswers d hd type _ doc h
    exact ⟨⟨name, alias?, bindings, child⟩, residual, c', hasked, hopen, hshows⟩
  · exact absurd h Run.not_gives_throw

theorem gives_atObject {q : Query} {read : Cursor → Run Members} {c : Cursor} {ms : Members}
    (h : (atObject q read c).Gives ms) : (read c).Gives ms := by
  unfold atObject at h
  split at h
  · exact absurd h Run.not_gives_throw
  · exact h

mutual

theorem answered_fields (hanswers : DisplayedAnswers answers) :
    ∀ (q : Query) (c : Cursor) (ms : Members), (fields m answers q c).Gives ms →
      List.Forall₂ (Answered m) (q.selections c) ms
  | .group queries, c, ms, h => by
    rw [fields] at h
    rw [selections]
    exact answered_fieldsAll hanswers queries c ms h
  | .select name alias? bindings child, c, ms, h => by
    have hone {doc : Json} (hms : [(alias?.getD name, doc)] = ms)
        (hshows : MemberDisplays m (.select name alias? bindings child) c doc) :
        List.Forall₂ (Answered m) ((Query.select name alias? bindings child).selections c) ms := by
      subst hms
      rw [selections]
      exact .cons ⟨rfl, hshows⟩ .nil
    rw [fields] at h
    obtain ⟨type, htype, h⟩ := h.bind
    rw [Run.gives_ofExcept] at htype
    split at h
    · rename_i hname
      subst hname
      exact hone (Run.gives_pure.1 h) (.typename htype)
    · split at h
      · rename_i hresolve
        obtain ⟨next, hnext, h⟩ := h.bind
        rw [Run.gives_ofExcept] at hnext
        obtain ⟨doc, hdoc, h⟩ := h.bind
        exact hone (Run.gives_pure.1 h) (.source htype hresolve hnext
          (displays_readAt (answered_fields hanswers child) hdoc))
      · rename_i compute hresolve
        obtain ⟨doc, hdoc, h⟩ := h.bind
        rw [Run.gives_ofExcept] at hdoc
        exact hone (Run.gives_pure.1 h) (.computed htype hresolve hdoc)
      · rename_i d hresolve
        obtain ⟨doc, hdoc, h⟩ := h.bind
        obtain ⟨s, residual, c', hjoin, hopen, hshows⟩ := displays_askDelegate hanswers hdoc
        exact hone (Run.gives_pure.1 h) (.delegated htype hresolve hjoin hopen hshows)
  | .component type field child, c, ms, h => by
    cases child with
    | select name alias? bindings below =>
      rw [fields] at h
      split at h
      · rename_i d hresolve
        obtain ⟨doc, hdoc, h⟩ := h.bind
        obtain ⟨s, residual, c', hjoin, hopen, hshows⟩ := displays_askDelegate hanswers hdoc
        obtain rfl := Run.gives_pure.1 h
        rw [selections]
        exact .cons ⟨rfl, .component hresolve hjoin hopen hshows⟩ .nil
      · exact absurd h Run.not_gives_throw
    | _ =>
      rw [fields] at h
      · exact absurd h Run.not_gives_throw
      · simp
  | .narrow type child, c, ms, h => by
    rw [fields] at h
    rw [selections]
    split at h
    · rename_i happlies
      obtain ⟨narrowed, hnarrowed, h⟩ := h.bind
      rw [Run.gives_ofExcept, Cursor.narrow, if_pos happlies] at hnarrowed
      cases hnarrowed
      rw [if_pos happlies]
      exact answered_fields hanswers child _ ms (gives_atObject h)
    · rename_i happlies
      rw [if_neg happlies]
      obtain rfl := Run.gives_pure.1 h
      exact .nil
  | .empty, c, ms, h => by
    rw [fields] at h
    obtain rfl := Run.gives_pure.1 h
    rw [selections]
    exact .nil
  | .filter _ child, c, ms, h | .unique child, c, ms, h | .limit _ child, c, ms, h
  | .orderBy _ child, c, ms, h => by
    rw [fields] at h
    rw [selections]
    exact answered_fields hanswers child c ms h
  | .introspect child, c, ms, h => by
    rw [fields] at h
    exact absurd h Run.not_gives_throw

theorem answered_fieldsAll (hanswers : DisplayedAnswers answers) :
    ∀ (queries : List Query) (c : Cursor) (ms : Members), (fieldsAll m answers queries c).Gives ms →
      List.Forall₂ (Answered m) (selectionsAll queries c) ms
  | [], c, ms, h => by
    rw [fieldsAll] at h
    obtain rfl := Run.gives_pure.1 h
    rw [selectionsAll]
    exact .nil
  | q :: rest, c, ms, h => by
    rw [fieldsAll] at h
    obtain ⟨first, hfirst, h⟩ := h.bind
    obtain ⟨others, hothers, h⟩ := h.bind
    obtain rfl := Run.gives_pure.1 h
    rw [selectionsAll]
    exact List.rel_append (answered_fields hanswers q c first (gives_atObject hfirst))
      (answered_fieldsAll hanswers rest c others hothers)

end

end Reading

/-- A query less some of its filters. -/
inductive DropsFilters : Query → Query → Prop
  | refl (q : Query) : DropsFilters q q
  | dropped {p : Predicate} {child q : Query} (h : DropsFilters child q) :
    DropsFilters (.filter p child) q
  | filter {p : Predicate} {child q : Query} (h : DropsFilters child q) :
    DropsFilters (.filter p child) (.filter p q)
  | unique {child q : Query} (h : DropsFilters child q) : DropsFilters (.unique child) (.unique q)
  | limit {count : Nat} {child q : Query} (h : DropsFilters child q) :
    DropsFilters (.limit count child) (.limit count q)
  | orderBy {selections : List OrderSelection} {child q : Query} (h : DropsFilters child q) :
    DropsFilters (.orderBy selections child) (.orderBy selections q)
  | groupCons {q q' : Query} {rest rest' : List Query} (hfirst : DropsFilters q q')
    (hrest : DropsFilters (.group rest) (.group rest')) :
    DropsFilters (.group (q :: rest)) (.group (q' :: rest'))
  | narrow {type : String} {child q : Query} (h : DropsFilters child q) :
    DropsFilters (.narrow type child) (.narrow type q)
  | select {name : String} {alias? : Option String} {bindings : List Binding} {child q : Query}
    (h : DropsFilters child q) :
    DropsFilters (.select name alias? bindings child) (.select name alias? bindings q)

/-- A root is opened, and shown by what opening leaves of the query below it, which is the query
less filters that a statement answers. -/
def DisplaysRoot (m : Mapping) (type : String) (s : Select) (doc : Json) : Prop :=
  ∃ residual c, (m.openRoot type s).Gives (residual, c) ∧ s.child.DropsFilters residual ∧
    Displays m residual c doc

end Query

theorem Sql.Planning.QueryPlanned.dropsFilters {r : TableRegistry} {steps : Nat} {place : Place}
    {list? : Option ListPlace} {q q' : Query} {d d' : Draft}
    (h : QueryPlanned r steps place list? q d q' d') : q.DropsFilters q' := by
  induction h with
  | pushed hpushable hcondition hpush hchild ih => exact .dropped ih
  | filter hpushable hterms hchild ih => exact .filter ih
  | unique hchild ih => exact .unique ih
  | orderBy hterms hchild ih => exact .orderBy ih
  | limit hchild ih => exact .limit ih
  | groupCons hfirst hrest ih ihrest => exact .groupCons ih ihrest
  | joined count hname hfield hchild ih => exact .select ih
  | narrow hchild ih => exact .narrow ih
  | groupNil | typename | leaf | component | empty => exact .refl _

namespace Mapping

theorem dropsFilters_openRoot {m : Mapping} {type : String} {s : Select} {residual : Query}
    {c : Cursor} (h : (m.openRoot type s).Gives (residual, c)) : s.child.DropsFilters residual := by
  unfold openRoot at h
  split at h
  · split at h
    · exact absurd h Run.not_gives_throw
    · obtain ⟨fieldType, -, h⟩ := h.bind
      cases Run.gives_pure.1 h
      exact .refl _
  · split at h
    · exact absurd h Run.not_gives_throw
    · obtain ⟨fieldType, -, h⟩ := h.bind
      obtain ⟨plan, hplan, h⟩ := h.bind
      obtain ⟨result, -, h⟩ := h.bind
      cases Run.gives_pure.1 h
      rw [Run.gives_ofExcept] at hplan
      obtain ⟨_, _, _, _, _, _, hplanned, _⟩ := Sql.Plan.build_planned hplan
      exact hplanned.dropsFilters

theorem displaysRoot_readRoot (m : Mapping) {type : String} {s : Select} {doc : Json}
    (h : (m.readRoot type s).Gives doc) : Query.DisplaysRoot m type s doc := by
  rw [readRoot] at h
  obtain ⟨⟨residual, c⟩, hopen, h⟩ := h.bind
  refine ⟨residual, c, hopen, dropsFilters_openRoot hopen, ?_⟩
  refine Query.displays_readAt (Query.answered_fields (fun d _ type s doc hdoc => ?_) residual) h
  obtain ⟨residual', c', hopen', -, hshows⟩ := displaysRoot_readRoot d.target hdoc
  exact ⟨residual', c', hopen', hshows⟩
termination_by sizeOf m

end Mapping

namespace Query

/-- The roots of a member of a query, each with the mapping that answers it. -/
def branchRoots (m introspection : Mapping) : Query → List (Mapping × Query)
  | introspect child => child.members.map (introspection, ·)
  | branch => branch.members.map (m, ·)

/-- The roots of a query, each with the mapping that answers it. -/
def roots (m introspection : Mapping) (q : Query) : List (Mapping × Query) :=
  q.members.flatMap (branchRoots m introspection)

/-- The last of the roots of a key. -/
def lastRoot? (m introspection : Mapping) (q : Query) (key : String) : Option (Mapping × Query) :=
  lastKeyed? (fun root => root.2.key?) key (q.roots m introspection)

/-- What is shown of a root. -/
inductive RootDisplays : Mapping × Query → Json → Prop
  | typename {m : Mapping} {alias? : Option String} {bindings : List Binding} {child : Query} :
    RootDisplays (m, .select "__typename" alias? bindings child) (.string m.schema.queryType)
  | root {m : Mapping} {name : String} {alias? : Option String} {bindings : List Binding}
    {child : Query} {doc : Json}
    (h : DisplaysRoot m m.schema.queryType ⟨name, alias?, bindings, child⟩ doc) :
    RootDisplays (m, .select name alias? bindings child) doc
  | component {m target : Mapping} {type field name : String} {alias? : Option String}
    {bindings : List Binding} {child : Query} {doc : Json}
    (htarget : m.delegateTarget? [] m.schema.queryType name = some target)
    (h : DisplaysRoot target m.schema.queryType ⟨name, alias?, bindings, child⟩ doc) :
    RootDisplays (m, .component type field (.select name alias? bindings child)) doc

/-- A member is that of a root: it has its key, and shows it unless the root failed. -/
def RootAnswered (problems : List Problem) (root : Mapping × Query) (member : String × Json) :
    Prop :=
  root.2.key? = some member.1 ∧
    (RootDisplays root member.2 ∨ member.2 = .null ∧ ∃ p ∈ problems, p.path = [member.1])

/-- Roots that can be answered have their members among the answers. -/
structure RootsAnswered (roots : List (Mapping × Query)) (r : RootResult) : Prop where
  members : List.Forall₂ (RootAnswered r.problems) (roots.filter (·.2.key?.isSome)) r.members

namespace RootsAnswered

theorem nil : RootsAnswered [] .empty := ⟨.nil⟩

theorem append {roots rest : List (Mapping × Query)} {r r' : RootResult}
    (h : RootsAnswered roots r) (h' : RootsAnswered rest r') :
    RootsAnswered (roots ++ rest) (r.append r') := by
  have hmono {problems more : List Problem} (hsub : ∀ p ∈ problems, p ∈ more)
      {root : Mapping × Query} {member : String × Json} (ha : RootAnswered problems root member) :
      RootAnswered more root member := by
    obtain ⟨hkey, hshows | ⟨hnull, p, hp, hpath⟩⟩ := ha
    · exact ⟨hkey, .inl hshows⟩
    · exact ⟨hkey, .inr ⟨hnull, p, hsub p hp, hpath⟩⟩
  constructor
  rw [List.filter_append]
  exact List.rel_append (h.members.imp fun _ _ => hmono fun p => List.mem_append_left _)
    (h'.members.imp fun _ _ => hmono fun p => List.mem_append_right _)

end RootsAnswered

/-- A root that is read under its key is answered: shown, or null and reported. -/
theorem rootsAnswered_ofRoot {root : Mapping × Query} {key : String} (hkey : root.2.key? = some key)
    {x : Run Json} (hx : ∀ doc, x.Gives doc → RootDisplays root doc) (s : Sql.Session) :
    RootsAnswered [root] (.ofRoot key (x.run.run s).1) := by
  constructor
  rw [List.filter_cons_of_pos (by rw [hkey]; rfl), List.filter_nil]
  rcases h : x.run.run s with ⟨f | doc, s'⟩
  · exact .cons ⟨hkey, .inr ⟨rfl, _, List.mem_singleton_self _, rfl⟩⟩ .nil
  · exact .cons ⟨hkey, .inl (hx doc ⟨s, s', h⟩)⟩ .nil

theorem rootsAnswered_answerRoot (m : Mapping) (q : Query) (s : Sql.Session) :
    RootsAnswered [(m, q)] ((m.answerRoot q).run s).1 := by
  have hnone {f : Fault} (hkey : q.key? = none) : RootsAnswered [(m, q)] (.ofFault f) := by
    constructor
    rw [List.filter_cons_of_neg (by rw [hkey]; exact Bool.false_ne_true), List.filter_nil]
    exact .nil
  unfold Mapping.answerRoot
  split
  · rename_i name alias? bindings child
    dsimp only
    split
    · rename_i hname
      subst hname
      exact ⟨.cons ⟨rfl, .inl .typename⟩ .nil⟩
    · exact rootsAnswered_ofRoot rfl (fun doc hdoc => .root (m.displaysRoot_readRoot hdoc)) s
  · rename_i type field child
    split
    · rename_i name alias? bindings below
      refine rootsAnswered_ofRoot rfl (fun doc hdoc => ?_) s
      split at hdoc
      · rename_i target htarget
        exact .component htarget (target.displaysRoot_readRoot hdoc)
      · exact absurd hdoc Run.not_gives_throw
    · rename_i hother
      refine hnone ?_
      unfold key?
      split
      · rename_i heq
        cases heq
      · rename_i name alias? bindings below heq
        cases heq
        exact absurd rfl (hother name alias? bindings below)
      · rfl
  · rename_i hselect hcomponent
    refine hnone ?_
    unfold key?
    split
    · exact absurd rfl (hselect _ _ _ _)
    · exact absurd rfl (hcomponent _ _ _)
    · rfl

theorem rootsAnswered_answerRoots (m : Mapping) (qs : List Query) (s : Sql.Session) :
    RootsAnswered (qs.map (m, ·)) ((m.answerRoots qs).run s).1 := by
  induction qs generalizing s with
  | nil => exact .nil
  | cons q rest ih =>
    have hfirst : RootsAnswered [(m, q)] _ := rootsAnswered_answerRoot m q s
    exact hfirst.append (ih ((m.answerRoot q).run s).2)

theorem rootsAnswered_answerBranches (m introspection : Mapping) (qs : List Query)
    (s : Sql.Session) :
    RootsAnswered (qs.flatMap (branchRoots m introspection))
      ((answerBranches m introspection qs).run s).1 := by
  induction qs generalizing s with
  | nil => exact .nil
  | cons q rest ih =>
    rw [List.flatMap_cons]
    refine .append ?_ (ih ((q.answerBranch m introspection).run s).2)
    cases q with
    | introspect child => exact rootsAnswered_answerRoots introspection child.members s
    | _ => exact rootsAnswered_answerRoots m (members _) s

/-- The data of a request are an object with the keys of its roots. Of the roots of one key the
last is shown: its document has at every object the keys of all selections that apply there and,
under each of them, what the last selection of the key asks for. A root that failed is null, which
is reported. -/
theorem answer_shows_last_selections (m introspection : Mapping) (q : Query) (s : Sql.Session) :
    ∃ members problems,
      ((q.answer m introspection).run s).1 = ⟨some (.object members), problems⟩ ∧
        ∀ key, ((Json.object members).get? key).isSome =
            (q.lastRoot? m introspection key).isSome ∧
          ∀ root, q.lastRoot? m introspection key = some root →
            ∃ doc, (Json.object members).get? key = some doc ∧
              (RootDisplays root doc ∨ doc = .null ∧ ∃ p ∈ problems, p.path = [key]) := by
  have hanswered := (rootsAnswered_answerBranches m introspection q.members s).members
  generalize hr : ((answerBranches m introspection q.members).run s).1 = r at hanswered
  refine ⟨Json.putAll [] r.members, r.problems, ?_, fun key => ?_⟩
  · rw [← hr]
    rfl
  have hlast : Option.Rel (RootAnswered r.problems) (q.lastRoot? m introspection key)
      (Json.lastMember? key r.members) := by
    rw [lastRoot?, roots, ← lastKeyed?_filter_isSome]
    exact lastMember?_of_forall₂ (fun _ _ ha => ha.1) hanswered key
  change ((Json.ofMembers r.members).get? key).isSome = _ ∧ ∀ root, _ → ∃ doc,
    (Json.ofMembers r.members).get? key = some doc ∧ (_ ∨ doc = .null ∧ ∃ p ∈ r.problems, _)
  rw [Json.get?_ofMembers, Option.isSome_map]
  generalize q.lastRoot? m introspection key = root? at hlast ⊢
  generalize hmember : Json.lastMember? key r.members = member? at hlast ⊢
  cases hlast with
  | none => exact ⟨rfl, fun root hroot => by cases hroot⟩
  | @some root member h =>
    refine ⟨rfl, fun _ hroot => ⟨member.2, rfl, ?_⟩⟩
    cases hroot
    rw [← (Json.mem_of_lastMember? hmember).2]
    exact h.2

end Query

namespace Heroes

def luke : Json := .object [("name", .string "Luke"),
  ("friend", .object [("id", .string "2"), ("name", .string "Han")])]

/-- A hero with a friend in a document. -/
def registry : DocumentRegistry where
  schema := Schema.ofTypes [
    .object ⟨"Query", [⟨"hero", [], .named "Hero"⟩], []⟩,
    .object ⟨"Hero", [⟨"id", [], .named "ID"⟩, ⟨"name", [], .named "String"⟩,
      ⟨"friend", [], .named "Hero"⟩], []⟩] "Query"
  types := [
    .object ⟨"Query", [.root "hero" luke]⟩,
    .object ⟨"Hero", [.source (.same "id"), .source (.same "name"), .source (.same "friend")]⟩]
  elaborators := []

def friend (child : Query) : Query := .select "friend" none [] child

/-- Of two selections of the friend the last one is shown, and the first one is not. -/
example : (((Query.group [friend (.field "id"), friend (.field "name")]).value
    (.documents registry) (fun _ _ _ _ => pure .null)
      ⟨["hero"], .named "Hero", .document registry luke⟩).run
        (.start fun _ _ => .ok ⟨[], []⟩)).1 =
      .ok (.object [("friend", .object [("name", .string "Han")])]) := by
  rfl

end Heroes

end MappedQuery
