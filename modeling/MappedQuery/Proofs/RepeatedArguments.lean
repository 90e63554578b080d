import MappedQuery.Proofs.BoundArguments

/-!
# Values follow their names

What an argument is bound to depends on what is supplied under its name, and on nothing else as long
as the name is supplied once. Where it is supplied more than once the order of the others counts:
whenever an argument is bound, the last of those that are left moves to its place, and the last may
be one of the name, which then stands in front of the first. An argument is bound to the first of
its name if no argument that is declared before it is supplied in front of that. The fields of
input objects are bound in the same way.
-/
namespace MappedQuery

/-- The first value that is supplied under a name. -/
def suppliedAs (name : String) (given : List (String × Value)) : Option Value :=
  (given.find? (·.1 = name)).map (·.2)

/-- It is the one that a selection finds under the name. -/
theorem suppliedAs_bindings (select : Select) (name : String) :
    suppliedAs name (select.bindings.map fun b => (b.name, b.value)) = select.binding? name := by
  rw [suppliedAs, List.find?_map, Option.map_map]
  rfl

theorem suppliedAs_eq_head? (name : String) (given : List (String × Value)) :
    suppliedAs name given = (given.filter (·.1 = name)).head?.map (·.2) := by
  rw [suppliedAs, List.head?_filter]

namespace InputDefinition

/-- The value that an input takes when this is supplied for it: what that becomes at the declared
type, else the default, else absent. -/
inductive Takes (s : Schema) (i : InputDefinition) : Option Value → Value → Prop
  | supplied {given value : Value} (hgiven : given ≠ .absent)
    (h : given.coerce s i.type = .ok value) : Takes s i (some given) value
  | default {given? : Option Value} {value : Value} (hgiven : given?.getD .absent = .absent)
    (h : i.default? = some value) : Takes s i given? value
  | absent {given? : Option Value} (hgiven : given?.getD .absent = .absent)
    (hdefault : i.default? = none) (hnullable : i.type.isNullable = true) : Takes s i given? .absent

variable {s : Schema} {i : InputDefinition} {given? : Option Value} {v w : Value}

theorem Takes.eq (hv : i.Takes s given? v) (hw : i.Takes s given? w) : v = w := by
  cases hv with
  | supplied hgiven h =>
    cases hw with
    | supplied _ h' => exact Except.ok.inj (h.symm.trans h')
    | default hgiven' _ | absent hgiven' _ _ => exact absurd hgiven' hgiven
  | default hgiven h =>
    cases hw with
    | supplied hgiven' _ => exact absurd hgiven hgiven'
    | default _ h' => exact Option.some.inj (h.symm.trans h')
    | absent _ hdefault _ => cases h.symm.trans hdefault
  | absent hgiven hdefault _ =>
    cases hw with
    | supplied hgiven' _ => exact absurd hgiven hgiven'
    | default _ h' => cases h'.symm.trans hdefault
    | absent => rfl

theorem takes_unsupplied {missing : String → ArgumentFault}
    (hgiven : given?.getD .absent = .absent) (h : i.unsupplied missing = .ok v) :
    i.Takes s given? v := by
  unfold unsupplied at h
  split at h
  · rename_i default hdefault
    cases h
    exact .default hgiven hdefault
  · rename_i hdefault
    split at h
    · rename_i hnullable
      cases h
      exact .absent hgiven hdefault hnullable
    · cases h

end InputDefinition

/-- What is left of the supplied values when the inputs of these names have taken theirs. -/
def leftOf : List String → List (String × Value) → List (String × Value)
  | [], given => given
  | name :: rest, given =>
    leftOf rest (((extract? (·.1 = name) given).map (·.2)).getD given)

section Left

variable {name : String} {given : List (String × Value)}

theorem leftOf_cons_of_none {names : List String}
    (h : extract? (fun g : String × Value => g.1 = name) given = none) :
    leftOf (name :: names) given = leftOf names given := by
  rw [leftOf, h]
  rfl

theorem leftOf_cons_of_some {names : List String} {g : String × Value}
    {others : List (String × Value)} (h : extract? (·.1 = name) given = some (g, others)) :
    leftOf (name :: names) given = leftOf names others := by
  rw [leftOf, h]
  rfl

/-- Only values of these names are taken. -/
theorem filter_leftOf_perm : ∀ {names : List String} {given : List (String × Value)},
    name ∉ names →
      ((leftOf names given).filter (·.1 = name)).Perm (given.filter (·.1 = name))
  | [], _, _ => .refl _
  | other :: names, given, hname => by
    have hother := List.ne_of_not_mem_cons hname
    have hnames := List.not_mem_of_not_mem_cons hname
    cases h : extract? (fun g : String × Value => g.1 = other) given with
    | none =>
      rw [leftOf_cons_of_none h]
      exact filter_leftOf_perm hnames
    | some taken =>
      obtain ⟨g, others⟩ := taken
      rw [leftOf_cons_of_some h]
      refine (filter_leftOf_perm hnames).trans ?_
      obtain ⟨front, back, rfl, hg, -, rfl⟩ := parts_of_extract? h
      have hg : g.1 ≠ name := fun heq => hother (heq.symm.trans (of_decide_eq_true hg))
      rw [List.filter_append, List.filter_append front, List.filter_cons_of_neg (by simpa using hg)]
      refine List.Perm.append_left _ (List.Perm.filter _ ?_)
      rcases List.eq_nil_or_concat back with rfl | ⟨back, l, rfl⟩
      · exact .refl _
      · rw [List.concat_eq_append, List.getLast?_concat, List.dropLast_concat]
        exact List.perm_append_comm

/-- Nothing moves in front of a value that none of these names is supplied in front of. -/
theorem leftOf_eq_append : ∀ {names : List String} {front back : List (String × Value)}
    {g : String × Value}, (∀ b ∈ front, b.1 ∉ names) → g.1 ∉ names →
      ∃ others, leftOf names (front ++ g :: back) = front ++ g :: others
  | [], _, back, _, _, _ => ⟨back, rfl⟩
  | name :: names, front, back, g, hfront, hg => by
    have hfront' := fun b hb => List.not_mem_of_not_mem_cons (hfront b hb)
    have hg' := List.not_mem_of_not_mem_cons hg
    cases h : extract? (fun b : String × Value => b.1 = name) (front ++ g :: back) with
    | none =>
      rw [leftOf_cons_of_none h]
      exact leftOf_eq_append hfront' hg'
    | some taken =>
      obtain ⟨a, others⟩ := taken
      rw [leftOf_cons_of_some h]
      obtain ⟨front', back', heq, ha, -, rfl⟩ := parts_of_extract? h
      have ha : a.1 = name := of_decide_eq_true ha
      -- What is taken stands behind `g`, so that `front` and `g` stay where they are.
      have hprefix : (front ++ [g]) <+: front' := by
        have hleft : (front ++ [g]) <+: front ++ g :: back := ⟨back, by simp⟩
        refine List.prefix_of_prefix_length_le hleft ⟨a :: back', heq.symm⟩ ?_
        refine Nat.le_of_not_lt fun hlt => ?_
        have hmem : a ∈ front ++ [g] := by
          have hget : (front ++ g :: back)[front'.length]? = some a := by simp [heq]
          rw [show front ++ g :: back = (front ++ [g]) ++ back by simp,
            List.getElem?_append_left hlt] at hget
          exact List.mem_of_getElem? hget
        rcases List.mem_append.1 hmem with hmem | hmem
        · exact List.ne_of_not_mem_cons (hfront a hmem) ha
        · exact List.ne_of_not_mem_cons hg (List.mem_singleton.1 hmem ▸ ha)
      obtain ⟨middle, rfl⟩ := hprefix
      rw [show front ++ [g] ++ middle ++ (back'.getLast?.toList ++ back'.dropLast) =
        front ++ g :: (middle ++ (back'.getLast?.toList ++ back'.dropLast)) by simp]
      exact leftOf_eq_append hfront' hg'

end Left

/-- A name is supplied once at most, or it is supplied in front of those that are bound before
it. -/
def InTurn (earlier : List String) (name : String) (given : List (String × Value)) : Prop :=
  (given.filter (·.1 = name)).length ≤ 1 ∨
    ∃ front g back, given = front ++ g :: back ∧ g.1 = name ∧ ∀ b ∈ front, b.1 ∉ name :: earlier

theorem suppliedAs_append {name : String} {front back : List (String × Value)}
    {g : String × Value} (hfront : ∀ b ∈ front, b.1 ≠ name) (hg : g.1 = name) :
    suppliedAs name (front ++ g :: back) = some g.2 := by
  rw [suppliedAs, List.find?_append, List.find?_eq_none.2 fun b hb => by simpa using hfront b hb,
    Option.none_or, List.find?_cons_of_pos (by simpa using hg)]
  rfl

theorem suppliedAs_leftOf {names : List String} {name : String} {given : List (String × Value)}
    (hname : name ∉ names) (h : InTurn names name given) :
    suppliedAs name (leftOf names given) = suppliedAs name given := by
  rcases h with honce | ⟨front, g, back, rfl, rfl, hfront⟩
  · have hperm : ((leftOf names given).filter (·.1 = name)).Perm (given.filter (·.1 = name)) :=
      filter_leftOf_perm hname
    rw [suppliedAs_eq_head?, suppliedAs_eq_head?]
    generalize given.filter (·.1 = name) = supplied at honce hperm
    match supplied, honce with
    | [], _ => rw [List.perm_nil.1 hperm]
    | [g], _ => rw [List.perm_singleton.1 hperm]
  · obtain ⟨others, hothers⟩ : ∃ others, leftOf names (front ++ g :: back) = front ++ g :: others :=
      leftOf_eq_append (fun b hb hmem => hfront b hb (List.mem_cons_of_mem _ hmem)) hname
    have hfirst : ∀ b ∈ front, b.1 ≠ g.1 := fun b hb => List.ne_of_not_mem_cons (hfront b hb)
    rw [hothers, suppliedAs_append hfirst rfl, suppliedAs_append hfirst rfl]

theorem leftOf_eq_self : ∀ {names : List String} {given : List (String × Value)},
    (∀ g ∈ given, g.1 ∉ names) → leftOf names given = given
  | [], _, _ => rfl
  | name :: names, given, h => by
    have hrest := leftOf_eq_self fun g hg => List.not_mem_of_not_mem_cons (h g hg)
    cases hextract : extract? (fun g : String × Value => g.1 = name) given with
    | none => rwa [leftOf_cons_of_none hextract]
    | some taken =>
      obtain ⟨g, others⟩ := taken
      have hfound := find?_of_extract? hextract
      have hname : g.1 = name := by simpa using List.find?_some hfound
      exact absurd hname (List.ne_of_not_mem_cons (h _ (List.mem_of_find?_eq_some hfound)))

/-- A value in front that is taken leaves its place to the last. -/
theorem suppliedAs_leftOf_last {name first : String} {w : Value}
    {items : List (String × Value)} (hitems : ∀ g ∈ items, g.1 = name) :
    ∀ {names : List String}, names.Nodup → first ∈ names → name ∉ names →
      suppliedAs name (leftOf names ((first, w) :: items)) = items.getLast?.map (·.2)
  | other :: names, hnodup, hfirst, hname => by
    obtain ⟨hother, hnodup⟩ := List.nodup_cons.1 hnodup
    have hne := List.ne_of_not_mem_cons hname
    have hname := List.not_mem_of_not_mem_cons hname
    cases hextract : extract? (fun g : String × Value => g.1 = other) ((first, w) :: items) with
    | none =>
      rcases List.mem_cons.1 hfirst with rfl | hfirst
      · have hnone := extract?_eq_none hextract
        simp at hnone
      · rw [leftOf_cons_of_none hextract]
        exact suppliedAs_leftOf_last hitems hnodup hfirst hname
    | some taken =>
      obtain ⟨a, others⟩ := taken
      rw [leftOf_cons_of_some hextract]
      obtain ⟨front, back, heq, ha, hfront, rfl⟩ := parts_of_extract? hextract
      have ha : a.1 = other := of_decide_eq_true ha
      -- Only the value in front can have been taken, since the others are of another name.
      cases front with
      | cons g front =>
        obtain ⟨-, heq⟩ := List.cons.inj heq
        have hmem : a ∈ items := heq ▸ List.mem_append_right front List.mem_cons_self
        exact absurd ((hitems a hmem).symm.trans ha) hne
      | nil =>
        obtain ⟨rfl, rfl⟩ := List.cons.inj heq
        have hleft : ∀ g ∈ items.getLast?.toList ++ items.dropLast, g.1 = name := by
          intro g hg
          rcases List.mem_append.1 hg with hg | hg
          · exact hitems g (List.mem_of_getLast? (Option.mem_toList.1 hg))
          · exact hitems g (List.dropLast_subset _ hg)
        rw [List.nil_append, leftOf_eq_self fun g hg => (hleft g hg).symm ▸ hname,
          suppliedAs_eq_head?, List.filter_eq_self.2 fun g hg => by simp [hleft g hg]]
        rcases List.eq_nil_or_concat items with rfl | ⟨init, last, rfl⟩
        · rfl
        · rw [List.concat_eq_append, List.getLast?_concat]
          rfl

theorem extract?_map {α β : Type} {test : β → Bool} {f : α → β} {items : List α} :
    extract? test (items.map f) =
      (extract? (fun a => test (f a)) items).map fun p => (f p.1, p.2.map f) := by
  have htest : test ∘ f = fun a => test (f a) := rfl
  unfold extract?
  rw [List.findIdx?_map, List.getLast?_map, htest]
  cases items.findIdx? fun a => test (f a) with
  | none => rfl
  | some i =>
    cases items.getLast? with
    | none => rfl
    | some last =>
      simp only [Option.map_some, List.getElem?_map, Option.map_map]
      refine congrArg (fun g => Option.map g items[i]?) (funext fun a => ?_)
      simp [List.map_set, List.map_dropLast]

/-- A value of a schema as it is supplied under a name. -/
def Supplied.of (s : Schema) (given : String × Value) : Supplied :=
  ⟨given.1, given.2.isAbsent, given.2.coerce s⟩

theorem coerceMembers_eq_map (s : Schema) (members : List (String × Value)) :
    Value.coerceMembers s members = members.map (Supplied.of s) := by
  induction members with
  | nil => rfl
  | cons given rest ih =>
    rw [Value.coerceMembers, ih]
    rfl

section Bound

variable {s : Schema} {missing : String → ArgumentFault}

/-- The first input takes the first value of its name and leaves the others to the rest. -/
theorem bindInputs_cons {i : InputDefinition} {rest : List InputDefinition}
    {given bound : List (String × Value)}
    (h : bindInputs missing (i :: rest) (given.map (Supplied.of s)) = .ok bound) :
    ∃ v others, bound = (i.name, v) :: others ∧ i.Takes s (suppliedAs i.name given) v ∧
      bindInputs missing rest ((leftOf [i.name] given).map (Supplied.of s)) = .ok others := by
  have hmap : extract? (·.name = i.name) (given.map (Supplied.of s)) =
      (extract? (·.1 = i.name) given).map fun p => (Supplied.of s p.1, p.2.map (Supplied.of s)) :=
    extract?_map
  rw [bindInputs, hmap] at h
  cases hextract : extract? (fun g : String × Value => g.1 = i.name) given with
  | none =>
    rw [hextract] at h
    obtain ⟨v, hv, h⟩ := bind_eq_ok.1 h
    obtain ⟨others, hothers, h⟩ := bind_eq_ok.1 h
    obtain rfl := pure_eq_ok.1 h
    refine ⟨v, others, rfl, ?_, by rwa [leftOf_cons_of_none hextract]⟩
    rw [suppliedAs, extract?_eq_none hextract]
    exact InputDefinition.takes_unsupplied rfl hv
  | some taken =>
    obtain ⟨⟨name, value⟩, left⟩ := taken
    rw [hextract, Option.map_some] at h
    rw [leftOf_cons_of_some hextract, suppliedAs, find?_of_extract? hextract]
    change (if value.isAbsent then _ else _) = _ at h
    by_cases habsent : value.isAbsent
    · rw [if_pos habsent] at h
      obtain ⟨v, hv, h⟩ := bind_eq_ok.1 h
      obtain ⟨others, hothers, h⟩ := bind_eq_ok.1 h
      obtain rfl := pure_eq_ok.1 h
      exact ⟨v, others, rfl,
        InputDefinition.takes_unsupplied (Value.isAbsent_iff.1 habsent) hv, hothers⟩
    · rw [if_neg habsent] at h
      obtain ⟨v, hv, h⟩ := bind_eq_ok.1 h
      obtain ⟨others, hothers, h⟩ := bind_eq_ok.1 h
      obtain rfl := pure_eq_ok.1 h
      exact ⟨v, others, rfl, .supplied (mt Value.isAbsent_iff.2 habsent) hv, hothers⟩

theorem leftOf_append (names names' : List String) (given : List (String × Value)) :
    leftOf (names ++ names') given = leftOf names' (leftOf names given) := by
  induction names generalizing given with
  | nil => rfl
  | cons name names ih => exact ih _

/-- Each input takes the first value of its name that those before it have left. -/
theorem takes_of_bindInputs {i : InputDefinition} {after : List InputDefinition} :
    ∀ {before : List InputDefinition} {given bound : List (String × Value)},
      i.name ∉ before.map (·.name) →
      bindInputs missing (before ++ i :: after) (given.map (Supplied.of s)) = .ok bound →
      ∃ v, suppliedAs i.name bound = some v ∧
        i.Takes s (suppliedAs i.name (leftOf (before.map (·.name)) given)) v
  | [], given, bound, _, h => by
    obtain ⟨v, others, rfl, hv, -⟩ := bindInputs_cons h
    have hfirst : suppliedAs i.name ([] ++ (i.name, v) :: others) = some v :=
      suppliedAs_append (by simp) rfl
    exact ⟨v, hfirst, hv⟩
  | j :: before, given, bound, hdistinct, h => by
    obtain ⟨_, others, rfl, -, hothers⟩ := bindInputs_cons h
    obtain ⟨v, hv, htakes⟩ :=
      takes_of_bindInputs (List.not_mem_of_not_mem_cons hdistinct) hothers
    refine ⟨v, ?_, ?_⟩
    · rwa [suppliedAs, List.find?_cons_of_neg]
      simpa using (List.ne_of_not_mem_cons hdistinct).symm
    · rwa [← leftOf_append] at htakes

end Bound

namespace Schema

/-- These values are supplied and bound, as the arguments of a field or as the fields of an input
object. -/
inductive Binds (s : Schema) :
    List InputDefinition → List (String × Value) → List (String × Value) → Prop
  | arguments {f : FieldDefinition} {bindings bound : List Binding}
    (h : f.bindArguments s bindings = .ok bound) :
    Binds s f.arguments (bindings.map fun b => (b.name, b.value))
      (bound.map fun b => (b.name, b.value))
  | members {o : InputObjectDefinition} {members bound : List (String × Value)}
    (h : Coercion.inputObject o (Value.coerceMembers s members) = .ok (.object bound)) :
    Binds s o.fields members bound

variable {s : Schema} {inputs : List InputDefinition}

theorem Binds.bindInputs {given bound : List (String × Value)} (h : s.Binds inputs given bound) :
    ∃ missing, bindInputs missing inputs (given.map (Supplied.of s)) = .ok bound := by
  cases h with
  | @arguments f bindings bound h =>
    refine ⟨.missingArgument, ?_⟩
    unfold FieldDefinition.bindArguments at h
    split at h
    · obtain ⟨values, hvalues, h⟩ := bind_eq_ok.1 h
      obtain rfl := pure_eq_ok.1 h
      rw [List.map_map, List.map_map]
      exact hvalues.trans (congrArg Except.ok (List.map_id _).symm)
    · cases h
  | @members o members bound h =>
    refine ⟨(.missingField · o.name), ?_⟩
    unfold Coercion.inputObject at h
    split at h
    · obtain ⟨values, hvalues, h⟩ := map_eq_ok.1 h
      cases h
      rwa [coerceMembers_eq_map] at hvalues
    · cases h

/-- The value bound to an input is what it takes from one of the values that are supplied under its
name, from the first of them if the input is in turn. So two bindings that supply the same under
the name bind the same, whatever else they supply, if the input is in turn in both. It is not where
something that is bound before it is supplied first and only its own values follow: then it takes
the last of them. -/
theorem values_follow_names (hdistinct : (inputs.map (·.name)).Nodup)
    {before after : List InputDefinition} {i : InputDefinition}
    (hinputs : inputs = before ++ i :: after) {given bound : List (String × Value)}
    (h : s.Binds inputs given bound) :
    (∃ v, suppliedAs i.name bound = some v ∧
      (∃ items : List (String × Value), items.Perm (given.filter (·.1 = i.name)) ∧
        i.Takes s (items.head?.map (·.2)) v) ∧
      (InTurn (before.map (·.name)) i.name given → i.Takes s (suppliedAs i.name given) v) ∧
      ∀ j ∈ before, ∀ w items, given = (j.name, w) :: items → (∀ g ∈ items, g.1 = i.name) →
        i.Takes s (items.getLast?.map (·.2)) v) ∧
    ∀ given' bound', s.Binds inputs given' bound' →
      given'.filter (·.1 = i.name) = given.filter (·.1 = i.name) →
      InTurn (before.map (·.name)) i.name given → InTurn (before.map (·.name)) i.name given' →
        suppliedAs i.name bound' = suppliedAs i.name bound := by
  have hname : i.name ∉ before.map (·.name) ∧ (before.map (·.name)).Nodup := by
    rw [hinputs, List.map_append, List.nodup_append] at hdistinct
    exact ⟨fun hmem => hdistinct.2.2 _ hmem _ List.mem_cons_self rfl, hdistinct.1⟩
  obtain ⟨hname, hnodup⟩ := hname
  obtain ⟨missing, h⟩ := h.bindInputs
  obtain ⟨v, hv, htakes⟩ := takes_of_bindInputs hname (hinputs ▸ h)
  refine ⟨⟨v, hv, ?_, fun hturn => ?_, ?_⟩, fun given' bound' h' hsame hturn hturn' => ?_⟩
  · rw [suppliedAs_eq_head?] at htakes
    exact ⟨_, filter_leftOf_perm hname, htakes⟩
  · rwa [suppliedAs_leftOf hname hturn] at htakes
  · rintro j hj w items rfl hitems
    rwa [suppliedAs_leftOf_last hitems hnodup (List.mem_map_of_mem hj) hname] at htakes
  · obtain ⟨missing', h'⟩ := h'.bindInputs
    obtain ⟨v', hv', htakes'⟩ := takes_of_bindInputs hname (hinputs ▸ h')
    rw [suppliedAs_leftOf hname hturn] at htakes
    rw [suppliedAs_leftOf hname hturn', suppliedAs_eq_head?, hsame, ← suppliedAs_eq_head?]
      at htakes'
    rw [hv, hv', htakes.eq htakes']

end Schema

namespace Offers

def page : InputDefinition := ⟨"page", .named "Int", some (.int 1)⟩

def size : InputDefinition := ⟨"size", .named "Int", none⟩

/-- An input object has the same fields. -/
def range : InputObjectDefinition := ⟨"Range", [page, size]⟩

def offers : FieldDefinition := ⟨"offers", [page, size], .list (.named "String")⟩

def schema : Schema :=
  .ofTypes [.object ⟨"Query", [offers], []⟩, .input range] "Query"

/-- The sizes come first as arguments, and alone as the fields of the object. -/
theorem size_is_the_first_of_its_name :
    (offers.arguments.map (·.name)).Nodup ∧ offers.arguments = [page] ++ size :: [] ∧
      schema.Binds offers.arguments [("size", .int 20), ("page", .int 2), ("size", .int 30)]
        [("page", .int 2), ("size", .int 20)] ∧
      schema.Binds range.fields [("size", .int 20), ("size", .int 30)]
        [("page", .int 1), ("size", .int 20)] ∧
      size.Takes schema (some (.int 20)) (.int 20) := by
  have hfield : schema.Binds offers.arguments
      [("size", .int 20), ("page", .int 2), ("size", .int 30)]
      [("page", .int 2), ("size", .int 20)] :=
    @Schema.Binds.arguments schema offers [⟨"size", .int 20⟩, ⟨"page", .int 2⟩, ⟨"size", .int 30⟩]
      [⟨"page", .int 2⟩, ⟨"size", .int 20⟩] rfl
  have hobject : schema.Binds range.fields [("size", .int 20), ("size", .int 30)]
      [("page", .int 1), ("size", .int 20)] := .members rfl
  have hsplit : offers.arguments = [page] ++ size :: [] := rfl
  have hturn (back : List (String × Value)) : InTurn ["page"] "size" (("size", .int 20) :: back) :=
    .inr ⟨[], _, back, rfl, rfl, by simp⟩
  obtain ⟨⟨v, hv, -, htakes, -⟩, hsame⟩ :=
    Schema.values_follow_names (by decide) hsplit hfield
  have hv' := hsame _ _ hobject rfl (hturn _) (hturn _)
  obtain rfl : v = .int 20 := Option.some.inj (hv.symm.trans hv'.symm)
  exact ⟨by decide, hsplit, hfield, hobject, htakes (hturn _)⟩

/-- Two selections that bind the same sizes in the same order, and the page before or after them. -/
theorem size_moves_with_the_page :
    (offers.arguments.map (·.name)).Nodup ∧
      offers.bindArguments schema [⟨"size", .int 20⟩, ⟨"size", .int 30⟩, ⟨"page", .int 2⟩] =
        .ok [⟨"page", .int 2⟩, ⟨"size", .int 20⟩] ∧
      offers.bindArguments schema [⟨"page", .int 2⟩, ⟨"size", .int 20⟩, ⟨"size", .int 30⟩] =
        .ok [⟨"page", .int 2⟩, ⟨"size", .int 30⟩] :=
  ⟨by decide, rfl, rfl⟩

end Offers

end MappedQuery
