import MappedQuery.Mapping.Delegation
import MappedQuery.Proofs.FollowedWalks
import MappedQuery.Proofs.PlannerSteps

/-!
# Requirements that lead back

What a computed field requires is planned before it, with what that requires in turn. Planning a
field is a walk over requirements: it stops at a field that cannot be planned, and has an end if
and only if it comes to no field a second time. Whether a field can be planned does not depend on
the fields that were planned before it at its place.
-/
namespace MappedQuery.Sql

namespace Planning

variable {α β : Type} {r : TableRegistry} {place : Place} {d d' : Draft}

/-- A step of planning is cut off in following requirements. -/
def CutOff (m : Planning α) (d : Draft) : Prop := isCutOff (m d) = true

theorem not_cutOff_of_ends {m : Planning α} {a : α} (h : Ends m d a d') : ¬ CutOff m d := by
  unfold Ends at h
  rw [CutOff, h]
  exact Bool.false_ne_true

theorem cutOff_bind {m : Planning α} {f : α → Planning β} :
    CutOff (m >>= f) d ↔ CutOff m d ∨ ∃ a d', Ends m d a d' ∧ CutOff (f a) d' := by
  change isCutOff (m d >>= fun p => f p.1 p.2) = true ↔ isCutOff (m d) = true ∨ _
  cases hm : m d with
  | error fault =>
    refine ⟨.inl, fun h => h.resolve_right ?_⟩
    rintro ⟨a, d', hends, -⟩
    cases hm.symm.trans hends
  | ok p =>
    constructor
    · exact fun h => .inr ⟨p.1, p.2, hm, h⟩
    · rintro (h | ⟨a, d', hends, h⟩)
      · cases h
      · cases hm.symm.trans hends
        exact h

theorem cutOff_map {f : α → β} {m : Planning α} : CutOff (f <$> m) d ↔ CutOff m d := by
  change CutOff (m >>= fun a => pure (f a)) d ↔ _
  rw [cutOff_bind]
  refine or_iff_left ?_
  rintro ⟨a, d', -, h⟩
  cases h

theorem cutOff_discard {m : Planning α} : CutOff (discard m) d ↔ CutOff m d := cutOff_map

theorem cutOff_forM_cons {f : α → Planning PUnit} {a : α} {as : List α} :
    CutOff ((a :: as).forM f) d ↔
      CutOff (f a) d ∨ ∃ d', Ends (f a) d ⟨⟩ d' ∧ CutOff (as.forM f) d' := by
  change CutOff (f a >>= fun _ => as.forM f) d ↔ _
  rw [cutOff_bind]
  exact or_congr_right ⟨fun ⟨_, d', h⟩ => ⟨d', h⟩, fun ⟨d', h⟩ => ⟨⟨⟩, d', h⟩⟩

/-- A step of planning that is cut off nowhere. -/
def Conclusive (m : Planning α) : Prop := ∀ d, ¬ CutOff m d

theorem conclusive_pure (a : α) : Conclusive (pure a) := fun _ => Bool.false_ne_true

theorem conclusive_get : Conclusive get := fun _ => Bool.false_ne_true

theorem conclusive_set (e : Draft) : Conclusive (set e) := fun _ => Bool.false_ne_true

theorem conclusive_modify (f : Draft → Draft) : Conclusive (modify f) := fun _ =>
  Bool.false_ne_true

theorem conclusive_throw {f : Fault} (h : f.isEndless = false) :
    Conclusive (throw f : Planning α) := fun _ => Bool.eq_false_iff.1 h

theorem conclusive_unsupported (what : Inexpressible) :
    Conclusive (unsupported what : Planning α) := conclusive_throw rfl

theorem Conclusive.bind {m : Planning α} {f : α → Planning β} (hm : Conclusive m)
    (hf : ∀ a, Conclusive (f a)) : Conclusive (m >>= f) := by
  intro d h
  rcases cutOff_bind.1 h with h | ⟨a, d', -, h⟩
  · exact hm d h
  · exact hf a d' h

theorem Conclusive.map {m : Planning α} (hm : Conclusive m) (f : α → β) : Conclusive (f <$> m) :=
  fun d => cutOff_map.not.2 (hm d)

theorem Conclusive.discard {m : Planning α} (hm : Conclusive m) : Conclusive (discard m) := hm.map _

theorem conclusive_forM {f : α → Planning PUnit} {as : List α} (h : ∀ a ∈ as, Conclusive (f a)) :
    Conclusive (as.forM f) := by
  induction as with
  | nil => exact conclusive_pure _
  | cons a as ih =>
    exact (h a List.mem_cons_self).bind fun _ => ih fun b hb => h b (List.mem_cons_of_mem a hb)

theorem conclusive_ownColumn (i : Nat) (field : String) (column : ColumnRef) :
    Conclusive (ownColumn i field column) := by
  refine conclusive_get.bind fun d => ?_
  dsimp only
  split
  · exact conclusive_throw rfl
  · split
    · exact conclusive_pure _
    · exact (conclusive_set _).bind fun _ => conclusive_pure _

theorem conclusive_selectAllColumns (r : TableRegistry) (place : Place) :
    Conclusive (selectAllColumns r place) := by
  refine conclusive_get.bind fun d => conclusive_forM fun f _ => ?_
  split
  · split
    · exact (conclusive_ownColumn _ _ _).discard
    · exact conclusive_pure _
  · exact conclusive_pure _

theorem conclusive_addNode (r : TableRegistry) (path : List String) (type label : String) :
    Conclusive (addNode r path type label) := by
  unfold addNode
  dsimp only
  split
  · exact conclusive_throw rfl
  · refine conclusive_get.bind fun d => (conclusive_set _).bind fun _ => ?_
    refine (conclusive_forM fun key _ => ?_).bind fun _ => ?_
    · exact (conclusive_ownColumn _ _ _).bind fun _ => conclusive_modify _
    · split
      · split
        · exact (conclusive_ownColumn _ _ _).discard.bind fun _ => conclusive_pure _
        · exact conclusive_unsupported _
      · exact conclusive_pure _

theorem conclusive_nextLabel : Conclusive nextLabel :=
  conclusive_get.bind fun _ => (conclusive_set _).bind fun _ => conclusive_pure _

theorem conclusive_addHops (field : String) : ∀ (hops : List Hop) (label table : String),
    Conclusive (addHops field hops label table)
  | [], _, _ => conclusive_pure _
  | hop :: rest, label, table => by
    unfold addHops
    split
    · exact conclusive_throw rfl
    · exact conclusive_nextLabel.bind fun _ => (conclusive_modify _).bind fun _ =>
        conclusive_addHops field rest _ _

theorem conclusive_joinField (r : TableRegistry) (place : Place) (field type : String)
    (hops : List Hop) (filtered : Bool) :
    Conclusive (joinField r place field type hops filtered) := by
  refine conclusive_get.bind fun d => ?_
  dsimp only
  split
  · split
    · exact conclusive_unsupported _
    · exact conclusive_pure _
  · split
    · exact conclusive_unsupported _
    · refine (conclusive_addHops _ _ _ _).bind fun last =>
        (conclusive_addNode _ _ _ _).bind fun child => conclusive_get.bind fun e => ?_
      split
      · exact conclusive_throw rfl
      · exact (conclusive_modify _).bind fun _ => conclusive_get.bind fun _ => conclusive_pure _

/-- The computation that a field is mapped to. -/
def computed? (r : TableRegistry) (place : Place) (name : String) : Option ComputedField :=
  match r.fieldMapping? place.path place.type name with
  | some (.computed c _) | some (.computedAttribute c) => some c
  | _ => none

/-- The siblings that a field requires. -/
def requirements (r : TableRegistry) (place : Place) (name : String) : List String :=
  ((computed? r place name).map (·.required)).getD []

theorem requirements_of_computed {name : String} {c : ComputedField}
    (h : computed? r place name = some c) : requirements r place name = c.required := by
  rw [requirements, h]
  rfl

/-- What requires a sibling is a field of the mapping. -/
theorem exists_of_mem_requirements {name sibling : String}
    (h : sibling ∈ requirements r place name) :
    ∃ f ∈ r.allFields, f.name = name ∧ sibling ∈ f.required := by
  unfold requirements computed? at h
  split at h
  · rename_i hmapped
    exact ⟨_, r.mem_allFields_of_fieldMapping? hmapped, r.name_of_fieldMapping? hmapped, h⟩
  · rename_i hmapped
    exact ⟨_, r.mem_allFields_of_fieldMapping? hmapped, r.name_of_fieldMapping? hmapped, h⟩
  · cases h

theorem mem_names_of_requirements {name : String} (h : requirements r place name ≠ []) :
    name ∈ r.allFields.map (·.name) := by
  obtain ⟨sibling, hsibling⟩ := List.exists_mem_of_ne_nil _ h
  obtain ⟨f, hf, hname, -⟩ := exists_of_mem_requirements hsibling
  exact List.mem_map.2 ⟨f, hf, hname⟩

section Field

variable {name : String} {filtered : Bool} {c : ComputedField}

theorem planField_zero (h : computed? r place name = some c) :
    planField r 0 place name filtered = throw (.connector (.endlessRequirement name)) := by
  unfold computed? at h
  unfold planField
  split at h
  · rename_i hmapped
    rw [hmapped]
  · rename_i hmapped
    rw [hmapped]
  · cases h

theorem planField_succ (h : computed? r place name = some c) (steps : Nat) :
    planField r (steps + 1) place name filtered = (do
      c.required.forM fun sibling => discard (planField r steps place sibling false)
      pure none) := by
  unfold computed? at h
  conv_lhs => unfold planField
  split at h
  · rename_i hmapped
    cases h
    rw [hmapped]
  · rename_i hmapped
    cases h
    rw [hmapped]
  · cases h

/-- Only computations need steps. -/
theorem planField_eq_zero (h : computed? r place name = none) (steps : Nat) :
    planField r steps place name filtered = planField r 0 place name filtered := by
  unfold computed? at h
  unfold planField
  split at h
  · cases h
  · cases h
  · rename_i hcomputed hattribute
    split
    · rfl
    · rfl
    · rename_i c hidden hmapped
      exact absurd hmapped (hcomputed c hidden)
    · rename_i c hmapped
      exact absurd hmapped (hattribute c)
    · rfl
    · rfl

theorem conclusive_planField (h : computed? r place name = none) (steps : Nat) (filtered : Bool) :
    Conclusive (planField r steps place name filtered) := by
  rw [planField_eq_zero h]
  unfold computed? at h
  unfold planField
  split at h
  · cases h
  · cases h
  · rename_i hcomputed hattribute
    split
    · exact (conclusive_ownColumn _ _ _).discard.bind fun _ => conclusive_pure _
    · split
      · exact (conclusive_joinField _ _ _ _ _ _).map _
      · exact conclusive_throw rfl
    · rename_i c hidden hmapped
      exact absurd hmapped (hcomputed c hidden)
    · rename_i c hmapped
      exact absurd hmapped (hattribute c)
    · exact (conclusive_selectAllColumns r place).bind fun _ => conclusive_pure _
    · exact conclusive_throw rfl

end Field

section Tables

/-- Steps that can be taken for every item can be taken for all of them. -/
theorem exists_ends_forM {P : Draft → Prop} {f : α → Planning PUnit} {as : List α}
    (step : ∀ a ∈ as, ∀ d, P d → ∃ d', Ends (f a) d ⟨⟩ d' ∧ P d') (hd : P d) :
    ∃ d', Ends (as.forM f) d ⟨⟩ d' ∧ P d' := by
  induction as generalizing d with
  | nil => exact ⟨d, ends_forM_nil.2 rfl, hd⟩
  | cons a as ih =>
    obtain ⟨d₁, hfirst, hd₁⟩ := step a List.mem_cons_self d hd
    obtain ⟨d', hrest, hd'⟩ := ih (fun b hb => step b (List.mem_cons_of_mem a hb)) hd₁
    exact ⟨d', ends_forM_cons.2 ⟨d₁, hfirst, hrest⟩, hd'⟩

/-- A change of nodes that leaves a part of them as it is leaves it as it is in the draft. -/
theorem part_updateNode (part : TableNode → β) (f : TableNode → TableNode)
    (hf : ∀ n, part (f n) = part n) (d : Draft) (i j : Nat) :
    part ((d.updateNode i f).node j) = part (d.node j) := by
  rw [Draft.node, Draft.node, List.getD_eq_getElem?_getD, List.getD_eq_getElem?_getD,
    Draft.updateNode_nodes]
  split
  · cases d.nodes[j]? with
    | none => rfl
    | some n => exact hf n
  · rfl

theorem part_addColumn (part : TableNode → β)
    (hpart : ∀ (n : TableNode) name position, part (n.addColumn name position) = part n)
    (d : Draft) (i j : Nat) (name : String) :
    part ((d.addColumn i name).node j) = part (d.node j) :=
  part_updateNode part (·.addColumn name d.columns.length) (hpart · name d.columns.length)
    { d with columns := d.columns ++ [⟨some ⟨(d.node i).label, none⟩, name⟩] } i j

/-- A column of a node's table can be selected. -/
theorem exists_ends_ownColumn {i : Nat} {column : ColumnRef} (field : String)
    (h : column.table = (d.node i).table) :
    ∃ position d', Ends (ownColumn i field column) d position d' ∧
      (d'.node i).table = (d.node i).table := by
  cases hcolumn : (d.node i).column? column.column with
  | some position => exact ⟨position, d, ends_ownColumn.2 ⟨h, .inl ⟨hcolumn, rfl⟩⟩, rfl⟩
  | none =>
    exact ⟨_, _, ends_ownColumn.2 ⟨h, .inr ⟨hcolumn, rfl, rfl⟩⟩,
      part_addColumn (·.table) (fun _ _ _ => rfl) d i i column.column⟩

theorem exists_ends_selectAllColumns : ∃ d', Ends (selectAllColumns r place) d () d' := by
  let fields := ((r.objectMapping? place.path place.type).map (·.fields)).getD []
  suffices h : ∃ d', Ends (fields.forM _) d ⟨⟩ d' ∧
      (d'.node place.node).table = (d.node place.node).table from by
    obtain ⟨d', hends, -⟩ := h
    exact ⟨d', ends_bind.2 ⟨d, d, ends_get.2 ⟨rfl, rfl⟩, hends⟩⟩
  refine exists_ends_forM (fun f _ e he => ?_) rfl
  split
  · split
    · rename_i htable
      obtain ⟨position, e', hown, hkept⟩ := exists_ends_ownColumn _ (htable.trans he.symm)
      exact ⟨e', ends_discard.2 ⟨position, hown⟩, hkept.trans he⟩
    · exact ⟨e, ends_pure.2 ⟨rfl, rfl⟩, he⟩
  · exact ⟨e, ends_pure.2 ⟨rfl, rfl⟩, he⟩

/-- What can be added can be added to every draft. -/
theorem exists_ends_addNode {path : List String} {type table : String}
    (h : Addable r path type table) (label : String) (d : Draft) :
    ∃ index d', Ends (addNode r path type label) d index d' ∧ (d'.node index).table = table := by
  unfold addNode
  dsimp only
  split
  · rename_i hkeys
    exact absurd hkeys h.keyed
  · rename_i first rest hkeys
    have hfirst : first.table = table := h.keys first (hkeys ▸ List.mem_cons_self)
    let d₁ : Draft := { d with nodes := d.nodes ++ [TableNode.mk label first.table [] [] [] false] }
    have hnode : d₁.nodes[d.nodes.length]? = some ⟨label, first.table, [], [], [], false⟩ := by
      simp [d₁]
    have hnew : (d₁.node d.nodes.length).table = table := by rw [Draft.node_eq hnode, ← hfirst]
    obtain ⟨d₂, hloop, htable⟩ : ∃ d₂, Ends ((keyColumns r path type).forM fun key => do
          let position ← ownColumn d.nodes.length type key
          modify fun e => e.updateNode d.nodes.length fun n =>
            { n with keys := n.keys ++ [position] })
        d₁ ⟨⟩ d₂ ∧ (d₂.node d.nodes.length).table = table := by
      refine exists_ends_forM (fun key hkey e he => ?_) hnew
      obtain ⟨position, e', hown, hkept⟩ :=
        exists_ends_ownColumn type ((h.keys key hkey).trans he.symm)
      refine ⟨_, ends_bind.2 ⟨position, e', hown, ends_modify.2 rfl⟩, ?_⟩
      have hkeys := part_updateNode (·.table) (fun n => { n with keys := n.keys ++ [position] })
        (fun _ => rfl) e' d.nodes.length d.nodes.length
      exact hkeys.trans (hkept.trans he)
    have hrun {m : Planning Nat} {d' : Draft} (hm : Ends m d₂ d.nodes.length d') :
        Ends (set d₁ >>= fun _ => (keyColumns r path type).forM _ >>= fun _ => m) d
          d.nodes.length d' :=
      ends_bind.2 ⟨⟨⟩, d₁, ends_set.2 rfl, ends_bind.2 ⟨⟨⟩, d₂, hloop, hm⟩⟩
    by_cases habstract : r.schema.isAbstract type = true
    · obtain ⟨column, cases, hsource, hcolumn⟩ := h.discriminator habstract
      obtain ⟨position, d₃, hown, hkept₃⟩ :=
        exists_ends_ownColumn TableField.discriminatorName (hcolumn.trans htable.symm)
      refine ⟨d.nodes.length, d₃, ends_bind.2 ⟨d, d, ends_get.2 ⟨rfl, rfl⟩, hrun ?_⟩,
        hkept₃.trans htable⟩
      rw [if_pos habstract, hsource]
      exact ends_bind.2 ⟨(), d₃, ends_discard.2 ⟨position, hown⟩, ends_pure.2 ⟨rfl, rfl⟩⟩
    · refine ⟨d.nodes.length, d₂, ends_bind.2 ⟨d, d, ends_get.2 ⟨rfl, rfl⟩, hrun ?_⟩, htable⟩
      rw [if_neg habstract]
      exact ends_pure.2 ⟨rfl, rfl⟩

theorem exists_ends_addHops {field : String} {hops : List Hop} {table : String}
    (h : Linked table hops) (label : String) (d : Draft) :
    ∃ last d', Ends (addHops field hops label table) d last d' := by
  induction hops generalizing d label table with
  | nil => exact ⟨_, d, ends_pure.2 ⟨rfl, rfl⟩⟩
  | cons hop rest ih =>
    unfold addHops
    rw [if_neg (not_not.2 h.1)]
    obtain ⟨last, d', hends⟩ := ih h.2 _ _
    exact ⟨last, d', ends_bind.2 ⟨_, _, ends_nextLabel.2 ⟨rfl, rfl⟩,
      ends_bind.2 ⟨⟨⟩, _, ends_modify.2 rfl, hends⟩⟩⟩

/-- An object field can be joined to a table: its hops lead from the table to that of its type. -/
def Joinable (r : TableRegistry) (path : List String) (type table : String) (hops : List Hop) :
    Prop :=
  Linked table hops ∧ ∃ last, hops.getLast? = some last ∧ Addable r path type last.child.table

/-- A field that is joined is joined again if its node is not filtered. -/
theorem exists_ends_joinField_again {field type : String} {hops : List Hop} {child : Nat}
    (hchild : (d.node place.node).child? field = some child) :
    (∃ joined d', Ends (joinField r place field type hops false) d joined d') ↔
      (d.node child).filtered = false := by
  unfold joinField
  constructor
  · rintro ⟨joined, d', h⟩
    obtain ⟨_, _, hget, h⟩ := ends_bind.1 h
    obtain ⟨rfl, rfl⟩ := ends_get.1 hget
    by_contra hfiltered
    dsimp only at h
    rw [hchild] at h
    dsimp only at h
    rw [Bool.eq_true_of_not_eq_false hfiltered] at h
    exact not_ends_unsupported h
  · intro hfiltered
    refine ⟨⟨⟨child, place.path ++ [field], type⟩, joinIndex d child⟩, d, ?_⟩
    refine ends_bind.2 ⟨d, d, ends_get.2 ⟨rfl, rfl⟩, ?_⟩
    dsimp only
    rw [hchild]
    dsimp only
    rw [hfiltered]
    exact ends_pure.2 ⟨rfl, rfl⟩

theorem joinable_of_ends_joinField {field type : String} {hops : List Hop} {joined : JoinedField}
    (hchild : (d.node place.node).child? field = none)
    (h : Ends (joinField r place field type hops false) d joined d') :
    Joinable r (place.path ++ [field]) type (d.node place.node).table hops := by
  rcases ends_joinField h with ⟨child, hsome, -⟩ |
    ⟨-, hhops, label, table, child, d₁, d₂, hhop, hadd, htable, -, -⟩
  · cases hchild.symm.trans hsome
  · obtain ⟨-, -, hlast⟩ := addHops_joins hhop
    obtain ⟨-, last, hgetLast, rfl⟩ := hlast hhops
    obtain ⟨rfl, added, n, ⟨hgained, -⟩, haddable⟩ := addNode_adds hadd
    rw [Draft.node_eq hgained.node_eq, hgained.table] at htable
    obtain rfl : added = last.child.table := htable
    exact ⟨addHops_linked hhop, last, hgetLast, haddable⟩

theorem Joinable.exists_ends_joinField {field type : String} {hops : List Hop}
    (h : Joinable r (place.path ++ [field]) type (d.node place.node).table hops)
    (hchild : (d.node place.node).child? field = none) :
    ∃ joined d', Ends (joinField r place field type hops false) d joined d' := by
  obtain ⟨hlinked, last, hlast, haddable⟩ := h
  obtain ⟨⟨label, table⟩, d₁, hhop⟩ : ∃ last d₁, Ends (addHops field hops
      (d.node place.node).label (d.node place.node).table) d last d₁ :=
    exists_ends_addHops hlinked _ d
  have hhops : hops ≠ [] := fun hnil => by simp [hnil] at hlast
  obtain ⟨-, -, hend⟩ := addHops_joins hhop
  obtain ⟨-, last', hlast', rfl⟩ := hend hhops
  obtain rfl : last = last' := Option.some.inj (hlast.symm.trans hlast')
  obtain ⟨child, d₂, hadd, htable⟩ := exists_ends_addNode haddable label d₁
  let d₃ := d₂.updateNode place.node fun n => n.addChild field child
  refine ⟨⟨⟨child, place.path ++ [field], type⟩, d₃.joins.length - 1⟩, d₃, ?_⟩
  unfold joinField
  refine ends_bind.2 ⟨d, d, ends_get.2 ⟨rfl, rfl⟩, ?_⟩
  dsimp only
  rw [hchild]
  dsimp only
  rw [if_neg (by simpa using hhops)]
  refine ends_bind.2 ⟨_, d₁, hhop, ends_bind.2 ⟨child, d₂, hadd,
    ends_bind.2 ⟨d₂, d₂, ends_get.2 ⟨rfl, rfl⟩, ?_⟩⟩⟩
  rw [if_neg (not_not.2 htable)]
  exact ends_bind.2 ⟨⟨⟩, d₃, ends_modify.2 rfl,
    ends_bind.2 ⟨d₃, d₃, ends_get.2 ⟨rfl, rfl⟩, ends_pure.2 ⟨rfl, rfl⟩⟩⟩

/-- A field is joined for the first time if it can be joined, and again if its node is not
filtered. -/
theorem exists_ends_joinField {field type : String} {hops : List Hop} :
    (∃ joined d', Ends (joinField r place field type hops false) d joined d') ↔
      match (d.node place.node).child? field with
      | some child => (d.node child).filtered = false
      | none => Joinable r (place.path ++ [field]) type (d.node place.node).table hops := by
  split
  · rename_i child hchild
    exact exists_ends_joinField_again hchild
  · rename_i hchild
    refine ⟨?_, fun h => h.exists_ends_joinField hchild⟩
    rintro ⟨joined, d', h⟩
    exact joinable_of_ends_joinField hchild h

/-- A field of a column can be planned if the column is one of the node's table. -/
theorem exists_ends_columnField {name : String} {column : ColumnRef} :
    (∃ (joined? : Option JoinedField) (d' : Draft), Ends (do
      discard (ownColumn place.node name column)
      pure none) d joined? d') ↔ column.table = (d.node place.node).table := by
  constructor
  · rintro ⟨_, _, h⟩
    obtain ⟨_, _, h, -⟩ := ends_bind.1 h
    obtain ⟨position, h⟩ := ends_discard.1 h
    exact (ends_ownColumn.1 h).1
  · intro h
    obtain ⟨position, d', hown, -⟩ := exists_ends_ownColumn name h
    exact ⟨none, d', ends_bind.2 ⟨(), d', ends_discard.2 ⟨position, hown⟩, ends_pure.2 ⟨rfl, rfl⟩⟩⟩

theorem exists_ends_map {f : α → β} {m : Planning α} :
    (∃ b d', Ends (f <$> m) d b d') ↔ ∃ a d', Ends m d a d' := by
  simp only [ends_map]
  constructor
  · rintro ⟨_, d', a, h, -⟩
    exact ⟨a, d', h⟩
  · rintro ⟨a, d', h⟩
    exact ⟨_, d', a, h, rfl⟩

end Tables

/-- Whether planning stops at a field: it is not computed and cannot be planned. -/
def stops? (r : TableRegistry) (place : Place) (d : Draft) (name : String) : Option Unit :=
  match planField r 0 place name false d with
  | .error f => if f.isEndless then none else some ()
  | .ok _ => none

theorem stops?_of_computed {name : String} {c : ComputedField}
    (h : computed? r place name = some c) : stops? r place d name = none := by
  rw [stops?, planField_zero h]
  rfl

theorem stops?_eq_none_iff {name : String} (h : computed? r place name = none) :
    stops? r place d name = none ↔
      ∃ joined? d', Ends (planField r 0 place name false) d joined? d' := by
  have hconclusive := conclusive_planField h 0 false d
  unfold CutOff at hconclusive
  unfold stops? Ends
  cases hends : planField r 0 place name false d with
  | ok p => exact iff_of_true rfl ⟨p.1, p.2, rfl⟩
  | error f =>
    rw [hends] at hconclusive
    have hf : f.isEndless = false := Bool.eq_false_iff.2 hconclusive
    simp [hf]

/-- Whether planning stops at a field depends on the table of its node and on how the object field
is joined. -/
theorem stops?_congr {name : String}
    (htable : (d'.node place.node).table = (d.node place.node).table)
    (hjoined : ∀ own hops f,
      r.fieldMapping? place.path place.type name = some (.source (.joined own hops)) →
      r.schema.field? place.type name = some f →
        ((∃ joined e, Ends (joinField r place name f.type.underlying hops false) d' joined e) ↔
          ∃ joined e, Ends (joinField r place name f.type.underlying hops false) d joined e)) :
    stops? r place d' name = stops? r place d name := by
  cases hcomputed : computed? r place name with
  | some c => rw [stops?_of_computed hcomputed, stops?_of_computed hcomputed]
  | none =>
    suffices h : stops? r place d' name = none ↔ stops? r place d name = none by
      cases hd : stops? r place d name with
      | none => exact h.2 hd
      | some u =>
        cases hd' : stops? r place d' name with
        | none => rw [h.1 hd'] at hd; cases hd
        | some u' => rfl
    rw [stops?_eq_none_iff hcomputed, stops?_eq_none_iff hcomputed]
    unfold planField
    split
    · rw [exists_ends_columnField, exists_ends_columnField, htable]
    · rename_i own hops hmapped
      cases hf : r.schema.field? place.type name with
      | none => simp
      | some f =>
        dsimp only
        rw [exists_ends_map, exists_ends_map]
        exact hjoined own hops f hmapped hf
    · rfl
    · rfl
    · have hall {e : Draft} : ∃ (joined? : Option JoinedField) (e' : Draft),
          Ends (do selectAllColumns r place; pure none) e joined? e' := by
        obtain ⟨e', h⟩ := exists_ends_selectAllColumns
        exact ⟨none, e', ends_bind.2 ⟨(), e', h, ends_pure.2 ⟨rfl, rfl⟩⟩⟩
      exact iff_of_true hall hall
    · simp

end Planning

/-- The object fields of all nodes lead to nodes of the draft. -/
def Draft.Closed (d : Draft) : Prop :=
  ∀ (i : Nat) (n : TableNode) (field : String) (child : Nat), d.nodes[i]? = some n →
    n.child? field = some child → child < d.nodes.length

namespace Planning

variable {r : TableRegistry} {place : Place} {d d' : Draft}

/-- Steps at a node leave a draft closed, with all its nodes. -/
def StaysClosed (node : Nat) (d d' : Draft) : Prop :=
  node < d.nodes.length → d.Closed → d.nodes.length ≤ d'.nodes.length ∧ d'.Closed

theorem StaysClosed.refl (node : Nat) (d : Draft) : StaysClosed node d d :=
  fun _ hclosed => ⟨le_rfl, hclosed⟩

theorem StaysClosed.trans {node : Nat} {d'' : Draft} (h : StaysClosed node d d')
    (h' : StaysClosed node d' d'') : StaysClosed node d d'' := fun hlt hclosed =>
  have ⟨hle, hclosed'⟩ := h hlt hclosed
  have ⟨hle', hclosed''⟩ := h' (hlt.trans_le hle) hclosed'
  ⟨hle.trans hle', hclosed''⟩

theorem staysClosed_ownColumn {node position : Nat} {field : String} {column : ColumnRef}
    (h : Ends (ownColumn node field column) d position d') : StaysClosed node d d' := by
  rcases (ends_ownColumn.1 h).2 with ⟨-, rfl⟩ | ⟨-, -, rfl⟩
  · exact .refl node d'
  · intro _ hclosed
    have hlength : (d.addColumn node column.column).nodes.length = d.nodes.length :=
      List.length_modify ..
    refine ⟨hlength.ge, fun i n' other child hn' hchild => ?_⟩
    obtain ⟨n, hn, rfl | ⟨-, rfl⟩⟩ := Draft.addColumn_nodes hn'
    · exact hlength ▸ hclosed i n' other child hn hchild
    · exact hlength ▸ hclosed i n other child hn hchild

/-- Joining an object field leaves a draft closed, and the field has a node in it. -/
theorem Joins.staysClosed {field type : String} {hops : List Hop} {filtered : Bool}
    {joined : JoinedField} (h : Joins r place field type hops filtered d joined d')
    (hlt : place.node < d.nodes.length) (hclosed : d.Closed) :
    (d.nodes.length ≤ d'.nodes.length ∧ d'.Closed) ∧ joined.place.node < d'.nodes.length := by
  cases h with
  | again child hchild =>
    have hn := List.getElem?_eq_getElem hlt
    rw [Draft.node_eq hn] at hchild
    exact ⟨⟨le_rfl, hclosed⟩, hclosed _ _ _ _ hn hchild⟩
  | first table new e lastHop hnone hlast htable hgained hn =>
    have hlength : (e.updateNode place.node fun n => n.addChild field d.nodes.length).nodes.length =
        d.nodes.length + 1 := by
      rw [Draft.updateNode, List.length_modify, hgained.nodes, List.length_append]
      rfl
    rw [hlength]
    refine ⟨⟨Nat.le_succ _, fun i n' other child hn' hchild => ?_⟩, Nat.lt_succ_self _⟩
    rw [hlength]
    have hbelow {m : TableNode} (hm : e.nodes[i]? = some m) (hchild : m.child? other = some child) :
        child < d.nodes.length := by
      rw [hgained.nodes] at hm
      rcases Nat.lt_or_ge i d.nodes.length with hi | hi
      · rw [List.getElem?_append_left hi] at hm
        exact hclosed i m other child hm hchild
      · rw [List.getElem?_append_right hi, List.getElem?_singleton] at hm
        split at hm
        · cases hm
          rw [TableNode.child?, hgained.children] at hchild
          cases hchild
        · cases hm
    rw [Draft.updateNode_nodes] at hn'
    split at hn'
    · obtain ⟨m, hm, rfl⟩ := Option.map_eq_some_iff.1 hn'
      rcases TableNode.child?_of_addChild hchild with hchild | ⟨-, rfl⟩
      · exact Nat.lt_succ_of_lt (hbelow hm hchild)
      · exact Nat.lt_succ_self _
    · exact Nat.lt_succ_of_lt (hbelow hn' hchild)

theorem relatesFields_staysClosed (r : TableRegistry) (place : Place) :
    RelatesFields r place (StaysClosed place.node) where
  refl := .refl place.node
  trans := .trans
  column := staysClosed_ownColumn
  joins h := fun hlt hclosed => (h.staysClosed hlt hclosed).1

/-- After some steps at a place planning stops at the same fields of it as before. -/
structure Steady (r : TableRegistry) (place : Place) (d d' : Draft) : Prop where
  lt : place.node < d'.nodes.length
  closed : d'.Closed
  stops : stops? r place d' = stops? r place d

/-- Steps that leave a draft closed may leave it steady. -/
theorem StaysClosed.steady (h : StaysClosed place.node d d') (hlt : place.node < d.nodes.length)
    (hclosed : d.Closed) (hstops : ∀ name, stops? r place d' name = stops? r place d name) :
    Steady r place d d' :=
  have ⟨hle, hclosed'⟩ := h hlt hclosed
  ⟨hlt.trans_le hle, hclosed', funext hstops⟩

theorem steady_ownColumn (hlt : place.node < d.nodes.length) (hclosed : d.Closed) {position : Nat}
    {field : String} {column : ColumnRef}
    (h : Ends (ownColumn place.node field column) d position d') : Steady r place d d' := by
  refine (staysClosed_ownColumn h).steady hlt hclosed fun name => ?_
  rcases (ends_ownColumn.1 h).2 with ⟨-, rfl⟩ | ⟨-, -, rfl⟩
  · rfl
  · have hpart {β : Type} (part : TableNode → β)
        (hpart : ∀ (n : TableNode) name position, part (n.addColumn name position) = part n)
        (j : Nat) : part ((d.addColumn place.node column.column).node j) = part (d.node j) :=
      part_addColumn part hpart d place.node j column.column
    refine stops?_congr (hpart (·.table) (fun _ _ _ => rfl) _) fun own hops f _ _ => ?_
    rw [exists_ends_joinField, exists_ends_joinField, hpart (·.table) fun _ _ _ => rfl,
      hpart (fun n => n.child? name) fun _ _ _ => rfl]
    cases (d.node place.node).child? name with
    | none => exact Iff.rfl
    | some child =>
      exact iff_of_eq (congrArg (· = false) (hpart (·.filtered) (fun _ _ _ => rfl) child))

theorem steady_joinField (hlt : place.node < d.nodes.length) (hclosed : d.Closed)
    {name own : String} {hops : List Hop} {f : FieldDefinition} {joined : JoinedField}
    (hmapped : r.fieldMapping? place.path place.type name = some (.source (.joined own hops)))
    (hf : r.schema.field? place.type name = some f)
    (h : Ends (joinField r place name f.type.underlying hops false) d joined d') :
    Steady r place d d' := by
  have hjoins := joinField_joins h
  refine ((relatesFields_staysClosed r place).joins hjoins).steady hlt hclosed fun other => ?_
  cases hjoins with
  | again => rfl
  | first table new e lastHop hnone hlast htable hgained hn =>
    have hold {j : Nat} (hj : j < d.nodes.length) : e.node j = d.node j := by
      rw [Draft.node, Draft.node, hgained.nodes, List.getD_eq_getElem?_getD,
        List.getD_eq_getElem?_getD, List.getElem?_append_left hj]
    have hn := List.getElem?_eq_getElem hlt
    have hparent : (e.updateNode place.node fun n => n.addChild name d.nodes.length).node
        place.node = (d.node place.node).addChild name d.nodes.length := by
      refine Draft.node_eq ?_
      rw [Draft.updateNode_nodes, if_pos rfl, hgained.nodes, List.getElem?_append_left hlt, hn,
        Draft.node_eq hn]
      rfl
    have hfiltered {j : Nat} : ((e.updateNode place.node fun n =>
        n.addChild name d.nodes.length).node j).filtered = (e.node j).filtered :=
      part_updateNode (·.filtered) (·.addChild name d.nodes.length) (fun _ => rfl) e place.node j
    refine stops?_congr (by rw [hparent]; rfl) fun own' hops' f' hmapped' hf' => ?_
    by_cases hname : other = name
    · subst hname
      cases hmapped.symm.trans hmapped'
      cases hf.symm.trans hf'
      refine iff_of_true (exists_ends_joinField.2 ?_) ⟨_, _, h⟩
      rw [hparent, TableNode.child?_addChild _ hnone]
      dsimp only
      rw [hfiltered, Draft.node_eq hgained.node_eq]
      exact hgained.filtered
    · rw [exists_ends_joinField, exists_ends_joinField, hparent,
        TableNode.child?_addChild_of_ne _ hname]
      cases hchild : (d.node place.node).child? other with
      | none => exact Iff.rfl
      | some child =>
        have hbelow := hclosed _ _ _ _ hn (Draft.node_eq hn ▸ hchild)
        exact iff_of_eq (congrArg (· = false) (hfiltered.trans (by rw [hold hbelow])))

/-- A relation of steps at a place that start where its node is. -/
def StaysSteady (r : TableRegistry) (place : Place) (d d' : Draft) : Prop :=
  place.node < d.nodes.length → d.Closed → Steady r place d d'

theorem StaysSteady.trans {d'' : Draft} (h : StaysSteady r place d d')
    (h' : StaysSteady r place d' d'') : StaysSteady r place d d'' := fun hlt hclosed =>
  have hd' := h hlt hclosed
  have hd'' := h' hd'.lt hd'.closed
  ⟨hd''.lt, hd''.closed, hd''.stops.trans hd'.stops⟩

theorem relatesColumns_staysSteady (r : TableRegistry) (place : Place) :
    RelatesColumns place.node (StaysSteady r place) where
  refl _ := fun hlt hclosed => ⟨hlt, hclosed, rfl⟩
  trans := StaysSteady.trans
  column h := fun hlt hclosed => steady_ownColumn hlt hclosed h

theorem staysSteady_of_not_computed {steps : Nat} {name : String} {joined? : Option JoinedField}
    (hcomputed : computed? r place name = none)
    (h : Ends (planField r steps place name false) d joined? d') : StaysSteady r place d d' := by
  unfold computed? at hcomputed
  unfold planField at h
  split at hcomputed
  · cases hcomputed
  · cases hcomputed
  · rename_i hcomputation hattribute
    split at h
    · obtain ⟨_, _, hcolumn, h⟩ := ends_bind.1 h
      obtain ⟨-, rfl⟩ := ends_pure.1 h
      obtain ⟨position, hcolumn⟩ := ends_discard.1 hcolumn
      exact (relatesColumns_staysSteady r place).column hcolumn
    · rename_i own hops hmapped
      split at h
      · rename_i f hf
        obtain ⟨joined, hjoin, -⟩ := ends_map.1 h
        exact fun hlt hclosed => steady_joinField hlt hclosed hmapped hf hjoin
      · exact absurd h not_ends_throw
    · rename_i c hidden hmapped
      exact absurd hmapped (hcomputation c hidden)
    · rename_i c hmapped
      exact absurd hmapped (hattribute c)
    · obtain ⟨_, _, hcolumns, h⟩ := ends_bind.1 h
      obtain ⟨-, rfl⟩ := ends_pure.1 h
      exact (relatesColumns_staysSteady r place).selectAllColumns hcolumns
    · exact absurd h not_ends_throw

/-- Planning a field changes nothing about where planning stops at its place. -/
theorem staysSteady_planField {steps : Nat} {name : String} {joined? : Option JoinedField}
    (h : Ends (planField r steps place name false) d joined? d') : StaysSteady r place d d' := by
  induction steps generalizing name joined? d d' with
  | zero =>
    cases hcomputed : computed? r place name with
    | none => exact staysSteady_of_not_computed hcomputed h
    | some c =>
      rw [planField_zero hcomputed] at h
      exact absurd h not_ends_throw
  | succ steps ih =>
    cases hcomputed : computed? r place name with
    | none => exact staysSteady_of_not_computed hcomputed h
    | some c =>
      rw [planField_succ hcomputed] at h
      obtain ⟨_, _, hrequired, h⟩ := ends_bind.1 h
      obtain ⟨-, rfl⟩ := ends_pure.1 h
      refine (relatesColumns_staysSteady r place).forM (fun sibling _ e e' hsibling => ?_) hrequired
      obtain ⟨_, hsibling⟩ := ends_discard.1 hsibling
      exact ih hsibling

/-- What a walk over requirements has come to when planning ends like this: it found a field that
cannot be planned, or nothing. -/
def walkOf (x : Except Fault α) : Walk Unit :=
  match x with
  | .ok _ => .absent
  | .error f => if f.isEndless then .unfinished else .found ()

theorem walkOf_eq_unfinished {x : Except Fault α} : walkOf x = .unfinished ↔ isCutOff x = true := by
  cases x with
  | ok a => simp [walkOf, isCutOff]
  | error f => cases hf : f.isEndless <;> simp [walkOf, isCutOff, hf]

/-- What a step gives makes no difference. -/
theorem walkOf_bind_pure {m : Planning α} {f : α → β} :
    walkOf ((m >>= fun a => pure (f a)) d) = walkOf (m d) := by
  change walkOf (m d >>= fun p => Except.ok (f p.1, p.2)) = _
  cases m d with
  | ok p => rfl
  | error f => rfl

/-- Planning items one after the other is a search for the first that cannot be planned. -/
theorem walkOf_forM {g : String → Planning PUnit} {search : String → Walk Unit}
    {P : Draft → Prop} {names : List String}
    (hsearch : ∀ name ∈ names, ∀ e, P e → walkOf (g name e) = search name)
    (hkept : ∀ name ∈ names, ∀ e e', P e → Ends (g name) e ⟨⟩ e' → P e') (hd : P d) :
    walkOf (names.forM g d) = Walk.first search names := by
  induction names generalizing d with
  | nil => rfl
  | cons name names ih =>
    have hname := hsearch name List.mem_cons_self d hd
    change walkOf (g name d >>= fun p => names.forM g p.2) = _
    rw [Walk.first, ← hname]
    cases hg : g name d with
    | error f =>
      cases hf : f.isEndless <;> simp [walkOf, hf, bind, Except.bind]
    | ok p =>
      obtain ⟨⟨⟩, e⟩ := p
      exact ih (fun other hother => hsearch other (List.mem_cons_of_mem name hother))
        (fun other hother => hkept other (List.mem_cons_of_mem name hother))
        (hkept name List.mem_cons_self d e hd hg)

section Walks

variable {name : String}

/-- A field that is not computed is planned, or planning stops at it. -/
theorem walkOf_of_not_computed (h : computed? r place name = none) (steps : Nat) :
    walkOf (planField r steps place name false d) =
      match stops? r place d name with
      | some u => .found u
      | none => .absent := by
  have hconclusive := conclusive_planField h 0 false d
  unfold CutOff at hconclusive
  rw [planField_eq_zero h, stops?]
  cases hends : planField r 0 place name false d with
  | ok p => rfl
  | error f =>
    rw [hends] at hconclusive
    have hf : f.isEndless = false := Bool.eq_false_iff.2 hconclusive
    simp [walkOf, hf]

theorem walkOf_zero {c : ComputedField} (h : computed? r place name = some c) :
    walkOf (planField r 0 place name false d) = .unfinished := by
  rw [planField_zero h]
  rfl

theorem Steady.planField {e e' : Draft} {steps : Nat} {joined? : Option JoinedField}
    (h : Steady r place d e) (hends : Ends (planField r steps place name false) e joined? e') :
    Steady r place d e' := by
  have hstays := staysSteady_planField hends h.lt h.closed
  exact ⟨hstays.lt, hstays.closed, hstays.stops.trans h.stops⟩

/-- What a computed field requires is searched for the first that cannot be planned. -/
theorem walkOf_required {steps : Nat} {c : ComputedField} {e : Draft}
    (hsame : ∀ {sibling e}, Steady r place d e → walkOf (planField r steps place sibling false e) =
      walkOf (planField r steps place sibling false d))
    (hcomputed : computed? r place name = some c) (he : Steady r place d e) :
    walkOf (planField r (steps + 1) place name false e) =
      Walk.first (fun sibling => walkOf (planField r steps place sibling false d)) c.required := by
  rw [planField_succ hcomputed, walkOf_bind_pure]
  refine walkOf_forM (P := Steady r place d) (fun sibling _ e' he' => ?_)
    (fun sibling _ e' e'' he' hends => ?_) he
  · exact walkOf_bind_pure.trans (hsame he')
  · obtain ⟨_, hends⟩ := ends_discard.1 hends
    exact he'.planField hends

/-- What planning a field comes to does not depend on what was planned before at its place. -/
theorem walkOf_steady {steps : Nat} {e : Draft} (hd : Steady r place d d)
    (he : Steady r place d e) :
    walkOf (planField r steps place name false e) =
      walkOf (planField r steps place name false d) := by
  induction steps generalizing name e with
  | zero =>
    cases hcomputed : computed? r place name with
    | none => rw [walkOf_of_not_computed hcomputed, walkOf_of_not_computed hcomputed, he.stops]
    | some c => rw [walkOf_zero hcomputed, walkOf_zero hcomputed]
  | succ steps ih =>
    cases hcomputed : computed? r place name with
    | none => rw [walkOf_of_not_computed hcomputed, walkOf_of_not_computed hcomputed, he.stops]
    | some c => rw [walkOf_required ih hcomputed he, walkOf_required ih hcomputed hd]

/-- A walk over requirements that has ended is planned as it goes. -/
theorem walkOf_eq_follow {steps : Nat} (hd : Steady r place d d)
    (hended : Walk.follow (requirements r place) (stops? r place d) steps name ≠ .unfinished) :
    walkOf (planField r steps place name false d) =
      Walk.follow (requirements r place) (stops? r place d) steps name := by
  induction steps generalizing name with
  | zero => exact absurd rfl hended
  | succ steps ih =>
    unfold Walk.follow at hended ⊢
    cases hcomputed : computed? r place name with
    | none =>
      rw [walkOf_of_not_computed hcomputed]
      cases stops? r place d name with
      | some u => rfl
      | none => rw [requirements, hcomputed]; rfl
    | some c =>
      have hrequired := requirements_of_computed hcomputed
      rw [stops?_of_computed hcomputed, hrequired] at hended ⊢
      rw [walkOf_required (walkOf_steady hd) hcomputed hd]
      exact Walk.first_congr (fun sibling _ => ih) hended

/-- Where planning a field is not cut off, its walk has ended. -/
theorem follow_ne_unfinished {steps : Nat} (hd : Steady r place d d)
    (h : walkOf (planField r steps place name false d) ≠ .unfinished) :
    Walk.follow (requirements r place) (stops? r place d) (steps + 1) name =
      walkOf (planField r steps place name false d) := by
  induction steps generalizing name with
  | zero =>
    cases hcomputed : computed? r place name with
    | some c => exact absurd (walkOf_zero hcomputed) h
    | none =>
      rw [walkOf_of_not_computed hcomputed]
      unfold Walk.follow
      rw [requirements, hcomputed]
      cases stops? r place d name <;> rfl
  | succ steps ih =>
    unfold Walk.follow
    cases hcomputed : computed? r place name with
    | none =>
      rw [walkOf_of_not_computed hcomputed, requirements, hcomputed]
      cases stops? r place d name <;> rfl
    | some c =>
      have hrequired := requirements_of_computed hcomputed
      rw [walkOf_required (walkOf_steady hd) hcomputed hd] at h ⊢
      rw [stops?_of_computed hcomputed, hrequired]
      exact Walk.first_congr (fun sibling _ => ih) h

theorem cutOff_planField_iff {steps : Nat} {filtered : Bool} :
    CutOff (planField r steps place name filtered) d ↔
      walkOf (planField r steps place name false d) = .unfinished := by
  rw [walkOf_eq_unfinished]
  cases hcomputed : computed? r place name with
  | none =>
    exact iff_of_false (conclusive_planField hcomputed steps filtered d)
      (conclusive_planField hcomputed steps false d)
  | some c =>
    cases steps with
    | zero => rw [CutOff, planField_zero hcomputed, planField_zero hcomputed]
    | succ steps => rw [CutOff, planField_succ hcomputed, planField_succ hcomputed]

/-- Planning a field has an end if and only if the walk over what it requires comes to no field a
second time, and then it ends within as many steps as there are fields, and one more. -/
theorem planField_ends_iff (hlt : place.node < d.nodes.length) (hclosed : d.Closed)
    (filtered : Bool) :
    ((∃ steps, ¬ CutOff (planField r steps place name filtered) d) ↔
      Walk.NeverReturns (requirements r place) (stops? r place d) name) ∧
    (Walk.NeverReturns (requirements r place) (stops? r place d) name →
      ¬ CutOff (planField r (r.allFields.length + 1) place name filtered) d) := by
  have hd : Steady r place d d := ⟨hlt, hclosed, rfl⟩
  have hwithin (h : Walk.NeverReturns (requirements r place) (stops? r place d) name) :
      ¬ CutOff (planField r (r.allFields.length + 1) place name filtered) d := by
    have hended := h.ends_within fun _ => mem_names_of_requirements
    rw [List.length_map] at hended
    rw [cutOff_planField_iff, walkOf_eq_follow hd hended]
    exact hended
  refine ⟨⟨?_, fun h => ⟨_, hwithin h⟩⟩, hwithin⟩
  rintro ⟨steps, h⟩
  rw [cutOff_planField_iff] at h
  have hended : Walk.Ends (requirements r place) (stops? r place d) name :=
    ⟨steps + 1, by rwa [follow_ne_unfinished hd h]⟩
  exact hended.neverReturns

end Walks

end Planning

end MappedQuery.Sql
