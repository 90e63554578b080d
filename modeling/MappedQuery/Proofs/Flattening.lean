import MappedQuery.Proofs.EntityTree
import MappedQuery.Proofs.Sequencing

/-!
# Reading undoes flattening

What is read of a tree in some rows depends on the first appearances of the cells at its places
only. Joins repeat the rows of each field once for every row of the others, which changes no
first appearance, so every field is read as if the others were not there. An entity comes back
from the rows with its key, and a field without entities from the one row of nulls.
-/
namespace MappedQuery.Sql

/-- What rows say at some places. -/
def view (places : List Nat) (row : Row) : List (Option Cell) := places.map fun p => row[p]?

theorem view_eq_iff {places : List Nat} {a b : Row} :
    view places a = view places b ↔ ∀ p ∈ places, a[p]? = b[p]? :=
  List.map_inj_left

theorem factorsThrough_view {γ : Type} {places : List Nat} {g : Row → γ}
    (h : ∀ a b : Row, (∀ p ∈ places, a[p]? = b[p]?) → g a = g b) :
    g.FactorsThrough (view places) :=
  fun a b hab => h a b (view_eq_iff.1 hab)

theorem view_factorsThrough {places places' : List Nat} (h : ∀ p ∈ places', p ∈ places) :
    (view places').FactorsThrough (view places) :=
  factorsThrough_view fun _ _ hab => view_eq_iff.2 fun p hp => hab p (h p hp)

theorem RowGroup.keyAt?_factorsThrough {n : TableNode} {places : List Nat}
    (h : ∀ p ∈ n.keys, p ∈ places) : (keyAt? n).FactorsThrough (view places) := by
  refine factorsThrough_view fun a b hab => ?_
  unfold keyAt?
  generalize n.keys = keys at h
  induction keys with
  | nil => rfl
  | cons k keys ih =>
    have hk := hab k (h k List.mem_cons_self)
    have hkeys := ih fun p hp => h p (List.mem_cons_of_mem _ hp)
    rw [List.mapM_cons, List.mapM_cons, hk, hkeys]

namespace Fragment

theorem getElem?_row {width place : Nat} (h : place < width) (f : Fragment) :
    (f.row width)[place]? = some (f.cell place) := by
  simp [row, h]

theorem lookup_eq_none {f : Fragment} {place : Nat} (h : place ∉ f.map (·.1)) :
    f.lookup place = none := by
  rw [List.lookup_eq_none_iff]
  intro x hx
  have hne : place ≠ x.1 := fun heq => h (heq ▸ List.mem_map_of_mem hx)
  simpa using hne

theorem cell_append_of_not_mem_right {f g : Fragment} {place : Nat}
    (h : place ∉ g.map (·.1)) : (f ++ g).cell place = f.cell place := by
  rw [cell, List.lookup_append, lookup_eq_none h, Option.or_none]
  rfl

theorem cell_append_of_not_mem_left {f g : Fragment} {place : Nat}
    (h : place ∉ f.map (·.1)) : (f ++ g).cell place = g.cell place := by
  rw [cell, List.lookup_append, lookup_eq_none h, Option.none_or]
  rfl

/-- Rows say at some places what their fragments say there. -/
theorem view_row {width : Nat} {places : List Nat} (hwidth : ∀ p ∈ places, p < width)
    (f : Fragment) : view places (f.row width) = places.map fun p => some (f.cell p) :=
  List.map_congr_left fun p hp => getElem?_row (hwidth p hp) f

theorem view_row_append_left {width : Nat} {places : List Nat}
    (hwidth : ∀ p ∈ places, p < width) {f g : Fragment}
    (h : ∀ p ∈ places, p ∉ g.map (·.1)) :
    view places ((f ++ g).row width) = view places (f.row width) := by
  rw [view_row hwidth, view_row hwidth]
  exact List.map_congr_left fun p hp => by rw [cell_append_of_not_mem_right (h p hp)]

theorem view_row_append_right {width : Nat} {places : List Nat}
    (hwidth : ∀ p ∈ places, p < width) {f g : Fragment}
    (h : ∀ p ∈ places, p ∉ f.map (·.1)) :
    view places ((f ++ g).row width) = view places (g.row width) := by
  rw [view_row hwidth, view_row hwidth]
  exact List.map_congr_left fun p hp => by rw [cell_append_of_not_mem_left (h p hp)]

end Fragment

namespace TableNode

variable {n : TableNode} {cells : List Cell}

theorem fst_fragment_subset {p : Nat} (h : p ∈ (n.fragment cells).map (·.1)) : p ∈ n.places := by
  obtain ⟨⟨p, c⟩, hmem, rfl⟩ := List.mem_map.1 h
  exact (List.of_mem_zip hmem).1

/-- The cells of an entity are those that its fragment says at the places of the columns. -/
theorem map_cell_fragment (hplaces : n.places.Nodup) (hlen : cells.length = n.columns.length) :
    n.places.map (n.fragment cells).cell = cells := by
  have hlen' : cells.length = n.places.length := by rw [hlen, places, List.length_map]
  unfold fragment
  generalize n.places = ps at hplaces hlen'
  clear hlen
  induction ps generalizing cells with
  | nil => exact (List.eq_nil_of_length_eq_zero hlen').symm
  | cons p ps ih =>
    cases cells with
    | nil => cases hlen'
    | cons c cells =>
      obtain ⟨hp, hps⟩ := List.nodup_cons.1 hplaces
      have hrest := ih hps (Nat.succ.inj hlen')
      rw [List.map_cons, List.zip_cons_cons]
      congr 1
      · simp [Fragment.cell]
      · refine Eq.trans (List.map_congr_left fun q hq => ?_) hrest
        have hne : (q == p) = false := by
          rw [beq_eq_false_iff_ne]
          exact fun heq => hp (heq ▸ hq)
        rw [Fragment.cell, List.lookup_cons, hne]
        rfl

end TableNode

mutual

theorem NodeTree.places_of_flatten {t : NodeTree} {e : Entity} {f : Fragment}
    (hf : f ∈ t.flatten e) {p : Nat} (hp : p ∈ f.map (·.1)) : p ∈ t.places := by
  match t, e with
  | .mk _ node children, .mk cells lists =>
    rw [NodeTree.flatten] at hf
    obtain ⟨g, hg, rfl⟩ := List.mem_map.1 hf
    rw [List.map_append, List.mem_append] at hp
    rw [NodeTree.places, List.mem_append]
    rcases hp with hp | hp
    · exact .inl (TableNode.fst_fragment_subset hp)
    · exact .inr (Branches.places_of_combinations hg hp)

theorem Branches.places_of_combinations {b : Branches} {lists : List (List Entity)} {f : Fragment}
    (hf : f ∈ b.combinations lists) {p : Nat} (hp : p ∈ f.map (·.1)) : p ∈ b.places := by
  match b, lists with
  | .nil, _ =>
    rw [Branches.combinations, List.mem_singleton] at hf
    subst hf
    simp at hp
  | .cons _ tree rest, [] =>
    rw [Branches.combinations] at hf
    rw [Branches.places, List.mem_append]
    exact .inr (Branches.places_of_combinations hf hp)
  | .cons _ tree rest, entities :: lists =>
    rw [Branches.combinations] at hf
    obtain ⟨g, hg, hf⟩ := List.mem_flatMap.1 hf
    obtain ⟨g', hg', rfl⟩ := List.mem_map.1 hf
    rw [List.map_append, List.mem_append] at hp
    rw [Branches.places, List.mem_append]
    rcases hp with hp | hp
    · split at hg
      · rw [List.mem_singleton] at hg
        subst hg
        simp at hp
      · obtain ⟨e, -, hg⟩ := List.mem_flatMap.1 hg
        exact .inl (NodeTree.places_of_flatten hg hp)
    · exact .inr (Branches.places_of_combinations hg' hp)

end

mutual

theorem NodeTree.flatten_ne_nil (t : NodeTree) (e : Entity) : t.flatten e ≠ [] := by
  match t, e with
  | .mk _ node children, .mk cells lists =>
    rw [NodeTree.flatten]
    simpa using Branches.combinations_ne_nil children lists

theorem Branches.combinations_ne_nil (b : Branches) (lists : List (List Entity)) :
    b.combinations lists ≠ [] := by
  match b, lists with
  | .nil, _ => simp [Branches.combinations]
  | .cons _ _ rest, [] =>
    rw [Branches.combinations]
    exact Branches.combinations_ne_nil rest []
  | .cons _ tree rest, entities :: lists =>
    rw [Branches.combinations]
    have hrest := Branches.combinations_ne_nil rest lists
    cases entities with
    | nil => simpa using hrest
    | cons e entities =>
      have hfirst := NodeTree.flatten_ne_nil tree e
      intro hnil
      rw [List.flatMap_eq_nil_iff] at hnil
      obtain ⟨f, hf⟩ := List.exists_mem_of_ne_nil _ hfirst
      have := hnil f (by simp [hf])
      simp_all

end

/-- All fragments of the entities of one field. -/
def NodeTree.block (t : NodeTree) (entities : List Entity) : List Fragment :=
  if entities.isEmpty then [[]] else entities.flatMap t.flatten

theorem NodeTree.block_ne_nil (t : NodeTree) (entities : List Entity) :
    t.block entities ≠ [] := by
  cases entities with
  | nil => simp [block]
  | cons e entities => simp [block, NodeTree.flatten_ne_nil]

theorem NodeTree.places_of_block {t : NodeTree} {entities : List Entity} {f : Fragment}
    (hf : f ∈ t.block entities) {p : Nat} (hp : p ∈ f.map (·.1)) : p ∈ t.places := by
  unfold block at hf
  split at hf
  · rw [List.mem_singleton] at hf
    subst hf
    simp at hp
  · obtain ⟨e, -, hf⟩ := List.mem_flatMap.1 hf
    exact NodeTree.places_of_flatten hf hp

theorem Branches.combinations_cons (field : String) (t : NodeTree) (rest : Branches)
    (entities : List Entity) (lists : List (List Entity)) :
    (cons field t rest).combinations (entities :: lists) =
      (t.block entities).flatMap fun f => (rest.combinations lists).map (f ++ ·) := by
  rw [combinations, NodeTree.block]

section Products

variable {width : Nat} {places : List Nat} {xs ys : List Fragment}

/-- The left factor of a product is seen as if it stood alone. -/
theorem sameFirst_product_left (hwidth : ∀ p ∈ places, p < width) (hys : ys ≠ [])
    (h : ∀ g ∈ ys, ∀ p ∈ places, p ∉ g.map (·.1)) :
    SameFirst (view places) ((xs.flatMap fun f => ys.map (f ++ ·)).map (Fragment.row width))
      (xs.map (Fragment.row width)) := by
  unfold SameFirst
  rw [List.map_flatMap, List.map_flatMap, List.map_map]
  refine firstSeen_flatMap (fun f _ => by simpa using hys) fun f _ v hv => ?_
  simp only [List.map_map, List.mem_map, Function.comp_apply] at hv
  obtain ⟨g, hg, rfl⟩ := hv
  exact Fragment.view_row_append_left hwidth (h g hg)

/-- The right factor of a product is seen as if it stood alone. -/
theorem sameFirst_product_right (hwidth : ∀ p ∈ places, p < width) (hxs : xs ≠ [])
    (h : ∀ f ∈ xs, ∀ p ∈ places, p ∉ f.map (·.1)) :
    SameFirst (view places) ((xs.flatMap fun f => ys.map (f ++ ·)).map (Fragment.row width))
      (ys.map (Fragment.row width)) := by
  unfold SameFirst
  have hrepeated : ((xs.flatMap fun f => ys.map (f ++ ·)).map (Fragment.row width)).map
      (view places) = xs.flatMap fun _ => (ys.map (Fragment.row width)).map (view places) := by
    rw [List.map_flatMap, List.map_flatMap]
    refine List.flatMap_congr fun f hf => ?_
    simp only [List.map_map]
    exact List.map_congr_left fun g _ => Fragment.view_row_append_right hwidth (h f hf)
  rw [hrepeated, firstSeen_flatMap_const hxs]

end Products

namespace TableNode

variable {n : TableNode} {cells : List Cell} {g : Fragment} {width : Nat}

private theorem find?_of_mem {l : List (String × Nat)} (h : (l.map (·.1)).Nodup) {name : String}
    {i : Nat} (hmem : (name, i) ∈ l) : (l.find? (·.1 = name)).map (·.2) = some i := by
  induction l with
  | nil => cases hmem
  | cons x l ih =>
    obtain ⟨hx, hl⟩ := List.nodup_cons.1 (List.map_cons ▸ h)
    rcases List.mem_cons.1 hmem with rfl | hmem
    · simp
    · have hne : x.1 ≠ name := fun heq => hx (heq ▸ List.mem_map_of_mem (f := (·.1)) hmem)
      rw [List.find?_cons_of_neg (by simpa using hne)]
      exact ih hl hmem

theorem column?_of_mem_columns (h : (n.columns.map (·.1)).Nodup) {entry : String × Nat}
    (hmem : entry ∈ n.columns) : n.column? entry.1 = some entry.2 :=
  find?_of_mem h hmem

theorem column?_of_mem (hn : n.Sound) {name : String} {place : Nat}
    (hmem : (name, place) ∈ n.columns) : n.column? name = some place :=
  column?_of_mem_columns hn.columns hmem

theorem child?_of_mem (hn : n.Sound) {field : String} {index : Nat}
    (hmem : (field, index) ∈ n.children) : n.child? field = some index :=
  find?_of_mem hn.children hmem

theorem mem_places_of_column? {name : String} {place : Nat} (h : n.column? name = some place) :
    place ∈ n.places := by
  obtain ⟨column, hfound, rfl⟩ := Option.map_eq_some_iff.1 h
  exact List.mem_map_of_mem (List.mem_of_find?_eq_some hfound)

/-- A row of an entity has the key of the entity. -/
theorem keyAt?_row (hn : n.Sound) (hwidth : ∀ p ∈ n.places, p < width)
    (hkeys : ∀ place ∈ n.keys, ((n.fragment cells).cell place).isNull = false)
    (hg : ∀ p ∈ n.places, p ∉ g.map (·.1)) :
    RowGroup.keyAt? n ((n.fragment cells ++ g).row width) =
      some (n.keys.map (n.fragment cells).cell) := by
  refine mapM_eq_pure fun place hplace => ?_
  have hmem := hn.keys place hplace
  rw [Fragment.getElem?_row (hwidth place hmem),
    Fragment.cell_append_of_not_mem_right (hg place hmem)]
  simp [Option.filter, hkeys place hplace]

/-- The row of nulls has no key. -/
theorem keyAt?_row_nil (hn : n.Sound) (hwidth : ∀ p ∈ n.places, p < width) :
    RowGroup.keyAt? n (Fragment.row width []) = none := by
  obtain ⟨k, keys, hkeys⟩ := List.exists_cons_of_ne_nil hn.keyed
  have hk := hwidth k (hn.keys k (hkeys ▸ List.mem_cons_self))
  rw [RowGroup.keyAt?, hkeys, List.mapM_cons, Fragment.getElem?_row hk]
  rfl

end TableNode

section Trees

variable {tables : List TableNode} {width : Nat} {index : Nat} {node : TableNode}
  {children : Branches}

/-- Rows of an entity of a tree have its key. -/
theorem NodeTree.keyAt?_of_mem_flatten (hn : node.Sound)
    (hplaces : (NodeTree.mk index node children).places.Nodup)
    (hwidth : ∀ p ∈ (NodeTree.mk index node children).places, p < width) {e : Entity}
    (he : (NodeTree.mk index node children).Holds e) {row : Row}
    (hrow : row ∈ ((NodeTree.mk index node children).flatten e).map (Fragment.row width)) :
    RowGroup.keyAt? node row = some ((NodeTree.mk index node children).key e) := by
  obtain ⟨cells, lists⟩ := e
  obtain ⟨f, hf, rfl⟩ := List.mem_map.1 hrow
  rw [NodeTree.flatten] at hf
  obtain ⟨g, hg, rfl⟩ := List.mem_map.1 hf
  rw [NodeTree.places] at hplaces hwidth
  rw [NodeTree.holds_mk] at he
  refine TableNode.keyAt?_row hn (fun p hp => hwidth p (List.mem_append_left _ hp)) he.2.1 ?_
  intro p hp hpg
  have hdisjoint := (List.nodup_append.1 hplaces).2.2
  exact hdisjoint p hp p (Branches.places_of_combinations hg hpg) rfl

end Trees

section Reading

variable {r : TableRegistry} {tables : List TableNode} {width index : Nat} {node : TableNode}
  {cells : List Cell} {R : List Row} {frags : List Fragment} {c : Cursor}

/-- The first row of an entity says the cells of the entity. -/
theorem columnCell_of_rows (hnode : tables[index]? = some node)
    (hwidth : ∀ p ∈ node.places, p < width) (hfrags : frags ≠ [])
    (hg : ∀ g ∈ frags, ∀ p ∈ node.places, p ∉ g.map (·.1))
    (hrows : SameFirst (view node.places) R
      ((frags.map (node.fragment cells ++ ·)).map (Fragment.row width)))
    {name : String} {place : Nat} (hname : node.column? name = some place) :
    c.columnCell (.rows ⟨tables, index, R⟩) name = .ok ((node.fragment cells).cell place) := by
  have hplace := TableNode.mem_places_of_column? hname
  have hhead := hrows.head?_eq (g := fun row => row[place]?)
    (factorsThrough_view fun a b hab => hab place hplace)
  obtain ⟨g, gs, rfl⟩ := List.exists_cons_of_ne_nil hfrags
  have hcell : (Fragment.row width (node.fragment cells ++ g))[place]? =
      some ((node.fragment cells).cell place) := by
    rw [Fragment.getElem?_row (hwidth place hplace),
      Fragment.cell_append_of_not_mem_right (hg g List.mem_cons_self place hplace)]
  simp only [List.map_cons, List.head?_cons, Option.map_some, hcell] at hhead
  obtain ⟨row, hrow, hcell⟩ := Option.map_eq_some_iff.1 hhead
  have hgroup : RowGroup.node ⟨tables, index, R⟩ = node := by
    rw [RowGroup.node, List.getD_eq_getElem?_getD, hnode]
    rfl
  simp only [Cursor.columnCell, hgroup, hname]
  rw [RowGroup.firstCell, hrow, Option.bind_some, hcell]
  rfl

/-- The concrete type that an entity has is found from its rows. -/
theorem concreteType_of_hasType {path : List String} {type : TypeRef} {concrete : String}
    (htype : node.HasType r path type.underlying (node.fragment cells) concrete)
    (hcolumn : ∀ name place, node.column? name = some place →
      (Cursor.mk path type (.table r (.rows ⟨tables, index, R⟩))).columnCell
        (.rows ⟨tables, index, R⟩) name = .ok ((node.fragment cells).cell place)) :
    (Cursor.mk path type (.table r (.rows ⟨tables, index, R⟩))).concreteType = .ok concrete := by
  rcases htype with ⟨hconcrete, rfl⟩ | ⟨habstract, column, cases, place, choice, hmapped, hplace,
    hfound⟩
  · simp [Cursor.concreteType, Cursor.schema, hconcrete]
  · simp only [Cursor.concreteType, Cursor.schema, habstract, if_true, Cursor.entityType, hmapped,
      hcolumn _ _ hplace, bind, Except.bind, hfound]
    rfl

/-- A tree is read back from rows that agree with those of entities, as far as rows with a key
are concerned. -/
def NodeTree.ReadsBack (r : TableRegistry) (tables : List TableNode) (width : Nat)
    (t : NodeTree) : Prop :=
  ∀ (path : List String) (type : TypeRef) (R : List Row) (entities : List Entity),
    (∀ e ∈ entities, t.Holds e) → (entities.map t.key).Nodup →
    (∀ e ∈ entities, t.Typed r path type.underlying e) →
    SameFirst (view t.places) (R.filter fun row => (RowGroup.keyAt? t.node row).isSome)
      (t.rows width entities) →
    (Cursor.mk path type (.table r (.rows ⟨tables, t.index, R⟩))).elements.mapM
      (fun e => t.read e) = .ok entities

/-- The object fields of an entity are read back from rows that agree with their combinations. -/
def Branches.ReadsBack (r : TableRegistry) (tables : List TableNode) (width : Nat)
    (b : Branches) : Prop :=
  ∀ (path : List String) (type : TypeRef) (concrete : String) (index : Nat) (node : TableNode)
    (R : List Row) (lists : List (List Entity)),
    tables[index]? = some node → (∀ link ∈ b.links, node.child? link.1 = some link.2) →
    (Cursor.mk path type (.table r (.rows ⟨tables, index, R⟩))).concreteType = .ok concrete →
    b.Hold lists → b.Typed r path concrete lists →
    SameFirst (view b.places) R ((b.combinations lists).map (Fragment.row width)) →
    b.read (Cursor.mk path type (.table r (.rows ⟨tables, index, R⟩))) = .ok lists

variable {children : Branches}

/-- An entity is read back from rows that agree with its own. -/
theorem NodeTree.read_entity (hnode : tables[index]? = some node) (hn : node.Sound)
    (hlinks : node.children = children.links)
    (hplaces : (NodeTree.mk index node children).places.Nodup)
    (hwidth : ∀ p ∈ (NodeTree.mk index node children).places, p < width)
    (hchildren : children.ReadsBack r tables width) {path : List String} {type : TypeRef}
    {e : Entity} (he : (NodeTree.mk index node children).Holds e)
    (htyped : (NodeTree.mk index node children).Typed r path type.underlying e)
    (hrows : SameFirst (view (NodeTree.mk index node children).places) R
      (((NodeTree.mk index node children).flatten e).map (Fragment.row width))) :
    (NodeTree.mk index node children).read
      (Cursor.mk path type (.table r (.rows ⟨tables, index, R⟩))) = .ok e := by
  obtain ⟨cells, lists⟩ := e
  rw [NodeTree.holds_mk] at he
  rw [NodeTree.typed_mk] at htyped
  rw [NodeTree.flatten] at hrows
  rw [NodeTree.places] at hplaces hwidth hrows
  obtain ⟨hlen, hkeys, hlists⟩ := he
  obtain ⟨concrete, hconcrete, htypes⟩ := htyped
  obtain ⟨hown, hbelow, hdisjoint⟩ := List.nodup_append.1 hplaces
  have hcolumn (name : String) (place : Nat) (hname : node.column? name = some place) :
      (Cursor.mk path type (.table r (.rows ⟨tables, index, R⟩))).columnCell
        (.rows ⟨tables, index, R⟩) name = .ok ((node.fragment cells).cell place) := by
    refine columnCell_of_rows hnode (fun p hp => hwidth p (List.mem_append_left _ hp))
      (Branches.combinations_ne_nil children lists) ?_
      (hrows.mono (view_factorsThrough fun p hp => List.mem_append_left _ hp)) hname
    intro g hg p hp hpg
    exact hdisjoint p hp p (Branches.places_of_combinations hg hpg) rfl
  have hcells : node.columns.mapM (fun column =>
      (Cursor.mk path type (.table r (.rows ⟨tables, index, R⟩))).column column.1) =
        .ok cells := by
    have hmap : (node.columns.map fun column => (node.fragment cells).cell column.2) = cells := by
      have := TableNode.map_cell_fragment hown hlen
      rwa [TableNode.places, List.map_map] at this
    rw [mapM_eq_pure (g := fun column => (node.fragment cells).cell column.2), hmap]
    · rfl
    · intro column hmem
      exact hcolumn _ _ (TableNode.column?_of_mem hn hmem)
  have hfields : children.read
      (Cursor.mk path type (.table r (.rows ⟨tables, index, R⟩))) = .ok lists := by
    refine hchildren path type concrete index node R lists hnode ?_
      (concreteType_of_hasType hconcrete hcolumn) hlists htypes ?_
    · intro link hlink
      exact TableNode.child?_of_mem hn (hlinks ▸ hlink)
    · refine (hrows.mono (view_factorsThrough fun p hp => List.mem_append_right _ hp)).trans ?_
      have hsame : ((children.combinations lists).map (node.fragment cells ++ ·)).map
          (fun f => view children.places (f.row width)) =
          (children.combinations lists).map fun g => view children.places (g.row width) := by
        rw [List.map_map]
        refine List.map_congr_left fun g _ => ?_
        refine Fragment.view_row_append_right
          (fun p hp => hwidth p (List.mem_append_right _ hp)) fun p hp hpf => ?_
        exact hdisjoint p (TableNode.fst_fragment_subset hpf) p hp rfl
      unfold SameFirst
      simp only [List.map_map] at hsame ⊢
      exact congrArg firstSeen hsame
  rw [NodeTree.read, hcells]
  simp only [bind, Except.bind, hfields]
  rfl

theorem NodeTree.readsBack (hnode : tables[index]? = some node) (hn : node.Sound)
    (hlinks : node.children = children.links)
    (hplaces : (NodeTree.mk index node children).places.Nodup)
    (hwidth : ∀ p ∈ (NodeTree.mk index node children).places, p < width)
    (hchildren : children.ReadsBack r tables width) :
    (NodeTree.mk index node children).ReadsBack r tables width := by
  intro path type R entities hholds hkeys htyped hrows
  let t := NodeTree.mk index node children
  have hgroup : RowGroup.node ⟨tables, index, R⟩ = node := by
    rw [RowGroup.node, List.getD_eq_getElem?_getD, hnode]
    rfl
  have hkeyed : ∀ p ∈ node.keys, p ∈ t.places := fun p hp =>
    List.mem_append_left _ (hn.keys p hp)
  have hkey : ∀ e ∈ entities, ∀ row ∈ (t.flatten e).map (Fragment.row width),
      RowGroup.keyAt? node row = some (t.key e) := fun e he row hrow =>
    NodeTree.keyAt?_of_mem_flatten hn hplaces hwidth (hholds e he) hrow
  have hne : ∀ e ∈ entities, (t.flatten e).map (Fragment.row width) ≠ [] := fun e _ => by
    simpa using NodeTree.flatten_ne_nil t e
  have hseen : firstSeen (R.filterMap (RowGroup.keyAt? node)) = entities.map t.key := by
    have hfound := hrows.filterMap_eq (RowGroup.keyAt?_factorsThrough hkeyed)
    rw [NodeTree.rows, List.map_flatMap, firstSeen_keys hne hkey hkeys, List.filterMap_filter]
      at hfound
    rw [← hfound]
    congr 2
    funext row
    cases hrow : RowGroup.keyAt? node row <;> simp [NodeTree.node, hrow]
  have hentity : ∀ e ∈ entities, t.read (Cursor.mk path type.element (.table r (.rows
      ⟨tables, index, R.filter fun row => RowGroup.keyAt? node row = some (t.key e)⟩))) =
        .ok e := by
    intro e he
    refine NodeTree.read_entity hnode hn hlinks hplaces hwidth hchildren (hholds e he)
      (by rw [TypeRef.underlying_element]; exact htyped e he) ?_
    have hthis := hrows.filter (p := fun row => RowGroup.keyAt? node row = some (t.key e))
      fun a b hab => by
        simp only [RowGroup.keyAt?_factorsThrough (n := node) hkeyed hab]
    rw [NodeTree.rows, List.map_flatMap, filter_key_flatMap hkey hkeys he, List.filter_filter]
      at hthis
    refine Eq.trans ?_ hthis
    congr 3
    funext row
    cases hrow : RowGroup.keyAt? node row <;> simp [NodeTree.node, hrow]
  have helements : (Cursor.mk path type (.table r (.rows ⟨tables, index, R⟩))).elements =
      entities.map fun e => Cursor.mk path type.element (.table r (.rows
        ⟨tables, index, R.filter fun row => RowGroup.keyAt? node row = some (t.key e)⟩)) := by
    have hkeyOf : RowGroup.key? ⟨tables, index, R⟩ = RowGroup.keyAt? node := by
      rw [RowGroup.key?, hgroup]
    simp only [Cursor.elements, RowGroup.entities_eq, hkeyOf, hseen, List.map_map]
    rfl
  change List.mapM _ (Cursor.mk path type (.table r (.rows ⟨tables, index, R⟩))).elements = _
  rw [helements, List.mapM_map]
  refine (mapM_eq_pure (g := id) hentity).trans ?_
  rw [List.map_id]
  rfl

theorem field_of_joined {path : List String} {type : TypeRef} {concrete field own : String}
    {hops : List Hop} {f : FieldDefinition} {child : Nat} (hnode : tables[index]? = some node)
    (hchild : node.child? field = some child)
    (hconcrete :
      (Cursor.mk path type (.table r (.rows ⟨tables, index, R⟩))).concreteType = .ok concrete)
    (hsource : r.sourceField? path concrete field = some (.joined own hops))
    (hfield : r.schema.field? concrete field = some f) :
    (Cursor.mk path type (.table r (.rows ⟨tables, index, R⟩))).field field =
      .ok (Cursor.mk (path ++ [field]) f.type (.table r (.rows ⟨tables, child, R⟩))) := by
  have hgroup : RowGroup.node ⟨tables, index, R⟩ = node := by
    rw [RowGroup.node, List.getD_eq_getElem?_getD, hnode]
    rfl
  simp [Cursor.field, Cursor.sourceField, hconcrete, hsource, SourceField.hidden,
    TableField.hidden, Cursor.fieldType, Cursor.schema, hfield, Cursor.fieldExtent, hgroup, hchild,
    bind, Except.bind, pure, Except.pure, RowGroup.seenAs]

theorem NodeTree.rows_of_block {t : NodeTree} (hn : t.node.Sound)
    (hwidth : ∀ p ∈ t.node.places, p < width) {entities : List Entity}
    (hkeyed : ∀ row ∈ t.rows width entities, (RowGroup.keyAt? t.node row).isSome = true) :
    (((t.block entities).map (Fragment.row width)).filter fun row =>
      (RowGroup.keyAt? t.node row).isSome) = t.rows width entities := by
  cases entities with
  | nil =>
    have hnone := TableNode.keyAt?_row_nil hn hwidth
    simp [block, rows, hnone]
  | cons e entities =>
    have hblock : t.block (e :: entities) = (e :: entities).flatMap t.flatten := by
      simp [block]
    rw [hblock, ← rows, List.filter_eq_self]
    exact hkeyed

theorem Branches.readsBack_cons {field : String} {i : Nat} {n : TableNode} {below rest : Branches}
    (hplaces : (Branches.cons field (.mk i n below) rest).places.Nodup)
    (hwidth : ∀ p ∈ (Branches.cons field (.mk i n below) rest).places, p < width)
    (hn : n.Sound) (ht : (NodeTree.mk i n below).ReadsBack r tables width)
    (hrest : rest.ReadsBack r tables width) :
    (Branches.cons field (.mk i n below) rest).ReadsBack r tables width := by
  intro path type concrete index node R lists hparent hlinks hconcrete hhold htyped hrows
  let t := NodeTree.mk i n below
  rw [Branches.places] at hplaces hwidth hrows
  obtain ⟨htree, -, hdisjoint⟩ := List.nodup_append.1 hplaces
  have htreeWidth : ∀ p ∈ t.places, p < width := fun p hp => hwidth p (List.mem_append_left _ hp)
  cases lists with
  | nil =>
    exact absurd hhold Branches.not_hold_cons_nil
  | cons entities lists =>
    rw [Branches.hold_cons] at hhold
    rw [Branches.typed_cons] at htyped
    rw [Branches.combinations_cons] at hrows
    obtain ⟨hholds, hkeys, hlists⟩ := hhold
    obtain ⟨⟨own, hops, f, hsource, hfield, htypes⟩, htypesRest⟩ := htyped
    have hnext := field_of_joined hparent (hlinks (field, i) (by simp [links])) hconcrete hsource
      hfield
    have hown : SameFirst (view t.places) R ((t.block entities).map (Fragment.row width)) := by
      refine (hrows.mono (view_factorsThrough fun p hp => List.mem_append_left _ hp)).trans ?_
      refine sameFirst_product_left htreeWidth (Branches.combinations_ne_nil rest lists) ?_
      intro g hg p hp hpg
      exact hdisjoint p hp p (Branches.places_of_combinations hg hpg) rfl
    have hothers : SameFirst (view rest.places) R
        ((rest.combinations lists).map (Fragment.row width)) := by
      refine (hrows.mono (view_factorsThrough fun p hp => List.mem_append_right _ hp)).trans ?_
      refine sameFirst_product_right (fun p hp => hwidth p (List.mem_append_right _ hp))
        (NodeTree.block_ne_nil _ entities) ?_
      intro g hg p hp hpg
      exact hdisjoint p (NodeTree.places_of_block hg hpg) p hp rfl
    have hkeyed : ∀ row ∈ t.rows width entities, (RowGroup.keyAt? n row).isSome = true := by
      intro row hrow
      rw [NodeTree.rows, List.map_flatMap] at hrow
      obtain ⟨e, he, hrow⟩ := List.mem_flatMap.1 hrow
      rw [NodeTree.keyAt?_of_mem_flatten hn htree htreeWidth (hholds e he) hrow]
      rfl
    have hread : (Cursor.mk (path ++ [field]) f.type
        (.table r (.rows ⟨tables, i, R⟩))).elements.mapM (fun e => t.read e) = .ok entities := by
      refine ht (path ++ [field]) f.type R entities hholds hkeys htypes ?_
      have hfiltered := hown.filter (p := fun row => (RowGroup.keyAt? n row).isSome) fun a b hab =>
        congrArg Option.isSome (RowGroup.keyAt?_factorsThrough
          (fun p hp => List.mem_append_left _ (hn.keys p hp)) hab)
      have hblock := NodeTree.rows_of_block (t := t) hn
        (fun p hp => htreeWidth p (List.mem_append_left _ hp)) hkeyed
      exact hfiltered.trans (SameFirst.of_eq _ hblock)
    have hreadRest := hrest path type concrete index node R lists hparent
      (fun link hlink => hlinks link (by simp [links, hlink])) hconcrete hlists htypesRest hothers
    rw [Branches.read]
    exact bind_eq_ok.2 ⟨_, hnext, bind_eq_ok.2 ⟨_, hread, bind_eq_ok.2 ⟨_, hreadRest, rfl⟩⟩⟩

theorem Branches.readsBack_nil : Branches.nil.ReadsBack r tables width := by
  intro path type concrete index node R lists _ _ _ hhold _ _
  rw [Branches.hold_nil] at hhold
  subst hhold
  rfl

end Reading

mutual

theorem NodeTree.readsBack_of_among (r : TableRegistry) {tables : List TableNode} {width : Nat}
    (t : NodeTree) (hamong : t.Among tables) (hplaces : t.places.Nodup)
    (hwidth : ∀ p ∈ t.places, p < width) : t.ReadsBack r tables width := by
  match t with
  | .mk index node children =>
    rw [NodeTree.Among] at hamong
    obtain ⟨hnode, hn, hlinks, hchildren⟩ := hamong
    have hbelow := Branches.readsBack_of_among r children hchildren
      (List.nodup_append.1 hplaces).2.1 fun p hp => hwidth p (List.mem_append_right _ hp)
    exact NodeTree.readsBack hnode hn hlinks hplaces hwidth hbelow

theorem Branches.readsBack_of_among (r : TableRegistry) {tables : List TableNode} {width : Nat}
    (b : Branches) (hamong : b.Among tables) (hplaces : b.places.Nodup)
    (hwidth : ∀ p ∈ b.places, p < width) : b.ReadsBack r tables width := by
  match b with
  | .nil => exact Branches.readsBack_nil
  | .cons field (.mk i n below) rest =>
    rw [Branches.Among] at hamong
    obtain ⟨htree, hrest⟩ := hamong
    obtain ⟨htreePlaces, hrestPlaces, -⟩ := List.nodup_append.1 hplaces
    have ht := NodeTree.readsBack_of_among r (.mk i n below) htree htreePlaces
      fun p hp => hwidth p (List.mem_append_left _ hp)
    have hr := Branches.readsBack_of_among r rest hrest hrestPlaces
      fun p hp => hwidth p (List.mem_append_right _ hp)
    rw [NodeTree.Among] at htree
    exact Branches.readsBack_cons hplaces hwidth htree.2.1 ht hr

end

/-- Reading undoes flattening: the elements at the root, read with their columns and, field by
field, the elements below them, are the entities that the rows were made of. -/
theorem reading_undoes_flattening (r : TableRegistry) {tables : List TableNode} {t : NodeTree} {width : Nat}
    {entities : List Entity} {path : List String} {type : TypeRef} (hamong : t.Among tables)
    (hplaces : t.places.Nodup) (hwidth : ∀ p ∈ t.places, p < width)
    (hholds : ∀ e ∈ entities, t.Holds e) (hkeys : (entities.map t.key).Nodup)
    (htyped : ∀ e ∈ entities, t.Typed r path type.underlying e) :
    (Cursor.mk path type (.table r (.rows ⟨tables, t.index, t.rows width entities⟩))).elements.mapM
      (fun e => t.read e) = .ok entities := by
  refine NodeTree.readsBack_of_among r t hamong hplaces hwidth path type _ entities hholds hkeys
    htyped ?_
  have hall : ((t.rows width entities).filter fun row =>
      (RowGroup.keyAt? t.node row).isSome) = t.rows width entities := by
    rw [List.filter_eq_self]
    intro row hrow
    obtain ⟨index, node, children⟩ := t
    rw [NodeTree.Among] at hamong
    rw [NodeTree.rows, List.map_flatMap] at hrow
    obtain ⟨e, he, hrow⟩ := List.mem_flatMap.1 hrow
    have hkey := NodeTree.keyAt?_of_mem_flatten hamong.2.1 hplaces hwidth (hholds e he) hrow
    exact Option.isSome_iff_exists.2 ⟨_, hkey⟩
  exact SameFirst.of_eq _ hall

namespace Countries

/-- Countries with their cities and languages. -/
def registry : TableRegistry where
  schema := Schema.ofTypes [
    .object ⟨"Country", [⟨"cities", [], .list (.named "City")⟩,
      ⟨"languages", [], .list (.named "Language")⟩], []⟩,
    .object ⟨"City", [], []⟩, .object ⟨"Language", [], []⟩] "Query"
  types := [.object ⟨"Country", [
    .source (.joined "cities" [⟨⟨"country", "code"⟩, ⟨"city", "country"⟩⟩]),
    .source (.joined "languages" [⟨⟨"country", "code"⟩, ⟨"language", "country"⟩⟩])]⟩]
  elaborators := []

def city : TableNode := ⟨"t1", "city", [1], [("id", 1), ("name", 2)], [], false⟩

def language : TableNode := ⟨"t2", "language", [3], [("name", 3)], [], false⟩

def country : TableNode :=
  ⟨"t0", "country", [0], [("code", 0)], [("cities", 1), ("languages", 2)], false⟩

def tree : NodeTree :=
  .mk 0 country (.cons "cities" (.mk 1 city .nil) (.cons "languages" (.mk 2 language .nil) .nil))

/-- A country with two cities and two languages, and one with a language only. -/
def forest : List Entity :=
  [.mk [.text "FR"] [
      [.mk [.integer 1, .text "Paris"] [], .mk [.integer 2, .null] []],
      [.mk [.text "French"] [], .mk [.text "Breton"] []]],
    .mk [.text "MC"] [[], [.mk [.text "French"] []]]]

theorem reads_forest :
    (Cursor.mk ["countries"] (.list (.named "Country")) (.table registry
      (.rows ⟨[country, city, language], 0, tree.rows 4 forest⟩))).elements.mapM
        (fun e => tree.read e) = .ok forest := by
  have hsound : country.Sound ∧ city.Sound ∧ language.Sound := by
    refine ⟨⟨?_, ?_, ?_, ?_⟩, ⟨?_, ?_, ?_, ?_⟩, ⟨?_, ?_, ?_, ?_⟩⟩ <;> decide
  refine reading_undoes_flattening registry (t := tree) ?_ (by decide) (by decide) ?_ (by decide)
    ?_
  · exact ⟨rfl, hsound.1, rfl, ⟨rfl, hsound.2.1, rfl, trivial⟩, ⟨rfl, hsound.2.2, rfl, trivial⟩,
      trivial⟩
  · simp [forest, tree, NodeTree.key, country, city, language, TableNode.fragment,
      TableNode.places, Fragment.cell, Cell.isNull, List.lookup_cons]
  · have hleaf (i : Nat) (n : TableNode) (path : List String) {type : String}
        (h : registry.schema.isAbstract type = false) (e : Entity) :
        (NodeTree.mk i n .nil).Typed registry path type e := by
      obtain ⟨cells, lists⟩ := e
      exact NodeTree.typed_mk.2 ⟨type, .inl ⟨h, rfl⟩, Branches.typed_nil⟩
    have hcountry (cells : List Cell) (cities languages : List Entity) :
        tree.Typed registry ["countries"] "Country" (.mk cells [cities, languages]) := by
      refine NodeTree.typed_mk.2 ⟨"Country", .inl ⟨by rfl, rfl⟩, Branches.typed_cons.2 ⟨?_,
        Branches.typed_cons.2 ⟨?_, Branches.typed_nil⟩⟩⟩
      · exact ⟨_, _, _, by rfl, by rfl, fun e _ => hleaf 1 city _ (by rfl) e⟩
      · exact ⟨_, _, _, by rfl, by rfl, fun e _ => hleaf 2 language _ (by rfl) e⟩
    intro e he
    simp only [forest, List.mem_cons, List.not_mem_nil, or_false] at he
    rcases he with rfl | rfl <;> exact hcountry _ _ _

end Countries

end MappedQuery.Sql
