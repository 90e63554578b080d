import MappedQuery.Mapping.Rules
import MappedQuery.Mapping.Validation
import MappedQuery.Proofs.ResidualLists
import MappedQuery.Proofs.Supply

/-!
# The columns that a plan selects

A node is added with the columns of its keys and, for an abstract type, of its discriminator. After
that planning selects a column of a node for one of two reasons: a field of the query is read from
it, or something is delegated at the node and the type that it is delegated for maps a field to the
column itself. `Plan.columnUses` lists these uses, found by walking the query along the nodes of the
plan, and `columnsFor` says what they select. Mappings that a type inherits from its interfaces
select nothing where something is delegated, though joins that read the parent do find them.
-/
namespace MappedQuery

namespace Sql

open Planning

section Gains

/-- Nodes have become others by selecting columns of one of them. -/
structure Gains (nodes : List TableNode) (i : Nat) (names : List String) (nodes' : List TableNode) :
    Prop where
  length : nodes'.length = nodes.length
  node : ∀ (j : Nat) (n' : TableNode), nodes'[j]? = some n' → ∃ n, nodes[j]? = some n ∧
    n'.table = n.table ∧ ∀ name, (n'.column? name).isSome = true ↔
      (n.column? name).isSome = true ∨ j = i ∧ name ∈ names

namespace Gains

variable {nodes nodes' nodes'' : List TableNode} {i : Nat} {names names' : List String}

theorem refl (nodes : List TableNode) (i : Nat) : Gains nodes i [] nodes :=
  ⟨rfl, fun _ n hn => ⟨n, hn, rfl, by simp⟩⟩

theorem trans (h : Gains nodes i names nodes') (h' : Gains nodes' i names' nodes'') :
    Gains nodes i (names ++ names') nodes'' := by
  refine ⟨h'.length.trans h.length, fun j n'' hn'' => ?_⟩
  obtain ⟨n', hn', htable', hcolumns'⟩ := h'.node j n'' hn''
  obtain ⟨n, hn, htable, hcolumns⟩ := h.node j n' hn'
  refine ⟨n, hn, htable'.trans htable, fun name => ?_⟩
  rw [hcolumns', hcolumns, List.mem_append]
  constructor
  · rintro ((hold | ⟨hj, hname⟩) | ⟨hj, hname⟩)
    · exact .inl hold
    · exact .inr ⟨hj, .inl hname⟩
    · exact .inr ⟨hj, .inr hname⟩
  · rintro (hold | ⟨hj, hname | hname⟩)
    · exact .inl (.inl hold)
    · exact .inl (.inr ⟨hj, hname⟩)
    · exact .inr ⟨hj, hname⟩

/-- A node that is changed otherwise gains no columns. -/
theorem updateNode (h : Gains nodes i names nodes') {d : Draft} (hnodes : d.nodes = nodes') (l : Nat)
    {f : TableNode → TableNode} (hf : ∀ n, (f n).table = n.table ∧ (f n).columns = n.columns) :
    Gains nodes i names (d.updateNode l f).nodes := by
  have hnone : Gains nodes' i [] (d.updateNode l f).nodes := by
    refine ⟨(List.length_modify ..).trans (congrArg _ hnodes), fun j n' hn' => ?_⟩
    rw [Draft.updateNode_nodes, hnodes] at hn'
    split at hn'
    · obtain ⟨n, hn, rfl⟩ := Option.map_eq_some_iff.1 hn'
      refine ⟨n, hn, (hf n).1, fun name => ?_⟩
      rw [TableNode.column?, (hf n).2]
      simp [TableNode.column?]
    · exact ⟨n', hn', rfl, by simp⟩
  have hall := h.trans hnone
  rwa [List.append_nil] at hall

end Gains

variable {d d' : Draft} {i : Nat} {r : TableRegistry}

theorem TableNode.column?_addColumn_isSome (n : TableNode) (name : String) (place : Nat)
    (other : String) : ((n.addColumn name place).column? other).isSome = true ↔
      (n.column? other).isSome = true ∨ other = name := by
  rw [column?, column?, addColumn, List.find?_append, Option.isSome_map, Option.isSome_map,
    Option.isSome_or, Bool.or_eq_true, List.find?_isSome, List.find?_isSome]
  simp [eq_comm]

namespace Planning

/-- Selecting a column gains it. -/
theorem gains_ownColumn {position : Nat} {field : String} {column : ColumnRef}
    (h : Ends (ownColumn i field column) d position d') : Gains d.nodes i [column.column] d'.nodes := by
  rcases (ends_ownColumn.1 h).2 with ⟨hplace, rfl⟩ | ⟨-, -, rfl⟩
  · refine ⟨rfl, fun j n hn => ⟨n, hn, rfl, fun name => ?_⟩⟩
    constructor
    · exact .inl
    · rintro (hold | ⟨rfl, hname⟩)
      · exact hold
      · rw [List.mem_singleton.1 hname, ← Draft.node_eq hn, hplace]
        rfl
  · refine ⟨List.length_modify .., fun j n' hn' => ?_⟩
    rw [Draft.addColumn, Draft.updateNode_nodes] at hn'
    split at hn'
    · rename_i hij
      obtain ⟨n, hn, rfl⟩ := Option.map_eq_some_iff.1 hn'
      refine ⟨n, hn, rfl, fun name => ?_⟩
      rw [TableNode.column?_addColumn_isSome]
      simp [hij]
    · rename_i hij
      refine ⟨n', hn', rfl, fun name => ?_⟩
      have hne : ¬ j = i := fun heq => hij heq.symm
      simp [hne]

/-- Steps that each gain columns gain them one after the other. -/
theorem gains_forM {α : Type} {f : α → Planning PUnit} {gained : α → List String} {as : List α}
    (step : ∀ a ∈ as, ∀ {d d' : Draft}, Ends (f a) d ⟨⟩ d' →
      Gains d.nodes i (gained a) d'.nodes)
    {u : PUnit} (h : Ends (as.forM f) d u d') :
    Gains d.nodes i (as.flatMap gained) d'.nodes := by
  induction as generalizing d with
  | nil =>
    rw [ends_forM_nil] at h
    subst h
    exact .refl d.nodes i
  | cons a as ih =>
    obtain ⟨d₁, ha, has⟩ := ends_forM_cons.1 h
    rw [List.flatMap_cons]
    exact (step a List.mem_cons_self ha).trans
      (ih (fun b hb => step b (List.mem_cons_of_mem _ hb)) has)

end Planning

/-- The column that a field is mapped to, if it is one of the table. -/
def mappedColumn? (table : String) (f : FieldMapping TableField Unit Mapping) : Option String :=
  match f.source? with
  | some (.column _ column _ _) => if column.table = table then some column.column else none
  | _ => none

/-- The columns of a table that fields are mapped to by the type of a place, without its
interfaces. -/
def mappedColumns (r : TableRegistry) (place : Place) (table : String) : List String :=
  (((r.objectMapping? place.path place.type).map (·.fields)).getD []).flatMap fun f =>
    (mappedColumn? table f).toList

/-- The columns that are selected with a table that is added for a type. -/
def addedColumns (r : TableRegistry) (path : List String) (type : String) : List String :=
  (keyColumns r path type).flatMap (fun key => [key.column]) ++
    if r.schema.isAbstract type then
      match r.sourceField? path type TableField.discriminatorName with
      | some (.discriminator column _) => [column.column]
      | _ => []
    else []

theorem mappedColumn?_of_column {f : FieldMapping TableField Unit Mapping} {own : String}
    {column : ColumnRef} {isKey hidden : Bool}
    (h : f.source? = some (.column own column isKey hidden)) (table : String) :
    mappedColumn? table f = if column.table = table then some column.column else none := by
  rw [mappedColumn?, h]

theorem mappedColumn?_eq_none {f : FieldMapping TableField Unit Mapping}
    (h : ∀ own column isKey hidden, f.source? ≠ some (.column own column isKey hidden))
    (table : String) : mappedColumn? table f = none := by
  unfold mappedColumn?
  split
  · rename_i hsource
    exact absurd hsource (h _ _ _ _)
  · rfl

namespace Planning

theorem gains_selectAllColumns {place : Place} {u : Unit}
    (h : Ends (selectAllColumns r place) d u d') :
    Gains d.nodes place.node (mappedColumns r place (d.node place.node).table) d'.nodes := by
  unfold selectAllColumns at h
  obtain ⟨_, _, hget, h⟩ := ends_bind.1 h
  obtain ⟨rfl, rfl⟩ := ends_get.1 hget
  refine gains_forM (fun f _ d₁ d₂ hf => ?_) h
  split at hf
  · rename_i hsource
    rw [mappedColumn?_of_column hsource]
    split at hf
    · rename_i htable
      obtain ⟨position, hf⟩ := ends_discard.1 hf
      rw [if_pos htable]
      exact gains_ownColumn hf
    · rename_i htable
      obtain ⟨-, rfl⟩ := ends_pure.1 hf
      rw [if_neg htable]
      exact .refl _ _
  · rename_i hother
    obtain ⟨-, rfl⟩ := ends_pure.1 hf
    rw [mappedColumn?_eq_none hother]
    exact .refl _ _

/-- A table is added with nothing selected but what its type needs. -/
theorem gains_addNode {path : List String} {type label : String} {index : Nat}
    (h : Ends (addNode r path type label) d index d') :
    ∃ n : TableNode, n.columns = [] ∧
      Gains (d.nodes ++ [n]) d.nodes.length (addedColumns r path type) d'.nodes := by
  obtain ⟨rfl, first, rest, d₁, -, hloop, hdiscriminator⟩ := ends_addNode h
  refine ⟨⟨label, first.table, [], [], [], false⟩, rfl, ?_⟩
  have hkeyed : Gains (d.nodes ++ [⟨label, first.table, [], [], [], false⟩]) d.nodes.length
      ((keyColumns r path type).flatMap fun key => [key.column]) d₁.nodes := by
    refine gains_forM (fun key _ d₁ d₃ hstep => ?_) hloop
    obtain ⟨position, d₂, hown, hmodify⟩ := ends_bind.1 hstep
    rw [ends_modify] at hmodify
    subst hmodify
    exact (gains_ownColumn hown).updateNode rfl _ fun n => ⟨rfl, rfl⟩
  rcases hdiscriminator with ⟨hconcrete, rfl⟩ | ⟨habstract, column, cases, position, hsource, hown⟩
  · rw [addedColumns, if_neg hconcrete, List.append_nil]
    exact hkeyed
  · rw [addedColumns, if_pos habstract, hsource]
    exact hkeyed.trans (gains_ownColumn hown)

/-- Joining an object field takes a node that is there, or adds one for the type of the field. -/
theorem gains_joinField {place : Place} {field type : String} {hops : List Hop} {filtered : Bool}
    {joined : JoinedField} (h : Ends (joinField r place field type hops filtered) d joined d') :
    d' = d ∨ joined.place.node = d.nodes.length ∧ ∃ n : TableNode, n.columns = [] ∧
      Gains (d.nodes ++ [n]) d.nodes.length (addedColumns r (place.path ++ [field]) type)
        d'.nodes := by
  rcases ends_joinField h with ⟨child, -, -, -, -, hsame⟩ |
    ⟨-, -, label, table, child, d₁, d₂, hhop, hadd, -, rfl, rfl⟩
  · exact .inl hsame
  · obtain ⟨rfl, -, -⟩ := addHops_joins hhop
    obtain ⟨n, hn, hgains⟩ := gains_addNode hadd
    exact .inr ⟨(addNode_gains hadd).1, n, hn, hgains.updateNode rfl _ fun n => ⟨rfl, rfl⟩⟩

end Planning

end Gains

/-- A use of a node by planning, at a place of it. -/
inductive ColumnUse where
  /-- The place is come to, as that of the root or by way of an object field. -/
  | entered (place : Place)
  /-- A field is read from a column. -/
  | field (place : Place) (column : ColumnRef)
  /-- Something is delegated, and its join may read the columns of the place. -/
  | parent (place : Place)
deriving DecidableEq

namespace ColumnUse

def place : ColumnUse → Place
  | entered place | field place _ | parent place => place

/-- The columns of a table that are selected for it. -/
def names (r : TableRegistry) (table : String) : ColumnUse → List String
  | entered _ => []
  | field _ column => [column.column]
  | parent place => mappedColumns r place table

end ColumnUse

/-- The uses of a node. -/
def usesAt (uses : List ColumnUse) (i : Nat) : List ColumnUse :=
  uses.filter fun u => u.place.node = i

/-- The columns of a table that are selected for uses of it. The table is added for the type at the
place of the first. -/
def columnsFor (r : TableRegistry) (table : String) : List ColumnUse → List String
  | [] => []
  | first :: rest =>
    addedColumns r first.place.path first.place.type ++ (first :: rest).flatMap (·.names r table)

/-- What planning a query visits: fields, and components that stand for delegated ones. -/
inductive Visit where
  | field (place : Place) (name : String)
  | component (place : Place)

section Visits

variable (r : TableRegistry)

/-- The uses of nodes by a field: by itself, or by the siblings that it requires. -/
def fieldColumns (nodes : List TableNode) : Nat → Place → String → List ColumnUse
  | steps, place, name =>
    match r.fieldMapping? place.path place.type name with
    | some (.source (.column _ column _ _)) => [.field place column]
    | some (.source (.joined ..)) => (childPlace? r nodes place name).toList.map .entered
    | some (.computed c _) | some (.computedAttribute c) =>
      match steps with
      | 0 => []
      | steps + 1 => c.required.flatMap (fieldColumns nodes steps place)
    | some (.delegate _) => [.parent place]
    | _ => []

def Visit.columns (nodes : List TableNode) (steps : Nat) : Visit → List ColumnUse
  | .field place name => fieldColumns r nodes steps place name
  | .component place => [.parent place]

/-- The fields that operands name. -/
def termVisits (place : Place) : Term → List Visit
  | .path [name] => [.field place name]
  | _ => []

mutual

/-- What planning a query at a place visits, in order. Operands of filters that are pushed are not
planned. -/
def queryVisits (nodes : List TableNode) : Bool → Place → Query → List Visit
  | _, place, .select name _ _ child =>
    if name = "__typename" then []
    else
      .field place name ::
        match childPlace? r nodes place name with
        | some below => queryVisits nodes true below child
        | none => []
  | pushable, place, .filter p child =>
    (if pushable then [] else p.terms.flatMap (termVisits place)) ++
      queryVisits nodes pushable place child
  | pushable, place, .orderBy selections child =>
    (selections.map (·.term)).flatMap (termVisits place) ++ queryVisits nodes pushable place child
  | pushable, place, .unique child => queryVisits nodes pushable place child
  | _, place, .limit _ child => queryVisits nodes false place child
  | _, place, .group queries => allVisits nodes place queries
  | _, place, .narrow type child => queryVisits nodes true { place with type } child
  | _, place, .component .. => [.component place]
  | _, _, .introspect _ | _, _, .empty => []

def allVisits (nodes : List TableNode) : Place → List Query → List Visit
  | _, [] => []
  | place, q :: rest => queryVisits nodes true place q ++ allVisits nodes place rest

end

/-- The uses of nodes by a query that is planned at a place, in the order of planning. -/
def queryColumns (nodes : List TableNode) (steps : Nat) (pushable : Bool) (place : Place)
    (q : Query) : List ColumnUse :=
  (queryVisits r nodes pushable place q).flatMap (Visit.columns r nodes steps)

theorem queryColumns_group (nodes : List TableNode) (steps : Nat) (pushable : Bool) (place : Place)
    (queries : List Query) : queryColumns r nodes steps pushable place (.group queries) =
      (allVisits r nodes place queries).flatMap (Visit.columns r nodes steps) := by
  rw [queryColumns, queryVisits]

end Visits

section Selects

variable {r : TableRegistry} {d d' : Draft} {place : Place} {uses : List ColumnUse}
  {nodes : List TableNode}

theorem usesAt_append (uses : List ColumnUse) (u : ColumnUse) (i : Nat) :
    usesAt (uses ++ [u]) i = usesAt uses i ++ if u.place.node = i then [u] else [] := by
  rw [usesAt, List.filter_append]
  by_cases h : u.place.node = i <;> simp [usesAt, h]

theorem columnsFor_append {us : List ColumnUse} (h : us ≠ []) (table : String) (u : ColumnUse) :
    columnsFor r table (us ++ [u]) = columnsFor r table us ++ u.names r table := by
  cases us with
  | nil => exact absurd rfl h
  | cons first rest => simp [columnsFor]

/-- The nodes of a draft are used, and what was selected of them is what their uses say. -/
structure Draft.Selects (r : TableRegistry) (d : Draft) (uses : List ColumnUse) : Prop where
  closed : d.Closed
  used : ∀ u ∈ uses, u.place.node < d.nodes.length
  reached : ∀ i < d.nodes.length, usesAt uses i ≠ []
  column : ∀ (i : Nat) (n : TableNode), d.nodes[i]? = some n → ∀ name,
    (n.column? name).isSome = true ↔ name ∈ columnsFor r n.table (usesAt uses i)

namespace Draft.Selects

/-- A use of a node that gains columns. -/
theorem gains (h : d.Selects r uses) {u : ColumnUse} {names : List String}
    (hgains : Gains d.nodes u.place.node names d'.nodes) (hclosed : d'.Closed)
    (hu : u.place.node < d.nodes.length)
    (hnames : ∀ n, d.nodes[u.place.node]? = some n → u.names r n.table = names) :
    d'.Selects r (uses ++ [u]) := by
  refine ⟨hclosed, fun v hv => ?_, fun i hi => ?_, fun i n' hn' name => ?_⟩
  · rw [hgains.length]
    rcases List.mem_append.1 hv with hv | hv
    · exact h.used v hv
    · exact List.mem_singleton.1 hv ▸ hu
  · rw [usesAt_append]
    exact List.append_ne_nil_of_left_ne_nil (h.reached i (hgains.length ▸ hi)) _
  · obtain ⟨n, hn, htable, hcolumns⟩ := hgains.node i n' hn'
    have hreached := h.reached i (List.getElem?_eq_some_iff.1 hn).1
    rw [hcolumns, h.column i n hn, htable, usesAt_append]
    by_cases hi : u.place.node = i
    · subst hi
      rw [if_pos rfl, columnsFor_append hreached, hnames n hn, List.mem_append]
      simp
    · have hne : ¬ i = u.place.node := fun heq => hi heq.symm
      rw [if_neg hi, List.append_nil]
      simp [hne]

/-- A node that is not there yet is not used. -/
theorem usesAt_length (h : d.Selects r uses) : usesAt uses d.nodes.length = [] := by
  refine List.filter_eq_nil_iff.2 fun u hu => ?_
  have := h.used u hu
  simp only [decide_eq_true_eq]
  omega

/-- The first use of a node, for which it is added. -/
theorem append (h : d.Selects r uses) {n : TableNode} (hn : n.columns = [])
    (hgains : Gains (d.nodes ++ [n]) d.nodes.length (addedColumns r place.path place.type) d'.nodes)
    (hclosed : d'.Closed) (hplace : place.node = d.nodes.length) :
    d'.Selects r (uses ++ [.entered place]) := by
  have hlength : d'.nodes.length = d.nodes.length + 1 := by
    rw [hgains.length, List.length_append]
    rfl
  refine ⟨hclosed, fun u hu => ?_, fun i hi => ?_, fun i n' hn' name => ?_⟩
  · rcases List.mem_append.1 hu with hu | hu
    · have := h.used u hu
      omega
    · rw [List.mem_singleton.1 hu]
      change place.node < _
      omega
  · rw [usesAt_append]
    rcases Nat.lt_or_ge i d.nodes.length with hlt | hge
    · exact List.append_ne_nil_of_left_ne_nil (h.reached i hlt) _
    · have hi : place.node = i := by omega
      rw [ColumnUse.place, if_pos hi]
      exact List.append_ne_nil_of_right_ne_nil _ (List.cons_ne_nil _ _)
  · obtain ⟨m, hm, htable, hcolumns⟩ := hgains.node i n' hn'
    rw [hcolumns, usesAt_append, ColumnUse.place, htable]
    rcases Nat.lt_or_ge i d.nodes.length with hlt | hge
    · rw [List.getElem?_append_left hlt] at hm
      have hne : ¬ place.node = i := by omega
      rw [h.column i m hm, if_neg hne, List.append_nil]
      have hne' : ¬ i = d.nodes.length := by omega
      simp [hne']
    · have hi : i = d.nodes.length := by
        have := (List.getElem?_eq_some_iff.1 hn').1
        omega
      subst hi
      rw [List.getElem?_append_right le_rfl, Nat.sub_self] at hm
      obtain rfl := Option.some.inj hm
      have hcolumn : n.column? name = none := by simp [TableNode.column?, hn]
      rw [hcolumn, h.usesAt_length, if_pos hplace]
      simp [columnsFor, ColumnUse.names, ColumnUse.place]

/-- What is selected is not changed by pushing conditions. -/
theorem push (h : d.Selects r uses) {node : Nat} (hnode : node < d.nodes.length) (target : Target)
    (c : Condition) : (d.push node target c).Selects r uses := by
  obtain ⟨-, hclosed⟩ := staysClosed_push d node target c hnode h.closed
  have hlength := d.push_length node target c
  refine ⟨hclosed, hlength.symm ▸ h.used, hlength.symm ▸ h.reached, fun i n' hn' name => ?_⟩
  obtain ⟨n, hn, hgrown, -, hcolumns, -⟩ := push_nodes hn'
  rw [TableNode.column?, hcolumns, hgrown.table]
  exact h.column i n hn name

end Draft.Selects

namespace Planning

/-- Planning an object field joins it. -/
theorem ends_planField_joined {steps : Nat} {name own : String} {hops : List Hop} {filtered : Bool}
    {joined? : Option JoinedField}
    (hmapped : r.fieldMapping? place.path place.type name = some (.source (.joined own hops)))
    (h : Ends (planField r steps place name filtered) d joined? d') :
    ∃ f joined, r.schema.field? place.type name = some f ∧ joined? = some joined ∧
      Ends (joinField r place name f.type.underlying hops filtered) d joined d' := by
  unfold planField at h
  rw [hmapped] at h
  dsimp only at h
  split at h
  · rename_i f hf
    obtain ⟨joined, hjoin, rfl⟩ := ends_map.1 h
    exact ⟨f, joined, hf, rfl, hjoin⟩
  · exact absurd h not_ends_throw

theorem selects_selectAllColumns {u : Unit} (h : Ends (selectAllColumns r place) d u d')
    (hd : d.Selects r uses) (hi : place.node < d.nodes.length) :
    d'.Selects r (uses ++ [.parent place]) := by
  have hclosed := (relatesFields_staysClosed r place).toRelatesColumns.selectAllColumns h
  refine hd.gains (gains_selectAllColumns h) (hclosed hi hd.closed).2 hi fun n hn => ?_
  have hn : d.nodes[place.node]? = some n := hn
  change mappedColumns r place n.table = mappedColumns r place (d.node place.node).table
  rw [Draft.node_eq hn]

theorem selects_joinField {field : String} {f : FieldDefinition} {hops : List Hop}
    {filtered : Bool} {joined : JoinedField}
    (h : Ends (joinField r place field f.type.underlying hops filtered) d joined d')
    (hd : d.Selects r uses) (hi : place.node < d.nodes.length) :
    d'.Selects r (uses ++ [.entered joined.place]) := by
  have hjoins := joinField_joins h
  obtain ⟨⟨-, hclosed⟩, hjoined⟩ := hjoins.staysClosed hi hd.closed
  rcases gains_joinField h with rfl | ⟨hnode, n, hn, hgains⟩
  · exact hd.gains (.refl _ _) hclosed hjoined fun _ _ => rfl
  · refine hd.append hn ?_ hclosed hnode
    rw [hjoins.place_eq]
    exact hgains

/-- Where an object field that was joined is planned is found by way of any nodes that the nodes of
the draft grow into. -/
theorem Joins.childPlace? {name own : String} {hops : List Hop} {filtered : Bool}
    {joined : JoinedField} {f : FieldDefinition}
    (h : Joins r place name f.type.underlying hops filtered d joined d')
    (hmapped : r.fieldMapping? place.path place.type name = some (.source (.joined own hops)))
    (hf : r.schema.field? place.type name = some f) (hi : place.node < d.nodes.length)
    (hnodes : GrownInto d'.nodes nodes) : childPlace? r nodes place name = some joined.place := by
  obtain ⟨n, hn, hj⟩ := h.child? (List.getElem?_eq_getElem hi)
  obtain ⟨n', hn', hgrown⟩ := hnodes _ n hn
  rw [childPlace?_joined hmapped hn' (hgrown.child? hj) hf, h.place_eq]

/-- Steps that each add uses add them one after the other. -/
theorem selects_forM {α : Type} {f : α → Planning PUnit} {added : α → List ColumnUse} {as : List α}
    (keeps : ∀ a ∈ as, ∀ {d d' : Draft}, Ends (f a) d ⟨⟩ d' → d.Keeps d')
    (step : ∀ a ∈ as, ∀ {d d' : Draft} {uses : List ColumnUse}, Ends (f a) d ⟨⟩ d' →
      d.Selects r uses → place.node < d.nodes.length → GrownInto d'.nodes nodes →
        d'.Selects r (uses ++ added a))
    {u : PUnit} (h : Ends (as.forM f) d u d') (hd : d.Selects r uses)
    (hi : place.node < d.nodes.length) (hnodes : GrownInto d'.nodes nodes) :
    d'.Selects r (uses ++ as.flatMap added) := by
  induction as generalizing d uses with
  | nil =>
    rw [ends_forM_nil] at h
    subst h
    rw [List.flatMap_nil, List.append_nil]
    exact hd
  | cons a as ih =>
    obtain ⟨d₁, ha, has⟩ := ends_forM_cons.1 h
    have hrest : d₁.Keeps d' := (relatesFields_keeps r place).toRelatesColumns.forM
      (fun b hb _ _ => keeps b (List.mem_cons_of_mem _ hb)) has
    have hd₁ := step a List.mem_cons_self ha hd hi (.of_grows hrest.grows hnodes)
    rw [List.flatMap_cons, ← List.append_assoc]
    exact ih (fun b hb => keeps b (List.mem_cons_of_mem _ hb))
      (fun b hb => step b (List.mem_cons_of_mem _ hb)) has hd₁
      ((keeps a List.mem_cons_self ha).node hi).1

/-- Planning a field adds its uses, as they are found by way of any nodes that the nodes of the
draft grow into. -/
theorem selects_planField (steps : Nat) {name : String} {filtered : Bool}
    {joined? : Option JoinedField} (h : Ends (planField r steps place name filtered) d joined? d')
    (hd : d.Selects r uses) (hi : place.node < d.nodes.length)
    (hnodes : GrownInto d'.nodes nodes) :
    d'.Selects r (uses ++ fieldColumns r nodes steps place name) := by
  induction steps using Nat.strongRecOn generalizing name filtered joined? d d' uses with
  | ind steps ih =>
    have hclosed := (staysClosed_planField h hi hd.closed).2
    cases planField_planned h with
    | column own column isKey hidden position hmapped hcolumn =>
      have huses : fieldColumns r nodes steps place name = [.field place column] := by
        rw [fieldColumns, hmapped]
      rw [huses]
      exact hd.gains (gains_ownColumn hcolumn) hclosed hi fun _ _ => rfl
    | joined own hops f joined hmapped hf hjoins =>
      have huses : fieldColumns r nodes steps place name = [.entered joined.place] := by
        rw [fieldColumns, hmapped]
        dsimp only
        rw [hjoins.childPlace? hmapped hf hi hnodes]
        rfl
      rw [huses]
      obtain ⟨_, _, -, hjoined, hjoin⟩ := ends_planField_joined hmapped h
      cases hjoined
      exact selects_joinField hjoin hd hi
    | @computed steps' _ _ c hmapped hrequired =>
      have huses : fieldColumns r nodes (steps' + 1) place name =
          c.required.flatMap (fieldColumns r nodes steps' place) := by
        rcases hmapped with ⟨hidden, hmapped⟩ | hmapped <;> rw [fieldColumns, hmapped]
      rw [huses]
      refine selects_forM (fun sibling _ d₁ d₂ hsibling => ?_)
        (fun sibling _ d₁ d₂ uses₁ hsibling => ?_) hrequired hd hi hnodes
      · obtain ⟨_, hsibling⟩ := ends_discard.1 hsibling
        exact keeps_planField hsibling
      · obtain ⟨_, hsibling⟩ := ends_discard.1 hsibling
        exact ih steps' (Nat.lt_succ_self _) hsibling
    | delegate delegate hmapped hcolumns =>
      have huses : fieldColumns r nodes steps place name = [.parent place] := by
        rw [fieldColumns, hmapped]
      rw [huses]
      exact selects_selectAllColumns hcolumns hd hi

/-- Planning operands adds their uses. -/
theorem selects_planTerms {steps : Nat} {ts : List Term} {u : Unit}
    (h : Ends (planTerms r steps place ts) d u d') (hd : d.Selects r uses)
    (hi : place.node < d.nodes.length) (hnodes : GrownInto d'.nodes nodes) :
    d'.Selects r (uses ++ (ts.flatMap (termVisits place)).flatMap (Visit.columns r nodes steps)) := by
  rw [List.flatMap_assoc]
  refine selects_forM (fun t _ d₁ d₂ ht => ?_) (fun t _ d₁ d₂ uses₁ ht hd₁ hi₁ hnodes₁ => ?_) h hd
    hi hnodes
  · rcases ends_planTerm ht with ⟨v, -, rfl⟩ | ⟨name, joined?, -, hfield⟩
    · exact .refl d₂
    · exact keeps_planField hfield
  · rcases ends_planTerm ht with ⟨v, rfl, rfl⟩ | ⟨name, joined?, rfl, hfield⟩
    · rw [termVisits, List.flatMap_nil, List.append_nil]
      · exact hd₁
      · simp
    · rw [termVisits, List.flatMap_singleton]
      exact selects_planField steps hfield hd₁ hi₁ hnodes₁

/-- Planning a query grows a draft. -/
theorem QueryPlanned.grows {steps : Nat} {list? : Option ListPlace} {q q' : Query}
    (h : QueryPlanned r steps place list? q d q' d') : d.Grows d' := by
  obtain ⟨conds, -, hkeeps⟩ := h.pushes
  refine Draft.Grows.trans ?_ hkeeps.grows
  cases list? with
  | none => exact .refl d
  | some list =>
    clear hkeeps h
    induction conds generalizing d with
    | nil => exact .refl d
    | cons c conds ih => exact (d.grows_push place.node list.target c).trans ih

/-- Planning a query adds its uses, as they are found by way of any nodes that the nodes of the
draft grow into. -/
theorem QueryPlanned.selects {steps : Nat} {list? : Option ListPlace} {q q' : Query}
    (h : QueryPlanned r steps place list? q d q' d') (hd : d.Selects r uses)
    (hi : place.node < d.nodes.length) (hnodes : GrownInto d'.nodes nodes) :
    d'.Selects r (uses ++ queryColumns r nodes steps (list?.all (·.pushable)) place q) := by
  induction h generalizing uses with
  | @pushed place list p child q d d₁ d' c hpushable hcondition hpush hchild ih =>
    obtain rfl := Draft.ends_pushCondition.1 hpush
    have hgrows := d.grows_push place.node list.target c
    rw [queryColumns, queryVisits, Option.all_some, if_pos hpushable, List.nil_append]
    exact ih (hd.push hi list.target c) (lt_of_grows hgrows hi) hnodes
  | filter hpushable hterms hchild ih =>
    have hd₁ := selects_planTerms hterms hd hi (.of_grows hchild.grows hnodes)
    have hbelow := ih hd₁ ((keeps_planTerms hterms).node hi).1 hnodes
    rw [queryColumns, queryVisits, Option.all_some, hpushable, if_neg Bool.false_ne_true,
      List.flatMap_append, ← List.append_assoc]
    rwa [Option.all_some, hpushable] at hbelow
  | unique hchild ih =>
    rw [queryColumns, queryVisits]
    exact ih hd hi hnodes
  | orderBy hterms hchild ih =>
    have hd₁ := selects_planTerms hterms hd hi (.of_grows hchild.grows hnodes)
    rw [queryColumns, queryVisits, List.flatMap_append, ← List.append_assoc]
    exact ih hd₁ ((keeps_planTerms hterms).node hi).1 hnodes
  | limit hchild ih =>
    rw [queryColumns, queryVisits]
    exact ih hd hi hnodes
  | groupNil =>
    rw [queryColumns_group, allVisits, List.flatMap_nil, List.append_nil]
    exact hd
  | groupCons hfirst hrest ih ihrest =>
    have hd₁ := ih hd hi (.of_grows hrest.grows hnodes)
    have hall := ihrest hd₁ (lt_of_grows hfirst.grows hi) hnodes
    rw [queryColumns_group] at hall
    rw [queryColumns_group, allVisits, List.flatMap_append, ← List.append_assoc]
    exact hall
  | typename =>
    rw [queryColumns, queryVisits, if_pos rfl, List.flatMap_nil, List.append_nil]
    exact hd
  | leaf count hname hfield =>
    have hleaf := childPlace?_eq_none nodes (planField_planned hfield).not_joined
    have hd' := selects_planField steps hfield hd hi hnodes
    rw [queryColumns, queryVisits, if_neg hname, hleaf, List.flatMap_singleton]
    exact ⟨hd'.closed, hd'.used, hd'.reached, hd'.column⟩
  | joined count hname hfield hchild ih =>
    have hd₁ := selects_planField steps hfield hd hi (.of_grows hchild.grows hnodes)
    cases planField_planned hfield with
    | joined own hops f joined hmapped hf hjoins =>
      have hplace := hjoins.childPlace? hmapped hf hi (.of_grows hchild.grows hnodes)
      have hd' := ih hd₁ (hjoins.staysClosed hi hd.closed).2 hnodes
      rw [queryColumns, queryVisits, if_neg hname, hplace, List.flatMap_cons, ← List.append_assoc]
      exact ⟨hd'.closed, hd'.used, hd'.reached, hd'.column⟩
  | narrow hchild ih =>
    rw [queryColumns, queryVisits]
    exact ih hd hi hnodes
  | component hcolumns =>
    rw [queryColumns, queryVisits, List.flatMap_singleton]
    exact selects_selectAllColumns hcolumns hd hi
  | empty =>
    rw [queryColumns, queryVisits, List.flatMap_nil, List.append_nil]
    exact hd

end Planning

end Selects

/-- The column of a field is among those of its table, if the type maps the field itself. -/
theorem mem_mappedColumns {r : TableRegistry} {place : Place} {name own : String}
    {column : ColumnRef} {isKey hidden : Bool}
    (h : (r.objectMapping? place.path place.type).bind (·.field? name) =
      some (.source (.column own column isKey hidden))) :
    column.column ∈ mappedColumns r place column.table := by
  obtain ⟨m, hm, hfield⟩ := Option.bind_eq_some_iff.1 h
  rw [mappedColumns, hm]
  refine List.mem_flatMap.2 ⟨_, List.mem_of_find?_eq_some hfield, ?_⟩
  simp [mappedColumn?, FieldMapping.source?]

end Sql

namespace Cursor

/-- What a join reads of a field that is mapped to a column: it has one that is visible at a
position below the cursor, and one that is hidden as an attribute. -/
def Reads (c : Cursor) (r : TableRegistry) (type name : String) (hidden : Bool)
    (outcome : Except Fault Sql.Cell) : Prop :=
  if hidden then c.attributeValue name = Sql.Cell.toValue <$> outcome
  else ∀ f, r.schema.field? type name = some f → c.field name =
    (fun cell => ⟨c.path ++ [name], f.type, .table r (.cell cell)⟩) <$> outcome

variable {c : Cursor} {r : TableRegistry} {group : Sql.RowGroup} {type name own : String}
  {column : ColumnRef} {isKey hidden : Bool}

/-- Joins read what is in the column, if it was selected. -/
theorem reads_columnCell (hfocus : c.focus = .table r (.rows group))
    (hconcrete : c.concreteType = .ok type)
    (hmapped : r.fieldMapping? c.path type name =
      some (.source (.column own column isKey hidden))) :
    c.Reads r type name hidden (c.columnCell (.rows group) column.column) := by
  unfold Reads
  split
  · rename_i hhidden
    have hattribute : c.attribute? type name =
        some (.hidden (Sql.Cell.toValue <$> c.columnCell (.rows group) column.column)) := by
      rw [attribute?, hfocus]
      simp [declaredAttribute?, hmapped, SourceField.hidden, TableField.hidden, hhidden,
        TableField.column?]
    rw [attributeValue, attributeWithin, hconcrete]
    simp only [bind, Except.bind, hattribute]
  · rename_i hvisible
    intro f hf
    have hsource : c.sourceField r name = .ok (type, .column own column isKey hidden) := by
      rw [sourceField, hconcrete]
      simp [bind, Except.bind, Registry.sourceField?, hmapped, FieldMapping.source?,
        SourceField.hidden, TableField.hidden, hvisible, pure, Except.pure]
    have htype : c.fieldType type name = .ok f.type := by
      rw [fieldType, schema, hfocus]
      simp only [hf]
    rw [field_table hfocus, hsource]
    simp only [bind, Except.bind, htype, fieldExtent]
    cases c.columnCell (.rows group) column.column <;> rfl

end Cursor

namespace Sql.Plan

open Planning

variable {r : TableRegistry} {field : String} {type : TypeRef} {child : Query} {plan : Plan}

/-- The uses of nodes by a plan, in the order of planning. -/
def columnUses (r : TableRegistry) (field : String) (type : TypeRef) (child : Query)
    (plan : Plan) : List ColumnUse :=
  .entered ⟨0, [field], type.underlying⟩ ::
    queryColumns r plan.nodes (r.allFields.length + 1) true ⟨0, [field], type.underlying⟩ child

theorem build_selects (h : Plan.build r field type child = .ok plan) :
    ∃ d : Draft, plan = d.toPlan plan.residual ∧ d.Selects r (plan.columnUses r field type child) := by
  rw [build_eq_buildWithin] at h
  unfold buildWithin at h
  obtain ⟨⟨residual, d'⟩, hplanning, h⟩ := bind_eq_ok.1 h
  obtain rfl := pure_eq_ok.1 h
  obtain ⟨label, d₀, hlabel, hplanning⟩ := ends_bind.1 hplanning
  obtain ⟨root, d, hroot, hplanning⟩ := ends_bind.1 hplanning
  have hstarts : Starts r field type ⟨root, [field], type.underlying⟩ d :=
    ⟨label, root, d₀, hlabel, hroot, rfl⟩
  obtain ⟨hlt, hclosed⟩ := hstarts.closed
  obtain ⟨rfl, rfl⟩ := ends_nextLabel.1 hlabel
  obtain ⟨n, hn, hgains⟩ := gains_addNode hroot
  obtain ⟨rfl, -⟩ := addNode_gains hroot
  have hnone : Draft.Selects r { Draft.empty with labels := 1 } [] :=
    ⟨nofun, nofun, fun _ hi => absurd hi (Nat.not_lt_zero _), nofun⟩
  have hd : d.Selects r ([] ++ [.entered ⟨0, [field], type.underlying⟩]) :=
    hnone.append hn hgains hclosed rfl
  exact ⟨d', rfl, (planQuery_planned hplanning).selects hd hlt fun i n hn => ⟨n, hn, .refl n⟩⟩

/-- The columns that a plan selects of a table are those that its uses ask for. So wherever
something is delegated, the columns that the type there maps fields to itself are selected; a field
that it inherits may be mapped to a column that is not. A join reads what is in the first row of its
parent from a column that is selected, and fails for one that is not. -/
theorem parents_give_what_is_selected (h : Plan.build r field type child = .ok plan) :
    (∀ (i : Nat) (n : TableNode), plan.nodes[i]? = some n → ∀ name,
      (n.column? name).isSome = true ↔
        name ∈ columnsFor r n.table (usesAt (plan.columnUses r field type child) i)) ∧
    ∀ place, .parent place ∈ plan.columnUses r field type child →
      ∃ n, plan.nodes[place.node]? = some n ∧ ∀ name own column isKey hidden,
        r.fieldMapping? place.path place.type name =
          some (.source (.column own column isKey hidden)) → column.table = n.table →
        ((r.objectMapping? place.path place.type).bind (·.field? name) =
          some (.source (.column own column isKey hidden)) →
            (n.column? column.column).isSome = true) ∧
        ∀ (c : Cursor) (rows : List Row), c.path = place.path →
          c.focus = .table r (.rows ⟨plan.nodes, place.node, rows⟩) →
            c.concreteType = .ok place.type →
              match n.column? column.column with
              | some position => c.Reads r place.type name hidden
                  (.ok (RowGroup.firstCell ⟨plan.nodes, place.node, rows⟩ position))
              | none => c.Reads r place.type name hidden
                  (.error (.interpreter (.columnNotSelected n.table column.column))) := by
  obtain ⟨d, hplan, hd⟩ := build_selects h
  have hnodes : plan.nodes = d.nodes := by
    rw [hplan]
    rfl
  refine ⟨fun i n hn => hd.column i n (hnodes ▸ hn), fun place hplace => ?_⟩
  have hlt : place.node < d.nodes.length := hd.used _ hplace
  obtain ⟨n, hn⟩ : ∃ n, plan.nodes[place.node]? = some n := by
    rw [hnodes]
    exact ⟨_, List.getElem?_eq_getElem hlt⟩
  refine ⟨n, hn, fun name own column isKey hidden hmapped htable => ⟨fun hown => ?_, ?_⟩⟩
  · have hmem : .parent place ∈ usesAt (plan.columnUses r field type child) place.node :=
      List.mem_filter.2 ⟨hplace, decide_eq_true rfl⟩
    refine (hd.column place.node n (hnodes ▸ hn) column.column).2 ?_
    revert hmem
    cases usesAt (plan.columnUses r field type child) place.node with
    | nil => nofun
    | cons first rest =>
      intro hmem
      exact List.mem_append_right _
        (List.mem_flatMap.2 ⟨_, hmem, htable ▸ mem_mappedColumns hown⟩)
  · intro c rows hpath hfocus hconcrete
    have hreads := Cursor.reads_columnCell hfocus hconcrete (hpath ▸ hmapped)
    have hnode : RowGroup.node ⟨plan.nodes, place.node, rows⟩ = n := by
      rw [RowGroup.node, List.getD_eq_getElem?_getD, hn]
      rfl
    unfold Cursor.columnCell at hreads
    simp only [hnode] at hreads
    cases hcolumn : n.column? column.column with
    | none => simpa only [hcolumn] using hreads
    | some position => simpa only [hcolumn] using hreads

end Sql.Plan

namespace Treasuries

open Sql

/-- Currencies by the banks that issue them. -/
def money : DocumentRegistry where
  schema := Schema.ofTypes [
    .object ⟨"Query", [⟨"currency", [], .nullable (.named "Currency")⟩], []⟩,
    .object ⟨"Currency", [⟨"bank", [], .nullable (.named "String")⟩,
      ⟨"name", [], .nullable (.named "String")⟩], []⟩] "Query"
  types := [
    .object ⟨"Query", [.root "currency" (.object [("bank", .string "ecb"),
      ("name", .string "Euro")])]⟩,
    .object ⟨"Currency", [.source ⟨"bank", "bank", false⟩, .source ⟨"name", "name", false⟩]⟩]
  elaborators := []

/-- The currency is that of the bank of the country. -/
def byBank : JoinRule := JoinRule.onEqual [(Computation.nullableField "bank", "bank")] true

/-- Countries have the column of their bank from an interface. -/
def registry : TableRegistry where
  schema := Schema.ofTypes [
    .object ⟨"Query", [⟨"countries", [], .list (.named "Country")⟩], []⟩,
    .interface ⟨"Banked", [⟨"bank", [], .nullable (.named "String")⟩], []⟩,
    .object ⟨"Country", [⟨"code", [], .named "String"⟩, ⟨"bank", [], .nullable (.named "String")⟩,
      ⟨"currency", [], .nullable (.named "Currency")⟩], ["Banked"]⟩,
    .object ⟨"Currency", [⟨"bank", [], .nullable (.named "String")⟩,
      ⟨"name", [], .nullable (.named "String")⟩], []⟩] "Query"
  types := [
    .object ⟨"Query", [.root "countries" ()]⟩,
    .object ⟨"Banked", [.source (.column "bank" ⟨"country", "bank"⟩ false false)]⟩,
    .object ⟨"Country", [.source (.column "code" ⟨"country", "code"⟩ true false),
      .delegate ⟨"currency", .documents money, byBank⟩]⟩]
  elaborators := []

def place : Place := ⟨0, ["countries"], "Country"⟩

/-- The name of a currency. -/
def currency : Query := .select "currency" none [] (.field "name")

/-- A leaf of the countries and the names of their currencies. -/
def query (leaf : String) : Query := .group [.field leaf, .component "Country" "currency" currency]

/-- The country of rows that answer a plan. -/
def country (plan : Plan) (rows : List Row) : Cursor :=
  ⟨["countries"], .named "Country", .table registry (.rows ⟨plan.nodes, 0, rows⟩)⟩

/-- Where the banks of the countries are asked for, joins find them, and the codes as well. -/
theorem selected_banks_are_given : ∃ plan,
    Plan.build registry "countries" (.list (.named "Country")) (query "bank") = .ok plan ∧
      .parent place ∈
        plan.columnUses registry "countries" (.list (.named "Country")) (query "bank") ∧
      ∀ rows,
        (country plan rows).Reads registry "Country" "code" false
          (.ok (RowGroup.firstCell ⟨plan.nodes, 0, rows⟩ 0)) ∧
        (country plan rows).Reads registry "Country" "bank" false
          (.ok (RowGroup.firstCell ⟨plan.nodes, 0, rows⟩ 1)) := by
  obtain ⟨plan, hplan, hnodes, huse⟩ : ∃ plan,
      Plan.build registry "countries" (.list (.named "Country")) (query "bank") = .ok plan ∧
        plan.nodes = [⟨"t0", "country", [0], [("code", 0), ("bank", 1)], [], false⟩] ∧
        .parent place ∈
          plan.columnUses registry "countries" (.list (.named "Country")) (query "bank") :=
    ⟨_, rfl, rfl, by decide +kernel⟩
  refine ⟨plan, hplan, huse, fun rows => ?_⟩
  obtain ⟨n, hn, hgiven⟩ := (Plan.parents_give_what_is_selected hplan).2 place huse
  rw [hnodes] at hn
  obtain rfl := Option.some.inj hn
  exact ⟨(hgiven "code" "code" ⟨"country", "code"⟩ true false rfl rfl).2 _ rows rfl rfl rfl,
    (hgiven "bank" "bank" ⟨"country", "bank"⟩ false false rfl rfl).2 _ rows rfl rfl rfl⟩

/-- Where only the codes are asked for, the currencies cannot be joined: the banks are read from a
column of the countries, which the plan does not select. -/
theorem inherited_banks_are_missing :
    (∀ finding ∈ registry.validate, finding.severity ≠ .error) ∧ ∃ plan n,
    Plan.build registry "countries" (.list (.named "Country")) (query "code") = .ok plan ∧
      .parent place ∈
        plan.columnUses registry "countries" (.list (.named "Country")) (query "code") ∧
      registry.fieldMapping? place.path place.type "bank" =
        some (.source (.column "bank" ⟨"country", "bank"⟩ false false)) ∧
      plan.nodes[place.node]? = some n ∧ n.table = "country" ∧ n.column? "bank" = none ∧
      ∀ rows,
        (country plan rows).field "bank" =
          .error (.interpreter (.columnNotSelected "country" "bank")) ∧
        byBank (country plan rows).view currency =
          .error (.interpreter (.columnNotSelected "country" "bank")) :=
  ⟨by decide +kernel, _, _, rfl, by decide +kernel, rfl, rfl, rfl, rfl, fun _ => ⟨rfl, rfl⟩⟩

end Treasuries

end MappedQuery
