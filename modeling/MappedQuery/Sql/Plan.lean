import MappedQuery.Mapping.Registry
import MappedQuery.Sql.Statement

/-!
# Plans

A `Plan` answers a root field with one statement. The table of the root's type is selected from,
every object field below it is joined from the left along the hops of its mapping, and the key
columns of every table tell the entities of the rows apart. Filters are pushed into the statement
unless a limit stands above them: those of the root into its condition, those of an object field
into the join of its table, so that an object without matches keeps its parent. What is not
pushed stays in the residual query.

Fields may require siblings, which may require others. `planQuery` follows such requirements a
number of steps and is cut off beyond; planning has an end if some number of steps is enough for it.
A chain of requirements that comes to no field twice is no longer than there are fields, so it is
only beyond these that `Plan.attempt` tries more and more steps, without a bound.
-/
namespace MappedQuery.Sql

/-- A table of a plan and where its columns stand in the rows. -/
structure TableNode where
  /-- What the statement calls the table. -/
  label : String
  table : String
  /-- The places of the key columns. -/
  keys : List Nat
  /-- The place of each selected column. -/
  columns : List (String × Nat)
  /-- The node of each joined object field. -/
  children : List (String × Nat)
  /-- Whether conditions were pushed into the node's join. -/
  filtered : Bool
deriving Repr, Inhabited

namespace TableNode

def column? (n : TableNode) (name : String) : Option Nat :=
  (n.columns.find? (·.1 = name)).map (·.2)

def child? (n : TableNode) (field : String) : Option Nat :=
  (n.children.find? (·.1 = field)).map (·.2)

end TableNode

structure Plan where
  statement : Statement
  /-- The tables, that of the root first. -/
  nodes : List TableNode
  residual : Query
  /-- How many leaf fields the query asks for. -/
  fields : Nat
deriving Repr

/-- A plan in the making. -/
structure Draft where
  nodes : List TableNode
  columns : List Column
  joins : List Join
  conditions : List Condition
  labels : Nat
  fields : Nat
deriving Repr, Inhabited

namespace Draft

def empty : Draft := ⟨[], [], [], [], 0, 0⟩

def node (d : Draft) (index : Nat) : TableNode := d.nodes.getD index default

def updateNode (d : Draft) (index : Nat) (f : TableNode → TableNode) : Draft :=
  { d with nodes := d.nodes.modify index f }

/-- The columns that the rows are ordered by: the keys of all nodes. -/
def keyColumns (d : Draft) : List Column :=
  d.nodes.flatMap fun n => n.keys.map fun k => d.columns.getD k default

def statement (d : Draft) : Statement :=
  let root := d.node 0
  let selected : Statement :=
    { columns := d.columns.map .column
      table? := some ⟨root.table, some root.label⟩
      joins := d.joins
      condition? := none
      order := d.keyColumns.map .column }
  selected.addCondition (Condition.all d.conditions)

def toPlan (d : Draft) (residual : Query) : Plan :=
  ⟨d.statement, d.nodes, residual, d.fields⟩

end Draft

/-- Whether planning was cut off in following requirements. -/
def isCutOff {α : Type} : Except Fault α → Bool
  | .error f => f.isEndless
  | .ok _ => false

/-- A step of planning. -/
abbrev Planning (α : Type) : Type := StateT Draft (Except Fault) α

/-- Where a query is planned: on a node, reached through a path, as a type. -/
structure Place where
  node : Nat
  path : List String
  type : String
deriving DecidableEq, Repr

/-- Where the conditions of a list are pushed to. -/
inductive Target where
  | condition
  | join (index : Nat)
deriving DecidableEq, Repr

/-- How the list operations at a place are planned. -/
structure ListPlace where
  target : Target
  /-- Whether no limit stands above. -/
  pushable : Bool
deriving Repr

/-- A joined object field: where its query is planned, and its join. -/
structure JoinedField where
  place : Place
  join : Nat

namespace Planning

def unsupported (what : Inexpressible) : Planning α :=
  throw (.connector (.unsupportedQuery what))

def nextLabel : Planning String := do
  let d ← get
  set { d with labels := d.labels + 1 }
  pure ("t" ++ toString d.labels)

/-- The key columns of a type, else those of the first of its interfaces that has any. -/
def keyColumns (r : TableRegistry) (path : List String) (type : String) : List ColumnRef :=
  let own (t : String) : Option (List ColumnRef) :=
    (r.objectMapping? path t).bind fun m =>
      let keys := m.fields.filterMap fun f => f.source?.bind (·.keyColumn?)
      if keys.isEmpty then none else some keys
  (r.schema.search own type).getD []

/-- Selects a column of a node's table, once, and gives its place in the rows. -/
def ownColumn (node : Nat) (field : String) (column : ColumnRef) : Planning Nat := do
  let d ← get
  let n := d.node node
  if column.table ≠ n.table then
    throw (.connector (.foreignColumn field column.display n.table))
  else
    match n.column? column.column with
    | some position => pure position
    | none =>
      let position := d.columns.length
      let added : Column := ⟨some ⟨n.label, none⟩, column.column⟩
      set ({ d with columns := d.columns ++ [added] }.updateNode node fun n =>
        { n with columns := n.columns ++ [(column.column, position)] })
      pure position

/-- Adds the table of a type: its keys and, for an abstract type, its discriminator are
selected. -/
def addNode (r : TableRegistry) (path : List String) (type label : String) : Planning Nat := do
  let keys := keyColumns r path type
  match keys with
  | [] => throw (.connector (.missingKey type))
  | first :: _ =>
    let d ← get
    let index := d.nodes.length
    set { d with nodes := d.nodes ++ [TableNode.mk label first.table [] [] [] false] }
    keys.forM fun key => do
      let position ← ownColumn index type key
      modify fun d => d.updateNode index fun n => { n with keys := n.keys ++ [position] }
    if r.schema.isAbstract type then
      match r.sourceField? path type TableField.discriminatorName with
      | some (.discriminator column _) =>
        discard (ownColumn index TableField.discriminatorName column)
        pure index
      | _ => unsupported (.abstractType type)
    else pure index

/-- Selects every column of the node's table that is mapped for the type. -/
def selectAllColumns (r : TableRegistry) (place : Place) : Planning Unit := do
  let table := ((← get).node place.node).table
  let fields := ((r.objectMapping? place.path place.type).map (·.fields)).getD []
  fields.forM fun f => do
    match f.source? with
    | some (.column name column _ _) =>
      if column.table = table then discard (ownColumn place.node name column) else pure ()
    | _ => pure ()

/-- The join that brought in a node's table. -/
def joinIndex (d : Draft) (node : Nat) : Nat :=
  (d.joins.findIdx? fun j => j.table.alias? = some (d.node node).label).getD 0

/-- Joins the tables of the hops from a table under a label; gives the last of them. -/
def addHops (field : String) : List Hop → String → String → Planning (String × String)
  | [], label, table => pure (label, table)
  | hop :: rest, label, table => do
    if hop.parent.table ≠ table then
      throw (.connector (.foreignColumn field hop.parent.display table))
    else
      let next ← nextLabel
      let on : Expression :=
        .compare .equal (.column ⟨some ⟨label, none⟩, hop.parent.column⟩)
          (.column ⟨some ⟨next, none⟩, hop.child.column⟩)
      modify fun d =>
        { d with joins := d.joins ++ [Join.mk ⟨hop.child.table, some next⟩ (.single on)] }
      addHops field rest next hop.child.table

/-- Joins the table of an object field, or takes the join that is already there if no selection
of the field is filtered. -/
def joinField (r : TableRegistry) (place : Place) (field childType : String) (hops : List Hop)
    (filtered : Bool) : Planning JoinedField := do
  let d ← get
  let parent := d.node place.node
  let path := place.path ++ [field]
  match parent.child? field with
  | some existing =>
    if (d.node existing).filtered || filtered then unsupported (.filteredAgain field)
    else pure ⟨⟨existing, path, childType⟩, joinIndex d existing⟩
  | none =>
    if hops.isEmpty then unsupported (.withoutJoins field)
    else
      let (label, table) ← addHops field hops parent.label parent.table
      let child ← addNode r path childType label
      let childTable := ((← get).node child).table
      if childTable ≠ table then
        throw (.connector (.foreignColumn field (childTable ++ ".*") table))
      else
        modify fun d => d.updateNode place.node fun n =>
          { n with children := n.children ++ [(field, child)] }
        pure ⟨⟨child, path, childType⟩, (← get).joins.length - 1⟩

/-- Selects what a field is read from, with the siblings it requires followed at most `steps`
times; an object field is joined. -/
def planField (r : TableRegistry) : Nat → Place → String → Bool → Planning (Option JoinedField)
  | steps, place, name, filtered => do
    match r.fieldMapping? place.path place.type name with
    | some (.source (.column _ column _ _)) =>
      discard (ownColumn place.node name column)
      pure none
    | some (.source (.joined _ hops)) =>
      match r.schema.field? place.type name with
      | some f => some <$> joinField r place name f.type.underlying hops filtered
      | none => throw (.missingFieldMapping name place.type)
    | some (.computed c _) | some (.computedAttribute c) =>
      match steps with
      | 0 => throw (.connector (.endlessRequirement name))
      | steps + 1 =>
        c.required.forM fun sibling => discard (planField r steps place sibling false)
        pure none
    | some (.delegate _) =>
      selectAllColumns r place
      pure none
    | _ => throw (.missingFieldMapping name place.type)

/-- Selects what an operand of an evaluated predicate or ordering reads. -/
def planTerm (r : TableRegistry) (steps : Nat) (place : Place) : Term → Planning Unit
  | .const _ => pure ()
  | .path [name] => discard (planField r steps place name false)
  | t => unsupported (.path t)

def planTerms (r : TableRegistry) (steps : Nat) (place : Place) (ts : List Term) : Planning Unit :=
  ts.forM (planTerm r steps place)

/-- A constant becomes a parameter and a field the column it is read from; nothing else can be
said over a node's table. -/
def expression? (r : TableRegistry) (n : TableNode) (place : Place) : Term → Option Expression
  | .const v =>
    match Cell.ofValue v with
    | .ok c => some (.parameter c)
    | .error _ => none
  | .path [name] =>
    match r.sourceField? place.path place.type name with
    | some (.column _ column _ _) =>
      if column.table = n.table then some (.column ⟨some ⟨n.label, none⟩, column.column⟩)
      else none
    | _ => none
  | .path _ => none

/-- The operand of a comparison whose other operand is an empty constant. -/
def comparedWithEmpty? : Term → Term → Option Term
  | a, b =>
    match b with
    | .const v =>
      if v.isEmpty then some a
      else match a with
        | .const u => if u.isEmpty then some b else none
        | .path _ => none
    | .path _ =>
      match a with
      | .const u => if u.isEmpty then some b else none
      | .path _ => none

/-- The condition of a predicate over a node's table. -/
def condition (r : TableRegistry) (n : TableNode) (place : Place) (p : Predicate) :
    Except Fault Condition :=
  let operand (t : Term) : Except Fault Expression :=
    match expression? r n place t with
    | some e => .ok e
    | none => .error (.connector (.unsupportedPredicate p))
  let compare (op : Comparison) (a b : Term) : Except Fault Condition := do
    let left ← operand a
    let right ← operand b
    pure (.single (.compare op left right))
  match p with
  | .always => .ok .always
  | .never => .ok .never
  | .and p q => do
    let left ← condition r n place p
    let right ← condition r n place q
    pure (.and (.condition left) (.condition right))
  | .or p q => do
    let left ← condition r n place p
    let right ← condition r n place q
    pure (.or (.condition left) (.condition right))
  | .not p => do pure (.not (.condition (← condition r n place p)))
  | .eq a b =>
    match comparedWithEmpty? a b with
    | some t => do pure (.single (.isNull (← operand t)))
    | none => compare .equal a b
  | .ne a b =>
    match comparedWithEmpty? a b with
    | some t => do pure (.single (.isNotNull (← operand t)))
    | none => compare .notEqual a b
  | .lt a b => compare .less a b
  | .le a b => compare .lessOrEqual a b
  | .gt a b => compare .greater a b
  | .ge a b => compare .greaterOrEqual a b
  | .like t pattern ignoreCase => do
    let e ← operand t
    let shape := Expression.parameter (.text pattern)
    pure (.single (if ignoreCase then .compare .like (.lower e) (.lower shape)
      else .compare .like e shape))
  | .isIn t values =>
    match values.mapM Cell.ofValue with
    | .error f => .error (.connector f)
    | .ok cells => do pure (.single (.isIn (← operand t) (cells.map .parameter)))
  | .isNull t true => do pure (.single (.isNull (← operand t)))
  | .isNull t false => do pure (.single (.isNotNull (← operand t)))

def pushCondition (node : Nat) (target : Target) (c : Condition) : Planning Unit :=
  match target with
  | .condition => modify fun d => { d with conditions := d.conditions ++ [c] }
  | .join index => modify fun d =>
    { d with joins := d.joins.modify index fun j => { j with on := j.on.conjoin c } }.updateNode
      node fun n => { n with filtered := true }

end Planning

open Planning

/-- Whether a list query filters above its object query. -/
def hasFilter : Query → Bool
  | .filter .. => true
  | .unique child | .limit _ child | .orderBy _ child => hasFilter child
  | _ => false

/-- Whether a field counts as a leaf that the query asks for. -/
def isLeafField (r : TableRegistry) (place : Place) (name : String) : Bool :=
  match r.fieldMapping? place.path place.type name with
  | some (.source (.column ..)) | some (.computed ..) | some (.computedAttribute _) => true
  | _ => false

mutual

/-- Plans a query at a place and gives what is left of it. List operations are planned as `list?`
says; there are none inside an object query. -/
def planQuery (r : TableRegistry) (steps : Nat) (place : Place) (list? : Option ListPlace) :
    Query → Planning Query
  | .filter p child =>
    match list? with
    | none => unsupported (.query (.filter p child))
    | some list =>
      if list.pushable then do
        let n := (← get).node place.node
        pushCondition place.node list.target (← condition r n place p)
        planQuery r steps place (some list) child
      else do
        planTerms r steps place p.terms
        pure (.filter p (← planQuery r steps place (some list) child))
  | .unique child =>
    match list? with
    | none => unsupported (.query (.unique child))
    | some list => do pure (.unique (← planQuery r steps place (some list) child))
  | .orderBy selections child =>
    match list? with
    | none => unsupported (.query (.orderBy selections child))
    | some list => do
      planTerms r steps place (selections.map (·.term))
      pure (.orderBy selections (← planQuery r steps place (some list) child))
  | .limit count child =>
    match list? with
    | none => unsupported (.query (.limit count child))
    | some list => do
      let below := some { list with pushable := false }
      pure (.limit count (← planQuery r steps place below child))
  | .group queries => do pure (.group (← planAll r steps place queries))
  | .select name alias? bindings child =>
    if name = "__typename" then pure (.select name alias? bindings child)
    else do
      let planned ←
        match ← planField r steps place name (hasFilter child) with
        | none => pure child
        | some joined => planQuery r steps joined.place (some ⟨.join joined.join, true⟩) child
      if isLeafField r place name then
        modify fun d => { d with fields := d.fields + 1 }
      pure (.select name alias? bindings planned)
  | .narrow type child => do
    pure (.narrow type (← planQuery r steps { place with type } none child))
  | .component type field child => do
    selectAllColumns r place
    pure (.component type field child)
  | .empty => pure .empty
  | .introspect child => unsupported (.query (.introspect child))

/-- Plans the members of an object query. -/
def planAll (r : TableRegistry) (steps : Nat) (place : Place) : List Query → Planning (List Query)
  | [] => pure []
  | q :: rest => do
    let planned ← planQuery r steps place none q
    pure (planned :: (← planAll r steps place rest))

end

namespace Plan

/-- The plan of a root field, with requirements followed at most `steps` times. -/
def buildWithin (steps : Nat) (r : TableRegistry) (field : String) (type : TypeRef)
    (child : Query) : Except Fault Plan := do
  let planning : Planning Query := do
    let label ← nextLabel
    let root ← addNode r [field] type.underlying label
    planQuery r steps ⟨root, [field], type.underlying⟩ (some ⟨.condition, true⟩) child
  let (residual, draft) ← planning.run .empty
  pure (draft.toPlan residual)

/-- What planning a root field comes to with some number of steps: with those that are enough for
chains without repetition if it is cut off. -/
structure Attempt (r : TableRegistry) (field : String) (type : TypeRef) (child : Query) where
  outcome : Except Fault Plan
  eq_outcome : ∃ steps, buildWithin steps r field type child = outcome ∧
    (isCutOff outcome = true → steps = r.allFields.length + 1)

instance (r : TableRegistry) (field : String) (type : TypeRef) (child : Query) :
    Nonempty (Attempt r field type child) :=
  ⟨⟨_, r.allFields.length + 1, rfl, fun _ => rfl⟩⟩

/-- Planning a root field, tried with more and more steps until it is not cut off. Where planning
has no end, neither have the tries. -/
def attempt (r : TableRegistry) (field : String) (type : TypeRef) (child : Query) :
    Nat → Attempt r field type child :=
  repeatM (m := Id) fun steps =>
    match h : isCutOff (buildWithin steps r field type child) with
    | true => .inl ((steps + 1) * (steps + 1))
    | false => .inr ⟨_, steps, rfl, fun hcut => Bool.noConfusion (h.symm.trans hcut)⟩

/-- The plan of a root field. -/
def build (r : TableRegistry) (field : String) (type : TypeRef) (child : Query) :
    Except Fault Plan :=
  let enough := r.allFields.length + 1
  let first := buildWithin enough r field type child
  if isCutOff first then (attempt r field type child enough).outcome else first

end Plan

end MappedQuery.Sql
