import MappedQuery.Mapping.Delegation
import MappedQuery.Proofs.LeftJoins
import MappedQuery.Proofs.PlanCoverage

/-!
# How a plan lays out its joins

The joins of an object field stand in one block, in the order of its hops, with the filters of the
field on the last of them. The tables of all nodes that were added before are joined before that
block, so the rows of these are already chosen when the block is joined. `Draft.Laid` says this of
all children of all nodes, and `Query.LaidOut` of the fields that a query selects; both are kept
by every step of planning.
-/
namespace MappedQuery

open Sql Sql.Planning

namespace FieldMapping

/-- Whether a field is the data of a root, a column or an object in another table. -/
def isPlain : FieldMapping TableField Unit Mapping → Bool
  | root .. => true
  | source (.column ..) => true
  | source (.joined ..) => true
  | _ => false

end FieldMapping

namespace Query

/-- The filters at the head of a query. -/
def filters : Query → List Predicate
  | filter p child => p :: child.filters
  | _ => []

mutual

/-- Whether a query is made of selections, groups and filters. -/
def isPlain : Query → Bool
  | select _ _ _ child => child.isPlain
  | filter _ child => child.isPlain
  | group queries => allPlain queries
  | empty => true
  | _ => false

def allPlain : List Query → Bool
  | [] => true
  | q :: rest => q.isPlain && allPlain rest

end

/-- A plain query that does not filter at its head has no filters there. -/
theorem filters_of_not_hasFilter {q : Query} (hplain : q.isPlain = true)
    (h : hasFilter q = false) : q.filters = [] := by
  cases q <;> first | rfl | cases h

end Query

namespace Sql

/-- Conditions are those of filters over the table of a label. -/
def Translated (r : TableRegistry) (label : String) (place : Place) (filters : List Predicate)
    (conds : List Condition) : Prop :=
  List.Forall₂ (fun p c => ∃ n : TableNode, n.label = label ∧ condition r n place p = .ok c)
    filters conds

namespace Draft

/-- The table of a node is joined to that of another by the joins of hops, which start with a
number, under conditions. The tables of the nodes before it are numbered less. -/
structure Chained (d : Draft) (i j : Nat) (hops : List Hop) (conds : List Condition)
    (m k : Nat) : Prop where
  joins : ∃ front back, d.joins = front ++ chainJoins conds (labelOf m) k hops ++ back ∧
    front.length + 1 = k
  nonempty : hops ≠ []
  parent : i < d.nodes.length ∧ (d.node i).label = labelOf m ∧ m < k
  child : j < d.nodes.length ∧ (d.node j).label = labelOf (k + hops.length - 1)
  table : ∃ hop, hops.getLast? = some hop ∧ (d.node j).table = hop.child.table
  before : ∀ l < j, ∃ n < k, (d.node l).label = labelOf n

theorem Keeps.node {d d' : Draft} (h : d.Keeps d') {i : Nat} (hi : i < d.nodes.length) :
    i < d'.nodes.length ∧ (d.node i).Grown (d'.node i) ∧
      (d'.node i).keys = (d.node i).keys ∧ (d'.node i).filtered = (d.node i).filtered := by
  have hn : d.nodes[i]? = some (d.nodes[i]) := List.getElem?_eq_getElem hi
  obtain ⟨n', hn', hgrown, hkeys, hfiltered⟩ := h.nodes i _ hn
  rw [node_eq hn, node_eq hn']
  exact ⟨(List.getElem?_eq_some_iff.1 hn').1, hgrown, hkeys, hfiltered⟩

theorem Chained.mono {d d' : Draft} {i j m k : Nat} {hops : List Hop} {conds : List Condition}
    (h : d.Chained i j hops conds m k) (hkeeps : d.Keeps d') :
    d'.Chained i j hops conds m k := by
  obtain ⟨⟨front, back, hjoins, hfront⟩, hne, ⟨hi, hparent, hm⟩, ⟨hj, hchild⟩,
    ⟨hop, hlast, htable⟩, hbefore⟩ := h
  obtain ⟨more, hmore⟩ := hkeeps.joins
  obtain ⟨hi', hgrown, -⟩ := hkeeps.node hi
  obtain ⟨hj', hgrown', -⟩ := hkeeps.node hj
  refine ⟨⟨front, back ++ more, ?_, hfront⟩, hne, ⟨hi', hgrown.label.trans hparent, hm⟩,
    ⟨hj', hgrown'.label.trans hchild⟩, ⟨hop, hlast, hgrown'.table.trans htable⟩,
    fun l hl => ?_⟩
  · rw [← hmore, hjoins, List.append_assoc]
  · obtain ⟨n, hn, hlabel⟩ := hbefore l hl
    exact ⟨n, hn, (hkeeps.node (hl.trans hj)).2.1.label.trans hlabel⟩

/-- Joins are named by their numbers, and so are nodes. -/
structure Numbered (d : Draft) : Prop where
  labels : d.labels = d.joins.length + 1
  named : ∀ (i : Nat) (j : Join), d.joins[i]? = some j → j.table.alias? = some (labelOf (i + 1))
  numbered : ∀ (i : Nat) (n : TableNode), d.nodes[i]? = some n →
    ∃ k < d.labels, n.label = labelOf k

/-- The table of a root is the only node yet. -/
theorem Gained.eq_root {label table : String} {d : Draft} {n x : TableNode} {i : Nat}
    (h : Gained { empty with labels := 1 } label table d n) (hx : d.nodes[i]? = some x) :
    i = 0 ∧ x = n := by
  have hnodes : d.nodes = [n] := h.nodes
  rw [hnodes, List.getElem?_singleton] at hx
  split at hx
  · rename_i hi
    cases hx
    exact ⟨hi, rfl⟩
  · cases hx

theorem Gained.numbered {table : String} {d : Draft} {n : TableNode}
    (h : Gained { empty with labels := 1 } (labelOf 0) table d n) : d.Numbered := by
  have hlabels : d.labels = 1 := h.labels
  have hjoins : d.joins = [] := h.joins
  refine ⟨by simp [hlabels, hjoins], by simp [hjoins], fun i x hx => ⟨0, by simp [hlabels], ?_⟩⟩
  rw [(h.eq_root hx).2]
  exact h.label

/-- Joins and nodes are numbered, the columns of nodes have their places, and every child is
joined along the hops of its field, without conditions unless it is filtered. -/
structure Laid (r : TableRegistry) (d : Draft) (types : List (List String × String)) : Prop
    extends Numbered d where
  typed : NodesTyped r (fun _ type t => t = type) d.nodes types
  placed : ∀ (i : Nat) (n : TableNode), d.nodes[i]? = some n → n.Placed d.columns
  child : ∀ (i : Nat) (n : TableNode) (path : List String) (type field : String) (j : Nat),
    d.nodes[i]? = some n → types[i]? = some (path, type) → n.child? field = some j →
      ∃ own hops conds m k,
        r.fieldMapping? path type field = some (.source (.joined own hops)) ∧
          d.Chained i j hops conds m k ∧ ((d.node j).filtered = false → conds = [])

/-- The draft with the conditions of a list pushed, where there is a list. -/
def pushAll (node : Nat) (list? : Option ListPlace) (conds : List Condition) (d : Draft) : Draft :=
  match list? with
  | none => d
  | some list => conds.foldl (push node list.target) d

@[simp] theorem pushAll_nil (node : Nat) (list? : Option ListPlace) (d : Draft) :
    d.pushAll node list? [] = d := by
  cases list? <;> rfl

theorem push_label (node : Nat) (target : Target) (d : Draft) (c : Condition) (i : Nat) :
    ((d.push node target c).node i).label = (d.node i).label := by
  cases target with
  | condition => rfl
  | join index =>
    rw [push, Draft.node, Draft.node, List.getD_eq_getElem?_getD, List.getD_eq_getElem?_getD,
      updateNode_nodes]
    split
    · cases d.nodes[i]? <;> rfl
    · rfl

theorem pushAll_label (node : Nat) (list? : Option ListPlace) (conds : List Condition) (d : Draft)
    (i : Nat) : ((d.pushAll node list? conds).node i).label = (d.node i).label := by
  cases list? with
  | none => rfl
  | some list =>
    rw [pushAll]
    induction conds generalizing d with
    | nil => rfl
    | cons c conds ih => rw [List.foldl_cons, ih, push_label]

/-- Conditions pushed to the root stand after those that are there. -/
theorem foldl_push_condition (node : Nat) (conds : List Condition) (d : Draft) :
    conds.foldl (push node .condition) d = { d with conditions := d.conditions ++ conds } := by
  induction conds generalizing d with
  | nil => simp
  | cons c conds ih =>
    rw [List.foldl_cons, ih, push]
    simp

/-- Conditions pushed to a join are all on it, and the node is filtered if there are any. -/
theorem foldl_push_join (node index : Nat) (conds : List Condition) (d : Draft) :
    conds.foldl (push node (.join index)) d = { d with
      joins := d.joins.modify index fun j => { j with on := conds.foldl Condition.conjoin j.on }
      nodes := d.nodes.modify node fun n =>
        { n with filtered := n.filtered || !conds.isEmpty } } := by
  induction conds generalizing d with
  | nil =>
    have hjoins : (d.joins.modify index fun j => { j with on := j.on }) = d.joins :=
      List.modify_id index d.joins
    have hnodes : (d.nodes.modify node fun n => { n with filtered := n.filtered }) = d.nodes :=
      List.modify_id node d.nodes
    simp [hjoins, hnodes]
  | cons c conds ih =>
    rw [List.foldl_cons, ih, push]
    simp only [updateNode, List.modify_modify_eq]
    congr 2
    funext x
    simp

theorem modify_append_left {α : Type} (f : α → α) {as : List α} (bs : List α) {i : Nat}
    (hi : i < as.length) : (as ++ bs).modify i f = as.modify i f ++ bs := by
  induction as generalizing i with
  | nil => cases hi
  | cons a as ih =>
    cases i with
    | zero => rfl
    | succ i =>
      rw [List.cons_append, List.modify_succ_cons, ih (Nat.lt_of_succ_lt_succ hi),
        List.modify_succ_cons, List.cons_append]

theorem modify_append_right {α : Type} (f : α → α) (as bs : List α) (i : Nat) :
    (as ++ bs).modify (as.length + i) f = as ++ bs.modify i f := by
  induction as with
  | nil => rw [List.nil_append, List.nil_append, List.length_nil, Nat.zero_add]
  | cons a as ih =>
    rw [List.cons_append, List.length_cons, Nat.add_right_comm, List.modify_succ_cons, ih,
      List.cons_append]

end Draft

/-- Conditions on the last of the joins of hops make it the joins of a chain. -/
theorem modify_hopJoins (conds : List Condition) (parent : String) (k : Nat) (hops : List Hop) :
    ((hopJoins parent k hops).modify (hops.length - 1) fun j =>
      { j with on := conds.foldl Condition.conjoin j.on }) = chainJoins conds parent k hops := by
  induction hops generalizing parent k with
  | nil => rfl
  | cons hop rest ih =>
    cases rest with
    | nil => rfl
    | cons next rest =>
      have hrest := ih (labelOf k) (k + 1)
      rw [List.length_cons, Nat.add_sub_cancel] at hrest
      rw [hopJoins, chainJoins, List.length_cons, List.length_cons, Nat.add_sub_cancel,
        List.modify_succ_cons, hrest]

/-- The joins of a chain are named by the numbers from its first on. -/
theorem alias_of_chainJoins {conds : List Condition} {parent : String} {k i : Nat}
    {hops : List Hop} {j : Join} (h : (chainJoins conds parent k hops)[i]? = some j) :
    j.table.alias? = some (labelOf (k + i)) := by
  induction hops generalizing parent k i with
  | nil => cases h
  | cons hop rest ih =>
    cases rest with
    | nil =>
      rw [chainJoins, List.getElem?_singleton] at h
      split at h
      · rename_i hzero
        cases h
        rw [hzero]
        rfl
      · cases h
    | cons next rest =>
      rw [chainJoins] at h
      cases i with
      | zero =>
        cases h
        rfl
      | succ i =>
        rw [List.getElem?_cons_succ] at h
        rw [ih h, show k + 1 + i = k + (i + 1) by omega]

/-- A draft has become another by joining an object field of a node: the joins of its hops are
there, under conditions, and the node of the last of their tables. -/
structure Draft.Branched (r : TableRegistry) (d d' : Draft) (place : Place) (field type : String)
    (hops : List Hop) (conds : List Condition) (n : TableNode) : Prop where
  nodes : d'.nodes = (d.nodes.modify place.node fun n => n.addChild field d.nodes.length) ++ [n]
  joins : d'.joins = d.joins ++ chainJoins conds (d.node place.node).label d.labels hops
  columns : d.columns <+: d'.columns
  conditions : d'.conditions = d.conditions
  labels : d'.labels = d.labels + hops.length
  label : n.label = labelOf (d.labels + hops.length - 1)
  table : ∃ hop, hops.getLast? = some hop ∧ n.table = hop.child.table
  children : n.children = []
  filtered : n.filtered = !conds.isEmpty
  placed : n.Placed d'.columns
  isOf : n.IsOf r (place.path ++ [field]) type

namespace Draft.Branched

variable {r : TableRegistry} {d d' : Draft} {types : List (List String × String)} {place : Place}
  {field type : String} {hops : List Hop} {conds : List Condition} {n : TableNode}

/-- The first join of a field with its filters pushed. -/
theorem of_first {e : Draft} {new : TableNode} {table : String} {lastHop : Hop}
    (hi : place.node < d.nodes.length) (hlast : hops.getLast? = some lastHop)
    (htable : table = lastHop.child.table)
    (hgained : Draft.Gained { d with
      labels := d.labels + hops.length
      joins := d.joins ++ hopJoins (d.node place.node).label d.labels hops }
      (labelOf (d.labels + hops.length - 1)) table e new)
    (hnew : new.IsOf r (place.path ++ [field]) type) (conds : List Condition) :
    Draft.Branched r d (conds.foldl (push d.nodes.length (.join (d.joins.length + hops.length - 1)))
      (e.updateNode place.node fun n => n.addChild field d.nodes.length)) place field type hops conds
      { new with filtered := !conds.isEmpty } := by
  have hne : hops ≠ [] := fun hnil => by
    rw [hnil] at hlast
    cases hlast
  have hpos := List.length_pos_of_ne_nil hne
  have hindex : d.joins.length + hops.length - 1 = d.joins.length + (hops.length - 1) := by omega
  have hnodes : e.nodes = d.nodes ++ [new] := hgained.nodes
  have hjoins : e.joins = d.joins ++ hopJoins (d.node place.node).label d.labels hops :=
    hgained.joins
  rw [foldl_push_join]
  refine ⟨?_, ?_, hgained.columns, hgained.conditions, hgained.labels, hgained.label,
    ⟨lastHop, hlast, hgained.table.trans htable⟩, hgained.children, rfl, hgained.placed,
    ⟨hnew.table, hnew.keys, hnew.discriminator⟩⟩
  · have hlength : (d.nodes.modify place.node fun n => n.addChild field d.nodes.length).length =
        d.nodes.length := List.length_modify ..
    have hmodified := Draft.modify_length (fun n : TableNode =>
      { n with filtered := n.filtered || !conds.isEmpty })
      (d.nodes.modify place.node fun n => n.addChild field d.nodes.length) new
    rw [hlength] at hmodified
    simp only [updateNode, hnodes, modify_append_left _ _ hi]
    rw [hmodified, hgained.filtered, Bool.false_or]
  · simp only [updateNode, hjoins, hindex, modify_append_right, modify_hopJoins]

/-- The nodes that were there are as they were, but the one that has gained the field. -/
theorem old (h : Draft.Branched r d d' place field type hops conds n) {l : Nat} {x : TableNode}
    (hl : l < d.nodes.length) (hx : d'.nodes[l]? = some x) :
    ∃ y, d.nodes[l]? = some y ∧
      (x = y ∨ place.node = l ∧ x = y.addChild field d.nodes.length) := by
  rw [h.nodes, List.getElem?_append_left (by rwa [List.length_modify]), List.getElem?_modify] at hx
  obtain ⟨y, hy, rfl⟩ := Option.map_eq_some_iff.1 hx
  refine ⟨y, hy, ?_⟩
  by_cases hil : place.node = l
  · exact .inr ⟨hil, if_pos hil⟩
  · exact .inl (if_neg hil)

theorem added (h : Draft.Branched r d d' place field type hops conds n) :
    d'.nodes[d.nodes.length]? = some n := by
  rw [h.nodes, List.getElem?_append_right (by rw [List.length_modify]), List.length_modify,
    Nat.sub_self]
  rfl

theorem length (h : Draft.Branched r d d' place field type hops conds n) :
    d'.nodes.length = d.nodes.length + 1 := by
  rw [h.nodes, List.length_append, List.length_modify, List.length_singleton]

/-- A node was there or is the new one. -/
theorem cases (h : Draft.Branched r d d' place field type hops conds n) {l : Nat} {x : TableNode}
    (hx : d'.nodes[l]? = some x) : l < d.nodes.length ∨ l = d.nodes.length ∧ x = n := by
  have hl := (List.getElem?_eq_some_iff.1 hx).1
  rw [h.length] at hl
  rcases Nat.lt_or_ge l d.nodes.length with hlt | hge
  · exact .inl hlt
  · obtain rfl : l = d.nodes.length := by omega
    exact .inr ⟨rfl, Option.some.inj (hx.symm.trans h.added)⟩

theorem keeps (h : Draft.Branched r d d' place field type hops conds n) : d.Keeps d' := by
  refine ⟨fun l y hy => ?_, h.columns, h.joins ▸ List.prefix_append _ _, h.conditions⟩
  have hl : l < d.nodes.length := (List.getElem?_eq_some_iff.1 hy).1
  have hl' : l < d'.nodes.length := by
    rw [h.length]
    omega
  obtain ⟨y', hy', hcases⟩ := h.old hl (List.getElem?_eq_getElem hl')
  obtain rfl := Option.some.inj (hy.symm.trans hy')
  refine ⟨_, List.getElem?_eq_getElem hl', ?_⟩
  rcases hcases with heq | ⟨-, heq⟩
  · rw [heq]
    exact ⟨.refl y, rfl, rfl⟩
  · rw [heq]
    exact ⟨y.grown_addChild _ _, rfl, rfl⟩

theorem child? (h : Draft.Branched r d d' place field type hops conds n)
    (hi : place.node < d.nodes.length) (hnone : (d.node place.node).child? field = none) :
    (d'.node place.node).child? field = some d.nodes.length := by
  have hparent : d.nodes[place.node]? = some d.nodes[place.node] := List.getElem?_eq_getElem hi
  rw [node_eq hparent] at hnone
  rw [Draft.node, List.getD_eq_getElem?_getD, h.nodes,
    List.getElem?_append_left (by rwa [List.length_modify]), List.getElem?_modify_eq, hparent]
  exact TableNode.child?_addChild _ hnone

/-- The labels of the nodes that were there are numbered less than those of the new joins. -/
theorem numbered (h : Draft.Branched r d d' place field type hops conds n) (hd : d.Numbered)
    {l : Nat} (hl : l < d.nodes.length) : ∃ k < d.labels, (d'.node l).label = labelOf k := by
  obtain ⟨k, hk, hlabel⟩ := hd.numbered l _ (List.getElem?_eq_getElem hl)
  refine ⟨k, hk, (h.keeps.node hl).2.1.label.trans ?_⟩
  rw [node_eq (List.getElem?_eq_getElem hl)]
  exact hlabel

/-- The new node is joined along the hops under the conditions. -/
theorem chained (h : Draft.Branched r d d' place field type hops conds n) (hd : d.Numbered)
    (hi : place.node < d.nodes.length) :
    ∃ m, d'.Chained place.node d.nodes.length hops conds m d.labels := by
  obtain ⟨m, hm, hlabel⟩ := h.numbered hd hi
  have hgrown := (h.keeps.node hi).2.1
  have hparent : (d.node place.node).label = labelOf m := hgrown.label.symm.trans hlabel
  obtain ⟨hop, hlast, htable⟩ := h.table
  have hne : hops ≠ [] := fun hnil => by
    rw [hnil] at hlast
    cases hlast
  have hlength := h.length
  refine ⟨m, ⟨d.joins, [], ?_, hd.labels.symm⟩, hne, ⟨by omega, hlabel, hm⟩, ⟨by omega, ?_⟩,
    ⟨hop, hlast, ?_⟩, fun l hl => h.numbered hd hl⟩
  · rw [h.joins, hparent, List.append_nil]
  · rw [node_eq h.added]
    exact h.label
  · rw [node_eq h.added]
    exact htable

/-- The tables of the hops are numbered on from those that were there. -/
theorem toNumbered (h : Draft.Branched r d d' place field type hops conds n) (hd : d.Numbered)
    (hne : hops ≠ []) : d'.Numbered := by
  have hlabels := hd.labels
  have hjoins : d'.joins.length = d.joins.length + hops.length := by
    rw [h.joins, List.length_append, length_chainJoins]
  constructor
  case labels =>
    rw [h.labels, hjoins]
    omega
  case named =>
    intro l j hj
    rw [h.joins] at hj
    rcases Nat.lt_or_ge l d.joins.length with hlt | hge
    · rw [List.getElem?_append_left hlt] at hj
      exact hd.named l j hj
    · rw [List.getElem?_append_right hge] at hj
      rw [alias_of_chainJoins hj, hlabels]
      congr 2
      omega
  case numbered =>
    intro l x hx
    rw [h.labels]
    rcases h.cases hx with hl | ⟨rfl, rfl⟩
    · obtain ⟨k, hk, hlabel⟩ := h.numbered hd hl
      rw [node_eq hx] at hlabel
      exact ⟨k, by omega, hlabel⟩
    · have hpos := List.length_pos_of_ne_nil hne
      exact ⟨d.labels + hops.length - 1, by omega, h.label⟩

/-- A draft that has joined a field is laid out if it was before. -/
theorem laid (h : Draft.Branched r d d' place field type hops conds n) (hd : d.Laid r types)
    {own : String} {f : FieldDefinition} (hi : types[place.node]? = some (place.path, place.type))
    (hmapped : r.fieldMapping? place.path place.type field = some (.source (.joined own hops)))
    (hf : r.schema.field? place.type field = some f) (htype : type = f.type.underlying) :
    d'.Laid r (types ++ [(place.path ++ [field], type)]) := by
  have hnode : place.node < d.nodes.length :=
    hd.typed.length ▸ (List.getElem?_eq_some_iff.1 hi).1
  obtain ⟨m, hchained⟩ := h.chained hd.toNumbered hnode
  constructor
  case toNumbered => exact h.toNumbered hd.toNumbered hchained.nonempty
  case typed =>
    have hnew : (types ++ [(place.path ++ [field], type)])[d.nodes.length]? =
        some (place.path ++ [field], f.type.underlying) := by
      rw [← hd.typed.length, ← htype]
      simp
    have hold : (types ++ [(place.path ++ [field], type)])[place.node]? =
        some (place.path, place.type) := getElem?_of_isPrefix (List.prefix_append _ _) hi
    have happend := (hd.typed.append h.isOf h.children).addChild hold rfl hf hnew
    rwa [modify_append_left _ _ hnode, ← h.nodes] at happend
  case placed =>
    intro l x hx
    rcases h.cases hx with hl | ⟨rfl, rfl⟩
    · obtain ⟨y, hy, heq⟩ := h.old hl hx
      have hplaced := (hd.placed l y hy).mono h.columns
      rcases heq with rfl | ⟨-, rfl⟩ <;> exact hplaced
    · exact h.placed
  case child =>
    intro l x path other name child hx hl hchild
    rcases h.cases hx with hold | ⟨rfl, rfl⟩
    · have hother : types[l]? = some (path, other) := by
        rwa [List.getElem?_append_left (hd.typed.length ▸ hold)] at hl
      obtain ⟨y, hy, heq⟩ := h.old hold hx
      have hkept (hchild : y.child? name = some child) : ∃ own hops conds m k,
          r.fieldMapping? path other name = some (.source (.joined own hops)) ∧
            d'.Chained l child hops conds m k ∧
              ((d'.node child).filtered = false → conds = []) := by
        obtain ⟨own', hops', conds', m', k', hmapped', hchained', hempty⟩ :=
          hd.child l y path other name child hy hother hchild
        refine ⟨own', hops', conds', m', k', hmapped', hchained'.mono h.keeps, fun hplain => ?_⟩
        exact hempty ((h.keeps.node hchained'.child.1).2.2.2.symm.trans hplain)
      rcases heq with rfl | ⟨rfl, rfl⟩
      · exact hkept hchild
      · rcases TableNode.child?_of_addChild hchild with hchild | ⟨rfl, rfl⟩
        · exact hkept hchild
        · obtain ⟨rfl, rfl⟩ := Prod.mk.inj (Option.some.inj (hi.symm.trans hother))
          refine ⟨own, hops, conds, m, _, hmapped, hchained, fun hplain => ?_⟩
          rw [node_eq h.added, h.filtered] at hplain
          simpa using hplain
    · rw [TableNode.child?, h.children] at hchild
      cases hchild

end Draft.Branched

/-- Joining an object field, anew or again, and pushing its filters keeps the layout, and the field
is joined along its hops under the conditions of the filters. -/
theorem Draft.Laid.joins {r : TableRegistry} {d d₁ : Draft} {types : List (List String × String)}
    {place : Place} {name own : String} {f : FieldDefinition} {hops : List Hop} {filtered : Bool}
    {joined : JoinedField} {conds : List Condition} (h : d.Laid r types)
    (hplace : types[place.node]? = some (place.path, place.type))
    (hmapped : r.fieldMapping? place.path place.type name = some (.source (.joined own hops)))
    (hf : r.schema.field? place.type name = some f)
    (hjoins : Joins r place name f.type.underlying hops filtered d joined d₁)
    (hconds : filtered = false → conds = []) :
    ∃ d₂, d₂ = d₁.pushAll joined.place.node (some ⟨.join joined.join, true⟩) conds ∧
      d.Keeps d₂ ∧ (d₂.node place.node).child? name = some joined.place.node ∧
        (∃ m k, d₂.Chained place.node joined.place.node hops conds m k) ∧
          ∃ types', types <+: types' ∧ d₂.Laid r types' ∧
            types'[joined.place.node]? = some (joined.place.path, joined.place.type) := by
  obtain ⟨parent, hparent, -⟩ := h.typed.exists_node hplace
  have hi : place.node < d.nodes.length := (List.getElem?_eq_some_iff.1 hparent).1
  cases hjoins with
  | again child hchild hplain hnone =>
    obtain rfl := hconds hnone
    rw [node_eq hparent] at hchild
    obtain ⟨own', hops', conds, m, k, hmapped', hchained, hempty⟩ :=
      h.child place.node parent place.path place.type name child hparent hplace hchild
    obtain ⟨rfl, rfl⟩ : own' = own ∧ hops' = hops := by simpa [hmapped] using hmapped'.symm
    obtain rfl := hempty hplain
    obtain ⟨t, g, rfl, hg, hnode⟩ :=
      h.typed.child place.node parent place.path place.type name child hparent hplace hchild
    obtain rfl := Option.some.inj (hf.symm.trans hg)
    refine ⟨d, rfl, .refl d, ?_, ⟨m, k, hchained⟩, types, List.prefix_refl _, h, hnode⟩
    rw [node_eq hparent]
    exact hchild
  | first table n e lastHop hnone hlast htable hgained hn =>
    have hbranched := Draft.Branched.of_first hi hlast htable hgained hn conds
    obtain ⟨m, hchained⟩ := hbranched.chained h.toNumbered hi
    refine ⟨_, rfl, hbranched.keeps, hbranched.child? hi hnone, ⟨m, _, hchained⟩, _,
      List.prefix_append _ _, hbranched.laid h hplace hmapped hf rfl, ?_⟩
    rw [← h.typed.length]
    simp

/-- A draft that has selected a column is laid out if it was before. -/
theorem Draft.Laid.ownColumn {r : TableRegistry} {d d' : Draft}
    {types : List (List String × String)} (h : d.Laid r types) {i position : Nat} {field : String}
    {column : ColumnRef} (hcolumn : Ends (ownColumn i field column) d position d') :
    d'.Laid r types := by
  have hkeeps := keeps_ownColumn hcolumn
  rcases (ends_ownColumn.1 hcolumn).2 with ⟨-, rfl⟩ | ⟨-, -, rfl⟩
  · exact h
  · constructor
    case typed =>
      refine h.typed.of_grown (List.length_modify ..) fun l x hx => ?_
      obtain ⟨y, hy, heq⟩ := addColumn_nodes hx
      rcases heq with rfl | ⟨-, rfl⟩
      · exact ⟨x, hy, .refl x, rfl, rfl⟩
      · exact ⟨y, hy, y.grown_addColumn _ _, rfl, rfl⟩
    case placed =>
      intro l x hx
      obtain ⟨y, hy, heq⟩ := addColumn_nodes hx
      have hplaced := h.placed l y hy
      rcases heq with rfl | ⟨rfl, rfl⟩
      · exact hplaced.mono (List.prefix_append _ _)
      · have hlabel : (d.node i).label = y.label := by rw [node_eq hy]
        change TableNode.Placed _ (d.columns ++ [⟨some ⟨(d.node i).label, none⟩, column.column⟩])
        rw [hlabel]
        exact TableNode.placed_addColumn hplaced
    case toNumbered =>
      refine ⟨h.labels, h.named, fun l x hx => ?_⟩
      obtain ⟨y, hy, heq⟩ := addColumn_nodes hx
      obtain ⟨k, hk, hlabel⟩ := h.numbered l y hy
      rcases heq with rfl | ⟨-, rfl⟩ <;> exact ⟨k, hk, hlabel⟩
    case child =>
      intro l x path type name child hx hl hchild
      obtain ⟨y, hy, heq⟩ := addColumn_nodes hx
      have hchild' : y.child? name = some child := by
        rcases heq with rfl | ⟨-, rfl⟩ <;> exact hchild
      obtain ⟨own, hops, conds, m, k, hmapped, hchained, hempty⟩ :=
        h.child l y path type name child hy hl hchild'
      refine ⟨own, hops, conds, m, k, hmapped, hchained.mono hkeeps, fun hplain => hempty ?_⟩
      exact (hkeeps.node hchained.child.1).2.2.2.symm.trans hplain

end Sql

mutual

/-- What a query selects at a place is in a draft: the columns have places, and the object fields
are joined along their hops under the conditions of their filters. -/
def Query.LaidOut (r : TableRegistry) (d : Draft) : Query → Place → Prop
  | .select name _ _ child, place =>
    name = "__typename" ∨
      (∃ own column isKey hidden position,
        r.fieldMapping? place.path place.type name =
            some (.source (.column own column isKey hidden)) ∧
          (d.node place.node).column? column.column = some position) ∨
      ∃ own hops f j conds m k,
        r.fieldMapping? place.path place.type name = some (.source (.joined own hops)) ∧
          r.schema.field? place.type name = some f ∧
          (d.node place.node).child? name = some j ∧
          d.Chained place.node j hops conds m k ∧
          Translated r (d.node j).label ⟨j, place.path ++ [name], f.type.underlying⟩ child.filters
            conds ∧
          child.LaidOut r d ⟨j, place.path ++ [name], f.type.underlying⟩
  | .filter _ child, place => child.LaidOut r d place
  | .group queries, place => Query.AllLaidOut r d queries place
  | .empty, _ => True
  | _, _ => False

def Query.AllLaidOut (r : TableRegistry) (d : Draft) : List Query → Place → Prop
  | [], _ => True
  | q :: rest, place => q.LaidOut r d place ∧ Query.AllLaidOut r d rest place

end

theorem Query.laidOut_group_cons {r : TableRegistry} {d : Draft} {q : Query} {rest : List Query}
    {place : Place} : (Query.group (q :: rest)).LaidOut r d place ↔
      q.LaidOut r d place ∧ (Query.group rest).LaidOut r d place := by
  simp only [Query.LaidOut, Query.AllLaidOut]

theorem Query.isPlain_group_cons {q : Query} {rest : List Query} :
    (Query.group (q :: rest)).isPlain = true ↔
      q.isPlain = true ∧ (Query.group rest).isPlain = true := by
  simp only [Query.isPlain, Query.allPlain, Bool.and_eq_true]

section LaidOut

variable {r : TableRegistry} {d d' : Draft}

mutual

/-- What is laid out stays so when a draft grows, for places whose nodes are there. -/
theorem Query.LaidOut.mono (hkeeps : d.Keeps d') :
    ∀ {q : Query} {place : Place}, place.node < d.nodes.length → q.LaidOut r d place →
      q.LaidOut r d' place
  | .select name _ _ child, place, hnode, h => by
    obtain ⟨-, hgrown, -⟩ := hkeeps.node hnode
    rw [Query.LaidOut] at h ⊢
    rcases h with h | ⟨own, column, isKey, hidden, position, hmapped, hplace⟩ |
      ⟨own, hops, f, j, conds, m, k, hmapped, hf, hchild, hchained, hconds, hbelow⟩
    · exact .inl h
    · exact .inr (.inl ⟨own, column, isKey, hidden, position, hmapped, hgrown.column? hplace⟩)
    · have hj := hchained.child.1
      have hlabel := (hkeeps.node hj).2.1.label
      exact .inr (.inr ⟨own, hops, f, j, conds, m, k, hmapped, hf, hgrown.child? hchild,
        hchained.mono hkeeps, hlabel ▸ hconds, Query.LaidOut.mono hkeeps hj hbelow⟩)
  | .filter p child, place, hnode, h => by
    rw [Query.LaidOut] at h ⊢
    exact Query.LaidOut.mono hkeeps hnode h
  | .group queries, place, hnode, h => by
    rw [Query.LaidOut] at h ⊢
    exact Query.AllLaidOut.mono hkeeps hnode h
  | .empty, _, _, _ => by
    rw [Query.LaidOut]
    trivial
  | .unique _, _, _, h => by simp [Query.LaidOut] at h
  | .narrow .., _, _, h => by simp [Query.LaidOut] at h
  | .limit .., _, _, h => by simp [Query.LaidOut] at h
  | .orderBy .., _, _, h => by simp [Query.LaidOut] at h
  | .component .., _, _, h => by simp [Query.LaidOut] at h
  | .introspect _, _, _, h => by simp [Query.LaidOut] at h

theorem Query.AllLaidOut.mono (hkeeps : d.Keeps d') :
    ∀ {queries : List Query} {place : Place}, place.node < d.nodes.length →
      Query.AllLaidOut r d queries place → Query.AllLaidOut r d' queries place
  | [], _, _, _ => by
    rw [Query.AllLaidOut]
    trivial
  | q :: rest, place, hnode, h => by
    rw [Query.AllLaidOut] at h ⊢
    exact ⟨Query.LaidOut.mono hkeeps hnode h.1, Query.AllLaidOut.mono hkeeps hnode h.2⟩

end

private theorem keeps_count (d : Draft) (count : Nat) : d.Keeps { d with fields := count } :=
  ⟨fun _ n hn => ⟨n, hn, .refl n, rfl, rfl⟩, List.prefix_refl _, List.prefix_refl _, rfl⟩

private theorem laid_count {types : List (List String × String)} (h : d.Laid r types)
    (count : Nat) : ({ d with fields := count } : Draft).Laid r types := by
  refine ⟨⟨h.labels, h.named, h.numbered⟩, h.typed, h.placed,
    fun i n path type field j hn hi hchild => ?_⟩
  obtain ⟨own, hops, conds, m, k, hmapped, hchained, hempty⟩ :=
    h.child i n path type field j hn hi hchild
  exact ⟨own, hops, conds, m, k, hmapped, hchained.mono (keeps_count d count), hempty⟩

/-- Planning a plain query lays it out where it is planned, once its filters are pushed. -/
theorem Sql.Planning.QueryPlanned.laidOut (hr : ∀ m ∈ r.allFields, m.isPlain = true)
    {steps : Nat} {place : Place} {list? : Option ListPlace} {q q' : Query}
    (h : QueryPlanned r steps place list? q d q' d') (hplain : q.isPlain = true)
    (hlist : ∀ list, list? = some list → list.pushable = true) :
    ∃ conds, Translated r (d.node place.node).label place q.filters conds ∧
      ∀ types, (d.pushAll place.node list? conds).Laid r types →
        types[place.node]? = some (place.path, place.type) →
          ∃ types', types <+: types' ∧ d'.Laid r types' ∧
            (d.pushAll place.node list? conds).Keeps d' ∧ q.LaidOut r d' place := by
  induction h with
  | @pushed place list p child q d d₁ d' c hpushable hcondition hpush _ ih =>
    rw [Query.isPlain] at hplain
    obtain rfl := Draft.ends_pushCondition.1 hpush
    obtain ⟨conds, hconds, hbelow⟩ := ih hplain hlist
    rw [Draft.push_label] at hconds
    refine ⟨c :: conds, .cons ⟨_, rfl, hcondition⟩ hconds, fun types hlaid htypes => ?_⟩
    obtain ⟨types', hextends, hlaid', hkeeps, hout⟩ := hbelow types hlaid htypes
    refine ⟨types', hextends, hlaid', hkeeps, ?_⟩
    rw [Query.LaidOut]
    exact hout
  | filter hpushable =>
    rw [hlist _ rfl] at hpushable
    cases hpushable
  | unique | orderBy | limit | narrow | component => cases hplain
  | groupNil =>
    refine ⟨[], .nil, fun types hlaid _ => ⟨types, List.prefix_refl _, ?_⟩⟩
    rw [Draft.pushAll_nil] at hlaid ⊢
    exact ⟨hlaid, .refl _, by simp [Query.LaidOut, Query.AllLaidOut]⟩
  | @groupCons place list? q q' rest rest' d d₁ d' _ _ ihfirst ihrest =>
    obtain ⟨hfirst, hrest⟩ := Query.isPlain_group_cons.1 hplain
    obtain ⟨conds, -, hbelow⟩ := ihfirst hfirst (by rintro list ⟨⟩)
    obtain ⟨conds', -, hbelow'⟩ := ihrest hrest (by rintro list ⟨⟩)
    refine ⟨[], .nil, fun types hlaid htypes => ?_⟩
    rw [Draft.pushAll_nil] at hlaid ⊢
    obtain ⟨types₁, hextends, hlaid₁, hkeeps, hout⟩ := hbelow types hlaid htypes
    have htypes₁ := getElem?_of_isPrefix hextends htypes
    obtain ⟨types₂, hextends', hlaid₂, hkeeps', hout'⟩ := hbelow' types₁ hlaid₁ htypes₁
    have hnode : place.node < d₁.nodes.length :=
      hlaid₁.typed.length ▸ (List.getElem?_eq_some_iff.1 htypes₁).1
    exact ⟨types₂, hextends.trans hextends', hlaid₂, hkeeps.trans hkeeps',
      Query.laidOut_group_cons.2 ⟨hout.mono hkeeps' hnode, hout'⟩⟩
  | typename =>
    refine ⟨[], .nil, fun types hlaid _ => ⟨types, List.prefix_refl _, ?_⟩⟩
    rw [Draft.pushAll_nil] at hlaid ⊢
    exact ⟨hlaid, .refl _, by simp [Query.LaidOut]⟩
  | @leaf place list? name alias? bindings child d d' count hname hfield =>
    refine ⟨[], .nil, fun types hlaid htypes => ?_⟩
    rw [Draft.pushAll_nil] at hlaid ⊢
    have hmem {m : FieldMapping TableField Unit Mapping}
        (hmapped : r.fieldMapping? place.path place.type name = some m) : m.isPlain = true :=
      hr m (Registry.mem_allFields_of_fieldMapping? hmapped)
    cases planField_planned hfield with
    | column own column isKey hidden position hmapped hcolumn =>
      obtain ⟨n, hn, -⟩ := hlaid.typed.exists_node htypes
      obtain ⟨n', hn', hplace⟩ := column?_ownColumn hn hcolumn
      refine ⟨types, List.prefix_refl _, laid_count (hlaid.ownColumn hcolumn) count,
        (keeps_ownColumn hcolumn).trans (keeps_count _ count), ?_⟩
      rw [Query.LaidOut]
      refine .inr (.inl ⟨own, column, isKey, hidden, position, hmapped, ?_⟩)
      rw [Draft.node_eq (d := { d' with fields := count }) hn']
      exact hplace
    | computed c hmapped =>
      rcases hmapped with ⟨hidden, hmapped⟩ | hmapped
      · cases hmem hmapped
      · cases hmem hmapped
    | delegate delegate hmapped => cases hmem hmapped
  | @joined place list? name alias? bindings child q d d₁ d' joined count hname hfield _ ih =>
    rw [Query.isPlain] at hplain
    refine ⟨[], .nil, fun types hlaid htypes => ?_⟩
    rw [Draft.pushAll_nil] at hlaid ⊢
    cases planField_planned hfield with
    | joined own hops f joined hmapped hf hjoins =>
      obtain ⟨conds, hconds, hbelow⟩ := ih hplain fun list h => Option.some.inj h ▸ rfl
      have hnone : hasFilter child = false → conds = [] := fun hfilter => by
        rw [Query.filters_of_not_hasFilter hplain hfilter] at hconds
        cases hconds
        rfl
      obtain ⟨_, rfl, hkeeps, hchild, ⟨m, k, hchained⟩, types₂, hextends, hlaid₂, hnode⟩ :=
        hlaid.joins htypes hmapped hf hjoins hnone
      obtain ⟨types', hextends', hlaid', hkeeps', hout⟩ := hbelow types₂ hlaid₂ hnode
      have hplace := hjoins.place_eq
      have hi := hchained.parent.1
      have hj := hchained.child.1
      have hj' := (hkeeps'.node hj).1
      have hlabel : (d'.node joined.place.node).label = (d₁.node joined.place.node).label :=
        (hkeeps'.node hj).2.1.label.trans (Draft.pushAll_label _ _ _ _ _)
      have hcounted := keeps_count d' count
      refine ⟨types', hextends.trans hextends', laid_count hlaid' count,
        (hkeeps.trans hkeeps').trans hcounted, ?_⟩
      rw [hplace] at hout hconds
      rw [Query.LaidOut]
      refine .inr (.inr ⟨own, hops, f, joined.place.node, conds, m, k, hmapped, hf,
        (hkeeps'.node hi).2.1.child? hchild, (hchained.mono hkeeps').mono hcounted, ?_,
        hout.mono hcounted hj'⟩)
      change Translated r (d'.node joined.place.node).label _ _ _
      rw [hlabel]
      exact hconds
  | empty =>
    refine ⟨[], .nil, fun types hlaid _ => ⟨types, List.prefix_refl _, ?_⟩⟩
    rw [Draft.pushAll_nil] at hlaid ⊢
    exact ⟨hlaid, .refl _, by simp [Query.LaidOut]⟩

/-- A draft of one node without children is laid out. -/
private theorem laid_root {path : List String} {type table : String} {n : TableNode}
    (hgained : Draft.Gained { Draft.empty with labels := 1 } (labelOf 0) table d n)
    (hn : n.IsOf r path type) (conds : List Condition) :
    ({ d with conditions := conds } : Draft).Laid r [(path, type)] := by
  have hnodes : d.nodes = [n] := hgained.nodes
  constructor
  case typed =>
    have hnone : NodesTyped r (fun _ type t => t = type) [] [] := by
      constructor
      · rfl
      · intro i n path type hn
        cases hn
      · intro i n path type field child hn
        cases hn
    have hone := hnone.append hn hgained.children
    rw [List.nil_append, List.nil_append, ← hnodes] at hone
    exact hone
  case placed =>
    intro i x hx
    obtain ⟨-, rfl⟩ := hgained.eq_root hx
    exact hgained.placed
  case toNumbered =>
    obtain ⟨hlabels, hnamed, hnumbered⟩ := hgained.numbered
    exact ⟨hlabels, hnamed, hnumbered⟩
  case child =>
    intro i x path' type' field j hx _ hchild
    obtain ⟨-, rfl⟩ := hgained.eq_root hx
    rw [TableNode.child?, hgained.children] at hchild
    cases hchild

/-- The plan of a plain query is that of a draft which is laid out, with the filters of the root
as its conditions. -/
theorem Sql.Plan.laidOut {field : String} {type : TypeRef} {child : Query} {plan : Plan}
    (hr : ∀ m ∈ r.allFields, m.isPlain = true) (hplain : child.isPlain = true)
    (h : Plan.build r field type child = .ok plan) :
    ∃ d types, plan = d.toPlan plan.residual ∧ d.Laid r types ∧
      types[0]? = some ([field], type.underlying) ∧ (d.node 0).label = labelOf 0 ∧
      Translated r (labelOf 0) ⟨0, [field], type.underlying⟩ child.filters d.conditions ∧
      child.LaidOut r d ⟨0, [field], type.underlying⟩ := by
  obtain ⟨table, n, d, d', hgained, hn, hplanned, hplan⟩ := Plan.build_planned h
  obtain ⟨conds, hconds, hlaid⟩ := hplanned.laidOut hr hplain fun list h => Option.some.inj h ▸ rfl
  have hnode : d.nodes[0]? = some n := hgained.node_eq
  have hlabel : (d.node 0).label = labelOf 0 := by
    rw [Draft.node_eq hnode]
    exact hgained.label
  have hnone : d.conditions = [] := hgained.conditions
  have hpushed : d.pushAll 0 (some ⟨.condition, true⟩) conds = { d with conditions := conds } := by
    rw [Draft.pushAll, Draft.foldl_push_condition, hnone, List.nil_append]
  rw [hpushed] at hlaid
  obtain ⟨types', ⟨more, rfl⟩, hlaid', hkeeps, hout⟩ :=
    hlaid [([field], type.underlying)] (laid_root hgained hn conds) rfl
  have hkept := (hkeeps.node (i := 0) (List.getElem?_eq_some_iff.1 hnode).1).2.1.label
  refine ⟨d', _, hplan, hlaid', rfl, hkept.trans hlabel, ?_, hout⟩
  rw [hlabel] at hconds
  rw [hkeeps.conditions]
  exact hconds

end LaidOut

end MappedQuery
