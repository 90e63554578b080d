import MappedQuery.Proofs.Flattening
import MappedQuery.Proofs.PlanLayout

/-!
# Joins that selections share

A node of a plan has one child for each field name, so all uses of an object field at a node share
one join: selections, and the fields that computed fields and operands require. The use that is
planned first decides through which hops the child is joined. A later use on another type, whose
mapping may say other hops, is given the same child. So the child of a use is the one its own
mapping means if and only if the first use at the node means the same hops.
-/
namespace MappedQuery

open Sql Sql.Planning

namespace Sql

section Chains

/-- The columns that a join links, under whatever other conditions. -/
def Condition.link? : Condition → Option (Column × Column)
  | .single (.compare .equal (.column a) (.column b)) => some (a, b)
  | .and (.condition c) _ => c.link?
  | _ => none

theorem link?_foldl_conjoin {c : Condition} (h : c.link?.isSome = true) (conds : List Condition) :
    (conds.foldl Condition.conjoin c).link? = c.link? := by
  have hstep {c : Condition} (h : c.link?.isSome = true) (d : Condition) :
      (c.conjoin d).link? = c.link? := by
    cases c with
    | always => simp [Condition.link?] at h
    | _ => cases d <;> simp [Condition.conjoin, Condition.link?]
  induction conds generalizing c with
  | nil => rfl
  | cons d conds ih => rw [List.foldl_cons, ih (hstep h d ▸ h), hstep h d]

theorem chainJoins_cons (conds : List Condition) (parent : String) (k : Nat) (hop : Hop)
    (rest : List Hop) : ∃ on : Condition,
      on.link? = some (⟨some ⟨parent, none⟩, hop.parent.column⟩,
        ⟨some ⟨labelOf k, none⟩, hop.child.column⟩) ∧
      chainJoins conds parent k (hop :: rest) =
        ⟨⟨hop.child.table, some (labelOf k)⟩, on⟩ ::
          chainJoins conds (labelOf k) (k + 1) rest := by
  cases rest with
  | nil =>
    refine ⟨_, ?_, rfl⟩
    rw [link?_foldl_conjoin rfl]
    rfl
  | cons next rest => exact ⟨_, rfl, rfl⟩

/-- Of two chains of hops from one table the joins are the same only if the hops are. -/
theorem chainJoins_injective {conds conds' : List Condition} {parent table : String} {k : Nat}
    {hops hops' : List Hop} (hlinked : Linked table hops) (hlinked' : Linked table hops')
    (h : chainJoins conds parent k hops = chainJoins conds' parent k hops') : hops = hops' := by
  induction hops generalizing parent table k hops' with
  | nil =>
    cases hops' with
    | nil => rfl
    | cons hop' rest' =>
      obtain ⟨on', -, hcons'⟩ := chainJoins_cons conds' parent k hop' rest'
      rw [hcons'] at h
      cases h
  | cons hop rest ih =>
    obtain ⟨on, hon, hcons⟩ := chainJoins_cons conds parent k hop rest
    cases hops' with
    | nil =>
      rw [hcons] at h
      cases h
    | cons hop' rest' =>
      obtain ⟨on', hon', hcons'⟩ := chainJoins_cons conds' parent k hop' rest'
      rw [hcons, hcons'] at h
      injection h with hfirst hrest
      injection hfirst with hjoined hconds
      injection hjoined with hname
      rw [hconds, hon'] at hon
      obtain ⟨⟨ptable, pcolumn⟩, ctable, ccolumn⟩ := hop
      obtain ⟨⟨ptable', pcolumn'⟩, ctable', ccolumn'⟩ := hop'
      obtain ⟨hstart, hbelow⟩ := hlinked
      obtain ⟨hstart', hbelow'⟩ := hlinked'
      cases hname
      cases hstart
      cases hstart'
      cases hon
      rw [ih hbelow hbelow' hrest]

/-- The joins of a chain after its first are linked to the one before them. -/
theorem link?_of_chainJoins {conds : List Condition} {parent : String} {k i : Nat}
    {hops : List Hop} {j : Join} (h : (chainJoins conds parent k hops)[i + 1]? = some j) :
    ∃ column other, j.on.link? = some (⟨some ⟨labelOf (k + i), none⟩, column⟩, other) := by
  induction hops generalizing parent k i with
  | nil => cases h
  | cons hop rest ih =>
    obtain ⟨on, -, hcons⟩ := chainJoins_cons conds parent k hop rest
    rw [hcons, List.getElem?_cons_succ] at h
    cases i with
    | succ i =>
      obtain ⟨column, other, hlink⟩ := ih h
      exact ⟨column, other, by rw [hlink, show k + 1 + i = k + (i + 1) by omega]⟩
    | zero =>
      cases rest with
      | nil => cases h
      | cons next rest =>
        obtain ⟨on', hon', hcons'⟩ := chainJoins_cons conds (labelOf k) (k + 1) next rest
        rw [hcons'] at h
        cases h
        exact ⟨_, _, hon'⟩

/-- A further condition on the last join of a chain. -/
theorem modify_chainJoins (conds : List Condition) (c : Condition) (parent : String) (k : Nat)
    (hops : List Hop) :
    ((chainJoins conds parent k hops).modify (hops.length - 1) fun j =>
      { j with on := j.on.conjoin c }) = chainJoins (conds ++ [c]) parent k hops := by
  rw [← modify_hopJoins, ← modify_hopJoins, List.modify_modify_eq]
  simp only [Function.comp_def, List.foldl_append, List.foldl_cons, List.foldl_nil]

/-- The tables of hops are joined one after the other, from the table of one node to that of
another; there may be more conditions on the last of the joins. -/
def Statement.JoinsThrough (s : Statement) (parent child : TableNode) (hops : List Hop) : Prop :=
  hops ≠ [] ∧ Linked parent.table hops ∧ ∃ front back conds m k,
    s.joins = front ++ chainJoins conds (labelOf m) k hops ++ back ∧ front.length + 1 = k ∧ m < k ∧
      parent.label = labelOf m ∧ child.label = labelOf (k + hops.length - 1)

/-- Of two chains from one table to another among the same joins neither starts later. -/
private theorem start_le {joins front front' back back' : List Join}
    {conds conds' : List Condition} {m k k' : Nat} {hops hops' : List Hop}
    (h : joins = front ++ chainJoins conds (labelOf m) k hops ++ back)
    (hk : front.length + 1 = k) (hm : m < k)
    (h' : joins = front' ++ chainJoins conds' (labelOf m) k' hops' ++ back')
    (hk' : front'.length + 1 = k') (hne : hops' ≠ [])
    (hend : k + hops.length = k' + hops'.length) : k' ≤ k := by
  by_contra hlater
  obtain ⟨hop, rest, rfl⟩ := List.exists_cons_of_ne_nil hne
  obtain ⟨on, hon, hcons⟩ := chainJoins_cons conds' (labelOf m) k' hop rest
  obtain ⟨i, hi⟩ : ∃ i, front'.length = front.length + (i + 1) := ⟨k' - k - 1, by omega⟩
  have hinside : i + 1 < (chainJoins conds (labelOf m) k hops).length := by
    rw [length_chainJoins]
    rw [List.length_cons] at hend
    omega
  have hat : (chainJoins conds (labelOf m) k hops)[i + 1]? = some ⟨⟨hop.child.table,
      some (labelOf k')⟩, on⟩ := by
    have hjoin : joins[front'.length]? = some ⟨⟨hop.child.table, some (labelOf k')⟩, on⟩ := by
      rw [h', hcons, List.append_assoc, List.getElem?_append_right (Nat.le_refl _), Nat.sub_self]
      rfl
    rw [h, hi, List.append_assoc, List.getElem?_append_right (Nat.le_add_right _ _),
      Nat.add_sub_cancel_left, List.getElem?_append_left hinside] at hjoin
    exact hjoin
  obtain ⟨column, other, hlink⟩ := link?_of_chainJoins hat
  rw [hon] at hlink
  injection hlink with hlink
  injection hlink with hcolumn
  injection hcolumn with htable
  injection htable with htable
  injection htable with hlabel
  have := labelOf_injective hlabel
  omega

/-- Between two tables only one chain of hops is joined. -/
theorem Statement.JoinsThrough.unique {s : Statement} {parent child : TableNode}
    {hops hops' : List Hop} (h : s.JoinsThrough parent child hops)
    (h' : s.JoinsThrough parent child hops') : hops = hops' := by
  obtain ⟨hne, hlinked, front, back, conds, m, k, hjoins, hk, hm, hparent, hchild⟩ := h
  obtain ⟨hne', hlinked', front', back', conds', m', k', hjoins', hk', hm', hparent', hchild'⟩ := h'
  obtain rfl := labelOf_injective (hparent.symm.trans hparent')
  have hpos := List.length_pos_of_ne_nil hne
  have hpos' := List.length_pos_of_ne_nil hne'
  have hend : k + hops.length = k' + hops'.length := by
    have := labelOf_injective (hchild.symm.trans hchild')
    omega
  obtain rfl : k = k' := Nat.le_antisymm
    (start_le hjoins' hk' hm' hjoins hk hne hend.symm) (start_le hjoins hk hm hjoins' hk' hne' hend)
  have hlength : front.length = front'.length := by omega
  have hchains : (chainJoins conds (labelOf m) k hops).length =
      (chainJoins conds' (labelOf m) k hops').length := by
    rw [length_chainJoins, length_chainJoins]
    omega
  rw [hjoins, List.append_assoc, List.append_assoc] at hjoins'
  have hrest := (List.append_inj hjoins' hlength).2
  exact chainJoins_injective hlinked hlinked' (List.append_inj hrest hchains).1

end Chains

/-- A use of an object field at a place, with the hops that the field is mapped to for the type of
the place. -/
structure JoinUse where
  place : Place
  name : String
  hops : List Hop
deriving DecidableEq

namespace JoinUse

/-- Whether a field of a node is used. -/
def isAt (node : Nat) (name : String) (u : JoinUse) : Bool :=
  decide (u.place.node = node ∧ u.name = name)

end JoinUse

section Uses

variable (r : TableRegistry)

/-- The uses of object fields by a field: of itself, or by the siblings that it requires. -/
def fieldUses : Nat → Place → String → List JoinUse
  | steps, place, name =>
    match r.fieldMapping? place.path place.type name with
    | some (.source (.joined _ hops)) => [⟨place, name, hops⟩]
    | some (.computed c _) | some (.computedAttribute c) =>
      match steps with
      | 0 => []
      | steps + 1 => c.required.flatMap (fieldUses steps place)
    | _ => []

/-- The uses of object fields by an operand. -/
def termUses (steps : Nat) (place : Place) : Term → List JoinUse
  | .path [name] => fieldUses r steps place name
  | _ => []

/-- Where the query below an object field is planned. -/
def childPlace? (nodes : List TableNode) (place : Place) (name : String) : Option Place :=
  match r.fieldMapping? place.path place.type name with
  | some (.source (.joined ..)) => do
    let child ← (nodes.getD place.node default).child? name
    let f ← r.schema.field? place.type name
    pure ⟨child, place.path ++ [name], f.type.underlying⟩
  | _ => none

mutual

/-- The uses of object fields by a query that is planned at a place, in the order of planning.
Operands of filters that are pushed need columns only. -/
def queryUses (steps : Nat) (nodes : List TableNode) : Bool → Place → Query → List JoinUse
  | _, place, .select name _ _ child =>
    if name = "__typename" then []
    else
      fieldUses r steps place name ++
        match childPlace? r nodes place name with
        | some below => queryUses steps nodes true below child
        | none => []
  | pushable, place, .filter p child =>
    (if pushable then [] else p.terms.flatMap (termUses r steps place)) ++
      queryUses steps nodes pushable place child
  | pushable, place, .orderBy selections child =>
    (selections.map (·.term)).flatMap (termUses r steps place) ++
      queryUses steps nodes pushable place child
  | pushable, place, .unique child => queryUses steps nodes pushable place child
  | _, place, .limit _ child => queryUses steps nodes false place child
  | _, place, .group queries => allUses steps nodes place queries
  | _, place, .narrow type child => queryUses steps nodes true { place with type } child
  | _, _, .component .. | _, _, .introspect _ | _, _, .empty => []

def allUses (steps : Nat) (nodes : List TableNode) : Place → List Query → List JoinUse
  | _, [] => []
  | place, q :: rest => queryUses steps nodes true place q ++ allUses steps nodes place rest

end

variable {r} {place : Place} {name own : String} {hops : List Hop}

theorem fieldUses_joined (steps : Nat)
    (h : r.fieldMapping? place.path place.type name = some (.source (.joined own hops))) :
    fieldUses r steps place name = [⟨place, name, hops⟩] := by
  unfold fieldUses
  rw [h]

theorem childPlace?_eq_none (nodes : List TableNode) (h : ∀ own hops,
    r.fieldMapping? place.path place.type name ≠ some (.source (.joined own hops))) :
    childPlace? r nodes place name = none := by
  unfold childPlace?
  split
  · rename_i hmapped
    exact absurd hmapped (h _ _)
  · rfl

theorem childPlace?_joined {nodes : List TableNode} {n : TableNode} {j : Nat}
    {f : FieldDefinition}
    (h : r.fieldMapping? place.path place.type name = some (.source (.joined own hops)))
    (hn : nodes[place.node]? = some n) (hj : n.child? name = some j)
    (hf : r.schema.field? place.type name = some f) :
    childPlace? r nodes place name = some ⟨j, place.path ++ [name], f.type.underlying⟩ := by
  rw [childPlace?, h, List.getD_eq_getElem?_getD, hn, Option.getD_some, hj, hf]
  rfl

end Uses

namespace Draft

/-- Every child of a node is joined through the hops of the first use of its field at the node, and
every use has a child. -/
structure Shares (r : TableRegistry) (d : Draft) (uses : List JoinUse) : Prop extends
    Numbered d where
  child : ∀ (i : Nat) (n : TableNode) (name : String) (j : Nat),
    d.nodes[i]? = some n → n.child? name = some j → ∃ first conds m k,
      uses.find? (JoinUse.isAt i name) = some first ∧ Planning.Linked n.table first.hops ∧
        d.Chained i j first.hops conds m k
  used : ∀ u ∈ uses,
    (∃ own, r.fieldMapping? u.place.path u.place.type u.name =
      some (.source (.joined own u.hops))) ∧
    ∃ n, d.nodes[u.place.node]? = some n ∧ (n.child? u.name).isSome = true

/-- A draft has become another that has the same joins and the same children. -/
structure SameJoins (d d' : Draft) : Prop where
  keeps : d.Keeps d'
  labels : d'.labels = d.labels
  joins : d'.joins = d.joins
  nodes : ∀ (i : Nat) (n' : TableNode), d'.nodes[i]? = some n' →
    ∃ n, d.nodes[i]? = some n ∧ n'.children = n.children

theorem SameJoins.refl (d : Draft) : d.SameJoins d :=
  ⟨.refl d, rfl, rfl, fun _ n hn => ⟨n, hn, rfl⟩⟩

theorem SameJoins.trans {d d' d'' : Draft} (h : d.SameJoins d') (h' : d'.SameJoins d'') :
    d.SameJoins d'' := by
  refine ⟨h.keeps.trans h'.keeps, h'.labels.trans h.labels, h'.joins.trans h.joins,
    fun i n'' hn'' => ?_⟩
  obtain ⟨n', hn', hchildren'⟩ := h'.nodes i n'' hn''
  obtain ⟨n, hn, hchildren⟩ := h.nodes i n' hn'
  exact ⟨n, hn, hchildren'.trans hchildren⟩

theorem sameJoins_count (d : Draft) (count : Nat) : d.SameJoins { d with fields := count } :=
  ⟨⟨fun _ n hn => ⟨n, hn, .refl n, rfl, rfl⟩, List.prefix_refl _, List.prefix_refl _, rfl⟩,
    rfl, rfl, fun _ n hn => ⟨n, hn, rfl⟩⟩

variable {r : TableRegistry} {d d' : Draft} {uses : List JoinUse}

/-- The nodes that there are have grown. -/
theorem SameJoins.old (h : d.SameJoins d') {i : Nat} {n' : TableNode}
    (hn' : d'.nodes[i]? = some n') : ∃ n, d.nodes[i]? = some n ∧ n.Grown n' ∧
      n'.keys = n.keys ∧ n'.children = n.children := by
  obtain ⟨n, hn, hchildren⟩ := h.nodes i n' hn'
  obtain ⟨n'', hn'', hgrown, hkeys, -⟩ := h.keeps.nodes i n hn
  cases hn'.symm.trans hn''
  exact ⟨n, hn, hgrown, hkeys, hchildren⟩

theorem Numbered.of_sameJoins (h : d.Numbered) (hsame : d.SameJoins d') : d'.Numbered := by
  refine ⟨by rw [hsame.labels, hsame.joins, h.labels], by rw [hsame.joins]; exact h.named,
    fun i n' hn' => ?_⟩
  obtain ⟨n, hn, hgrown, -⟩ := hsame.old hn'
  rw [hsame.labels, hgrown.label]
  exact h.numbered i n hn

/-- Selecting columns shares joins as before. -/
theorem Shares.of_sameJoins (h : d.Shares r uses) (hsame : d.SameJoins d') : d'.Shares r uses := by
  constructor
  case toNumbered => exact h.toNumbered.of_sameJoins hsame
  case child =>
    intro i n' name j hn' hchild
    obtain ⟨n, hn, hgrown, -, hchildren⟩ := hsame.old hn'
    rw [TableNode.child?, hchildren] at hchild
    obtain ⟨first, conds, m, k, hfirst, hlinked, hchained⟩ := h.child i n name j hn hchild
    exact ⟨first, conds, m, k, hfirst, hgrown.table ▸ hlinked, hchained.mono hsame.keeps⟩
  case used =>
    intro u hu
    obtain ⟨hmapped, n, hn, hchild⟩ := h.used u hu
    obtain ⟨n', hn', hgrown, -⟩ := hsame.keeps.nodes _ n hn
    obtain ⟨j, hj⟩ := Option.isSome_iff_exists.1 hchild
    exact ⟨hmapped, n', hn', Option.isSome_iff_exists.2 ⟨j, hgrown.child? hj⟩⟩

/-- Conditions do not change the numbers of joins. -/
theorem Numbered.push (h : d.Numbered) (node : Nat) (target : Target) (c : Condition) :
    (d.push node target c).Numbered := by
  have hnodes : ∀ (i : Nat) (n' : TableNode), (d.push node target c).nodes[i]? = some n' →
      ∃ k < d.labels, n'.label = labelOf k := by
    intro i n' hn'
    obtain ⟨n, hn, hgrown, -⟩ := push_nodes hn'
    rw [hgrown.label]
    exact h.numbered i n hn
  cases target with
  | condition => exact ⟨h.labels, h.named, hnodes⟩
  | join index =>
    refine ⟨?_, fun l j hj => ?_, hnodes⟩
    · change d.labels = (d.joins.modify index _).length + 1
      rw [List.length_modify, h.labels]
    · obtain ⟨j', hj', htable, -⟩ := push_joins hj
      rw [htable]
      exact h.named l j' hj'

private theorem push_node (d : Draft) (node index : Nat) (c : Condition) (i : Nat) :
    ((d.push node (.join index) c).node i).label = (d.node i).label ∧
      ((d.push node (.join index) c).node i).table = (d.node i).table := by
  rw [push, Draft.node, Draft.node, List.getD_eq_getElem?_getD, List.getD_eq_getElem?_getD,
    updateNode_nodes]
  split
  · cases d.nodes[i]? <;> exact ⟨rfl, rfl⟩
  · exact ⟨rfl, rfl⟩

/-- A chain keeps its place when the joins around it change. -/
private theorem Chained.of_joins {i j node index m k : Nat} {hops : List Hop}
    {conds conds' : List Condition} {c : Condition} (h : d.Chained i j hops conds m k)
    (front back : List Join) (hjoins : (d.push node (.join index) c).joins =
      front ++ chainJoins conds' (labelOf m) k hops ++ back) (hfront : front.length + 1 = k) :
    (d.push node (.join index) c).Chained i j hops conds' m k := by
  obtain ⟨-, hne, ⟨hi, hparent, hm⟩, ⟨hj, hchild⟩, ⟨hop, hlast, htable⟩, hbefore⟩ := h
  have hlength := d.push_length node (.join index) c
  refine ⟨⟨front, back, hjoins, hfront⟩, hne, ⟨by omega, ?_, hm⟩, ⟨by omega, ?_⟩,
    ⟨hop, hlast, ?_⟩, fun l hl => ?_⟩
  · rw [(d.push_node node index c i).1, hparent]
  · rw [(d.push_node node index c j).1, hchild]
  · rw [(d.push_node node index c j).2, htable]
  · rw [(d.push_node node index c l).1]
    exact hbefore l hl

/-- A condition that is pushed to the last join of a chain is on the chain. -/
private theorem Chained.push_last {i j node m k : Nat} {hops : List Hop} {conds : List Condition}
    (h : d.Chained i j hops conds m k) {index : Nat} (hindex : index + 2 = k + hops.length)
    (c : Condition) : (d.push node (.join index) c).Chained i j hops (conds ++ [c]) m k := by
  obtain ⟨front, back, hjoins, hfront⟩ := h.joins
  have hpos := List.length_pos_of_ne_nil h.nonempty
  refine h.of_joins front back ?_ hfront
  have hlast : index = front.length + (hops.length - 1) := by omega
  have hinside : front.length + (hops.length - 1) <
      (front ++ chainJoins conds (labelOf m) k hops).length := by
    rw [List.length_append, length_chainJoins]
    omega
  rw [push, updateNode]
  simp only [hjoins, hlast]
  rw [modify_append_left _ _ hinside, modify_append_right, modify_chainJoins]

/-- A condition that is pushed to a join outside a chain leaves the chain as it is. -/
private theorem Chained.push_other {i j node m k : Nat} {hops : List Hop} {conds : List Condition}
    (h : d.Chained i j hops conds m k) {index : Nat}
    (hindex : index + 1 < k ∨ k + hops.length ≤ index + 1) (c : Condition) :
    (d.push node (.join index) c).Chained i j hops conds m k := by
  obtain ⟨front, back, hjoins, hfront⟩ := h.joins
  rcases hindex with hbefore | hafter
  · have hinside : index < front.length := by omega
    refine h.of_joins (front.modify index fun j => { j with on := j.on.conjoin c }) back ?_
      (by rw [List.length_modify, hfront])
    rw [push, updateNode]
    simp only [hjoins]
    rw [List.append_assoc, modify_append_left _ _ hinside, ← List.append_assoc]
  · obtain ⟨l, rfl⟩ : ∃ l, index = (front ++ chainJoins conds (labelOf m) k hops).length + l :=
      ⟨index - (front.length + hops.length), by
        rw [List.length_append, length_chainJoins]
        omega⟩
    refine h.of_joins front (back.modify l fun j => { j with on := j.on.conjoin c }) ?_ hfront
    rw [push, updateNode]
    simp only [hjoins]
    rw [modify_append_right]

/-- Conditions may be pushed to the last join of a node: what is joined through which hops stays
as it was. -/
theorem Shares.push_join (h : d.Shares r uses) {node index : Nat}
    (hat : ∃ i hops conds m k, d.Chained i node hops conds m k ∧ index + 2 = k + hops.length)
    (c : Condition) : (d.push node (.join index) c).Shares r uses := by
  obtain ⟨i₀, hops₀, conds₀, m₀, k₀, hchained₀, hindex⟩ := hat
  have hpos₀ := List.length_pos_of_ne_nil hchained₀.nonempty
  constructor
  case toNumbered => exact h.toNumbered.push node (.join index) c
  case child =>
    intro i n' name j hn' hchild
    obtain ⟨n, hn, hgrown, -, -, hchildren⟩ := push_nodes hn'
    rw [TableNode.child?, hchildren] at hchild
    obtain ⟨first, conds, m, k, hfirst, hlinked, hchained⟩ := h.child i n name j hn hchild
    have hpos := List.length_pos_of_ne_nil hchained.nonempty
    rw [← hgrown.table] at hlinked
    rcases Nat.lt_trichotomy j node with hlt | rfl | hgt
    · obtain ⟨l, hl, hlabel⟩ := hchained₀.before j hlt
      have := labelOf_injective (hchained.child.2.symm.trans hlabel)
      exact ⟨first, conds, m, k, hfirst, hlinked, hchained.push_other (.inr (by omega)) c⟩
    · have := labelOf_injective (hchained.child.2.symm.trans hchained₀.child.2)
      exact ⟨first, _, m, k, hfirst, hlinked, hchained.push_last (by omega) c⟩
    · obtain ⟨l, hl, hlabel⟩ := hchained.before node hgt
      have := labelOf_injective (hchained₀.child.2.symm.trans hlabel)
      exact ⟨first, conds, m, k, hfirst, hlinked, hchained.push_other (.inl (by omega)) c⟩
  case used =>
    intro u hu
    obtain ⟨hmapped, n, hn, hchild⟩ := h.used u hu
    have hlt := (List.getElem?_eq_some_iff.1 hn).1
    have hn' := List.getElem?_eq_getElem ((d.push_length node (.join index) c).symm ▸ hlt)
    obtain ⟨n₁, hn₁, -, -, -, hchildren⟩ := push_nodes hn'
    cases hn.symm.trans hn₁
    exact ⟨hmapped, _, hn', by rw [TableNode.child?, hchildren]; exact hchild⟩

/-- One more use of a field that is there already. -/
theorem Shares.again (h : d.Shares r uses) {u : JoinUse}
    (hmapped : ∃ own, r.fieldMapping? u.place.path u.place.type u.name =
      some (.source (.joined own u.hops)))
    (hchild : ∃ n, d.nodes[u.place.node]? = some n ∧ (n.child? u.name).isSome = true) :
    d.Shares r (uses ++ [u]) := by
  refine ⟨h.toNumbered, fun i n name j hn hj => ?_, fun v hv => ?_⟩
  · obtain ⟨first, conds, m, k, hfirst, hlinked, hchained⟩ := h.child i n name j hn hj
    exact ⟨first, conds, m, k, by rw [List.find?_append, hfirst, Option.some_or], hlinked, hchained⟩
  · rcases List.mem_append.1 hv with hv | hv
    · exact h.used v hv
    · rw [List.mem_singleton.1 hv]
      exact ⟨hmapped, hchild⟩

/-- The first use of a field joins it through the hops of the use. -/
theorem Branched.shares {place : Place} {field type : String} {hops : List Hop} {n : TableNode}
    (h : Draft.Branched r d d' place field type hops [] n) (hd : d.Shares r uses)
    (hi : place.node < d.nodes.length) (hnone : (d.node place.node).child? field = none)
    (hlinked : Planning.Linked (d.node place.node).table hops)
    (hmapped : ∃ own, r.fieldMapping? place.path place.type field =
      some (.source (.joined own hops))) :
    d'.Shares r (uses ++ [⟨place, field, hops⟩]) := by
  have hparent : d.nodes[place.node]? = some d.nodes[place.node] := List.getElem?_eq_getElem hi
  obtain ⟨m, hchained⟩ := h.chained hd.toNumbered hi
  have hnew := h.child? hi hnone
  rw [node_eq hparent] at hnone hlinked
  have hfresh : uses.find? (JoinUse.isAt place.node field) = none := by
    refine List.find?_eq_none.2 fun u hu hat => ?_
    obtain ⟨hnode, hname⟩ := of_decide_eq_true hat
    obtain ⟨-, y, hy, hsome⟩ := hd.used u hu
    rw [hnode] at hy
    obtain rfl := Option.some.inj (hparent.symm.trans hy)
    rw [hname, hnone] at hsome
    cases hsome
  refine ⟨h.toNumbered hd.toNumbered hchained.nonempty, fun i x name j hx hj => ?_, fun u hu => ?_⟩
  · have hkept {y : TableNode} (hy : d.nodes[i]? = some y) (htable : x.table = y.table)
        (hchild : y.child? name = some j) : ∃ first conds m k,
        (uses ++ [JoinUse.mk place field hops]).find? (JoinUse.isAt i name) = some first ∧
          Planning.Linked x.table first.hops ∧ d'.Chained i j first.hops conds m k := by
      obtain ⟨first, conds, m, k, hfirst, hlinked, hchained⟩ := hd.child i y name j hy hchild
      exact ⟨first, conds, m, k, by rw [List.find?_append, hfirst, Option.some_or],
        htable ▸ hlinked, hchained.mono h.keeps⟩
    rcases h.cases hx with hold | ⟨rfl, rfl⟩
    · obtain ⟨y, hy, heq⟩ := h.old hold hx
      rcases heq with rfl | ⟨rfl, rfl⟩
      · exact hkept hy rfl hj
      · rcases TableNode.child?_of_addChild hj with hj | ⟨rfl, rfl⟩
        · exact hkept hy rfl hj
        · obtain rfl := Option.some.inj (hparent.symm.trans hy)
          refine ⟨⟨place, name, hops⟩, [], m, _, ?_, hlinked, hchained⟩
          rw [List.find?_append, hfresh, Option.none_or]
          exact List.find?_cons_of_pos (decide_eq_true ⟨rfl, rfl⟩)
    · rw [TableNode.child?, h.children] at hj
      cases hj
  · rcases List.mem_append.1 hu with hu | hu
    · obtain ⟨hmapped, y, hy, hsome⟩ := hd.used u hu
      obtain ⟨y', hy', hgrown, -⟩ := h.keeps.nodes _ y hy
      obtain ⟨j, hj⟩ := Option.isSome_iff_exists.1 hsome
      exact ⟨hmapped, y', hy', Option.isSome_iff_exists.2 ⟨j, hgrown.child? hj⟩⟩
    · rw [List.mem_singleton.1 hu]
      obtain ⟨x, hx, -⟩ := h.keeps.nodes _ _ hparent
      rw [node_eq hx] at hnew
      exact ⟨hmapped, x, hx, by rw [hnew]; rfl⟩

end Draft

namespace Planning

variable {r : TableRegistry} {d d' : Draft} {uses : List JoinUse} {place : Place}

/-- Joining a field, anew or again, is one more use of the field. Only a new join can be filtered,
and its number is known. -/
theorem Joins.shares {field childType : String} {hops : List Hop} {filtered : Bool}
    {joined : JoinedField} (h : Joins r place field childType hops filtered d joined d')
    (hd : d.Shares r uses) (hi : place.node < d.nodes.length)
    (hmapped : ∃ own, r.fieldMapping? place.path place.type field =
      some (.source (.joined own hops))) :
    d'.Shares r (uses ++ [⟨place, field, hops⟩]) ∧
      (filtered = true → ∃ i hops conds m k, d'.Chained i joined.place.node hops conds m k ∧
        joined.join + 2 = k + hops.length) := by
  have hparent : d.nodes[place.node]? = some d.nodes[place.node] := List.getElem?_eq_getElem hi
  cases h with
  | again child hchild hplain hnone =>
    rw [Draft.node_eq hparent] at hchild
    refine ⟨hd.again hmapped ⟨_, hparent, by rw [hchild]; rfl⟩, fun hfiltered => ?_⟩
    cases hnone.symm.trans hfiltered
  | first table n e lastHop hnone hlast htable hgained hn hlinked =>
    have hbranched := Draft.Branched.of_first hi hlast htable hgained hn []
    rw [List.foldl_nil] at hbranched
    obtain ⟨m, hchained⟩ := hbranched.chained hd.toNumbered hi
    refine ⟨hbranched.shares hd hi hnone hlinked hmapped, fun _ => ⟨_, _, _, m, _, hchained, ?_⟩⟩
    have hpos := List.length_pos_of_ne_nil hchained.nonempty
    have hlabels := hd.labels
    change d.joins.length + hops.length - 1 + 2 = d.labels + hops.length
    omega

theorem sameJoins_ownColumn {i position : Nat} {field : String} {column : ColumnRef}
    (h : Ends (ownColumn i field column) d position d') : d.SameJoins d' := by
  have hkeeps := keeps_ownColumn h
  rcases (ends_ownColumn.1 h).2 with ⟨-, rfl⟩ | ⟨-, -, rfl⟩
  · exact .refl _
  · refine ⟨hkeeps, rfl, rfl, fun l n' hn' => ?_⟩
    obtain ⟨n, hn, heq⟩ := Draft.addColumn_nodes hn'
    rcases heq with rfl | ⟨-, rfl⟩ <;> exact ⟨_, hn, rfl⟩

theorem sameJoins_selectAllColumns {u : Unit} (h : Ends (selectAllColumns r place) d u d') :
    d.SameJoins d' :=
  RelatesColumns.selectAllColumns ⟨.refl, .trans, sameJoins_ownColumn⟩ h

/-- Steps that each add uses add them one after the other. -/
theorem shares_forM {α : Type} {f : α → Planning PUnit} {added : α → List JoinUse} {as : List α}
    (step : ∀ a ∈ as, ∀ {d d' : Draft} {uses : List JoinUse}, Ends (f a) d ⟨⟩ d' →
      d.Shares r uses → place.node < d.nodes.length → d'.Shares r (uses ++ added a) ∧ d.Keeps d')
    {u : PUnit} (h : Ends (as.forM f) d u d') (hd : d.Shares r uses)
    (hi : place.node < d.nodes.length) :
    d'.Shares r (uses ++ as.flatMap added) ∧ d.Keeps d' := by
  induction as generalizing d uses with
  | nil =>
    rw [ends_forM_nil] at h
    subst h
    rw [List.flatMap_nil, List.append_nil]
    exact ⟨hd, .refl d⟩
  | cons a as ih =>
    obtain ⟨d₁, ha, has⟩ := ends_forM_cons.1 h
    obtain ⟨hd₁, hkeeps⟩ := step a List.mem_cons_self ha hd hi
    obtain ⟨hd', hkeeps'⟩ := ih (fun b hb => step b (List.mem_cons_of_mem _ hb)) has hd₁
      (hkeeps.node hi).1
    rw [List.flatMap_cons, ← List.append_assoc]
    exact ⟨hd', hkeeps.trans hkeeps'⟩

/-- Planning a field adds its uses. -/
theorem shares_planField (steps : Nat) {name : String} {filtered : Bool}
    {joined? : Option JoinedField} (h : Ends (planField r steps place name filtered) d joined? d')
    (hd : d.Shares r uses) (hi : place.node < d.nodes.length) :
    d'.Shares r (uses ++ fieldUses r steps place name) ∧ d.Keeps d' := by
  induction steps using Nat.strongRecOn generalizing name filtered joined? d d' uses with
  | ind steps ih =>
    cases planField_planned h with
    | column own column isKey hidden position hmapped hcolumn =>
      have hsame := sameJoins_ownColumn hcolumn
      rw [fieldUses, hmapped, List.append_nil]
      exact ⟨hd.of_sameJoins hsame, hsame.keeps⟩
    | joined own hops f joined hmapped hf hjoins =>
      have huses : fieldUses r steps place name = [⟨place, name, hops⟩] := by
        rw [fieldUses, hmapped]
      rw [huses]
      exact ⟨(hjoins.shares hd hi ⟨own, hmapped⟩).1, hjoins.keeps⟩
    | @computed steps' _ _ c hmapped hrequired =>
      have huses : fieldUses r (steps' + 1) place name =
          c.required.flatMap (fieldUses r steps' place) := by
        rcases hmapped with ⟨hidden, hmapped⟩ | hmapped <;> rw [fieldUses, hmapped]
      rw [huses]
      refine shares_forM (fun sibling _ d₁ d₂ uses₁ hsibling => ?_) hrequired hd hi
      obtain ⟨_, hsibling⟩ := ends_discard.1 hsibling
      exact ih steps' (Nat.lt_succ_self _) hsibling
    | delegate delegate hmapped hcolumns =>
      have hsame := sameJoins_selectAllColumns hcolumns
      rw [fieldUses, hmapped, List.append_nil]
      exact ⟨hd.of_sameJoins hsame, hsame.keeps⟩

/-- Planning operands adds their uses. -/
theorem shares_planTerms {steps : Nat} {ts : List Term} {u : Unit}
    (h : Ends (planTerms r steps place ts) d u d') (hd : d.Shares r uses)
    (hi : place.node < d.nodes.length) :
    d'.Shares r (uses ++ ts.flatMap (termUses r steps place)) ∧ d.Keeps d' := by
  refine shares_forM (fun t _ d₁ d₂ uses₁ ht hd₁ hi₁ => ?_) h hd hi
  rcases ends_planTerm ht with ⟨v, rfl, rfl⟩ | ⟨name, joined?, rfl, hfield⟩
  · rw [termUses, List.append_nil]
    · exact ⟨hd₁, .refl d₂⟩
    · simp
  · exact shares_planField steps hfield hd₁ hi₁

/-- Nodes have become others by gaining columns and children. -/
def GrownInto (nodes nodes' : List TableNode) : Prop :=
  ∀ (i : Nat) (n : TableNode), nodes[i]? = some n → ∃ n', nodes'[i]? = some n' ∧ n.Grown n'

theorem GrownInto.of_grows {nodes : List TableNode} (h : d.Grows d')
    (h' : GrownInto d'.nodes nodes) : GrownInto d.nodes nodes := by
  intro i n hn
  obtain ⟨n', hn', hgrown, -⟩ := h.nodes i n hn
  obtain ⟨n'', hn'', hgrown'⟩ := h' i n' hn'
  exact ⟨n'', hn'', hgrown.trans hgrown'⟩

theorem lt_of_grows (h : d.Grows d') {i : Nat} (hi : i < d.nodes.length) : i < d'.nodes.length := by
  obtain ⟨n, hn, -⟩ := h.nodes _ _ (List.getElem?_eq_getElem hi)
  exact (List.getElem?_eq_some_iff.1 hn).1

/-- The last join of the node of a list, where conditions may be pushed to it. -/
def Filterable (d : Draft) (node : Nat) (list? : Option ListPlace) (q : Query) : Prop :=
  ∀ list index, list? = some list → list.target = .join index → hasFilter q = true →
    ∃ i hops conds m k, d.Chained i node hops conds m k ∧ index + 2 = k + hops.length

theorem Filterable.mono {node : Nat} {list? : Option ListPlace} {q : Query}
    (h : Filterable d node list? q) (hkeeps : d.Keeps d') : Filterable d' node list? q := by
  intro list index hlist htarget hfilter
  obtain ⟨i, hops, conds, m, k, hchained, hindex⟩ := h list index hlist htarget hfilter
  exact ⟨i, hops, conds, m, k, hchained.mono hkeeps, hindex⟩

/-- After a condition was pushed to the join of a list, further ones may be. -/
theorem Filterable.push {node : Nat} {list : ListPlace} {q child : Query}
    (h : Filterable d node (some list) q) (hfilter : hasFilter q = true) (hd : d.Shares r uses)
    (c : Condition) : (d.push node list.target c).Shares r uses ∧
      Filterable (d.push node list.target c) node (some list) child := by
  obtain ⟨target, pushable⟩ := list
  cases target with
  | condition =>
    have hkept {i j m k : Nat} {hops : List Hop} {conds : List Condition}
        (hc : d.Chained i j hops conds m k) :
        (d.push node .condition c).Chained i j hops conds m k :=
      ⟨hc.joins, hc.nonempty, hc.parent, hc.child, hc.table, hc.before⟩
    refine ⟨⟨⟨hd.labels, hd.named, hd.numbered⟩, fun i n name j hn hj => ?_, hd.used⟩, ?_⟩
    · obtain ⟨first, conds, m, k, hfirst, hlinked, hchained⟩ := hd.child i n name j hn hj
      exact ⟨first, conds, m, k, hfirst, hlinked, hkept hchained⟩
    · rintro _ index ⟨⟩ ⟨⟩
  | join index =>
    obtain ⟨i, hops, conds, m, k, hchained, hindex⟩ := h _ index rfl rfl hfilter
    refine ⟨hd.push_join ⟨i, hops, conds, m, k, hchained, hindex⟩ c, ?_⟩
    rintro _ _ ⟨⟩ ⟨⟩ -
    exact ⟨i, hops, _, m, k, hchained.push_last hindex c, hindex⟩

/-- Planning a query adds its uses, as they are found by way of any nodes that the nodes of the
draft have grown into. -/
theorem QueryPlanned.shares {steps : Nat} {list? : Option ListPlace} {q q' : Query}
    (h : QueryPlanned r steps place list? q d q' d') (hd : d.Shares r uses)
    (hi : place.node < d.nodes.length) (hfilterable : Filterable d place.node list? q) :
    d.Grows d' ∧ ∀ nodes, GrownInto d'.nodes nodes →
      d'.Shares r (uses ++ queryUses r steps nodes (list?.all (·.pushable)) place q) := by
  induction h generalizing uses with
  | @pushed place list p child q d d₁ d' c hpushable hcondition hpush hchild ih =>
    obtain rfl := Draft.ends_pushCondition.1 hpush
    obtain ⟨hshares, hfilterable'⟩ := hfilterable.push rfl hd c
    have hgrows := d.grows_push place.node list.target c
    obtain ⟨hgrows', hbelow⟩ := ih hshares (lt_of_grows hgrows hi) hfilterable'
    refine ⟨hgrows.trans hgrows', fun nodes hnodes => ?_⟩
    rw [queryUses, Option.all_some, if_pos hpushable, List.nil_append]
    exact hbelow nodes hnodes
  | filter hpushable hterms hchild ih =>
    obtain ⟨hd₁, hkeeps⟩ := shares_planTerms hterms hd hi
    obtain ⟨hgrows, hbelow⟩ := ih hd₁ (hkeeps.node hi).1 (fun list index hlist htarget _ =>
      (hfilterable.mono hkeeps) list index hlist htarget rfl)
    refine ⟨hkeeps.grows.trans hgrows, fun nodes hnodes => ?_⟩
    rw [queryUses, Option.all_some, hpushable, if_neg Bool.false_ne_true, ← List.append_assoc]
    have h := hbelow nodes hnodes
    rwa [Option.all_some, hpushable] at h
  | unique hchild ih =>
    obtain ⟨hgrows, hbelow⟩ := ih hd hi hfilterable
    refine ⟨hgrows, fun nodes hnodes => ?_⟩
    rw [queryUses]
    exact hbelow nodes hnodes
  | orderBy hterms hchild ih =>
    obtain ⟨hd₁, hkeeps⟩ := shares_planTerms hterms hd hi
    obtain ⟨hgrows, hbelow⟩ := ih hd₁ (hkeeps.node hi).1 (hfilterable.mono hkeeps)
    refine ⟨hkeeps.grows.trans hgrows, fun nodes hnodes => ?_⟩
    rw [queryUses, ← List.append_assoc]
    exact hbelow nodes hnodes
  | @limit place list count child q d d' hchild ih =>
    have hfilterable' : Filterable d place.node (some { list with pushable := false }) child := by
      intro _ index hlist htarget hfilter
      cases hlist
      exact hfilterable list index rfl htarget hfilter
    obtain ⟨hgrows, hbelow⟩ := ih hd hi hfilterable'
    refine ⟨hgrows, fun nodes hnodes => ?_⟩
    rw [queryUses]
    exact hbelow nodes hnodes
  | groupNil =>
    refine ⟨.refl _, fun nodes _ => ?_⟩
    rw [queryUses, allUses, List.append_nil]
    exact hd
  | groupCons hfirst hrest ih ihrest =>
    have hnone {d : Draft} {i : Nat} {q : Query} : Filterable d i none q := by
      rintro list index ⟨⟩
    obtain ⟨hgrows, hbelow⟩ := ih hd hi hnone
    have hi₁ := lt_of_grows hgrows hi
    -- that the rest grows the draft further does not depend on how the uses so far are found
    obtain ⟨hgrows', -⟩ := ihrest (hbelow _ fun i n hn => ⟨n, hn, .refl n⟩) hi₁ hnone
    refine ⟨hgrows.trans hgrows', fun nodes hnodes => ?_⟩
    have hlast := (ihrest (hbelow nodes (.of_grows hgrows' hnodes)) hi₁ hnone).2 nodes hnodes
    rw [queryUses] at hlast
    rw [queryUses, allUses, ← List.append_assoc]
    exact hlast
  | typename =>
    refine ⟨.refl _, fun nodes _ => ?_⟩
    rw [queryUses, if_pos rfl, List.append_nil]
    exact hd
  | @leaf place _ name _ _ _ d d' count hname hfield =>
    obtain ⟨hd', hkeeps⟩ := shares_planField steps hfield hd hi
    have hcount := d'.sameJoins_count count
    refine ⟨(hkeeps.trans hcount.keeps).grows, fun nodes _ => ?_⟩
    have hleaf := childPlace?_eq_none nodes (planField_planned hfield).not_joined
    rw [queryUses, if_neg hname, hleaf, List.append_nil]
    exact hd'.of_sameJoins hcount
  | @joined place _ name _ _ child q d d₁ d' joined count hname hfield hchild ih =>
    cases planField_planned hfield with
    | joined own hops f joined hmapped hf hjoins =>
      obtain ⟨hd₁, hlast⟩ := hjoins.shares hd hi ⟨own, hmapped⟩
      obtain ⟨n, hn, hj⟩ := hjoins.child? (List.getElem?_eq_getElem hi)
      obtain ⟨_, _, _, _, -, -, hchained⟩ := hd₁.child _ n name _ hn hj
      have hfilterable' :
          Filterable d₁ joined.place.node (some ⟨.join joined.join, true⟩) child := by
        intro list index hlist htarget hfilter
        cases hlist
        cases htarget
        exact hlast hfilter
      obtain ⟨hgrows, hbelow⟩ := ih hd₁ hchained.child.1 hfilterable'
      have hcount := d'.sameJoins_count count
      refine ⟨(hjoins.keeps.grows.trans hgrows).trans hcount.keeps.grows, fun nodes hnodes => ?_⟩
      obtain ⟨n', hn', hgrown⟩ := GrownInto.of_grows hgrows hnodes _ n hn
      have hplace := childPlace?_joined hmapped hn' (hgrown.child? hj) hf
      rw [← hjoins.place_eq] at hplace
      rw [queryUses, if_neg hname, hplace, fieldUses_joined steps hmapped, ← List.append_assoc]
      exact (hbelow nodes hnodes).of_sameJoins hcount
  | narrow hchild ih =>
    obtain ⟨hgrows, hbelow⟩ := ih hd hi (by rintro list index ⟨⟩)
    refine ⟨hgrows, fun nodes hnodes => ?_⟩
    rw [queryUses]
    exact hbelow nodes hnodes
  | component hcolumns =>
    have hsame := sameJoins_selectAllColumns hcolumns
    refine ⟨hsame.keeps.grows, fun nodes _ => ?_⟩
    rw [queryUses, List.append_nil]
    exact hd.of_sameJoins hsame
  | empty =>
    refine ⟨.refl _, fun nodes _ => ?_⟩
    rw [queryUses, List.append_nil]
    exact hd

/-- The table of a root shares nothing yet. -/
theorem Draft.Gained.shares {table : String} {n : TableNode}
    (h : Draft.Gained { Draft.empty with labels := 1 } (labelOf 0) table d n) : d.Shares r [] := by
  refine ⟨h.numbered, fun i x name j hx hchild => ?_, fun u hu => by cases hu⟩
  rw [(h.eq_root hx).2, TableNode.child?, h.children] at hchild
  cases hchild

end Planning

end Sql

/-- A node is where the uses of an object field lead, as the first of them decides: its table is
joined through the hops of the first use and through no others, and a position that holds rows of
the parent has the field at the node, through whatever hops its own type is mapped. -/
structure Sql.Plan.DecidedBy (r : TableRegistry) (plan : Plan) (uses : List JoinUse)
    (u first : JoinUse) (j : Nat) : Prop where
  found : uses.find? (JoinUse.isAt u.place.node u.name) = some first
  planned : (plan.nodes.getD u.place.node default).child? u.name = some j
  joined : ∀ hops, plan.statement.JoinsThrough (plan.nodes.getD u.place.node default)
    (plan.nodes.getD j default) hops ↔ hops = first.hops
  reached : ∀ (c : Cursor) rows type own hops f,
    c.focus = .table r (.rows ⟨plan.nodes, u.place.node, rows⟩) → c.concreteType = .ok type →
      r.fieldMapping? c.path type u.name = some (.source (.joined own hops)) →
        r.schema.field? type u.name = some f →
          c.field u.name =
            .ok ⟨c.path ++ [u.name], f.type, .table r (.rows ⟨plan.nodes, j, rows⟩)⟩

/-- The uses of object fields by a plan, in the order of planning. -/
def Sql.Plan.uses (r : TableRegistry) (field : String) (type : TypeRef) (child : Query)
    (plan : Plan) : List JoinUse :=
  queryUses r (r.allFields.length + 1) plan.nodes true ⟨0, [field], type.underlying⟩ child

/-- Every use of an object field in a planned query has a child, which is the one that the first
use of the field at the node was joined to; so it is joined through the hops that its own mapping
gives if and only if the first use was mapped to the same. -/
theorem Sql.Plan.first_use_decides_join {r : TableRegistry} {field : String} {type : TypeRef}
    {child : Query} {plan : Plan} (h : Plan.build r field type child = .ok plan) :
    ∀ u ∈ plan.uses r field type child,
      (∃ own, r.fieldMapping? u.place.path u.place.type u.name =
        some (.source (.joined own u.hops))) ∧
      ∃ first j, plan.DecidedBy r (plan.uses r field type child) u first j ∧
        (plan.statement.JoinsThrough (plan.nodes.getD u.place.node default)
          (plan.nodes.getD j default) u.hops ↔ u.hops = first.hops) := by
  obtain ⟨table, n, d, d', hgained, -, hplanned, hplan⟩ := Plan.build_planned h
  have hroot : 0 < d.nodes.length := (List.getElem?_eq_some_iff.1 hgained.node_eq).1
  have hshares := (hplanned.shares (Draft.Gained.shares hgained) hroot
    (by rintro list index ⟨⟩ ⟨⟩)).2 plan.nodes (hplan ▸ fun i n hn => ⟨n, hn, .refl n⟩)
  intro u hu
  obtain ⟨hmapped, n, hn, hsome⟩ := hshares.used u hu
  obtain ⟨j, hj⟩ := Option.isSome_iff_exists.1 hsome
  obtain ⟨first, conds, m, k, hfirst, hlinked, hchained⟩ := hshares.child _ n u.name j hn hj
  have hnodes : plan.nodes = d'.nodes := by rw [hplan]; rfl
  have hparent : plan.nodes.getD u.place.node default = n := by
    rw [hnodes]
    exact Draft.node_eq hn
  have hthrough : plan.statement.JoinsThrough (plan.nodes.getD u.place.node default)
      (plan.nodes.getD j default) first.hops := by
    obtain ⟨front, back, hjoins, hfront⟩ := hchained.joins
    obtain ⟨-, hlabel, hm⟩ := hchained.parent
    refine ⟨hchained.nonempty, hparent ▸ hlinked, front, back, conds, m, k, ?_, hfront, hm, ?_, ?_⟩
    · rw [hplan]
      exact hjoins
    · rw [hnodes]
      exact hlabel
    · rw [hnodes]
      exact hchained.child.2
  have hjoined (hops : List Hop) : plan.statement.JoinsThrough
      (plan.nodes.getD u.place.node default) (plan.nodes.getD j default) hops ↔
        hops = first.hops :=
    ⟨fun hother => hother.unique hthrough, fun heq => heq ▸ hthrough⟩
  refine ⟨hmapped, first, j, ⟨hfirst, hparent ▸ hj, hjoined, ?_⟩, hjoined u.hops⟩
  rintro ⟨path, declared, focus⟩ rows type own hops f hfocus hconcrete hmapped hf
  cases hfocus
  exact field_of_joined (hnodes ▸ hn) hj hconcrete (by rw [Registry.sourceField?, hmapped]; rfl) hf

namespace Belongings

/-- Humans have friends, droids have makers. -/
def humanHops : List Hop := [⟨⟨"character", "friend"⟩, ⟨"person", "id"⟩⟩]

def droidHops : List Hop := [⟨⟨"character", "maker"⟩, ⟨"person", "id"⟩⟩]

/-- Two types of one table whose fields of one name lead to persons through different columns. -/
def registry : TableRegistry where
  schema := Schema.ofTypes [
    .object ⟨"Query", [⟨"characters", [], .list (.named "Character")⟩], []⟩,
    .interface ⟨"Character", [], []⟩,
    .object ⟨"Human", [⟨"person", [], .named "Person"⟩], ["Character"]⟩,
    .object ⟨"Droid", [⟨"person", [], .named "Person"⟩], ["Character"]⟩,
    .object ⟨"Person", [⟨"name", [], .named "String"⟩], []⟩] "Query"
  types := [
    .object ⟨"Query", [.root "characters" ()]⟩,
    .object ⟨"Character", [
      .source (.discriminator ⟨"character", "kind"⟩ [(.string "human", "Human"),
        (.string "droid", "Droid")]),
      .source (.column "id" ⟨"character", "id"⟩ true true)]⟩,
    .object ⟨"Human", [.source (.joined "person" humanHops)]⟩,
    .object ⟨"Droid", [.source (.joined "person" droidHops)]⟩,
    .object ⟨"Person", [
      .source (.column "id" ⟨"person", "id"⟩ true true),
      .source (.column "name" ⟨"person", "name"⟩ false false)]⟩]
  elaborators := []

def person : Query := .select "person" none [] (.field "name")

/-- The persons of humans and those of droids. -/
def query : Query := .group [.narrow "Human" person, .narrow "Droid" person]

def ofHumans : JoinUse := ⟨⟨0, ["characters"], "Human"⟩, "person", humanHops⟩

def ofDroids : JoinUse := ⟨⟨0, ["characters"], "Droid"⟩, "person", droidHops⟩

theorem uses_query : ∃ plan,
    Plan.build registry "characters" (.list (.named "Character")) query = .ok plan ∧
      plan.uses registry "characters" (.list (.named "Character")) query =
        [ofHumans, ofDroids] := by
  have huses : (Plan.build registry "characters" (.list (.named "Character")) query).toOption.map
      (·.uses registry "characters" (.list (.named "Character")) query) =
        some [ofHumans, ofDroids] := by
    decide +kernel
  cases hplan : Plan.build registry "characters" (.list (.named "Character")) query with
  | error _ =>
    rw [hplan] at huses
    cases huses
  | ok plan =>
    rw [hplan] at huses
    exact ⟨plan, rfl, Option.some.inj huses⟩

/-- The persons of the droids are read where those of the humans are, and so are not joined as the
droids are mapped. -/
theorem persons_of_humans_decide : ∃ plan uses j,
    Plan.build registry "characters" (.list (.named "Character")) query = .ok plan ∧
      plan.uses registry "characters" (.list (.named "Character")) query = uses ∧
      uses = [ofHumans, ofDroids] ∧
      plan.DecidedBy registry uses ofDroids ofHumans j ∧
      plan.DecidedBy registry uses ofHumans ofHumans j ∧
      plan.statement.JoinsThrough (plan.nodes.getD 0 default) (plan.nodes.getD j default)
        humanHops ∧
      ¬ plan.statement.JoinsThrough (plan.nodes.getD 0 default) (plan.nodes.getD j default)
        droidHops := by
  obtain ⟨plan, hplan, huses⟩ := uses_query
  have hdecided := Plan.first_use_decides_join hplan
  rw [huses] at hdecided
  obtain ⟨-, first, j, hdroids, hnot⟩ := hdecided ofDroids (by simp)
  obtain ⟨-, first', j', hhumans, -⟩ := hdecided ofHumans (by simp)
  obtain rfl : first = ofHumans := (Option.some.inj hdroids.found).symm
  obtain rfl : first' = ofHumans := (Option.some.inj hhumans.found).symm
  obtain rfl : j' = j := Option.some.inj (hhumans.planned.symm.trans hdroids.planned)
  refine ⟨plan, _, j', hplan, huses, rfl, hdroids, hhumans, ?_, ?_⟩
  · exact (hdroids.joined _).2 rfl
  · exact fun h => absurd ((hdroids.joined droidHops).1 h) (by decide)

end Belongings

end MappedQuery
