import MappedQuery.Proofs.SharedJoins

/-!
# Plans are well scoped

A plan names its tables by numbers, the table of the root first and then those of the joins as they
come. Columns are qualified by these names, nodes and rows refer to columns by their places, and
conditions are pushed to joins that were added before. `Draft.Scoped` says that all these references
meet what they are meant for; every step of planning keeps it. So the statement of a plan mentions
no name before the table of the name is joined, and the places that its nodes know are those of
their own columns.
-/
namespace MappedQuery

open Sql Sql.Planning

namespace Sql

mutual

/-- The columns that an expression mentions. -/
def Expression.columns : Expression → List Column
  | .column c => [c]
  | .parameter _ => []
  | .lower e => e.columns
  | .compare _ left right => left.columns ++ right.columns
  | .isIn e choices => e.columns ++ Expression.columnsAll choices
  | .isNull e => e.columns
  | .isNotNull e => e.columns
  | .condition c => c.columns

def Expression.columnsAll : List Expression → List Column
  | [] => []
  | e :: rest => e.columns ++ Expression.columnsAll rest

/-- The columns that a condition mentions. -/
def Condition.columns : Condition → List Column
  | .and left right => left.columns ++ right.columns
  | .or left right => left.columns ++ right.columns
  | .not e => e.columns
  | .single e => e.columns
  | .always => []
  | .never => []

end

/-- A column is qualified by one of these names. -/
def Column.Under (c : Column) (labels : List String) : Prop :=
  ∃ label ∈ labels, c.table? = some ⟨label, none⟩

namespace Condition

theorem mem_columns_conjoin {c c' : Condition} {x : Column} (h : x ∈ (c.conjoin c').columns) :
    x ∈ c.columns ∨ x ∈ c'.columns := by
  unfold conjoin at h
  split at h
  · exact .inr h
  · exact .inl h
  · exact List.mem_append.1 h

theorem mem_columns_foldl {cs : List Condition} {c : Condition} {x : Column}
    (h : x ∈ (cs.foldl conjoin c).columns) : x ∈ c.columns ∨ ∃ c' ∈ cs, x ∈ c'.columns := by
  induction cs generalizing c with
  | nil => exact .inl h
  | cons first cs ih =>
    rcases ih h with h | ⟨c', hc', h⟩
    · rcases mem_columns_conjoin h with h | h
      · exact .inl h
      · exact .inr ⟨first, List.mem_cons_self, h⟩
    · exact .inr ⟨c', List.mem_cons_of_mem _ hc', h⟩

end Condition

/-- The names of the first tables of a plan. -/
def firstLabels (count : Nat) : List String := (List.range count).map labelOf

theorem firstLabels_subset {k l : Nat} (h : k ≤ l) : firstLabels k ⊆ firstLabels l :=
  List.map_subset _ fun _ hi => List.mem_range.2 (Nat.lt_of_lt_of_le (List.mem_range.1 hi) h)

theorem labelOf_mem_firstLabels {k count : Nat} (h : k < count) : labelOf k ∈ firstLabels count :=
  List.mem_map_of_mem (List.mem_range.2 h)

section Conditions

variable {r : TableRegistry} {n : TableNode} {place : Place}

theorem columns_of_expression? {t : Term} {e : Expression} (h : expression? r n place t = some e) :
    ∀ x ∈ e.columns, x.table? = some ⟨n.label, none⟩ := by
  unfold expression? at h
  intro x hx
  split at h
  · split at h
    · cases h
      cases hx
    · cases h
  · split at h
    · split at h
      · cases h
        rw [List.mem_singleton.1 hx]
      · cases h
    · cases h
  · cases h

theorem columnsAll_parameters (cells : List Cell) :
    Expression.columnsAll (cells.map .parameter) = [] := by
  induction cells with
  | nil => rfl
  | cons cell cells ih => exact ih

/-- The condition of a predicate mentions columns of the node's table only. -/
theorem columns_of_condition {p : Predicate} {c : Condition} (h : condition r n place p = .ok c) :
    ∀ x ∈ c.columns, x.table? = some ⟨n.label, none⟩ := by
  have hboth {as bs : List Column} (has : ∀ x ∈ as, x.table? = some ⟨n.label, none⟩)
      (hbs : ∀ x ∈ bs, x.table? = some ⟨n.label, none⟩) :
      ∀ x ∈ as ++ bs, x.table? = some ⟨n.label, none⟩ := fun x hx =>
    (List.mem_append.1 hx).elim (has x) (hbs x)
  induction p generalizing c with
  | always | never =>
    cases h
    exact fun x hx => by cases hx
  | and p q ihp ihq | or p q ihp ihq =>
    simp only [condition, bind_eq_ok, pure_eq_ok] at h
    obtain ⟨left, hleft, right, hright, rfl⟩ := h
    exact hboth (ihp hleft) (ihq hright)
  | not p ih =>
    simp only [condition, bind_eq_ok, pure_eq_ok] at h
    obtain ⟨inner, hinner, rfl⟩ := h
    exact fun x hx => ih hinner x hx
  | eq a b | ne a b =>
    simp only [condition] at h
    split at h <;> simp only [bind_eq_ok, pure_eq_ok] at h
    · obtain ⟨e, he, rfl⟩ := h
      exact fun x hx => columns_of_expression? (Predicate.expression_of_operand he) x hx
    · obtain ⟨left, hleft, right, hright, rfl⟩ := h
      exact hboth (columns_of_expression? (Predicate.expression_of_operand hleft))
        (columns_of_expression? (Predicate.expression_of_operand hright))
  | lt a b | le a b | gt a b | ge a b =>
    simp only [condition, bind_eq_ok, pure_eq_ok] at h
    obtain ⟨left, hleft, right, hright, rfl⟩ := h
    exact hboth (columns_of_expression? (Predicate.expression_of_operand hleft))
      (columns_of_expression? (Predicate.expression_of_operand hright))
  | like t pattern ignoreCase =>
    simp only [condition, bind_eq_ok, pure_eq_ok] at h
    obtain ⟨e, he, rfl⟩ := h
    have hover := columns_of_expression? (Predicate.expression_of_operand he)
    cases ignoreCase <;> exact hboth hover fun x hx => by cases hx
  | isIn t values =>
    simp only [condition] at h
    split at h
    · cases h
    · rename_i cells hcells
      simp only [bind_eq_ok, pure_eq_ok] at h
      obtain ⟨e, he, rfl⟩ := h
      refine hboth (columns_of_expression? (Predicate.expression_of_operand he)) fun x hx => ?_
      rw [columnsAll_parameters] at hx
      cases hx
  | isNull t expected =>
    cases expected <;> simp only [condition, bind_eq_ok, pure_eq_ok] at h <;>
      obtain ⟨e, he, rfl⟩ := h <;>
        exact fun x hx => columns_of_expression? (Predicate.expression_of_operand he) x hx

end Conditions

/-- The joins of hops mention the tables up to their own. -/
theorem columns_of_hopJoins {parent : String} {k i : Nat} {hops : List Hop} {j : Join}
    (hparent : parent ∈ firstLabels k) (h : (hopJoins parent k hops)[i]? = some j) :
    ∀ x ∈ j.on.columns, x.Under (firstLabels (k + i + 1)) := by
  induction hops generalizing parent k i with
  | nil => cases h
  | cons hop rest ih =>
    have hown := labelOf_mem_firstLabels (Nat.lt_succ_self k)
    cases i with
    | zero =>
      cases h
      have hbefore := firstLabels_subset (Nat.le_succ k) hparent
      intro x hx
      change x ∈ [Column.mk _ _, Column.mk _ _] at hx
      rcases List.mem_pair.1 hx with rfl | rfl
      · exact ⟨parent, hbefore, rfl⟩
      · exact ⟨labelOf k, hown, rfl⟩
    | succ i =>
      have hrest := ih hown (List.getElem?_cons_succ ▸ h)
      rwa [show k + 1 + i + 1 = k + (i + 1) + 1 by omega] at hrest

/-- The columns of a node have places, each under its own name, and the keys of the node are among
them. -/
structure TableNode.Scoped (n : TableNode) (r : TableRegistry) (columns : List Column) : Prop where
  placed : n.Placed columns
  names : (n.columns.map (·.1)).Nodup
  keyed : ∃ path type, n.IsOf r path type

theorem TableNode.Scoped.mono {n n' : TableNode} {r : TableRegistry}
    {columns columns' : List Column} (h : n.Scoped r columns) (hextends : columns <+: columns') (hgrown : n.Grown n')
    (hcolumns : n'.columns = n.columns) (hkeys : n'.keys = n.keys) : n'.Scoped r columns' := by
  obtain ⟨path, type, hof⟩ := h.keyed
  refine ⟨fun name place hplace => ?_, hcolumns ▸ h.names, path, type, hof.mono hgrown hkeys⟩
  rw [TableNode.column?, hcolumns] at hplace
  rw [hgrown.label]
  exact h.placed.mono hextends name place hplace

/-- The number of the table that conditions are over where they are pushed to a target. -/
def Target.number : Target → Nat
  | .condition => 0
  | .join index => index + 1

namespace Draft

/-- Nodes have names of their own. -/
def Distinct (d : Draft) : Prop :=
  ∀ (i j : Nat) (n n' : TableNode), d.nodes[i]? = some n → d.nodes[j]? = some n' →
    n.label = n'.label → i = j

/-- Nodes that keep their names keep them apart. -/
theorem Distinct.of_labels {d d' : Draft} (h : d.Distinct)
    (hlabels : ∀ (i : Nat) (n' : TableNode), d'.nodes[i]? = some n' →
      ∃ n, d.nodes[i]? = some n ∧ n'.label = n.label) : d'.Distinct := by
  intro i j x' y' hx' hy' hsame
  obtain ⟨x, hx, hxlabel⟩ := hlabels i x' hx'
  obtain ⟨y, hy, hylabel⟩ := hlabels j y' hy'
  exact h i j x y hx hy (hxlabel.symm.trans (hsame.trans hylabel))

/-- The node of a new join has a name that no node had before. -/
theorem Branched.distinct {r : TableRegistry} {d d' : Draft} {place : Place} {field type : String}
    {hops : List Hop} {conds : List Condition} {n : TableNode}
    (h : Branched r d d' place field type hops conds n) (hd : d.Numbered) (hne : hops ≠ [])
    (hdistinct : d.Distinct) : d'.Distinct := by
  have hpos := List.length_pos_of_ne_nil hne
  have hnew {l : Nat} {x : TableNode} (hl : l < d.nodes.length) (hx : d'.nodes[l]? = some x) :
      x.label ≠ n.label := by
    obtain ⟨k, hk, hlabel⟩ := h.numbered hd hl
    rw [node_eq hx] at hlabel
    intro heq
    have := labelOf_injective (hlabel.symm.trans (heq.trans h.label))
    omega
  have hold {l : Nat} {x : TableNode} (hl : l < d.nodes.length) (hx : d'.nodes[l]? = some x) :
      ∃ y, d.nodes[l]? = some y ∧ x.label = y.label := by
    obtain ⟨y, hy, heq⟩ := h.old hl hx
    rcases heq with rfl | ⟨-, rfl⟩ <;> exact ⟨_, hy, rfl⟩
  intro i j x y hx hy hsame
  rcases h.cases hx with hi | ⟨rfl, rfl⟩ <;> rcases h.cases hy with hj | ⟨rfl, rfl⟩
  · obtain ⟨x', hx', hxlabel⟩ := hold hi hx
    obtain ⟨y', hy', hylabel⟩ := hold hj hy
    exact hdistinct i j x' y' hx' hy' (hxlabel.symm.trans (hsame.trans hylabel))
  · exact absurd hsame (hnew hi hx)
  · exact absurd hsame.symm (hnew hj hy)
  · rfl

/-- What the parts of a draft refer to is there. -/
structure Scoped (r : TableRegistry) (d : Draft) : Prop extends Numbered d where
  root : (d.node 0).label = labelOf 0
  distinct : d.Distinct
  node : ∀ (i : Nat) (n : TableNode), d.nodes[i]? = some n → n.Scoped r d.columns
  owned : ∀ (k : Nat) (c : Column), d.columns[k]? = some c →
    ∃ (i : Nat) (n : TableNode), d.nodes[i]? = some n ∧ n.Owns k c
  below : ∀ (i : Nat) (n : TableNode) (entry : String × Nat), d.nodes[i]? = some n →
    entry ∈ n.children → i < entry.2 ∧ entry.2 < d.nodes.length
  joined : ∀ (k : Nat) (j : Join), d.joins[k]? = some j →
    ∀ x ∈ j.on.columns, x.Under (firstLabels (k + 2))
  chosen : ∀ c ∈ d.conditions, ∀ x ∈ c.columns, x.Under (firstLabels 1)

variable {r : TableRegistry} {d d' : Draft}

/-- The table of a root is scoped. -/
theorem Gained.isScoped {table : String} {n : TableNode} {path : List String} {type : String}
    (h : Gained { empty with labels := 1 } (labelOf 0) table d n) (hn : n.IsOf r path type) :
    d.Scoped r := by
  have hjoins : d.joins = [] := h.joins
  have hconditions : d.conditions = [] := h.conditions
  constructor
  case toNumbered => exact h.numbered
  case root =>
    have hroot : d.nodes[0]? = some n := h.node_eq
    rw [Draft.node_eq hroot]
    exact h.label
  case distinct =>
    intro i j x y hx hy _
    rw [(h.eq_root hx).1, (h.eq_root hy).1]
  case node =>
    intro i x hx
    rw [(h.eq_root hx).2]
    exact ⟨h.placed, h.names, path, type, hn⟩
  case owned => exact fun k c hc => ⟨0, n, h.node_eq, h.owned k c (Nat.zero_le _) hc⟩
  case below =>
    intro i x entry hx hentry
    rw [(h.eq_root hx).2, h.children] at hentry
    cases hentry
  case joined =>
    intro k j hj
    rw [hjoins] at hj
    cases hj
  case chosen =>
    intro c hc
    rw [hconditions] at hc
    cases hc

/-- A further column of a node has a place of its own. -/
theorem Scoped.addColumn (h : d.Scoped r) {i : Nat} {name : String} {n : TableNode}
    (hn : d.nodes[i]? = some n) (hnone : n.column? name = none) :
    (d.addColumn i name).Scoped r := by
  have hcolumns : (d.addColumn i name).columns = d.columns ++ [⟨some ⟨n.label, none⟩, name⟩] := by
    rw [← node_eq hn]
    rfl
  have hnew : (d.addColumn i name).nodes[i]? = some (n.addColumn name d.columns.length) := by
    rw [Draft.addColumn, updateNode_nodes, if_pos rfl]
    exact congrArg (Option.map _) hn
  have hlength : (d.addColumn i name).nodes.length = d.nodes.length := List.length_modify ..
  have hold {l : Nat} {x : TableNode} (hx : (d.addColumn i name).nodes[l]? = some x) :
      ∃ y, d.nodes[l]? = some y ∧ x.label = y.label ∧ x.children = y.children := by
    obtain ⟨y, hy, heq⟩ := addColumn_nodes hx
    rcases heq with rfl | ⟨-, rfl⟩ <;> exact ⟨_, hy, rfl, rfl⟩
  constructor
  case toNumbered =>
    refine ⟨h.labels, h.named, fun l x hx => ?_⟩
    obtain ⟨y, hy, hlabel, -⟩ := hold hx
    rw [hlabel]
    exact h.numbered l y hy
  case root =>
    have hpos : 0 < d.nodes.length := Nat.zero_lt_of_lt (List.getElem?_eq_some_iff.1 hn).1
    exact ((d.keeps_addColumn i name).node hpos).2.1.label.trans h.root
  case distinct =>
    refine h.distinct.of_labels fun l x hx => ?_
    obtain ⟨y, hy, hlabel, -⟩ := hold hx
    exact ⟨y, hy, hlabel⟩
  case node =>
    intro l x hx
    obtain ⟨y, hy, heq⟩ := addColumn_nodes hx
    rw [hcolumns]
    rcases heq with rfl | ⟨rfl, rfl⟩
    · exact (h.node l x hy).mono (List.prefix_append _ _) (.refl x) rfl rfl
    · obtain rfl := Option.some.inj (hn.symm.trans hy)
      obtain ⟨hplaced, hnames, path, type, hof⟩ := h.node i n hn
      exact ⟨TableNode.placed_addColumn hplaced, TableNode.names_addColumn _ hnone hnames, path,
        type, hof.mono (n.grown_addColumn _ _) rfl⟩
  case owned =>
    intro k c hc
    rw [hcolumns] at hc
    rcases Nat.lt_or_ge k d.columns.length with hlt | hge
    · rw [List.getElem?_append_left hlt] at hc
      obtain ⟨l, x, hx, howns⟩ := h.owned k c hc
      obtain ⟨x', hx', hgrown, -⟩ := (d.keeps_addColumn i name).nodes l x hx
      exact ⟨l, x', hx', howns.mono hgrown⟩
    · refine ⟨i, _, hnew, TableNode.owns_addColumn hnone hge (fun k c hk hc => ?_) hc⟩
      exact absurd (List.getElem?_eq_some_iff.1 hc).1 (Nat.not_lt.2 hk)
  case below =>
    intro l x entry hx hentry
    obtain ⟨y, hy, -, hchildren⟩ := hold hx
    rw [hlength]
    exact h.below l y entry hy (hchildren ▸ hentry)
  case joined => exact h.joined
  case chosen => exact h.chosen

/-- A new join mentions the tables up to its own, a new node is below its parent, and new columns
are those of the new node. -/
theorem Scoped.first (h : d.Scoped r) {place : Place} {field childType table : String}
    {hops : List Hop} {lastHop : Hop} {e : Draft} {n : TableNode}
    (hi : place.node < d.nodes.length) (hlast : hops.getLast? = some lastHop)
    (htable : table = lastHop.child.table)
    (hgained : Gained { d with
      labels := d.labels + hops.length
      joins := d.joins ++ hopJoins (d.node place.node).label d.labels hops }
      (labelOf (d.labels + hops.length - 1)) table e n)
    (hn : n.IsOf r (place.path ++ [field]) childType) :
    (e.updateNode place.node fun n => n.addChild field d.nodes.length).Scoped r := by
  have hbranched := Branched.of_first hi hlast htable hgained hn []
  rw [List.foldl_nil] at hbranched
  obtain ⟨m, hchained⟩ := hbranched.chained h.toNumbered hi
  constructor
  case toNumbered => exact hbranched.toNumbered h.toNumbered hchained.nonempty
  case root =>
    exact (hbranched.keeps.node (Nat.zero_lt_of_lt hi)).2.1.label.trans h.root
  case distinct => exact hbranched.distinct h.toNumbered hchained.nonempty h.distinct
  case node =>
    intro l x hx
    rcases hbranched.cases hx with hl | ⟨rfl, rfl⟩
    · obtain ⟨y, hy, heq⟩ := hbranched.old hl hx
      rcases heq with rfl | ⟨-, rfl⟩
      · exact (h.node l x hy).mono hbranched.columns (.refl x) rfl rfl
      · exact (h.node l y hy).mono hbranched.columns (y.grown_addChild _ _) rfl rfl
    · exact ⟨hbranched.placed, hgained.names, _, _, hbranched.isOf⟩
  case owned =>
    intro k c hc
    rcases Nat.lt_or_ge k d.columns.length with hlt | hge
    · have hbefore : d.columns[k]? = some c := by
        obtain ⟨rest, hrest⟩ := hbranched.columns
        rwa [← hrest, List.getElem?_append_left hlt] at hc
      obtain ⟨l, x, hx, howns⟩ := h.owned k c hbefore
      obtain ⟨x', hx', hgrown, -⟩ := hbranched.keeps.nodes l x hx
      exact ⟨l, x', hx', howns.mono hgrown⟩
    · exact ⟨_, _, hbranched.added, hgained.owned k c hge hc⟩
  case below =>
    intro l x entry hx hentry
    rw [hbranched.length]
    rcases hbranched.cases hx with hl | ⟨rfl, rfl⟩
    · have hkept {y : TableNode} (hy : d.nodes[l]? = some y) (hentry : entry ∈ y.children) :
          l < entry.2 ∧ entry.2 < d.nodes.length + 1 := by
        obtain ⟨hlater, hthere⟩ := h.below l y entry hy hentry
        exact ⟨hlater, Nat.lt_succ_of_lt hthere⟩
      obtain ⟨y, hy, heq⟩ := hbranched.old hl hx
      rcases heq with rfl | ⟨-, rfl⟩
      · exact hkept hy hentry
      · rcases List.mem_append.1 hentry with hentry | hentry
        · exact hkept hy hentry
        · obtain rfl := List.mem_singleton.1 hentry
          exact ⟨hl, Nat.lt_succ_self _⟩
    · rw [hbranched.children] at hentry
      cases hentry
  case joined =>
    intro k j hj
    have hjoins : e.joins = d.joins ++ hopJoins (d.node place.node).label d.labels hops :=
      hgained.joins
    change e.joins[k]? = some j at hj
    rw [hjoins] at hj
    rcases Nat.lt_or_ge k d.joins.length with hlt | hge
    · rw [List.getElem?_append_left hlt] at hj
      exact h.joined k j hj
    · rw [List.getElem?_append_right hge] at hj
      obtain ⟨p, hp, hlabel⟩ := h.numbered _ _ (List.getElem?_eq_getElem hi)
      have hparent : (d.node place.node).label ∈ firstLabels d.labels := by
        rw [node_eq (List.getElem?_eq_getElem hi), hlabel]
        exact labelOf_mem_firstLabels hp
      have hnew := columns_of_hopJoins hparent hj
      rwa [h.labels, show d.joins.length + 1 + (k - d.joins.length) + 1 = k + 2 by omega] at hnew
  case chosen =>
    intro c hc
    rw [hbranched.conditions] at hc
    exact h.chosen c hc

/-- Conditions over the table of a node may be pushed to where the table is. -/
theorem Scoped.push (h : d.Scoped r) {place : Place} {target : Target} {p : Predicate}
    {c : Condition} (hcondition : condition r (d.node place.node) place p = .ok c)
    (hlabel : (d.node place.node).label = labelOf target.number) :
    (d.push place.node target c).Scoped r := by
  have hover : ∀ x ∈ c.columns, x.Under (firstLabels (target.number + 1)) := fun x hx =>
    ⟨_, labelOf_mem_firstLabels (Nat.lt_succ_self _), hlabel ▸ columns_of_condition hcondition x hx⟩
  have hcolumns : (d.push place.node target c).columns = d.columns := by
    cases target <;> rfl
  have hgrows := d.grows_push place.node target c
  constructor
  case toNumbered => exact h.toNumbered.push place.node target c
  case root => exact (d.push_label place.node target c 0).trans h.root
  case distinct =>
    refine h.distinct.of_labels fun i x hx => ?_
    obtain ⟨y, hy, hgrown, -⟩ := push_nodes hx
    exact ⟨y, hy, hgrown.label⟩
  case node =>
    intro i x hx
    obtain ⟨y, hy, hgrown, hkeys, hsame, -⟩ := push_nodes hx
    rw [hcolumns]
    exact (h.node i y hy).mono (List.prefix_refl _) hgrown hsame hkeys
  case owned =>
    intro k column hcolumn
    rw [hcolumns] at hcolumn
    obtain ⟨i, x, hx, howns⟩ := h.owned k column hcolumn
    obtain ⟨x', hx', hgrown, -⟩ := hgrows.nodes i x hx
    exact ⟨i, x', hx', howns.mono hgrown⟩
  case below =>
    intro i x entry hx hentry
    obtain ⟨y, hy, -, -, -, hchildren⟩ := push_nodes hx
    obtain ⟨hlater, hthere⟩ := h.below i y entry hy (hchildren ▸ hentry)
    exact ⟨hlater, lt_of_grows hgrows hthere⟩
  case joined =>
    intro k j hj
    cases target with
    | condition => exact h.joined k j hj
    | join index =>
      obtain ⟨j', hj', -, hon | ⟨rfl, hon⟩⟩ := push_joins hj
      · rw [hon]
        exact h.joined k j' hj'
      · intro x hx
        rw [hon] at hx
        rcases Condition.mem_columns_conjoin hx with hx | hx
        · exact h.joined index j' hj' x hx
        · exact hover x hx
  case chosen =>
    intro c' hc' x hx
    cases target with
    | join index => exact h.chosen c' hc' x hx
    | condition =>
      rcases List.mem_append.1 hc' with hc' | hc'
      · exact h.chosen c' hc' x hx
      · obtain rfl := List.mem_singleton.1 hc'
        exact hover x hx

/-- Counting the leaf fields changes nothing that is referred to. -/
theorem Scoped.count (h : d.Scoped r) (count : Nat) : { d with fields := count }.Scoped r :=
  ⟨⟨h.labels, h.named, h.numbered⟩, h.root, h.distinct, h.node, h.owned, h.below, h.joined,
    h.chosen⟩

theorem Scoped.lt_of_child? (h : d.Scoped r) {i child : Nat} {n : TableNode} {field : String}
    (hn : d.nodes[i]? = some n) (hchild : n.child? field = some child) :
    child < d.nodes.length := by
  obtain ⟨entry, hfound, rfl⟩ := Option.map_eq_some_iff.1 hchild
  exact (h.below i n entry hn (List.mem_of_find?_eq_some hfound)).2

end Draft

namespace Planning

variable {r : TableRegistry} {d d' : Draft} {place : Place}

/-- A step at a node lets a draft grow and leaves it scoped. -/
structure StaysScoped (r : TableRegistry) (node : Nat) (d d' : Draft) : Prop where
  grows : d.Grows d'
  isScoped : d.Scoped r → node < d.nodes.length → d'.Scoped r

theorem relatesFields_staysScoped (r : TableRegistry) (place : Place) :
    RelatesFields r place (StaysScoped r place.node) where
  refl d := ⟨.refl d, fun hd _ => hd⟩
  trans h h' := ⟨h.grows.trans h'.grows, fun hd hi =>
    h'.isScoped (h.isScoped hd hi) (lt_of_grows h.grows hi)⟩
  column {d d' _ _ _} h := by
    refine ⟨(keeps_ownColumn h).grows, fun hd hi => ?_⟩
    have hn := List.getElem?_eq_getElem hi
    rcases (ends_ownColumn.1 h).2 with ⟨-, rfl⟩ | ⟨hnone, -, rfl⟩
    · exact hd
    · rw [Draft.node_eq hn] at hnone
      exact hd.addColumn hn hnone
  joins h := by
    refine ⟨h.keeps.grows, fun hd hi => ?_⟩
    cases h with
    | again => exact hd
    | first table n e lastHop hnone hlast htable hgained hn =>
      exact hd.first hi hlast htable hgained hn

/-- The node of an object field is there, and where its selection is filtered, the join of the
field is that of the node's table. -/
theorem Joins.target {field childType : String} {hops : List Hop} {filtered : Bool}
    {joined : JoinedField} (h : Joins r place field childType hops filtered d joined d')
    (hd : d.Scoped r) (hi : place.node < d.nodes.length) :
    joined.place.node < d'.nodes.length ∧ (filtered = true →
      (d'.node joined.place.node).label = labelOf (Target.join joined.join).number) := by
  have hparent := List.getElem?_eq_getElem hi
  cases h with
  | again child hchild hplain hnone =>
    rw [Draft.node_eq hparent] at hchild
    refine ⟨hd.lt_of_child? hparent hchild, fun hfiltered => ?_⟩
    cases hnone.symm.trans hfiltered
  | first table n e lastHop hnone hlast htable hgained hn =>
    have hbranched := Draft.Branched.of_first hi hlast htable hgained hn []
    rw [List.foldl_nil] at hbranched
    have hpos : 0 < hops.length := List.length_pos_of_mem (List.mem_of_getLast? hlast)
    refine ⟨by rw [hbranched.length]; exact Nat.lt_succ_self _, fun _ => ?_⟩
    have hlabels := hd.labels
    have hnumber : d.labels + hops.length - 1 = d.joins.length + hops.length - 1 + 1 := by omega
    rw [Draft.node_eq hbranched.added, hgained.label, hnumber]
    rfl

/-- The filters of a list are pushed to where the table of its node is. -/
def Aimed (d : Draft) (node : Nat) (list? : Option ListPlace) (q : Query) : Prop :=
  ∀ list, list? = some list → hasFilter q = true →
    (d.node node).label = labelOf list.target.number

theorem Aimed.mono {node : Nat} {list? : Option ListPlace} {q : Query}
    (h : Aimed d node list? q) (hi : node < d.nodes.length) (hgrows : d.Grows d') :
    Aimed d' node list? q := by
  intro list hlist hfilter
  have hn := List.getElem?_eq_getElem hi
  obtain ⟨n', hn', hgrown, -⟩ := hgrows.nodes _ _ hn
  have hlabel := h list hlist hfilter
  rw [Draft.node_eq hn] at hlabel
  rw [Draft.node_eq hn', hgrown.label, hlabel]

/-- Planning a query leaves a draft scoped. -/
theorem QueryPlanned.isScoped {steps : Nat} {list? : Option ListPlace} {q q' : Query}
    (h : QueryPlanned r steps place list? q d q' d') (hd : d.Scoped r)
    (hi : place.node < d.nodes.length) (haimed : Aimed d place.node list? q) :
    d'.Scoped r ∧ d.Grows d' := by
  have hnone {d : Draft} {i : Nat} {q : Query} : Aimed d i none q := by rintro list ⟨⟩
  induction h with
  | @pushed place list p child q d d₁ d' c hpushable hcondition hpush hchild ih =>
    obtain rfl := Draft.ends_pushCondition.1 hpush
    have hgrows := d.grows_push place.node list.target c
    have hlabel := haimed list rfl rfl
    obtain ⟨hd', hgrows'⟩ := ih (hd.push hcondition hlabel) (lt_of_grows hgrows hi) (by
      rintro _ ⟨⟩ -
      rw [Draft.push_label]
      exact hlabel)
    exact ⟨hd', hgrows.trans hgrows'⟩
  | @filter place list p child q d d₁ d' hpushable hterms hchild ih =>
    have hstays := (relatesFields_staysScoped r place).planTerms hterms
    have haimed' : Aimed d place.node (some list) child := fun list' hlist _ =>
      haimed list' hlist rfl
    obtain ⟨hd', hgrows'⟩ := ih (hstays.isScoped hd hi) (lt_of_grows hstays.grows hi)
      (haimed'.mono hi hstays.grows)
    exact ⟨hd', hstays.grows.trans hgrows'⟩
  | unique hchild ih => exact ih hd hi haimed
  | @orderBy place list selections child q d d₁ d' hterms hchild ih =>
    have hstays := (relatesFields_staysScoped r place).planTerms hterms
    have haimed' : Aimed d place.node (some list) child := haimed
    obtain ⟨hd', hgrows'⟩ := ih (hstays.isScoped hd hi) (lt_of_grows hstays.grows hi)
      (haimed'.mono hi hstays.grows)
    exact ⟨hd', hstays.grows.trans hgrows'⟩
  | @limit place list count child q d d' hchild ih =>
    refine ih hd hi fun list' hlist hfilter => ?_
    cases hlist
    exact haimed list rfl hfilter
  | groupNil | typename | empty => exact ⟨hd, .refl _⟩
  | groupCons hfirst hrest ih ihrest =>
    obtain ⟨hd₁, hgrows⟩ := ih hd hi hnone
    obtain ⟨hd', hgrows'⟩ := ihrest hd₁ (lt_of_grows hgrows hi) hnone
    exact ⟨hd', hgrows.trans hgrows'⟩
  | @leaf place _ name _ _ _ d d' count hname hfield =>
    have hstays := (relatesFields_staysScoped r place).planField hfield
    exact ⟨(hstays.isScoped hd hi).count count,
      hstays.grows.trans (d'.sameJoins_count count).keeps.grows⟩
  | @joined place _ name _ _ child q d d₁ d' joined count hname hfield hchild ih =>
    have hstays := (relatesFields_staysScoped r place).planField hfield
    have hd₁ := hstays.isScoped hd hi
    cases planField_planned hfield with
    | joined own hops f joined hmapped hf hjoins =>
      obtain ⟨hbelow, htarget⟩ := hjoins.target hd hi
      have haimed' : Aimed d₁ joined.place.node (some ⟨.join joined.join, true⟩) child := by
        rintro _ ⟨⟩ hfilter
        exact htarget hfilter
      obtain ⟨hd', hgrows'⟩ := ih hd₁ hbelow haimed'
      exact ⟨hd'.count count, (hstays.grows.trans hgrows').trans
        (d'.sameJoins_count count).keeps.grows⟩
  | narrow hchild ih => exact ih hd hi hnone
  | @component place _ _ _ _ d d' hcolumns =>
    have hstays := (relatesFields_staysScoped r place).selectAllColumns hcolumns
    exact ⟨hstays.isScoped hd hi, hstays.grows⟩

end Planning

namespace Statement

/-- The tables of a statement, those that are joined after the one that is selected from. -/
def tables (s : Statement) : List Table := s.table?.toList ++ s.joins.map (·.table)

/-- The names that the columns of a statement may be qualified with. -/
def labels (s : Statement) : List String := s.tables.map Table.reference

/-- A place of the rows is that of a column under a name. -/
def Selects (s : Statement) (place : Nat) (label name : String) : Prop :=
  s.columns[place]? = some (.column ⟨some ⟨label, none⟩, name⟩)

/-- Every column that is mentioned is that of a table that is there by then. -/
structure WellScoped (s : Statement) : Prop where
  rooted : s.table?.isSome = true
  aliased : ∀ t ∈ s.tables, t.alias?.isSome = true
  distinct : s.labels.Nodup
  selected : ∀ e ∈ s.columns, ∃ c, e = .column c ∧ c.Under s.labels
  once : s.columns.Nodup
  /-- A join mentions the tables up to its own. -/
  joined : ∀ (k : Nat) (j : Join), s.joins[k]? = some j →
    ∀ c ∈ j.on.columns, c.Under (s.labels.take (k + 2))
  /-- The condition mentions the first table only. -/
  chosen : ∀ condition, s.condition? = some condition →
    ∀ c ∈ condition.columns, c.Under (s.labels.take 1)
  ordered : ∀ e ∈ s.order, ∃ c, e = .column c ∧ c.Under s.labels

end Statement

/-- The statement of a plan is well scoped, and so are the places and the nodes that its nodes
refer to. -/
structure Plan.WellScoped (r : TableRegistry) (plan : Plan) : Prop where
  statement : plan.statement.WellScoped
  root : ∃ n, plan.nodes[0]? = some n ∧ plan.statement.table? = some ⟨n.table, some n.label⟩
  columns : ∀ n ∈ plan.nodes, ∀ entry ∈ n.columns, plan.statement.Selects entry.2 n.label entry.1
  keyed : ∀ n ∈ plan.nodes, n.keys ≠ []
  keys : ∀ n ∈ plan.nodes, ∃ path type, List.Forall₂ (fun key place =>
    key.table = n.table ∧ plan.statement.Selects place n.label key.column)
    (keyColumns r path type) n.keys
  children : ∀ (i : Nat) (n : TableNode), plan.nodes[i]? = some n →
    ∀ entry ∈ n.children, i < entry.2 ∧ entry.2 < plan.nodes.length
  /-- The rows are in the order of the keys of all nodes. -/
  order : plan.statement.order.map some =
    plan.nodes.flatMap fun n => n.keys.map fun k => plan.statement.columns[k]?

theorem firstLabels_succ (count : Nat) :
    firstLabels (count + 1) = labelOf 0 :: (List.range count).map fun i => labelOf (i + 1) := by
  rw [firstLabels, List.range_succ_eq_map, List.map_cons, List.map_map]
  rfl

theorem take_firstLabels {k count : Nat} (h : k ≤ count) :
    (firstLabels count).take k = firstLabels k := by
  rw [firstLabels, ← List.map_take, List.take_range, Nat.min_eq_left h, firstLabels]

theorem nodup_firstLabels (count : Nat) : (firstLabels count).Nodup :=
  List.nodup_range.map labelOf_injective

namespace Draft.Scoped

variable {r : TableRegistry} {d : Draft}

/-- The names of the tables of a statement are those of their numbers. -/
theorem labels_eq (h : d.Scoped r) : d.statement.labels = firstLabels (d.joins.length + 1) := by
  have hjoined : d.joins.map (·.table.reference) =
      (List.range d.joins.length).map fun i => labelOf (i + 1) := by
    refine List.ext_getElem (by simp) fun i hi hi' => ?_
    rw [List.length_map] at hi
    have hnamed := h.named i _ (List.getElem?_eq_getElem hi)
    simp [Table.reference, hnamed]
  have hlabels : d.statement.labels =
      (d.node 0).label :: d.joins.map (·.table.reference) := by
    simp [Statement.labels, Statement.tables, statement, Statement.addCondition, Table.reference]
  rw [hlabels, h.root, hjoined, firstLabels_succ]

/-- The tables of nodes are among those of the statement. -/
theorem label_mem (h : d.Scoped r) {i : Nat} {n : TableNode} (hn : d.nodes[i]? = some n) :
    n.label ∈ d.statement.labels := by
  obtain ⟨k, hk, hlabel⟩ := h.numbered i n hn
  rw [h.labels_eq, hlabel]
  exact labelOf_mem_firstLabels (h.labels ▸ hk)

theorem under_labels (h : d.Scoped r) {k : Nat} {c : Column} (hc : d.columns[k]? = some c) :
    c.Under d.statement.labels := by
  obtain ⟨i, n, hn, htable, -⟩ := h.owned k c hc
  exact ⟨n.label, h.label_mem hn, htable⟩

/-- No column is selected twice. -/
theorem nodup_columns (h : d.Scoped r) : d.columns.Nodup := by
  refine List.nodup_iff_injective_get.2 fun k l heq => Fin.ext ?_
  have hk := List.getElem?_eq_getElem k.2
  have hl := List.getElem?_eq_getElem l.2
  rw [List.get_eq_getElem, List.get_eq_getElem] at heq
  rw [← heq] at hl
  obtain ⟨i, n, hn, htable, hcolumn⟩ := h.owned k _ hk
  obtain ⟨j, n', hn', htable', hcolumn'⟩ := h.owned l _ hl
  have hlabel : n.label = n'.label := by
    have hsame := htable.symm.trans htable'
    injection hsame with hsame
    injection hsame
  obtain rfl := h.distinct i j n n' hn hn' hlabel
  obtain rfl := Option.some.inj (hn.symm.trans hn')
  exact Option.some.inj (hcolumn.symm.trans hcolumn')

/-- The keys of a node have places. -/
theorem key_placed (h : d.Scoped r) {i : Nat} {n : TableNode} (hn : d.nodes[i]? = some n)
    {k : Nat} (hk : k ∈ n.keys) : ∃ name, d.columns[k]? = some ⟨some ⟨n.label, none⟩, name⟩ := by
  obtain ⟨hplaced, -, path, type, hof⟩ := h.node i n hn
  obtain ⟨key, -, -, hcolumn⟩ := hof.key hk
  exact ⟨key.column, hplaced _ _ hcolumn⟩

/-- The condition of a statement mentions what those of the draft do. -/
theorem columns_of_condition? (h : d.Scoped r) {condition : Condition}
    (hcondition : d.statement.condition? = some condition) :
    ∀ c ∈ condition.columns, c.Under (firstLabels 1) := by
  have hall : condition = Condition.all d.conditions := by
    simp only [statement, Statement.addCondition, Option.getD_none,
      Condition.always_conjoin] at hcondition
    split at hcondition
    · cases hcondition
    · exact (Option.some.inj hcondition).symm
  intro c hc
  rw [hall, Condition.all] at hc
  rcases Condition.mem_columns_foldl hc with hc | ⟨c', hc', hc⟩
  · cases hc
  · exact h.chosen c' hc' c hc

theorem statement_wellScoped (h : d.Scoped r) : d.statement.WellScoped := by
  have hlabels := h.labels_eq
  constructor
  case rooted => rfl
  case aliased =>
    intro t ht
    rcases List.mem_append.1 ht with ht | ht
    · obtain rfl := List.mem_singleton.1 ht
      rfl
    · obtain ⟨j, hj, rfl⟩ := List.mem_map.1 ht
      obtain ⟨i, hi⟩ := List.mem_iff_getElem?.1 hj
      rw [h.named i j hi]
      rfl
  case distinct =>
    rw [hlabels]
    exact nodup_firstLabels _
  case selected =>
    intro e he
    obtain ⟨c, hc, rfl⟩ := List.mem_map.1 he
    obtain ⟨k, hk⟩ := List.mem_iff_getElem?.1 hc
    exact ⟨c, rfl, h.under_labels hk⟩
  case once =>
    refine h.nodup_columns.map fun c c' heq => ?_
    injection heq
  case joined =>
    intro k j hj
    have hk : k < d.joins.length := (List.getElem?_eq_some_iff.1 hj).1
    rw [hlabels, take_firstLabels (by omega)]
    exact h.joined k j hj
  case chosen =>
    intro condition hcondition
    rw [hlabels, take_firstLabels (by omega)]
    exact h.columns_of_condition? hcondition
  case ordered =>
    intro e he
    obtain ⟨c, hc, rfl⟩ := List.mem_map.1 he
    obtain ⟨n, hn, hc⟩ := List.mem_flatMap.1 hc
    obtain ⟨k, hk, rfl⟩ := List.mem_map.1 hc
    obtain ⟨i, hi⟩ := List.mem_iff_getElem?.1 hn
    obtain ⟨name, hplace⟩ := h.key_placed hi hk
    refine ⟨_, rfl, ?_⟩
    rw [List.getD_eq_getElem?_getD, hplace, Option.getD_some]
    exact ⟨n.label, h.label_mem hi, rfl⟩

theorem selects (h : d.Scoped r) {i : Nat} {n : TableNode} (hn : d.nodes[i]? = some n)
    {name : String} {place : Nat} (hplace : n.column? name = some place) :
    d.statement.Selects place n.label name := by
  have hcolumn := (h.node i n hn).placed name place hplace
  change (d.columns.map Expression.column)[place]? = _
  rw [List.getElem?_map, hcolumn, Option.map_some]

/-- A plan of a scoped draft is well scoped. -/
theorem toPlan_wellScoped (h : d.Scoped r) {root : TableNode} (hroot : d.nodes[0]? = some root)
    (residual : Query) : (d.toPlan residual).WellScoped r := by
  constructor
  case statement => exact h.statement_wellScoped
  case root =>
    refine ⟨root, hroot, ?_⟩
    rw [← Draft.node_eq hroot]
    rfl
  case columns =>
    intro n hn entry hentry
    obtain ⟨i, hi⟩ := List.mem_iff_getElem?.1 hn
    exact h.selects hi (TableNode.column?_of_mem_columns (h.node i n hi).names hentry)
  case keyed =>
    intro n hn
    obtain ⟨i, hi⟩ := List.mem_iff_getElem?.1 hn
    obtain ⟨path, type, hof⟩ := (h.node i n hi).keyed
    exact hof.keys_ne_nil
  case keys =>
    intro n hn
    obtain ⟨i, hi⟩ := List.mem_iff_getElem?.1 hn
    obtain ⟨path, type, hof⟩ := (h.node i n hi).keyed
    exact ⟨path, type, hof.keys.imp fun key place hkey => ⟨hkey.1, h.selects hi hkey.2⟩⟩
  case children => exact fun i n hn entry hentry => h.below i n entry hn hentry
  case order =>
    have hkey (n : TableNode) (hn : n ∈ d.nodes) (k : Nat) (hk : k ∈ n.keys) :
        some (Expression.column (d.columns.getD k default)) =
          (d.columns.map Expression.column)[k]? := by
      obtain ⟨i, hi⟩ := List.mem_iff_getElem?.1 hn
      obtain ⟨name, hplace⟩ := h.key_placed hi hk
      rw [List.getElem?_map, List.getD_eq_getElem?_getD, hplace]
      rfl
    change (d.keyColumns.map Expression.column).map some =
      d.nodes.flatMap fun n => n.keys.map fun k => (d.columns.map Expression.column)[k]?
    rw [keyColumns, List.map_flatMap, List.map_flatMap]
    refine List.flatMap_congr fun n hn => ?_
    rw [List.map_map, List.map_map]
    exact List.map_congr_left fun k hk => hkey n hn k hk

end Draft.Scoped

/-- Every plan is well scoped. -/
theorem Plan.build_wellScoped {r : TableRegistry} {field : String} {type : TypeRef} {child : Query}
    {plan : Plan} (h : Plan.build r field type child = .ok plan) : plan.WellScoped r := by
  obtain ⟨table, n, d, d', hgained, hn, hplanned, hplan⟩ := Plan.build_planned h
  have hroot : d.nodes[0]? = some n := hgained.node_eq
  have haimed : Aimed d 0 (some ⟨.condition, true⟩) child := by
    rintro _ ⟨⟩ -
    rw [Draft.node_eq hroot]
    exact hgained.label
  obtain ⟨hscoped, hgrows⟩ := hplanned.isScoped (hgained.isScoped hn)
    (List.getElem?_eq_some_iff.1 hroot).1 haimed
  obtain ⟨root, hroot', -⟩ := hgrows.nodes 0 n hroot
  rw [hplan]
  exact hscoped.toPlan_wellScoped hroot' plan.residual

end Sql

namespace Libraries

/-- Authors and their books, linked by a table of authorships. -/
def registry : TableRegistry where
  schema := Schema.ofTypes [
    .object ⟨"Query", [⟨"authors", [], .list (.named "Author")⟩], []⟩,
    .object ⟨"Author", [⟨"name", [], .named "String"⟩, ⟨"books", [], .list (.named "Book")⟩], []⟩,
    .object ⟨"Book", [⟨"title", [], .named "String"⟩], []⟩] "Query"
  types := [
    .object ⟨"Query", [.root "authors" ()]⟩,
    .object ⟨"Author", [
      .source (.column "id" ⟨"author", "id"⟩ true true),
      .source (.column "name" ⟨"author", "name"⟩ false false),
      .source (.joined "books" [⟨⟨"author", "id"⟩, ⟨"authorship", "author"⟩⟩,
        ⟨⟨"authorship", "book"⟩, ⟨"book", "id"⟩⟩])]⟩,
    .object ⟨"Book", [
      .source (.column "id" ⟨"book", "id"⟩ true true),
      .source (.column "title" ⟨"book", "title"⟩ false false)]⟩]
  elaborators := []

/-- The books of a title, by the authors of a name. -/
def query : Query :=
  .filter (.eq (.path ["name"]) (.const (.string "Ada"))) (.select "books" none []
    (.filter (.eq (.path ["title"]) (.const (.string "Notes"))) (.field "title")))

/-- The two filters stand where their tables are: one is the condition, the other is on the last
join. -/
theorem books_of_authors_wellScoped : ∃ plan,
    Plan.build registry "authors" (.list (.named "Author")) query = .ok plan ∧
      plan.statement.labels = ["t0", "t1", "t2"] ∧ plan.WellScoped registry := by
  have hlabels : (Plan.build registry "authors" (.list (.named "Author")) query).toOption.map
      (·.statement.labels) = some ["t0", "t1", "t2"] := by
    decide +kernel
  cases hplan : Plan.build registry "authors" (.list (.named "Author")) query with
  | error _ =>
    rw [hplan] at hlabels
    cases hlabels
  | ok plan =>
    rw [hplan] at hlabels
    exact ⟨plan, rfl, Option.some.inj hlabels, Plan.build_wellScoped hplan⟩

end Libraries

end MappedQuery
