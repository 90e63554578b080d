import Std.Data.String.ToNat
import MappedQuery.Proofs.KeyOrder
import MappedQuery.Proofs.PlannerSteps
import MappedQuery.Proofs.PredicateTruth

/-!
# Rows of left joins

Plans name the tables of a statement by numbers, so a joined row is a list of rows, one for each
table. A join adds to such a list a row that it matches, or the row of nulls; what it adds does
not depend on later joins. The joins of a chain of hops lead from a row to the rows that are
reached through the hops, and to the row of nulls where a way through them breaks off.
-/
namespace MappedQuery

open Sql

/-- A row leads to a row of the next table. -/
def Hop.Matches (hop : Hop) (a b : TableRow) : Prop :=
  (a hop.parent.column).compare (b hop.child.column) = some .eq

theorem Hop.not_matches_absent (hop : Hop) (b : TableRow) : ¬ hop.Matches .absent b := by
  simp [Matches, TableRow.absent]

end MappedQuery

namespace MappedQuery.Sql

open Planning

theorem labelOf_injective : Function.Injective labelOf := fun _ _ h =>
  Nat.repr_injective ((String.append_right_inj "t").1 h)

/-- The row of a table, nulls if there is none. -/
def rowAt (rows : List TableRow) (k : Nat) : TableRow := rows.getD k .absent

theorem rowAt_length (rows : List TableRow) (row : TableRow) :
    rowAt (rows ++ [row]) rows.length = row := by
  simp [rowAt, List.getD_eq_getElem?_getD]

theorem rowAt_of_isPrefix {rows rows' : List TableRow} (h : rows <+: rows') {k : Nat}
    (hk : k < rows.length) : rowAt rows' k = rowAt rows k := by
  obtain ⟨rest, rfl⟩ := h
  rw [rowAt, rowAt, List.getD_eq_getElem?_getD, List.getD_eq_getElem?_getD,
    List.getElem?_append_left hk]

theorem rowAt_of_take {rows rows' : List TableRow} {k n : Nat} (h : rows.take n = rows'.take n)
    (hk : k < n) : rowAt rows k = rowAt rows' k := by
  have hsame := congrArg (fun l : List TableRow => l[k]?) h
  simp only [List.getElem?_take_of_lt hk] at hsame
  rw [rowAt, rowAt, List.getD_eq_getElem?_getD, List.getD_eq_getElem?_getD, hsame]

/-- Rows under the labels of their tables, which are numbered from a number on. -/
def tagFrom : Nat → List TableRow → JoinedRow
  | _, [] => []
  | k, row :: rest => (labelOf k, row) :: tagFrom (k + 1) rest

/-- The joined row that has one row of each table. -/
def tagged (rows : List TableRow) : JoinedRow := tagFrom 0 rows

theorem tagFrom_append (k : Nat) (rows : List TableRow) (row : TableRow) :
    tagFrom k (rows ++ [row]) = tagFrom k rows ++ [(labelOf (k + rows.length), row)] := by
  induction rows generalizing k with
  | nil => rfl
  | cons first rows ih =>
    rw [List.cons_append, tagFrom, ih, tagFrom, List.length_cons, List.cons_append,
      show k + 1 + rows.length = k + (rows.length + 1) by omega]

theorem tagged_append (rows : List TableRow) (row : TableRow) :
    tagged (rows ++ [row]) = tagged rows ++ [(labelOf rows.length, row)] := by
  rw [tagged, tagFrom_append, Nat.zero_add, tagged]

private theorem find?_tagFrom (j i : Nat) (rows : List TableRow) :
    (tagFrom j rows).find? (·.1 = labelOf (j + i)) =
      rows[i]?.map fun row => (labelOf (j + i), row) := by
  induction rows generalizing i j with
  | nil => rfl
  | cons row rows ih =>
    cases i with
    | zero => simp [tagFrom]
    | succ i =>
      have hne : labelOf j ≠ labelOf (j + (i + 1)) := fun heq => by
        have := labelOf_injective heq
        omega
      have hnext := ih (j + 1) i
      rw [show j + 1 + i = j + (i + 1) by omega] at hnext
      rw [tagFrom, List.find?_cons_of_neg (by simpa using hne), hnext, List.getElem?_cons_succ]

theorem cell_tagged (rows : List TableRow) (k : Nat) (name : String) :
    (tagged rows).cell ⟨some ⟨labelOf k, none⟩, name⟩ = rowAt rows k name := by
  have hfound := find?_tagFrom 0 k rows
  rw [Nat.zero_add] at hfound
  have hname : (⟨labelOf k, none⟩ : Table).reference = labelOf k := rfl
  rw [rowAt, List.getD_eq_getElem?_getD]
  unfold JoinedRow.cell
  dsimp only
  rw [hname, tagged, hfound]
  cases rows[k]? <;> rfl

section Joins

variable (rules : TextRules) (tables : Tables)

/-- The rows that a join adds to rows: those that it matches, or the row of nulls. -/
def Join.choices (j : Join) (rows : List TableRow) : List TableRow :=
  match (tables j.table.name).filter fun row =>
    j.on.eval rules (tagged (rows ++ [row])) = some true with
  | [] => [.absent]
  | found => found

theorem Join.mem_choices {j : Join} {rows : List TableRow} {row : TableRow} :
    row ∈ j.choices rules tables rows ↔
      (row ∈ tables j.table.name ∧ j.on.eval rules (tagged (rows ++ [row])) = some true) ∨
        (row = .absent ∧ ∀ b ∈ tables j.table.name,
          j.on.eval rules (tagged (rows ++ [b])) ≠ some true) := by
  unfold choices
  have hmem (b : TableRow) : (b ∈ (tables j.table.name).filter fun row =>
      j.on.eval rules (tagged (rows ++ [row])) = some true) ↔
        b ∈ tables j.table.name ∧ j.on.eval rules (tagged (rows ++ [b])) = some true := by
    simp [List.mem_filter]
  split
  · rename_i hnil
    have hnone : ∀ b ∈ tables j.table.name,
        j.on.eval rules (tagged (rows ++ [b])) ≠ some true := by
      intro b hb hon
      have := (hmem b).2 ⟨hb, hon⟩
      rw [hnil] at this
      cases this
    rw [List.mem_singleton]
    constructor
    · exact fun h => .inr ⟨h, hnone⟩
    · rintro (⟨hrow, hon⟩ | ⟨hrow, -⟩)
      · exact absurd hon (hnone row hrow)
      · exact hrow
  · rename_i hne
    obtain ⟨b, hb⟩ := List.exists_mem_of_ne_nil _ hne
    have hfound := (hmem b).1 hb
    rw [hmem]
    constructor
    · exact .inl
    · rintro (h | ⟨-, hnone⟩)
      · exact h
      · exact absurd hfound.2 (hnone b hfound.1)

theorem Join.choices_ne_nil (j : Join) (rows : List TableRow) :
    j.choices rules tables rows ≠ [] := by
  unfold choices
  split
  · exact List.cons_ne_nil _ _
  · assumption

theorem Join.extend_tagged {j : Join} {rows : List TableRow}
    (h : j.table.reference = labelOf rows.length) :
    j.extend rules tables (tagged rows) =
      (j.choices rules tables rows).map fun row => tagged (rows ++ [row]) := by
  have hcandidates : ((tables j.table.name).map fun row =>
      tagged rows ++ [(j.table.reference, row)]) =
        (tables j.table.name).map fun row => tagged (rows ++ [row]) :=
    List.map_congr_left fun row _ => by rw [h, tagged_append]
  have habsent : tagged rows ++ [(j.table.reference, TableRow.absent)] =
      tagged (rows ++ [.absent]) := by
    rw [h, tagged_append]
  unfold extend choices
  simp only [hcandidates, habsent, List.filter_map, Function.comp_def]
  split <;> rename_i hfound
  · rw [List.map_eq_nil_iff] at hfound
    simp [hfound]
  · have hne : ((tables j.table.name).filter fun row =>
        decide (j.on.eval rules (tagged (rows ++ [row])) = some true)) ≠ [] :=
      fun hnil => hfound (by rw [hnil]; rfl)
    split
    · contradiction
    · rfl

/-- Rows with what one join after the other adds to them. -/
def extensions : List Join → List TableRow → List (List TableRow)
  | [], rows => [rows]
  | j :: joins, rows =>
    (j.choices rules tables rows).flatMap fun row => extensions joins (rows ++ [row])

variable {rules tables}

theorem mem_extensions_nil {rows rows' : List TableRow} :
    rows' ∈ extensions rules tables [] rows ↔ rows' = rows := List.mem_singleton

theorem mem_extensions_cons {j : Join} {joins : List Join} {rows rows' : List TableRow} :
    rows' ∈ extensions rules tables (j :: joins) rows ↔
      ∃ row ∈ j.choices rules tables rows, rows' ∈ extensions rules tables joins (rows ++ [row]) := by
  rw [extensions, List.mem_flatMap]

theorem mem_extensions_append {joins joins' : List Join} {rows rows' : List TableRow} :
    rows' ∈ extensions rules tables (joins ++ joins') rows ↔
      ∃ mid ∈ extensions rules tables joins rows, rows' ∈ extensions rules tables joins' mid := by
  induction joins generalizing rows with
  | nil => simp [extensions]
  | cons j joins ih =>
    rw [List.cons_append, mem_extensions_cons]
    constructor
    · rintro ⟨row, hrow, h⟩
      obtain ⟨mid, hmid, h⟩ := ih.1 h
      exact ⟨mid, mem_extensions_cons.2 ⟨row, hrow, hmid⟩, h⟩
    · rintro ⟨mid, hmid, h⟩
      obtain ⟨row, hrow, hmid⟩ := mem_extensions_cons.1 hmid
      exact ⟨row, hrow, ih.2 ⟨mid, hmid, h⟩⟩

/-- Each join adds one row. -/
theorem prefix_of_mem_extensions {joins : List Join} {rows rows' : List TableRow}
    (h : rows' ∈ extensions rules tables joins rows) :
    rows <+: rows' ∧ rows'.length = rows.length + joins.length := by
  induction joins generalizing rows with
  | nil =>
    rw [extensions, List.mem_singleton] at h
    subst h
    exact ⟨List.prefix_refl _, rfl⟩
  | cons j joins ih =>
    obtain ⟨row, -, h⟩ := mem_extensions_cons.1 h
    obtain ⟨hextends, hlength⟩ := ih h
    refine ⟨(List.prefix_append _ _).trans hextends, ?_⟩
    rw [hlength, List.length_append, List.length_singleton, List.length_cons]
    omega

theorem exists_extension (joins : List Join) (rows : List TableRow) :
    ∃ rows', rows' ∈ extensions rules tables joins rows := by
  induction joins generalizing rows with
  | nil => exact ⟨rows, List.mem_singleton.2 rfl⟩
  | cons j joins ih =>
    obtain ⟨row, hrow⟩ := List.exists_mem_of_ne_nil _ (j.choices_ne_nil rules tables rows)
    obtain ⟨rows', h⟩ := ih (rows ++ [row])
    exact ⟨rows', mem_extensions_cons.2 ⟨row, hrow, h⟩⟩

/-- Joins that are named by their numbers extend joined rows as their rows are extended. -/
theorem foldl_extend {joins : List Join} {k : Nat} {l : List (List TableRow)}
    (hjoins : ∀ i j, joins[i]? = some j → j.table.reference = labelOf (k + i))
    (hl : ∀ rows ∈ l, rows.length = k) :
    joins.foldl (fun rows j => rows.flatMap (j.extend rules tables)) (l.map tagged) =
      (l.flatMap (extensions rules tables joins)).map tagged := by
  induction joins generalizing k l with
  | nil => simp [extensions, List.flatMap_singleton']
  | cons j joins ih =>
    have hstep : (l.map tagged).flatMap (j.extend rules tables) =
        (l.flatMap fun rows => (j.choices rules tables rows).map fun row =>
          rows ++ [row]).map tagged := by
      rw [List.flatMap_map, List.map_flatMap]
      refine List.flatMap_congr fun rows hrows => ?_
      have hname := hjoins 0 j rfl
      rw [Nat.add_zero, ← hl rows hrows] at hname
      rw [Join.extend_tagged rules tables hname, List.map_map]
      rfl
    have hnext : ∀ i j', joins[i]? = some j' → j'.table.reference = labelOf (k + 1 + i) := by
      intro i j' hj'
      have hname := hjoins (i + 1) j' hj'
      rwa [show k + (i + 1) = k + 1 + i by omega] at hname
    have hlength : ∀ rows ∈ l.flatMap fun rows => (j.choices rules tables rows).map fun row =>
        rows ++ [row], rows.length = k + 1 := by
      intro rows hrows
      obtain ⟨first, hfirst, hrows⟩ := List.mem_flatMap.1 hrows
      obtain ⟨row, -, rfl⟩ := List.mem_map.1 hrows
      rw [List.length_append, hl first hfirst, List.length_singleton]
    rw [List.foldl_cons, hstep, ih hnext hlength, List.flatMap_assoc]
    congr 1
    refine List.flatMap_congr fun rows _ => ?_
    rw [List.flatMap_map, extensions]

end Joins

/-- A row is reached from another through hops. -/
inductive Reaches (tables : Tables) : List Hop → TableRow → TableRow → Prop where
  | here (a : TableRow) : Reaches tables [] a a
  | hop {hop : Hop} {rest : List Hop} {a b c : TableRow} (hb : b ∈ tables hop.child.table)
    (hmatch : hop.Matches a b) (hrest : Reaches tables rest b c) :
    Reaches tables (hop :: rest) a c

/-- A way from a row through hops ends before the last table, or there at no row that is kept. -/
inductive BreaksOff (tables : Tables) (keep : TableRow → Prop) : List Hop → TableRow → Prop where
  | here {hop : Hop} {rest : List Hop} {a : TableRow}
    (hnone : ∀ b ∈ tables hop.child.table, hop.Matches a b → rest = [] ∧ ¬ keep b) :
    BreaksOff tables keep (hop :: rest) a
  | later {hop : Hop} {rest : List Hop} {a b : TableRow} (hb : b ∈ tables hop.child.table)
    (hmatch : hop.Matches a b) (hrest : BreaksOff tables keep rest b) :
    BreaksOff tables keep (hop :: rest) a

/-- Where left joins lead from a row: to a row that is reached and kept, or, where a way breaks
off, to the row of nulls. -/
def Lands (tables : Tables) (keep : TableRow → Prop) (hops : List Hop) (a c : TableRow) : Prop :=
  (Reaches tables hops a c ∧ keep c) ∨ (c = .absent ∧ BreaksOff tables keep hops a)

section Chains

variable {rules : TextRules} {tables : Tables} {keep : TableRow → Prop}

theorem reaches_cons {hop : Hop} {rest : List Hop} {a c : TableRow} :
    Reaches tables (hop :: rest) a c ↔
      ∃ b ∈ tables hop.child.table, hop.Matches a b ∧ Reaches tables rest b c := by
  constructor
  · intro h
    cases h with
    | hop hb hmatch hrest => exact ⟨_, hb, hmatch, hrest⟩
  · rintro ⟨b, hb, hmatch, hrest⟩
    exact .hop hb hmatch hrest

theorem reaches_nil {a c : TableRow} : Reaches tables [] a c ↔ c = a := by
  constructor
  · intro h
    cases h
    rfl
  · rintro rfl
    exact .here c

/-- What is reached through hops is in the last of the tables. -/
theorem Reaches.mem {hops : List Hop} {a c : TableRow} (h : Reaches tables hops a c) {hop : Hop}
    (hlast : hops.getLast? = some hop) : c ∈ tables hop.child.table := by
  induction h with
  | here => cases hlast
  | @hop first rest a b c hb _ hrest ih =>
    cases rest with
    | nil =>
      cases hlast
      cases hrest
      exact hb
    | cons next rest => exact ih (by simpa using hlast)

/-- Nothing is reached from the row of nulls. -/
theorem not_reaches_absent {hops : List Hop} (hne : hops ≠ []) (c : TableRow) :
    ¬ Reaches tables hops .absent c := by
  intro h
  cases h with
  | here => exact hne rfl
  | hop _ hmatch _ => exact Hop.not_matches_absent _ _ hmatch

theorem lands_absent {hops : List Hop} (hne : hops ≠ []) {c : TableRow} :
    Lands tables keep hops .absent c ↔ c = .absent := by
  constructor
  · rintro (⟨hreaches, -⟩ | ⟨rfl, -⟩)
    · exact absurd hreaches (not_reaches_absent hne c)
    · rfl
  · rintro rfl
    obtain ⟨hop, rest, rfl⟩ := List.exists_cons_of_ne_nil hne
    exact .inr ⟨rfl, .here fun b _ hmatch => absurd hmatch (Hop.not_matches_absent hop b)⟩

theorem lands_singleton {hop : Hop} {a c : TableRow} :
    Lands tables keep [hop] a c ↔
      (c ∈ tables hop.child.table ∧ hop.Matches a c ∧ keep c) ∨
        (c = .absent ∧ ∀ b ∈ tables hop.child.table, ¬ (hop.Matches a b ∧ keep b)) := by
  constructor
  · rintro (⟨hreaches, hkeep⟩ | ⟨rfl, hbreaks⟩)
    · obtain ⟨b, hb, hmatch, hrest⟩ := reaches_cons.1 hreaches
      obtain rfl := reaches_nil.1 hrest
      exact .inl ⟨hb, hmatch, hkeep⟩
    · cases hbreaks with
      | here hnone => exact .inr ⟨rfl, fun b hb hmatch => (hnone b hb hmatch.1).2 hmatch.2⟩
      | later _ _ hrest => cases hrest
  · rintro (⟨hc, hmatch, hkeep⟩ | ⟨rfl, hnone⟩)
    · exact .inl ⟨.hop hc hmatch (.here c), hkeep⟩
    · exact .inr ⟨rfl, .here fun b hb hmatch => ⟨rfl, fun hkeep => hnone b hb ⟨hmatch, hkeep⟩⟩⟩

theorem lands_cons {hop : Hop} {rest : List Hop} (hne : rest ≠ []) {a c : TableRow} :
    Lands tables keep (hop :: rest) a c ↔
      (∃ b ∈ tables hop.child.table, hop.Matches a b ∧ Lands tables keep rest b c) ∨
        (c = .absent ∧ ∀ b ∈ tables hop.child.table, ¬ hop.Matches a b) := by
  constructor
  · rintro (⟨hreaches, hkeep⟩ | ⟨rfl, hbreaks⟩)
    · obtain ⟨b, hb, hmatch, hrest⟩ := reaches_cons.1 hreaches
      exact .inl ⟨b, hb, hmatch, .inl ⟨hrest, hkeep⟩⟩
    · cases hbreaks with
      | here hnone => exact .inr ⟨rfl, fun b hb hmatch => hne (hnone b hb hmatch).1⟩
      | later hb hmatch hrest => exact .inl ⟨_, hb, hmatch, .inr ⟨rfl, hrest⟩⟩
  · rintro (⟨b, hb, hmatch, ⟨hreaches, hkeep⟩ | ⟨rfl, hbreaks⟩⟩ | ⟨rfl, hnone⟩)
    · exact .inl ⟨.hop hb hmatch hreaches, hkeep⟩
    · exact .inr ⟨rfl, .later hb hmatch hbreaks⟩
    · exact .inr ⟨rfl, .here fun b hb hmatch => absurd hmatch (hnone b hb)⟩

theorem conjoin_eval (joined : JoinedRow) (c d : Condition) :
    (c.conjoin d).eval rules joined = some true ↔
      c.eval rules joined = some true ∧ d.eval rules joined = some true := by
  have hand (s t : Truth) : s.and t = some true ↔ s = some true ∧ t = some true := by
    rcases s with _ | _ | _ <;> rcases t with _ | _ | _ <;> simp [Truth.and]
  unfold Condition.conjoin
  split
  · simp [Condition.eval]
  · simp [Condition.eval]
  · rw [Condition.eval, Expression.eval, Expression.eval, Cell.truth_ofTruth, Cell.truth_ofTruth,
      hand]

/-- Conditions one after the other hold if all of them do. -/
theorem foldl_conjoin_eval (joined : JoinedRow) (conds : List Condition) (c : Condition) :
    (conds.foldl Condition.conjoin c).eval rules joined = some true ↔
      c.eval rules joined = some true ∧ ∀ d ∈ conds, d.eval rules joined = some true := by
  induction conds generalizing c with
  | nil => simp
  | cons d conds ih => simp [ih, conjoin_eval, and_assoc]

theorem hopCondition_eval (m k : Nat) (hop : Hop) (rows : List TableRow) :
    (hopCondition (labelOf m) (labelOf k) hop).eval rules (tagged rows) = some true ↔
      hop.Matches (rowAt rows m) (rowAt rows k) := by
  simp only [hopCondition, Condition.eval, Expression.eval, cell_tagged, Cell.truth_ofTruth,
    Hop.Matches, Comparison.holds]
  cases rowAt rows m hop.parent.column <;> cases rowAt rows k hop.child.column <;>
    simp [Cell.isNull, Cell.compare_null_left, Cell.compare_null_right]

/-- The joins of hops, with conditions on the last of them. -/
def chainJoins (conds : List Condition) (parent : String) : Nat → List Hop → List Join
  | _, [] => []
  | k, [hop] =>
    [⟨⟨hop.child.table, some (labelOf k)⟩,
      conds.foldl Condition.conjoin (hopCondition parent (labelOf k) hop)⟩]
  | k, hop :: next :: rest =>
    ⟨⟨hop.child.table, some (labelOf k)⟩, hopCondition parent (labelOf k) hop⟩ ::
      chainJoins conds (labelOf k) (k + 1) (next :: rest)

@[simp] theorem length_chainJoins (conds : List Condition) (parent : String) (k : Nat)
    (hops : List Hop) : (chainJoins conds parent k hops).length = hops.length := by
  induction hops generalizing parent k with
  | nil => rfl
  | cons hop rest ih =>
    cases rest with
    | nil => rfl
    | cons next rest => exact congrArg (· + 1) (ih (labelOf k) (k + 1))

/-- The joins of a chain lead from a row to where its hops land. -/
theorem exists_chain_iff_lands {conds : List Condition} {hops : List Hop} (hne : hops ≠ [])
    {m k : Nat} {rows : List TableRow} (hlength : rows.length = k) (hm : m < k)
    (hkeep : ∀ rows' : List TableRow, (∀ d ∈ conds, d.eval rules (tagged rows') = some true) ↔
      keep (rowAt rows' (k + hops.length - 1))) (c : TableRow) :
    (∃ rows' ∈ extensions rules tables (chainJoins conds (labelOf m) k hops) rows,
      rowAt rows' (k + hops.length - 1) = c) ↔ Lands tables keep hops (rowAt rows m) c := by
  induction hops generalizing m k rows with
  | nil => exact absurd rfl hne
  | cons hop rest ih =>
    have hparent (row : TableRow) : rowAt (rows ++ [row]) m = rowAt rows m :=
      rowAt_of_isPrefix (List.prefix_append _ _) (hlength ▸ hm)
    have hnew (row : TableRow) : rowAt (rows ++ [row]) k = row := hlength ▸ rowAt_length rows row
    cases rest with
    | nil =>
      have hon (row : TableRow) : (conds.foldl Condition.conjoin
          (hopCondition (labelOf m) (labelOf k) hop)).eval rules (tagged (rows ++ [row])) =
            some true ↔ hop.Matches (rowAt rows m) row ∧ keep row := by
        rw [foldl_conjoin_eval, hopCondition_eval, hparent, hnew, hkeep]
        simp only [List.length_singleton, Nat.add_sub_cancel, hnew]
      simp only [chainJoins, mem_extensions_cons, mem_extensions_nil, List.length_singleton,
        Nat.add_sub_cancel, Join.mem_choices, hon, ne_eq]
      rw [lands_singleton]
      constructor
      · rintro ⟨_, ⟨row, hrow, rfl⟩, rfl⟩
        rw [hnew]
        exact hrow
      · intro hc
        exact ⟨_, ⟨c, hc, rfl⟩, hnew c⟩
    | cons next rest =>
      have hon (row : TableRow) : (hopCondition (labelOf m) (labelOf k) hop).eval rules
          (tagged (rows ++ [row])) = some true ↔ hop.Matches (rowAt rows m) row := by
        rw [hopCondition_eval, hparent, hnew]
      have hlast : k + (hop :: next :: rest).length - 1 = k + 1 + (next :: rest).length - 1 := by
        rw [List.length_cons]
        omega
      have hstep (row : TableRow) :
          (∃ rows' ∈ extensions rules tables (chainJoins conds (labelOf k) (k + 1) (next :: rest))
            (rows ++ [row]), rowAt rows' (k + 1 + (next :: rest).length - 1) = c) ↔
              Lands tables keep (next :: rest) row c := by
        have hnext : (rows ++ [row]).length = k + 1 := by
          rw [List.length_append, hlength, List.length_singleton]
        have hih := ih (List.cons_ne_nil next rest) hnext (Nat.lt_succ_self k)
          (fun rows' => hlast ▸ hkeep rows')
        rwa [hnew] at hih
      rw [lands_cons (List.cons_ne_nil next rest), hlast]
      simp only [chainJoins, mem_extensions_cons, Join.mem_choices, hon, ne_eq]
      constructor
      · rintro ⟨rows', ⟨row, hrow, hrows'⟩, hc⟩
        have hlands := (hstep row).1 ⟨rows', hrows', hc⟩
        rcases hrow with ⟨hrow, hmatch⟩ | ⟨rfl, hnone⟩
        · exact .inl ⟨row, hrow, hmatch, hlands⟩
        · exact .inr ⟨(lands_absent (List.cons_ne_nil next rest)).1 hlands, hnone⟩
      · rintro (⟨row, hrow, hmatch, hlands⟩ | ⟨rfl, hnone⟩)
        · obtain ⟨rows', hrows', hc⟩ := (hstep row).2 hlands
          exact ⟨rows', ⟨row, .inl ⟨hrow, hmatch⟩, hrows'⟩, hc⟩
        · obtain ⟨rows', hrows', hc⟩ :=
            (hstep .absent).2 ((lands_absent (List.cons_ne_nil next rest)).2 rfl)
          exact ⟨rows', ⟨.absent, .inr ⟨rfl, hnone⟩, hrows'⟩, hc⟩

end Chains

namespace Statement

variable (s : Statement) (rules : TextRules) (tables : Tables) (table : String)

/-- What rows are ordered by. -/
def sortKeys (rows : List TableRow) : List Cell := s.order.map (·.eval rules (tagged rows))

/-- The rows, one of each table, that a statement over a first table chooses, in order. -/
def chosen : List (List TableRow) :=
  stableSort (fun x y => List.compareLex Cell.sortOrder (s.sortKeys rules x) (s.sortKeys rules y))
    (((tables table).flatMap fun a => extensions rules tables s.joins [a]).filter fun rows =>
      (s.condition?.getD .always).eval rules (tagged rows) = some true)

variable {s rules tables table}

/-- The joined rows of a statement whose tables are named by their numbers. -/
theorem joinedRows_eq (htable : s.table? = some ⟨table, some (labelOf 0)⟩)
    (hjoins : ∀ i j, s.joins[i]? = some j → j.table.reference = labelOf (1 + i)) :
    s.joinedRows rules tables = (s.chosen rules tables table).map tagged := by
  have hfirst : s.firstRows tables = ((tables table).map fun a => [a]).map tagged := by
    rw [firstRows, htable, List.map_map]
    rfl
  have hsingle : ∀ rows ∈ (tables table).map fun a => [a], rows.length = 1 := by
    intro rows hrows
    obtain ⟨a, -, rfl⟩ := List.mem_map.1 hrows
    rfl
  have hjoined : s.joins.foldl (fun rows j => rows.flatMap (j.extend rules tables))
      (((tables table).map fun a => [a]).map tagged) =
        ((tables table).flatMap fun a => extensions rules tables s.joins [a]).map tagged := by
    rw [foldl_extend hjoins hsingle, List.flatMap_map]
  unfold joinedRows chosen
  simp only [hfirst, hjoined, List.filter_map]
  exact stableSort_map _ tagged _

theorem mem_chosen {rows : List TableRow} :
    rows ∈ s.chosen rules tables table ↔
      (∃ a ∈ tables table, rows ∈ extensions rules tables s.joins [a]) ∧
        (s.condition?.getD .always).eval rules (tagged rows) = some true := by
  rw [chosen, (perm_stableSort _ _).mem_iff, List.mem_filter, List.mem_flatMap,
    decide_eq_true_eq]

theorem pairwise_chosen : (s.chosen rules tables table).Pairwise fun x y =>
    List.compareLex Cell.sortOrder (s.sortKeys rules y) (s.sortKeys rules x) ≠ .lt := by
  have hcmp := transCmp_on (List.compareLex Cell.sortOrder) (s.sortKeys rules)
  exact pairwise_stableSort _ _

end Statement

end MappedQuery.Sql
