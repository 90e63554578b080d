import MappedQuery.Query.Basic

/-!
# Normal forms

Queries that differ only in how groups are nested, in empty members and in the order of
arguments have one normal form. Statements are recorded under the normal form of the query they
answer.
-/
namespace MappedQuery.Query

/-- The bindings by name, those of one name in the order given. -/
def sortBindings (bindings : List Binding) : List Binding :=
  bindings.mergeSort fun a b => decide (a.name ≤ b.name)

mutual

def normalize : Query → Query
  | select name alias? bindings child =>
    select name alias? (sortBindings bindings) (normalize child)
  | filter p child => filter p (normalize child)
  | unique child => unique (normalize child)
  | group queries => grouped (normalizeAll queries)
  | narrow type child => narrow type (normalize child)
  | limit n child => limit n (normalize child)
  | orderBy os child => orderBy os (normalize child)
  | component type field child => component type field (normalize child)
  | introspect child => introspect (normalize child)
  | empty => empty

def normalizeAll : List Query → List Query
  | [] => []
  | q :: rest => normalize q :: normalizeAll rest

end

theorem perm_sortBindings (bindings : List Binding) : (sortBindings bindings).Perm bindings :=
  List.mergeSort_perm ..

theorem normalizeAll_eq_map (queries : List Query) :
    normalizeAll queries = queries.map normalize := by
  induction queries with
  | nil => rfl
  | cons q rest ih => simp [normalizeAll, ih]

end MappedQuery.Query
