import MappedQuery.Mapping.Registry

/-!
# Delegated fields

After elaboration the selections of delegated fields become components, which remember the type
that the field was selected on. Below a component the other mapping counts, and paths start anew
at the field.
-/
namespace MappedQuery.Query

mutual

/-- The query with its delegated fields as components, on a type that is reached through a
path. -/
def delegate (m : Mapping) (type : String) (path : List String) : Query → Query
  | .select name alias? bindings child =>
    if name = "__typename" then .select name alias? bindings child
    else
      let childType := ((m.schema.field? type name).map (·.type.underlying)).getD type
      match m.delegateTarget? path type name with
      | some target =>
        .component type name (.select name alias? bindings (delegate target childType [name] child))
      | none => .select name alias? bindings (delegate m childType (path ++ [name]) child)
  | .filter p child => .filter p (delegate m type path child)
  | .unique child => .unique (delegate m type path child)
  | .limit n child => .limit n (delegate m type path child)
  | .orderBy os child => .orderBy os (delegate m type path child)
  | .narrow condition child => .narrow condition (delegate m condition path child)
  | .group queries => .group (delegateAll m type path queries)
  | .component type field child => .component type field child
  | .introspect child => .introspect child
  | .empty => .empty

def delegateAll (m : Mapping) (type : String) (path : List String) : List Query → List Query
  | [] => []
  | q :: rest => delegate m type path q :: delegateAll m type path rest

end

/-- The roots of a request with their delegated fields as components. -/
def delegateRoots (m : Mapping) (q : Query) : Query :=
  grouped (q.members.map (delegate m m.schema.queryType []))

end MappedQuery.Query
