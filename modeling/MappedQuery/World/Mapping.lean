import MappedQuery.Mapping.Registry

/-!
# The world

The demonstration schema, countries with their cities and languages, and its mapping onto four
tables. Cities and countries can be picked by patterns of their names, in any number; one city,
country or language is picked by its key.
-/
namespace MappedQuery.World

private def optional (name : String) : TypeRef := .nullable (.named name)

private def listOf (name : String) : TypeRef := .list (.named name)

private def field (name : String) (type : TypeRef) : FieldDefinition := ⟨name, [], type⟩

private def text (name : String) : FieldDefinition := field name (.named "String")

private def argument (name : String) (type : TypeRef) : InputDefinition := ⟨name, type, none⟩

/-- The pattern of names, by default that of all. -/
private def namePattern : InputDefinition :=
  ⟨"namePattern", optional "String", some (.string "%")⟩

def schema : Schema :=
  .ofTypes [
    .object {
      name := "Query"
      fields := [
        ⟨"cities", [namePattern, argument "limit" (optional "Int")], listOf "City"⟩,
        ⟨"city", [argument "id" (.named "Int")], optional "City"⟩,
        ⟨"country", [argument "code" (.named "String")], optional "Country"⟩,
        ⟨"countries",
          [argument "continent" (optional "String"), argument "nameLike" (optional "String"),
            argument "limit" (optional "Int"),
            ⟨"byName", optional "Boolean", some (.boolean false)⟩],
          listOf "Country"⟩,
        ⟨"language", [argument "name" (.named "String")], optional "Language"⟩,
        field "languages" (listOf "Language")]
      interfaces := [] },
    .object {
      name := "City"
      fields := [
        field "id" (.named "Int"), text "name", text "district",
        field "population" (.named "Int"), field "country" (.named "Country")]
      interfaces := [] },
    .object {
      name := "Country"
      fields := [
        text "code", text "name", text "continent", field "capital" (optional "City"),
        ⟨"cities", [namePattern], listOf "City"⟩, field "languages" (listOf "Language")]
      interfaces := [] },
    .object {
      name := "Language"
      fields := [text "name", text "family", field "countries" (listOf "Country")]
      interfaces := [] }]
    "Query"

/-- The child of a selection where its name has the shape of the pattern that is asked for. -/
def filterByPattern (s : Select) (child : Query) : Query :=
  match (s.supplied? "namePattern").bind (·.asString?) with
  | some pattern => .filter (.like (.field "name") pattern false) child
  | none => child

/-- The child of a selection, as many of it as are asked for. -/
def limited (s : Select) (child : Query) : Except Fault Query :=
  match s.supplied? "limit" with
  | none => .ok child
  | some v =>
    match v.asInt? with
    | some n =>
      if 0 ≤ n.toInt then .ok (.limit n.toInt.toNat child) else .error negativeLimit
    | none => .error negativeLimit
where
  negativeLimit : Fault :=
    .elaboration (.custom ("'limit' of field '" ++ s.name ++ "' must not be negative"))

/-- Selects the only entity with the key that is asked for. -/
def byKey (field : String) : Elaborator := fun s =>
  let value := (s.supplied? field).getD .absent
  let child := Query.unique (.filter (.eq (.field field) (.const value)) s.child)
  .ok { s with child }.toQuery

def cities : Elaborator := fun s => do
  let child := filterByPattern s (← limited s s.child)
  pure { s with child }.toQuery

def citiesOfCountry : Elaborator := fun s =>
  .ok { s with child := filterByPattern s s.child }.toQuery

/-- The conditions on countries that are asked for. -/
def countryConditions (s : Select) : List Predicate :=
  let onContinent := (s.supplied? "continent").map fun v =>
    Predicate.eq (.field "continent") (.const v)
  let onName := ((s.supplied? "nameLike").bind (·.asString?)).map fun pattern =>
    Predicate.like (.field "name") pattern true
  onContinent.toList ++ onName.toList

def countries : Elaborator := fun s => do
  let limitedChild ← limited s s.child
  let ordered :=
    match (s.supplied? "byName").bind (·.asBool?) with
    | some true => Query.orderBy [.ascending (.field "name")] limitedChild
    | _ => limitedChild
  let child :=
    match countryConditions s with
    | [] => ordered
    | conditions => .filter (.all conditions) ordered
  pure { s with child }.toQuery

private abbrev Field : Type := FieldMapping TableField Unit Mapping

private def key (table name : String) : Field := .source (.column name ⟨table, name⟩ true false)

private def column (table name : String) : Field :=
  .source (.column name ⟨table, name⟩ false false)

private def joined (name : String) (hops : List Hop) : Field := .source (.joined name hops)

/-- The mapping of the schema onto the tables `country`, `city`, `language` and
`countrylanguage`. -/
def mapping : Mapping :=
  .tables {
    schema
    types := [
      .object ⟨"Query",
        ["cities", "city", "country", "countries", "language", "languages"].map
          fun name => .root name ()⟩,
      .object ⟨"City", [
        key "city" "id", column "city" "name", column "city" "district",
        column "city" "population",
        joined "country" [⟨⟨"city", "countrycode"⟩, ⟨"country", "code"⟩⟩]]⟩,
      .object ⟨"Country", [
        key "country" "code", column "country" "name", column "country" "continent",
        joined "capital" [⟨⟨"country", "capital"⟩, ⟨"city", "id"⟩⟩],
        joined "cities" [⟨⟨"country", "code"⟩, ⟨"city", "countrycode"⟩⟩],
        joined "languages" [
          ⟨⟨"country", "code"⟩, ⟨"countrylanguage", "countrycode"⟩⟩,
          ⟨⟨"countrylanguage", "language"⟩, ⟨"language", "name"⟩⟩]]⟩,
      .object ⟨"Language", [
        key "language" "name", column "language" "family",
        joined "countries" [
          ⟨⟨"language", "name"⟩, ⟨"countrylanguage", "language"⟩⟩,
          ⟨⟨"countrylanguage", "countrycode"⟩, ⟨"country", "code"⟩⟩]]⟩]
    elaborators := [
      (("Query", "cities"), cities),
      (("Query", "city"), byKey "id"),
      (("Query", "country"), byKey "code"),
      (("Query", "countries"), countries),
      (("Query", "language"), byKey "name"),
      (("Country", "cities"), citiesOfCountry)] }

end MappedQuery.World
