import MappedQuery.Sql.Evaluation
import MappedQuery.Text.Like

/-!
# The tables of the world

The rows that the demonstration mapping is answered from when no other database is given.
-/
namespace MappedQuery.World

open Sql

/-- A table of these columns. -/
private def table (columns : List String) (rows : List Row) : List TableRow :=
  rows.map fun cells name => ((columns.zip cells).find? (·.1 = name)).elim .null (·.2)

private def country (code name continent : String) (capital : Int) : Row :=
  [.text code, .text name, .text continent, .integer (.ofInt capital)]

private def city (id : Int) (name country district : String) (population : Int) : Row :=
  [.integer (.ofInt id), .text name, .text country, .text district,
    .integer (.ofInt population)]

private def pair (first second : String) : Row := [.text first, .text second]

def countryRows : List TableRow :=
  table ["code", "name", "continent", "capital"] [
    country "BRA" "Brazil" "South America" 10,
    country "CHN" "China" "Asia" 1,
    country "FRA" "France" "Europe" 12,
    country "JPN" "Japan" "Asia" 6,
    country "NLD" "Netherlands" "Europe" 8]

def cityRows : List TableRow :=
  table ["id", "name", "countrycode", "district", "population"] [
    city 1 "Peking" "CHN" "Peking" 7472000,
    city 2 "Shanghai" "CHN" "Shanghai" 9696300,
    city 3 "Linhe" "CHN" "Inner Mongolia" 133183,
    city 4 "Linhai" "CHN" "Zhejiang" 114383,
    city 5 "Linqing" "CHN" "Shandong" 123958,
    city 6 "Tokyo" "JPN" "Tokyo-to" 7980230,
    city 7 "Osaka" "JPN" "Osaka" 2595674,
    city 8 "Amsterdam" "NLD" "Noord-Holland" 731200,
    city 9 "Rotterdam" "NLD" "Zuid-Holland" 593321,
    city 10 "Brasilia" "BRA" "Distrito Federal" 1969868,
    city 11 "Linhares" "BRA" "Espirito Santo" 106278,
    city 12 "Paris" "FRA" "Ile-de-France" 2125246]

def languageRows : List TableRow :=
  table ["name", "family"] [
    pair "Chinese" "Sino-Tibetan", pair "Dutch" "Germanic", pair "French" "Romance",
    pair "Fries" "Germanic", pair "Japanese" "Japonic", pair "Manchu" "Tungusic",
    pair "Portuguese" "Romance"]

def countryLanguageRows : List TableRow :=
  table ["countrycode", "language"] [
    pair "BRA" "Portuguese", pair "CHN" "Chinese", pair "CHN" "Manchu", pair "FRA" "French",
    pair "JPN" "Japanese", pair "NLD" "Dutch", pair "NLD" "Fries"]

def tables : Tables
  | "country" => countryRows
  | "city" => cityRows
  | "language" => languageRows
  | "countrylanguage" => countryLanguageRows
  | _ => []

/-- Only the letters of ASCII have a lower case, and matching tells cases apart. -/
def textRules : TextRules where
  lower s := s.map fun c => c.toLower
  like := Text.Like.fits false

def database : Database := .ofTables textRules tables

end MappedQuery.World
