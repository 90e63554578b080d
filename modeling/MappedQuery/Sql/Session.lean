import MappedQuery.Sql.Text

/-!
# Sessions

A database answers a statement in the light of the statements it was sent before. A `Session`
records the statements that were sent, answered or not, and statistics of those that were
answered. `Run` is a computation that may send statements and may fail; what it sent before a
failure stays recorded.
-/
namespace MappedQuery.Sql

/-- What one answered statement did. -/
structure Stats where
  /-- The normal form of the query that the statement answers. -/
  query : Query
  statement : Statement
  rows : Nat
  /-- How many leaf fields the query asked for. -/
  fields : Nat
deriving Repr

/-- What a database answers to a statement after those that it was sent before. -/
abbrev Database : Type := List Statement → Statement → Except Fault ResultSet

structure Session where
  database : Database
  /-- The statements sent so far. -/
  sent : List Statement
  stats : List Stats

namespace Session

def start (database : Database) : Session := ⟨database, [], []⟩

end Session

namespace Database

/-- A database whose answers are given in advance, one for each statement. -/
def scripted (answers : List (Except Fault ResultSet)) : Database := fun earlier _ =>
  answers[earlier.length]?.getD (.error (.connector (.conversion "no scripted result")))

end Database

end MappedQuery.Sql

namespace MappedQuery

/-- A computation that may send statements and may fail. -/
abbrev Run (α : Type) : Type := ExceptT Fault (StateM Sql.Session) α

namespace Run

def ofExcept : Except Fault α → Run α
  | .ok a => pure a
  | .error f => throw f

/-- Sends a statement; if it is answered, records what it did for a query. -/
def send (query : Query) (fields : Nat) (s : Sql.Statement) : Run Sql.ResultSet := do
  let session ← get
  let answer := session.database session.sent s
  set { session with sent := session.sent ++ [s] }
  let result ← ofExcept answer
  modify fun session =>
    { session with stats := session.stats ++ [⟨query, s, result.size, fields⟩] }
  pure result

end Run

end MappedQuery
