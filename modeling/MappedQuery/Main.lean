import MappedQuery.Cli.Command
import MappedQuery.Json.Printer
import MappedQuery.World.Tables

/-!
# The command line

Answers one request over the demonstration data and prints the response.
-/
namespace MappedQuery.Cli

/-- The document of a failure that no request is answered after. -/
def failureDocument (message : String) : Json :=
  .object [("errors", .array [.object [("message", .string message)]])]

/-- Runs a command over the demonstration data; the statements it sent come with the document. -/
def runWorld (c : Command) : Json × List Sql.Statement :=
  let (document, session) :=
    (c.document (Engine.ofMapping World.mapping)).run (Sql.Session.start World.database)
  (document, session.sent)

end MappedQuery.Cli

open MappedQuery MappedQuery.Cli in
/-- Exits with one if the arguments are not taken or the database cannot be opened. -/
def main (arguments : List String) : IO UInt32 := do
  match Options.parse arguments with
  | .error .helpWanted =>
    IO.println UsageFault.helpWanted.message
    pure 0
  | .error fault =>
    IO.eprintln fault.message
    pure 1
  | .ok options =>
    match options.database? with
    | some path =>
      IO.eprintln (failureDocument ("Could not open database '" ++ path ++ "'")).compact
      pure 1
    | none =>
      let needsText := !options.validate && options.query?.isNone
      let text ← if needsText then (← IO.getStdin).readToEnd else pure ""
      let (document, statements) := runWorld (Command.ofOptions options text)
      if options.logQueries then
        statements.forM fun s => IO.eprintln s.build.1
      IO.println document.pretty
      pure 0
