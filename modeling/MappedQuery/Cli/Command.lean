import MappedQuery.Cli.Options
import MappedQuery.Engine
import MappedQuery.Mapping.Validation
import MappedQuery.World.Mapping

/-!
# Commands

The command line either lists the findings of validation or answers one request over the
demonstration mapping. Both yield one document.
-/
namespace MappedQuery.Cli

inductive Command where
  | validate
  | execute (r : EngineRequest)
deriving Repr

namespace Command

/-- The command of the options; `text` is the request if the options have none. -/
def ofOptions (o : Options) (text : String) : Command :=
  if o.validate then validate
  else
    execute {
      text := o.query?.getD text
      operationName? := o.operationName?
      variables? := o.variables?
      allowIntrospection := o.allowIntrospection }

def findingDocument (m : Mismatch) : Json :=
  .object [("severity", .string m.severity.display), ("message", .string m.message)]

/-- The document that a command prints. -/
def document (e : Engine) : Command → StateM Sql.Session Json
  | validate => pure (.object [("findings", .array (e.mapping.validate.map findingDocument))])
  | execute r => Response.toJson <$> e.execute r

end Command

end MappedQuery.Cli
