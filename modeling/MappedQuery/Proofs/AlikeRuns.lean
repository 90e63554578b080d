import MappedQuery.Proofs.Readings
import MappedQuery.Request.Delegation

/-!
# Runs that differ in components only

That a query has components shows in two places when it is run: some faults show a part of the
query, and a session keeps on record which query a statement was sent for. Two runs are alike if
they differ in nothing else. From sessions that are alike, alike runs give related results or fail
for the same reason, and they send the same statements. Runs that are put together from alike ones
are alike, and so are readings of objects that are read alike.
-/
namespace MappedQuery

namespace Query

mutual

/-- The query with the selections of its components in their places. -/
def withoutComponents : Query → Query
  | .select name alias? bindings child => .select name alias? bindings child.withoutComponents
  | .filter p child => .filter p child.withoutComponents
  | .unique child => .unique child.withoutComponents
  | .group queries => .group (allWithoutComponents queries)
  | .narrow type child => .narrow type child.withoutComponents
  | .limit n child => .limit n child.withoutComponents
  | .orderBy os child => .orderBy os child.withoutComponents
  | .component _ _ child => child.withoutComponents
  | .introspect child => .introspect child.withoutComponents
  | .empty => .empty

def allWithoutComponents : List Query → List Query
  | [] => []
  | q :: rest => q.withoutComponents :: allWithoutComponents rest

end

mutual

/-- Components are all that delegated fields change of a query. -/
theorem withoutComponents_delegate : ∀ (q : Query) (m : Mapping) (type : String)
    (path : List String), (q.delegate m type path).withoutComponents = q.withoutComponents
  | .select name alias? bindings child, m, type, path => by
    rw [delegate]
    split
    · rfl
    · dsimp only
      split
      · rw [withoutComponents, withoutComponents, withoutComponents,
          withoutComponents_delegate child]
      · rw [withoutComponents, withoutComponents, withoutComponents_delegate child]
  | .filter p child, m, type, path => by
    rw [delegate, withoutComponents, withoutComponents_delegate child, withoutComponents]
  | .unique child, m, type, path => by
    rw [delegate, withoutComponents, withoutComponents_delegate child, withoutComponents]
  | .limit n child, m, type, path => by
    rw [delegate, withoutComponents, withoutComponents_delegate child, withoutComponents]
  | .orderBy os child, m, type, path => by
    rw [delegate, withoutComponents, withoutComponents_delegate child, withoutComponents]
  | .narrow condition child, m, type, path => by
    rw [delegate, withoutComponents, withoutComponents_delegate child, withoutComponents]
  | .group queries, m, type, path => by
    rw [delegate, withoutComponents, allWithoutComponents_delegateAll queries, withoutComponents]
  | .component .., _, _, _ | .introspect _, _, _, _ | .empty, _, _, _ => rfl

theorem allWithoutComponents_delegateAll : ∀ (queries : List Query) (m : Mapping) (type : String)
    (path : List String),
    allWithoutComponents (delegateAll m type path queries) = allWithoutComponents queries
  | [], _, _, _ => rfl
  | q :: rest, m, type, path => by
    rw [delegateAll, allWithoutComponents, withoutComponents_delegate q,
      allWithoutComponents_delegateAll rest, allWithoutComponents]

end

end Query

/-- The fault without the components in the query that it shows. -/
def InterpreterFault.withoutComponents : InterpreterFault → InterpreterFault
  | malformedComponent q => malformedComponent q.withoutComponents
  | unexpectedRoot q => unexpectedRoot q.withoutComponents
  | unexpectedQuery q path => unexpectedQuery q.withoutComponents path
  | joinWithoutSelect field q => joinWithoutSelect field q.withoutComponents
  | cause => cause

def ConnectorFault.withoutComponents : ConnectorFault → ConnectorFault
  | unsupportedQuery (.query q) => unsupportedQuery (.query q.withoutComponents)
  | cause => cause

def Fault.withoutComponents : Fault → Fault
  | interpreter cause => interpreter cause.withoutComponents
  | connector cause => connector cause.withoutComponents
  | f => f

/-- Two computations fail, with one fault but for components that it shows, or give related
results. -/
inductive Alike {α β : Type} (R : α → β → Prop) : Except Fault α → Except Fault β → Prop
  | fault {f g : Fault} (h : f.withoutComponents = g.withoutComponents) :
    Alike R (.error f) (.error g)
  | result {a : α} {b : β} (h : R a b) : Alike R (.ok a) (.ok b)

namespace Alike

variable {α β γ δ : Type} {R : α → β → Prop} {S : γ → δ → Prop}

theorem bind {x : Except Fault α} {y : Except Fault β} {f : α → Except Fault γ}
    {g : β → Except Fault δ} (h : Alike R x y) (hf : ∀ a b, R a b → Alike S (f a) (g b)) :
    Alike S (x >>= f) (y >>= g) := by
  cases h with
  | fault h => exact .fault h
  | result h => exact hf _ _ h

end Alike

namespace Sql.Session

/-- What a session keeps on record of a statement, but for the query it was sent for. -/
def recorded (stats : Stats) : Statement × Nat × Nat := (stats.statement, stats.rows, stats.fields)

/-- Sessions of one database that were sent the same, for whatever queries. -/
structure Alike (s t : Session) : Prop where
  database : s.database = t.database
  sent : s.sent = t.sent
  stats : s.stats.map recorded = t.stats.map recorded

end Sql.Session

namespace Run

variable {α β γ δ : Type}

/-- From sessions that are alike, two runs give related results or fail for one reason, and leave
sessions that are alike. -/
protected def Alike (R : α → β → Prop) (x : Run α) (y : Run β) : Prop :=
  ∀ s t : Sql.Session, s.Alike t →
    MappedQuery.Alike R (x.run.run s).1 (y.run.run t).1 ∧ (x.run.run s).2.Alike (y.run.run t).2

variable {R : α → β → Prop} {S : γ → δ → Prop}

theorem alike_ofExcept {x : Except Fault α} {y : Except Fault β} (h : MappedQuery.Alike R x y) :
    Run.Alike R (ofExcept x) (ofExcept y) := by
  intro s t hst
  cases h with
  | fault h => exact ⟨.fault h, hst⟩
  | result h => exact ⟨.result h, hst⟩

theorem alike_pure {a : α} {b : β} (h : R a b) : Run.Alike R (pure a) (pure b) :=
  alike_ofExcept (.result h)

theorem alike_throw {f g : Fault} (h : f.withoutComponents = g.withoutComponents) :
    Run.Alike R (throw f) (throw g) :=
  alike_ofExcept (.fault h)

theorem Alike.bind {x : Run α} {y : Run β} {f : α → Run γ} {g : β → Run δ} (h : Run.Alike R x y)
    (hf : ∀ a b, R a b → Run.Alike S (f a) (g b)) : Run.Alike S (x >>= f) (y >>= g) := by
  intro s t hst
  have hfirst := h s t hst
  change MappedQuery.Alike S ((ExceptT.bindCont f (x.run.run s).1).run (x.run.run s).2).1
      ((ExceptT.bindCont g (y.run.run t).1).run (y.run.run t).2).1 ∧
    ((ExceptT.bindCont f (x.run.run s).1).run (x.run.run s).2).2.Alike
      ((ExceptT.bindCont g (y.run.run t).1).run (y.run.run t).2).2
  generalize x.run.run s = left at hfirst ⊢
  generalize y.run.run t = right at hfirst ⊢
  obtain ⟨outcome, s'⟩ := left
  obtain ⟨outcome', t'⟩ := right
  obtain ⟨houtcome, hleft⟩ := hfirst
  cases houtcome with
  | fault h => exact ⟨.fault h, hleft⟩
  | result h => exact hf _ _ h _ _ hleft

/-- One computation without a session before both. -/
theorem alike_after {x : Except Fault α} {f : α → Run γ} {g : α → Run δ}
    (hf : ∀ a, x = .ok a → Run.Alike S (f a) (g a)) :
    Run.Alike S (ofExcept x >>= f) (ofExcept x >>= g) := by
  cases x with
  | error e => exact alike_throw rfl
  | ok a => exact hf a rfl

theorem congruence_alike : Congruence fun _ x y => Run.Alike (· = ·) x y where
  ofExcept x := alike_ofExcept <| by
    cases x with
    | error f => exact .fault rfl
    | ok a => exact .result rfl
  bind hx hf := hx.bind fun a _ hab => hab ▸ hf a

/-- A statement is answered alike whatever query it is sent for. -/
theorem alike_send (q q' : Query) (fields : Nat) (st : Sql.Statement) :
    Run.Alike (· = ·) (send q fields st) (send q' fields st) := by
  intro s t hst
  change MappedQuery.Alike _ ((ofExcept (s.database s.sent st) >>= _ : Run _).run.run _).1
      ((ofExcept (t.database t.sent st) >>= _ : Run _).run.run _).1 ∧
    ((ofExcept (s.database s.sent st) >>= _ : Run _).run.run _).2.Alike
      ((ofExcept (t.database t.sent st) >>= _ : Run _).run.run _).2
  rw [← hst.database, ← hst.sent]
  cases s.database s.sent st with
  | error f => exact ⟨.fault rfl, rfl, rfl, hst.stats⟩
  | ok result =>
    refine ⟨.result rfl, rfl, rfl, ?_⟩
    change (s.stats ++ [_]).map _ = (t.stats ++ [_]).map _
    rw [List.map_append, List.map_append, hst.stats]
    rfl

end Run

end MappedQuery
