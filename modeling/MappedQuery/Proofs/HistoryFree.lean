import MappedQuery.Proofs.Readings

/-!
# Databases without a memory

A database may answer each statement for itself, whatever it was sent before. Reading then gives
the same in all sessions of the database: nothing that an earlier reading left in the session is
ever looked at. The lemmas follow the way readings are put together, so that only the sending of
a statement looks at the session at all.
-/
namespace MappedQuery

/-- The database answers each statement for itself, whatever it was sent before. -/
def Sql.Database.HistoryFree (database : Sql.Database) : Prop :=
  ∃ answer : Sql.Statement → Except Fault Sql.ResultSet, ∀ sent s, database sent s = answer s

/-- A computation that gives the same in all sessions of a database that answers each statement
for itself, and leaves a session of that database. -/
def Steady (x : StateM Sql.Session α) : Prop :=
  ∀ s s' : Sql.Session, s.database.HistoryFree → s'.database = s.database →
    (x.run s').1 = (x.run s).1 ∧ (x.run s).2.database = s.database

namespace Steady

variable {α β : Type}

theorem pure (a : α) : Steady (Pure.pure a : StateM Sql.Session α) := fun _ _ _ _ => ⟨rfl, rfl⟩

theorem bind {x : StateM Sql.Session α} {f : α → StateM Sql.Session β} (hx : Steady x)
    (hf : ∀ a, Steady (f a)) : Steady (x >>= f) := by
  intro s s' hfree hs
  obtain ⟨hvalue, hdatabase⟩ := hx s s' hfree hs
  have hdatabase' := (hx s' s (hs ▸ hfree) hs.symm).2
  have hrest := hf (x.run s).1 (x.run s).2 (x.run s').2 (hdatabase ▸ hfree)
    (hdatabase'.trans (hs.trans hdatabase.symm))
  change ((f (x.run s').1).run (x.run s').2).1 = ((f (x.run s).1).run (x.run s).2).1 ∧
    ((f (x.run s).1).run (x.run s).2).2.database = s.database
  rw [hvalue]
  exact ⟨hrest.1, hrest.2.trans hdatabase⟩

/-- Two steady computations, one after the other in one session, give what each of them gives at
the start of it. -/
theorem run_bind {x : StateM Sql.Session α} {f : α → StateM Sql.Session β} (hx : Steady x)
    (hf : ∀ a, Steady (f a)) {s : Sql.Session} (hfree : s.database.HistoryFree) :
    ((x >>= f).run s).1 = ((f (x.run s).1).run s).1 :=
  (hf _ s _ hfree (hx s s hfree rfl).2).1

end Steady

namespace Run

variable {α β : Type}

/-- A run whose outcome and session are steady. -/
protected def Steady (x : Run α) : Prop := MappedQuery.Steady x.run

theorem steady_pure (a : α) : (pure a : Run α).Steady := MappedQuery.Steady.pure _

theorem steady_throw (f : Fault) : (throw f : Run α).Steady := MappedQuery.Steady.pure _

theorem steady_ofExcept (x : Except Fault α) : (ofExcept x).Steady := by
  cases x with
  | error f => exact steady_throw f
  | ok a => exact steady_pure a

theorem Steady.bind {x : Run α} {f : α → Run β} (hx : x.Steady) (hf : ∀ a, (f a).Steady) :
    (x >>= f).Steady := by
  change MappedQuery.Steady (x.run >>= ExceptT.bindCont f)
  refine MappedQuery.Steady.bind hx fun outcome => ?_
  cases outcome with
  | ok a => exact hf a
  | error f => exact MappedQuery.Steady.pure _

theorem compositional_steady : Compositional fun _ x => x.Steady := ⟨steady_ofExcept, Steady.bind⟩

/-- The answer to a statement is the same in all sessions. -/
theorem steady_send (query : Query) (fields : Nat) (st : Sql.Statement) :
    (send query fields st).Steady := by
  have hrun (s : Sql.Session) : ((send query fields st).run.run s).1 = s.database s.sent st ∧
      ((send query fields st).run.run s).2.database = s.database := by
    change (((ofExcept (s.database s.sent st) >>= _ : Run _).run.run _).1 = _ ∧
      ((ofExcept (s.database s.sent st) >>= _ : Run _).run.run _).2.database = _)
    cases s.database s.sent st with
    | ok result => exact ⟨rfl, rfl⟩
    | error f => exact ⟨rfl, rfl⟩
  rintro s s' ⟨answer, hanswer⟩ hs
  refine ⟨?_, (hrun s).2⟩
  rw [(hrun s').1, (hrun s).1, hs, hanswer, hanswer]

end Run

namespace Query

variable {m : Mapping} {answers : Answers m}

/-- The answers for delegated fields are steady. -/
def SteadyAnswers (answers : Answers m) : Prop := ∀ d h type s, (answers d h type s).Steady

theorem steady_askDelegate (hanswers : SteadyAnswers answers) (d : Delegate Mapping)
    (h : sizeOf d.target < sizeOf m) (type : String) (c : Cursor) (selection : Query) :
    (askDelegate answers d h type c selection).Steady := by
  unfold askDelegate
  refine Run.compositional_steady.after fun asked _ => ?_
  split
  · exact hanswers d h type _
  · exact Run.steady_throw _

theorem steady_value (hanswers : SteadyAnswers answers) (q : Query) (c : Cursor) :
    (q.value m answers c).Steady := by
  refine Run.compositional_steady.value (.everywhere m) ?_ trivial
  constructor
  case select => exact fun _ _ _ => steady_askDelegate hanswers _ _ _ _ _
  case component => exact fun _ _ => steady_askDelegate hanswers _ _ _ _ _

end Query

namespace Mapping

theorem steady_openRoot (m : Mapping) (type : String) (s : Select) :
    (m.openRoot type s).Steady := by
  unfold openRoot
  split
  · split
    · exact Run.steady_throw _
    · exact Run.compositional_steady.after fun fieldType _ => Run.steady_pure _
  · split
    · exact Run.steady_throw _
    · refine Run.compositional_steady.after fun fieldType _ =>
        Run.compositional_steady.after fun plan _ => ?_
      exact (Run.steady_send _ _ _).bind fun result => Run.steady_pure _

theorem steady_readRoot (m : Mapping) (type : String) (s : Select) :
    (m.readRoot type s).Steady := by
  rw [readRoot]
  refine (steady_openRoot m type s).bind fun opened => ?_
  exact Query.steady_value (fun d _ type s => steady_readRoot d.target type s) opened.1 opened.2
termination_by sizeOf m

theorem steady_answerRoot (m : Mapping) (q : Query) : Steady (m.answerRoot q) := by
  unfold answerRoot
  split
  · dsimp only
    split
    · exact .pure _
    · exact Steady.bind (steady_readRoot m _ _) fun outcome => .pure _
  · split
    · refine Steady.bind ?_ fun outcome => .pure _
      unfold readDelegatedRoot
      split
      · exact steady_readRoot _ _ _
      · exact Run.steady_throw _
    · exact .pure _
  · exact .pure _

theorem steady_answerRoots (m : Mapping) (qs : List Query) : Steady (m.answerRoots qs) := by
  induction qs with
  | nil => exact .pure _
  | cons q rest ih => exact (steady_answerRoot m q).bind fun first => ih.bind fun _ => .pure _

end Mapping

namespace Query

theorem steady_answerBranch (m introspection : Mapping) (q : Query) :
    Steady (q.answerBranch m introspection) := by
  unfold answerBranch
  split
  · exact Mapping.steady_answerRoots _ _
  · exact Mapping.steady_answerRoots _ _

theorem steady_answerBranches (m introspection : Mapping) (qs : List Query) :
    Steady (answerBranches m introspection qs) := by
  induction qs with
  | nil => exact .pure _
  | cons q rest ih =>
    exact (steady_answerBranch m introspection q).bind fun first => ih.bind fun _ => .pure _

end Query

end MappedQuery
