import MappedQuery.Problem.Fault

/-!
# Outcomes

An `Outcome` is a value that may be missing together with the problems met on the way to it, in
order. A computation that depends on another runs only if the other has a value; independent
computations keep the problems of all of them.
-/
namespace MappedQuery

/-- A failure as the response reports it. -/
structure Problem where
  message : String
  path : List String
  kind : ProblemKind
deriving DecidableEq, Repr

namespace Fault

def toProblem (f : Fault) : Problem := ⟨f.message, [], f.kind⟩

end Fault

structure Outcome (α : Type) where
  value? : Option α
  problems : List Problem
deriving DecidableEq, Repr

namespace Outcome

def success (a : α) : Outcome α := ⟨some a, []⟩

def failure (p : Problem) : Outcome α := ⟨none, [p]⟩

/-- A value with problems attached to it. -/
def attach (a : α) (problems : List Problem) : Outcome α := ⟨some a, problems⟩

def ofExcept : Except Fault α → Outcome α
  | .ok a => success a
  | .error f => failure f.toProblem

def isSuccess (o : Outcome α) : Bool := o.value?.isSome && o.problems.isEmpty

def map (f : α → β) (o : Outcome α) : Outcome β := ⟨o.value?.map f, o.problems⟩

/-- The dependent computation after this one; without a value it does not run. -/
def andThen (o : Outcome α) (f : α → Outcome β) : Outcome β :=
  match o.value? with
  | some a => ⟨(f a).value?, o.problems ++ (f a).problems⟩
  | none => ⟨none, o.problems⟩

/-- Two independent computations together. -/
def zip (o : Outcome α) (p : Outcome β) : Outcome (α × β) :=
  ⟨o.value?.bind fun a => p.value?.map fun b => (a, b), o.problems ++ p.problems⟩

def push (o : Outcome α) (p : Problem) : Outcome α := ⟨o.value?, o.problems ++ [p]⟩

/-- Independent computations together; there is a value only if each of them has one. -/
def collect : List (Outcome α) → Outcome (List α)
  | [] => success []
  | o :: rest => (o.zip (collect rest)).map fun (a, as) => a :: as

/-- The value of an outcome without problems, else the problems. -/
def toExcept (o : Outcome α) : Except (List Problem) α :=
  match o.value? with
  | some a => if o.problems.isEmpty then .ok a else .error o.problems
  | none => .error o.problems

@[simp] theorem problems_map (f : α → β) (o : Outcome α) : (o.map f).problems = o.problems := rfl

@[simp] theorem problems_zip (o : Outcome α) (p : Outcome β) :
    (o.zip p).problems = o.problems ++ p.problems := rfl

theorem problems_collect (os : List (Outcome α)) :
    (collect os).problems = os.flatMap (·.problems) := by
  induction os with
  | nil => rfl
  | cons o os ih => simp [collect, ih]

@[simp] theorem success_andThen (a : α) (f : α → Outcome β) : (success a).andThen f = f a := rfl

end Outcome

end MappedQuery
