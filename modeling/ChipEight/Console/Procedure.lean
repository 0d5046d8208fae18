import ChipEight.Console.Action

/-!
# Procedures

A procedure is a program of actions of the desk, as the methods of `Machine` are: it ends with a result, or does an
action and goes on with its answer.  Between two of its actions the clocks may move.
-/

namespace ChipEight

/-- A program of actions that ends with an `α`. -/
inductive Procedure (α : Type) where
  | done (result : α)
  | act (a : Action) (next : a.Answer → Procedure α)

namespace Procedure

/-- One action as a program. -/
def single (a : Action) : Procedure a.Answer := .act a .done

/-- One program after the other. -/
def andThen {α β : Type} : Procedure α → (α → Procedure β) → Procedure β
  | .done r, f => f r
  | .act a next, f => .act a fun x => (next x).andThen f

instance : Monad Procedure where
  pure := .done
  bind := .andThen

end Procedure

end ChipEight
