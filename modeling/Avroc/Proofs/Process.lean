import Avroc.Build.World
import Avroc.Proofs.Step

/-!
# Processes

A build that does not run in one piece.  A process takes one step after the other, and between two
steps others may change the state.

* `Process.Meets` : what every step does and every result is, whatever comes in between.
-/

namespace Avroc

/-- A build that is cut into steps: it is done, or it takes a step that changes the state and goes
on as the state before the step tells. -/
inductive Process (α : Type) : Type
  | done (result : Except Error α)
  | step (change : World → World) (next : World → Process α)

namespace Process

variable {α : Type}

/-- The steps one after the other, with nothing in between. -/
def run : Process α → Build α
  | done result => fun w => (result, w)
  | step change next => fun w => run (next w) (change w)

/-- A build that is one step. -/
def atom (x : Build α) : Process α :=
  step (fun w => (outcome x w).2) fun w => done (outcome x w).1

/-! ### Running a process -/

theorem outcome_run_done (result : Except Error α) (w : World) :
    outcome (done result).run w = (result, w) :=
  rfl

@[simp] theorem run_atom (x : Build α) : (atom x).run = x :=
  rfl

/-! ### What every step does -/

/-- Every step of the process, in whatever state it is taken, relates the states before and after
it, and every result has the property. -/
def Meets (R : World → World → Prop) (Q : α → Prop) : Process α → Prop
  | done (.ok a) => Q a
  | done (.error _) => True
  | step change next => ∀ w, R w (change w) ∧ (next w).Meets R Q

theorem meets_atom {x : Build α} {R : World → World → Prop} {Q : α → Prop}
    (h : ∀ w, R w (outcome x w).2 ∧ ∀ a, (outcome x w).1 = .ok a → Q a) : (atom x).Meets R Q := by
  intro w
  refine ⟨(h w).1, ?_⟩
  dsimp only
  cases hr : (outcome x w).1 with
  | error e => trivial
  | ok a => exact (h w).2 a hr

end Process

end Avroc
