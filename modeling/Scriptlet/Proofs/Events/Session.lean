import Scriptlet.Proofs.Events.Basic

/-! Sessions and all that is seen of them. What holds of a fresh machine and is kept by parsing and
by every single action holds throughout a session. -/

namespace Scriptlet

/-- What is seen of a program: of its statements in order, whether they fail or not. One that is out
of fuel is the last. -/
def seenOfProgram (fuel : Nat) : List Tree → Sight
  | [], _ => []
  | statement :: later, machine =>
    seen fuel statement machine ++
      match (evaluate fuel statement).run machine with
      | (.error .outOfFuel, _) => []
      | (_, after) => seenOfProgram fuel later after

/-- What is seen of running a source. -/
def Machine.seenOf (fuel limit : Nat) (source : String) (machine : Machine) : List Event :=
  match machine.parse limit source with
  | (.ok program, after) => seenOfProgram fuel program after
  | (.error _, _) => []

/-- The machines that running sources can lead to from a console, with all that has been seen until
then. A run may be cut off at any point, and each may have a limit of its own. -/
inductive Session (console : Console) : Machine → List Event → Prop where
  | fresh : Session console { console } []
  | run {machine : Machine} {events : List Event} (session : Session console machine events)
      (fuel limit : Nat) (source : String) :
      Session console (machine.run fuel limit source).2
        (events ++ machine.seenOf fuel limit source)

/-- A program is made of single actions, and what is seen of them is what is seen of it. -/
theorem steps_actions (fuel : Nat) (program : List Tree) (machine : Machine) :
    machine.Steps (seenOfProgram fuel program machine)
      (performAll (actions fuel program) machine).2 := by
  induction program generalizing machine with
  | nil =>
      change machine.Steps [] (performAll [Evaluate.flush] machine).2
      have flushed := Evaluate.run_flush machine
      cases fails : machine.console.flushFails with
      | false =>
          rw [fails] at flushed
          rw [performAll_of_ok [] flushed]
          exact .refl machine
      | true =>
          rw [fails] at flushed
          rw [performAll_of_error [] flushed]
          exact .refl machine
  | cons statement later induction =>
      change machine.Steps _ (performAll
        ((evaluate fuel statement >>= fun _ => pure ()) :: actions fuel later) machine).2
      have first := accounts_evaluate fuel statement machine
      have step := Comparison.run_bind (evaluate fuel statement)
        (fun _ => (pure () : Evaluate Unit)) machine
      rw [seenOfProgram]
      rcases ran : (evaluate fuel statement).run machine with ⟨(error | _) | yielded, after⟩
      all_goals rw [ran] at first step
      · rw [performAll_of_error _ step]
        exact first.trans (induction after)
      · rw [performAll_of_outOfFuel _ step, List.append_nil]
        exact first
      · rw [performAll_of_ok _ step]
        exact first.trans (induction after)

/-- A run is a parse and then single actions. -/
theorem Machine.steps_run (fuel limit : Nat) (source : String) (machine : Machine) :
    (machine.parse limit source).2.Steps (machine.seenOf fuel limit source)
      (machine.run fuel limit source).2 := by
  rw [seenOf, Machine.run]
  rcases machine.parse limit source with ⟨_ | program, after⟩
  · exact .refl after
  · exact steps_actions fuel program after

theorem Session.invariant {console : Console} {holds : Machine → List Event → Prop}
    (fresh : holds { console } [])
    (parsed : ∀ machine past limit source, holds machine past →
      holds (machine.parse limit source).2 past)
    (each : ∀ here there past seen, here.Step seen there → holds here past →
      holds there (past ++ seen))
    {machine : Machine} {events : List Event} (session : Session console machine events) :
    holds machine events := by
  induction session with
  | fresh => exact fresh
  | @run machine events _ fuel limit source induction =>
      exact (machine.steps_run fuel limit source).invariant each
        (parsed machine events limit source induction)

end Scriptlet
