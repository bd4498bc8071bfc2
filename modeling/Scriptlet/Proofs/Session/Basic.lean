import Scriptlet.Proofs.Likeness.Running

/-! Sessions as they look from outside. Of a machine one sees its console and what its variables
stand for, but never a handle. A source that is rejected leaves only handles behind, so the rest of
the session does not notice it. -/

namespace Scriptlet

/-! ## What is seen of a machine -/

/-- What a value stands for, without the tables that it was kept in. -/
inductive Content where
  | integer (value : Integer)
  | decimal (value : Decimal)
  | string (text : String)
  | boolean (value : Bool)
  | identifier (name : String)

def Value.content (symbols : Symbols) : Value → Content
  | integer value => .integer value
  | decimal value => .decimal value
  | string handle => .string (symbols.stringAt handle)
  | boolean value => .boolean value
  | identifier handle => .identifier (symbols.nameAt handle)

/-- The variables of a machine: which names are bound, and what each of them stands for. -/
def Machine.contents (machine : Machine) (name : String) : Option Content :=
  (machine.environment.get? name).map (Value.content machine.symbols)

theorem Value.Alike.content {left right : Symbols} {first second : Value}
    (alike : Value.Alike left right first second) : first.content left = second.content right := by
  cases alike with
  | integer | decimal | boolean => rfl
  | string same => exact congrArg Content.string same.stringAt
  | identifier same => exact congrArg Content.identifier same.nameAt

/-- Like machines look the same. -/
theorem Machine.Alike.contents {first second : Machine} (alike : first.Alike second) :
    first.contents = second.contents := by
  funext name
  have bound := alike.bindings name
  rw [Machine.contents, Machine.contents]
  generalize first.environment.get? name = found at bound ⊢
  generalize second.environment.get? name = foundToo at bound ⊢
  cases bound with
  | none => rfl
  | some given => exact congrArg some given.alike.content

/-! ## Reachable machines -/

/-- The machines that running sources can lead to, from any console. A run may be cut off at any
point, and each may have a limit of its own. -/
inductive Machine.Reachable : Machine → Prop where
  | fresh (console : Console) : Reachable { console }
  | run {machine : Machine} (reachable : Reachable machine) (fuel limit : Nat) (source : String) :
      Reachable (machine.run fuel limit source).2

/-- In a reachable machine every handle is in its table, and no variable stands for another one. -/
theorem Machine.Reachable.alike {machine : Machine} (reachable : machine.Reachable) :
    machine.Alike machine := by
  induction reachable with
  | fresh console => exact ⟨fun _ => .none, rfl⟩
  | run _ fuel limit source induction => exact (induction.run fuel limit source).2.1

/-! ## Rejected sources -/

/-- Runs sources one after the other, whatever becomes of each. -/
def Machine.runAll (fuel limit : Nat) : List String → Machine → List RunResult × Machine
  | [], machine => ([], machine)
  | source :: later, machine =>
      let (result, after) := machine.run fuel limit source
      let (results, final) := runAll fuel limit later after
      (result :: results, final)

theorem Machine.Alike.runAll {first second : Machine} (alike : first.Alike second)
    (fuel limit : Nat) (sources : List String) :
    (second.runAll fuel limit sources).1 = (first.runAll fuel limit sources).1 ∧
      (first.runAll fuel limit sources).2.Alike (second.runAll fuel limit sources).2 := by
  induction sources generalizing first second with
  | nil => exact ⟨rfl, alike⟩
  | cons source later induction =>
      rcases alike.run fuel limit source with ⟨same, after, _⟩
      rcases induction after with ⟨laterSame, final⟩
      exact ⟨congrArg₂ List.cons same laterSame, final⟩

theorem performAll_ne_rejected (steps : List (Evaluate Unit)) (machine : Machine)
    (error : SourceError) : (performAll steps machine).1 ≠ .rejected error := by
  induction steps generalizing machine with
  | nil => exact RunResult.noConfusion
  | cons step later induction =>
      rcases ran : step.run machine with ⟨(_ | failure) | _, after⟩
      · rw [performAll_of_error later ran]
        have rest := induction after
        generalize (performAll later after).1 = result at rest ⊢
        cases result with
        | rejected other => exact rest
        | completed | outOfFuel => exact RunResult.noConfusion
      · rw [performAll_of_outOfFuel later ran]
        exact RunResult.noConfusion
      · rw [performAll_of_ok later ran]
        exact induction after

/-- Rejecting a source changes nothing but the tables, which only gain entries. -/
theorem Machine.run_rejected {machine after : Machine} {fuel limit : Nat} {source : String}
    {error : SourceError} (rejected : machine.run fuel limit source = (.rejected error, after)) :
    machine.symbols.Grows after.symbols ∧ after = { machine with symbols := after.symbols } := by
  rcases parsed : (programOfSource limit source).runFrom machine.symbols with ⟨_ | program, symbols⟩
  · rw [run_of_error parsed] at rejected
    cases rejected
    exact ⟨(programOfSource_sound parsed).1, rfl⟩
  · rw [run_of_ok parsed] at rejected
    exact absurd (congrArg Prod.fst rejected) (performAll_ne_rejected _ _ error)

/-- The rest of a session goes on as if a rejected source had not been there: it has the same
results, reads and writes the same, and binds the same names to the same contents. -/
theorem Machine.runAll_after_rejected {machine after : Machine} (reachable : machine.Reachable)
    {fuel limit : Nat} {source : String} {error : SourceError}
    (rejected : machine.run fuel limit source = (.rejected error, after)) :
    after.environment = machine.environment ∧ after.console = machine.console ∧
      machine.symbols.strings.entries.toList <+: after.symbols.strings.entries.toList ∧
      machine.symbols.names.entries.toList <+: after.symbols.names.entries.toList ∧
      ∀ laterFuel laterLimit sources,
        (after.runAll laterFuel laterLimit sources).1 =
          (machine.runAll laterFuel laterLimit sources).1 ∧
        (after.runAll laterFuel laterLimit sources).2.console =
          (machine.runAll laterFuel laterLimit sources).2.console ∧
        (after.runAll laterFuel laterLimit sources).2.contents =
          (machine.runAll laterFuel laterLimit sources).2.contents := by
  rcases run_rejected rejected with ⟨grown, unchanged⟩
  have alike : machine.Alike after := by
    rw [unchanged]
    exact reachable.alike.grow (.refl machine.symbols) grown.extends
  rw [unchanged]
  refine ⟨rfl, rfl, grown.strings.extends.isPrefix, grown.names.extends.isPrefix, ?_⟩
  rw [← unchanged]
  intro laterFuel laterLimit sources
  rcases alike.runAll laterFuel laterLimit sources with ⟨same, final⟩
  exact ⟨same, final.console.symm, final.contents.symm⟩

theorem Machine.runAll_after_missing_operand :
    ∃ machine after : Machine, machine.Reachable ∧
      machine.run 1 8 "x + \"b\" *" = (.rejected ⟨.missingOperand "+", ⟨1, 2⟩⟩, after) ∧
      (machine.symbols.strings.entries, after.symbols.strings.entries) = (#["a"], #["a", "b"]) ∧
      (after.runAll 2 8 ["y := \"c\" + x"]).1 = (machine.runAll 2 8 ["y := \"c\" + x"]).1 ∧
      (after.runAll 2 8 ["y := \"c\" + x"]).2.contents =
        (machine.runAll 2 8 ["y := \"c\" + x"]).2.contents := by
  have reachable : Reachable (Machine.run 1 8 "x := \"a\"" {}).2 := .run (.fresh {}) 1 8 _
  have rejected : (Machine.run 1 8 "x := \"a\"" {}).2.run 1 8 "x + \"b\" *" =
      (.rejected ⟨.missingOperand "+", ⟨1, 2⟩⟩,
        ((Machine.run 1 8 "x := \"a\"" {}).2.run 1 8 "x + \"b\" *").2) :=
    Prod.ext (by cbv) rfl
  rcases runAll_after_rejected reachable rejected with ⟨_, _, _, _, later⟩
  have rest := later 2 8 ["y := \"c\" + x"]
  exact ⟨_, _, reachable, rejected, by cbv, rest.1, rest.2.2⟩

end Scriptlet
