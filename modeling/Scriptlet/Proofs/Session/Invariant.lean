import Scriptlet.Proofs.Consumers
import Scriptlet.Proofs.Session.Basic

/-! What holds at every point of a session: between runs, between the statements of a program, and
between the parts of a statement. -/

namespace Scriptlet

/-! ## Points of a session -/

/-- The trees that evaluating a tree may evaluate next. -/
def Tree.parts : Tree → List Tree
  | integer _ _ | decimal _ _ | string _ _ | boolean _ _ | identifier _ _ => []
  | binary _ left right _ => [left, right]
  | unary _ operand _ => [operand]
  | assign target value _ => [target, value]
  | command _ operand _ => [operand]
  | control _ condition body _ => condition :: body

/-- The points that a session can come to, from any console: a machine, and trees that are still to
be evaluated on it. Evaluating a tree goes through points at which its parts are evaluated, and may
be cut off at any of them. -/
inductive Visited : Machine → List Tree → Prop where
  | fresh (console : Console) : Visited { console } []
  | parsed {machine after : Machine} {pending program : List Tree} {limit : Nat} {source : String}
      (visited : Visited machine pending)
      (parsed : machine.parse limit source = (.ok program, after)) :
      Visited after (program ++ pending)
  | rejected {machine after : Machine} {pending : List Tree} {limit : Nat} {source : String}
      {error : SourceError} (visited : Visited machine pending)
      (rejected : machine.parse limit source = (.error error, after)) :
      Visited after pending
  | entered {machine : Machine} {pending : List Tree} {tree part : Tree}
      (visited : Visited machine pending) (member : tree ∈ pending) (inside : part ∈ tree.parts) :
      Visited machine (part :: pending)
  | evaluated {machine : Machine} {pending : List Tree} {tree : Tree}
      (visited : Visited machine pending) (member : tree ∈ pending) (fuel : Nat) :
      Visited ((evaluate fuel tree).run machine).2 pending
  | dropped {machine : Machine} {pending left : List Tree} (visited : Visited machine pending)
      (fewer : left ⊆ pending) : Visited machine left

/-! ## Handles -/

def Value.handles : Value → List (StringHandle ⊕ NameHandle)
  | string handle => [.inl handle]
  | identifier handle => [.inr handle]
  | integer _ | decimal _ | boolean _ => []

def Tree.handles : Tree → List (StringHandle ⊕ NameHandle)
  | string handle _ => [.inl handle]
  | identifier handle _ => [.inr handle]
  | integer _ _ | decimal _ _ | boolean _ _ => []
  | binary _ left right _ => left.handles ++ right.handles
  | unary _ operand _ => operand.handles
  | assign target value _ => target.handles ++ value.handles
  | command _ operand _ => operand.handles
  | control _ condition body _ => condition.handles ++ body.flatMap handles

/-- Whether a handle is a place of its table. -/
def Symbols.Holds (symbols : Symbols) : StringHandle ⊕ NameHandle → Prop
  | .inl handle => handle.index < symbols.strings.size
  | .inr handle => handle.index < symbols.names.size

/-- Each text has one place, and is found there. -/
structure Interner.Exact (interner : Interner) : Prop where
  distinct : interner.entries.toList.Nodup
  find?_iff : ∀ text index, interner.find? text = some index ↔ interner.get? index = some text
  get?_inj : ∀ first second, first < interner.size → second < interner.size →
    (first = second ↔ interner.get? first = interner.get? second)

/-! ## The invariant -/

/-- What holds at a point of a session. -/
structure Sound (machine : Machine) (pending : List Tree) : Prop where
  /-- No variable stands for another one. -/
  bound_settled : ∀ name value, machine.environment.get? name = some value →
    value.type ≠ .identifier
  bound_held : ∀ name value, machine.environment.get? name = some value →
    ∀ handle ∈ value.handles, machine.symbols.Holds handle
  pending_held : ∀ tree ∈ pending, ∀ handle ∈ tree.handles, machine.symbols.Holds handle
  strings : machine.symbols.strings.Exact
  names : machine.symbols.names.Exact
  /-- Evaluation enters no names, and strings only at the end of their table. -/
  evaluate_names : ∀ tree ∈ pending, ∀ fuel,
    ((evaluate fuel tree).run machine).2.symbols.names = machine.symbols.names
  evaluate_strings : ∀ tree ∈ pending, ∀ fuel,
    machine.symbols.strings.entries.toList <+:
      ((evaluate fuel tree).run machine).2.symbols.strings.entries.toList
  /-- Exactly a variable evaluates to one that has not been looked up. -/
  evaluate_identifier : ∀ tree ∈ pending, ∀ fuel,
    (∃ handle, ((evaluate fuel tree).run machine).1 = .ok (some (.identifier handle))) ↔
      ∃ handle position, tree = .identifier handle position
  operand_settled : ∀ tree ∈ pending, ∀ fuel value,
    ((evaluateToOperand fuel tree).run machine).1 = .ok value → value.type ≠ .identifier
  /-- Operators, conditions and what is written never get a variable that has not been looked up:
  they may stop at one, or do anything else with it, and evaluation stays the same. -/
  consumers_settled : ∀ tree ∈ pending, ∀ fuel, ∀ consumers : Consumers, consumers.Faithful →
    (evaluateWith consumers fuel tree).run machine = (evaluate fuel tree).run machine

/-! ## What is like itself -/

theorem Interner.lt_size_of_get? {interner : Interner} {index : Nat} {text : String}
    (found : interner.get? index = some text) : index < interner.size :=
  (Array.getElem?_eq_some_iff.mp found).1

theorem Interner.Coherent.exact {interner : Interner} (coherent : interner.Coherent) :
    interner.Exact := by
  -- Two places of one text are both where it is looked up, and so the same.
  have one {first second : Nat} (inside : first < interner.size)
      (same : interner.get? first = interner.get? second) : first = second := by
    have here : interner.get? first = some interner.entries[first] :=
      Array.getElem?_eq_getElem inside
    have place := (coherent _ first).mpr here
    have again := (coherent _ second).mpr (same ▸ here)
    exact Option.some.inj (place.symm.trans again)
  refine ⟨?_, coherent, fun first second inside _ => ⟨congrArg interner.get?, one inside⟩⟩
  rw [List.nodup_iff_getElem?_ne_getElem?]
  intro first second before inside same
  rw [Array.getElem?_toList, Array.getElem?_toList] at same
  exact before.ne (one (before.trans inside) same)

section

variable {symbols : Symbols}

theorem SameString.holds {handle : StringHandle} (same : SameString symbols symbols handle handle) :
    symbols.Holds (.inl handle) := by
  rcases same with ⟨text, found, _⟩
  exact Interner.lt_size_of_get? found

theorem SameName.holds {handle : NameHandle} (same : SameName symbols symbols handle handle) :
    symbols.Holds (.inr handle) := by
  rcases same with ⟨name, found, _⟩
  exact Interner.lt_size_of_get? found

theorem Value.Alike.holds {value : Value} (alike : Value.Alike symbols symbols value value) :
    ∀ handle ∈ value.handles, symbols.Holds handle := by
  intro handle member
  cases alike with
  | integer | decimal | boolean => cases member
  | string same =>
      rw [List.mem_singleton.mp member]
      exact same.holds
  | identifier same =>
      rw [List.mem_singleton.mp member]
      exact same.holds

theorem Tree.Alike.parts {tree : Tree} (alike : Tree.Alike id symbols symbols tree tree) :
    ∀ part ∈ tree.parts, Tree.Alike id symbols symbols part part := by
  cases alike with
  | integer | decimal | string | boolean | identifier => exact fun _ none => nomatch none
  | binary _ _ leftAlike rightAlike =>
      exact List.forall_mem_cons.mpr ⟨leftAlike, List.forall_mem_singleton.mpr rightAlike⟩
  | unary _ _ alike => exact List.forall_mem_singleton.mpr alike
  | assign _ targetAlike valueAlike =>
      exact List.forall_mem_cons.mpr ⟨targetAlike, List.forall_mem_singleton.mpr valueAlike⟩
  | command _ _ alike => exact List.forall_mem_singleton.mpr alike
  | control _ _ conditionAlike bodyAlike =>
      exact List.forall_mem_cons.mpr ⟨conditionAlike, List.forall₂_same.mp bodyAlike⟩

theorem Tree.Alike.holds {tree : Tree} (alike : Tree.Alike id symbols symbols tree tree) :
    ∀ handle ∈ tree.handles, symbols.Holds handle := by
  intro handle member
  induction tree using Tree.induction with
  | integer | decimal | boolean =>
      rw [handles] at member
      cases member
  | string _ position =>
      cases alike with
      | string same =>
          rw [handles, List.mem_singleton] at member
          exact member ▸ same.holds
  | identifier _ position =>
      cases alike with
      | identifier same =>
          rw [handles, List.mem_singleton] at member
          exact member ▸ same.holds
  | binary _ _ _ _ leftInduction rightInduction =>
      cases alike with
      | binary _ _ leftAlike rightAlike =>
          rw [handles, List.mem_append] at member
          exact member.elim (leftInduction leftAlike) (rightInduction rightAlike)
  | unary _ _ _ induction =>
      cases alike with
      | unary _ _ alike =>
          rw [handles] at member
          exact induction alike member
  | assign _ _ _ targetInduction valueInduction =>
      cases alike with
      | assign _ targetAlike valueAlike =>
          rw [handles, List.mem_append] at member
          exact member.elim (targetInduction targetAlike) (valueInduction valueAlike)
  | command _ _ _ induction =>
      cases alike with
      | command _ _ alike =>
          rw [handles] at member
          exact induction alike member
  | control _ _ _ _ conditionInduction bodyInduction =>
      cases alike with
      | control _ _ conditionAlike bodyAlike =>
          rw [handles, List.mem_append, List.mem_flatMap] at member
          rcases member with member | ⟨statement, inside, member⟩
          · exact conditionInduction conditionAlike member
          · exact bodyInduction statement inside (List.forall₂_same.mp bodyAlike statement inside)
              member

end

/-- What one step preserves: every handle is in its table. -/
structure Kept (machine : Machine) (pending : List Tree) : Prop where
  alike : machine.Alike machine
  trees : ∀ tree ∈ pending, Tree.Alike id machine.symbols machine.symbols tree tree

theorem Kept.grow {machine after : Machine} {pending : List Tree} (kept : Kept machine pending)
    (grown : machine.symbols.Grows after.symbols) (alike : after.Alike after) :
    Kept after pending where
  alike := alike
  trees := fun tree member => (kept.trees tree member).mono grown.extends grown.extends

theorem Kept.evaluate {machine : Machine} {pending : List Tree} (kept : Kept machine pending)
    {tree : Tree} (member : tree ∈ pending) (fuel : Nat) :
    machine.Advances ((evaluate fuel tree).run machine).2 ∧
      ((evaluate fuel tree).run machine).2.Alike ((evaluate fuel tree).run machine).2 ∧
      ∀ value, ((evaluate fuel tree).run machine).1 = .ok (some value) →
        (value.type = .identifier ↔ tree.isName) := by
  have ended := agree_evaluate fuel (kept.trees tree member) machine machine (.refl machine)
    (.refl machine) kept.alike
  refine ⟨ended.self.1, ended.self.2.1, ?_⟩
  intro value isOk
  cases ended.self.2.2 _ isOk with
  | some given => exact given.isName_iff

/-- Parsing keeps what holds, and what it gives can be evaluated. -/
theorem Kept.parse {machine : Machine} {pending : List Tree} (kept : Kept machine pending)
    {limit : Nat} {source : String} {after : Machine} {parsed : Except SourceError (List Tree)}
    (run : machine.parse limit source = (parsed, after)) :
    Kept after pending ∧ ∀ program, parsed = .ok program → Kept after (program ++ pending) := by
  rcases found : (programOfSource limit source).runFrom machine.symbols with ⟨result, symbols⟩
  rcases programOfSource_sound found with ⟨grown, sound⟩
  rw [Parse.runFrom] at found
  rw [Machine.parse, found] at run
  cases run
  have keptAfter := kept.grow grown (kept.alike.grow grown.extends grown.extends)
  refine ⟨keptAfter, ?_⟩
  intro program isOk
  refine { keptAfter with trees := ?_ }
  intro tree member
  rcases List.mem_append.mp member with member | member
  · exact List.forall₂_same.mp (sound program isOk) tree member
  · exact keptAfter.trees tree member

theorem Visited.kept {machine : Machine} {pending : List Tree} (visited : Visited machine pending) :
    Kept machine pending := by
  induction visited with
  | fresh console => exact ⟨⟨fun _ => .none, rfl⟩, fun _ none => nomatch none⟩
  | parsed _ parsed induction => exact (induction.parse parsed).2 _ rfl
  | rejected _ rejected induction => exact (induction.parse rejected).1
  | entered _ member inside induction =>
      refine { induction with trees := ?_ }
      intro tree found
      rcases List.mem_cons.mp found with rfl | found
      · -- A part of a pending tree has no handles of its own.
        exact (induction.trees _ member).parts _ inside
      · exact induction.trees tree found
  | evaluated _ member fuel induction =>
      rcases induction.evaluate member fuel with ⟨advances, alike, _⟩
      exact induction.grow advances.grows alike
  | dropped _ fewer induction =>
      exact { induction with trees := fun tree found => induction.trees tree (fewer found) }

theorem Machine.Alike.given {machine : Machine} (alike : machine.Alike machine) {name : String}
    {value : Value} (bound : machine.environment.get? name = some value) :
    Value.Given false machine machine value value := by
  have found := alike.bindings name
  rw [bound] at found
  cases found with
  | some given => exact given

theorem Tree.isName_iff (tree : Tree) :
    tree.isName ↔ ∃ handle position, tree = .identifier handle position := by
  cases tree <;> simp [isName]

theorem Kept.evaluate_identifier {machine : Machine} {pending : List Tree}
    (kept : Kept machine pending) {tree : Tree} (member : tree ∈ pending) {fuel : Nat} :
    (∃ handle, ((Scriptlet.evaluate fuel tree).run machine).1 = .ok (some (.identifier handle))) ↔
      ∃ handle position, tree = .identifier handle position := by
  constructor
  · rintro ⟨handle, yields⟩
    exact tree.isName_iff.mp (((kept.evaluate member fuel).2.2 _ yields).mp rfl)
  · rintro ⟨handle, position, rfl⟩
    rw [Scriptlet.evaluate]
    exact ⟨handle, rfl⟩

theorem Kept.operand {machine : Machine} {pending : List Tree} (kept : Kept machine pending)
    {tree : Tree} (member : tree ∈ pending) {fuel : Nat} {value : Value}
    (yields : ((evaluateToOperand fuel tree).run machine).1 = .ok value) :
    value.type ≠ .identifier := by
  have agree := Evaluate.agree_operand (agree_evaluate fuel (kept.trees tree member)) tree.position
  have ended := agree machine machine (.refl machine) (.refl machine) kept.alike
  have given := ended.self.2.2 value yields
  simpa using given.isName_iff

theorem Kept.settled {machine : Machine} {pending : List Tree} (kept : Kept machine pending) :
    machine.Settled :=
  fun _ _ bound => by simpa using (kept.alike.given bound).isName_iff

theorem Kept.sound {machine : Machine} {pending : List Tree} (kept : Kept machine pending) :
    Sound machine pending where
  bound_settled := kept.settled
  bound_held := fun _ _ bound => (kept.alike.given bound).alike.holds
  pending_held := fun _ member => (kept.trees _ member).holds
  strings := machine.symbols.strings.coherent.exact
  names := machine.symbols.names.coherent.exact
  evaluate_names := fun _ member fuel => (kept.evaluate member fuel).1.names
  evaluate_strings := fun _ member fuel => (kept.evaluate member fuel).1.strings.extends.isPrefix
  evaluate_identifier := fun _ member _ => kept.evaluate_identifier member
  operand_settled := fun _ member _ _ yields => kept.operand member yields
  consumers_settled := fun tree _ fuel _ faithful =>
    faithful.run_evaluateWith kept.settled fuel tree

/-! ## Runs go through points of a session -/

section

variable {machine : Machine} {pending : List Tree}

theorem Visited.performAll {steps : List (Evaluate Unit)} (visited : Visited machine pending)
    (each : ∀ step ∈ steps, ∀ machine, Visited machine pending →
      Visited (step.run machine).2 pending) :
    Visited (performAll steps machine).2 pending := by
  induction steps generalizing machine with
  | nil => exact visited
  | cons step later induction =>
      have after := each step List.mem_cons_self machine visited
      have rest := induction after fun step member => each step (List.mem_cons_of_mem _ member)
      rcases ran : step.run machine with ⟨(_ | _) | _, final⟩
      all_goals rw [ran] at after rest
      · rw [performAll_of_error later ran]
        exact rest
      · rw [performAll_of_outOfFuel later ran]
        exact after
      · rw [performAll_of_ok later ran]
        exact rest

/-- Between any two statements of a program that runs, its statements are pending. -/
theorem Visited.actions {program : List Tree} (visited : Visited machine pending)
    (inside : program ⊆ pending) (fuel count : Nat) :
    Visited (Scriptlet.performAll ((actions fuel program).take count) machine).2 pending := by
  apply visited.performAll
  intro step member machine visited
  rcases List.mem_append.mp (List.mem_of_mem_take member) with member | member
  · rcases List.mem_map.mp member with ⟨statement, found, rfl⟩
    have after := visited.evaluated (inside found) fuel
    rw [Comparison.run_bind]
    rcases ran : (evaluate fuel statement).run machine with ⟨_ | _, final⟩
    all_goals rw [ran] at after; exact after
  · rw [List.mem_singleton.mp member, Evaluate.run_flush]
    exact visited

end

theorem Visited.program {machine after : Machine} {limit : Nat} {source : String}
    {program : List Tree} (visited : Visited machine [])
    (parsed : machine.parse limit source = (.ok program, after)) : Visited after program := by
  rw [← program.append_nil]
  exact visited.parsed parsed

theorem Machine.Reachable.visited {machine : Machine} (reachable : machine.Reachable) :
    Visited machine [] := by
  induction reachable with
  | fresh console => exact .fresh console
  | @run machine _ fuel limit source induction =>
      rcases parsed : machine.parse limit source with ⟨error | program, after⟩
      · rw [Machine.run, parsed]
        exact induction.rejected parsed
      · rw [Machine.run, parsed]
        have finished := (induction.program parsed).actions (List.Subset.refl program) fuel
          (actions fuel program).length
        rw [List.take_length] at finished
        exact finished.dropped (List.nil_subset program)

/-- Every point that running sources can come to is a point of a session, and at every such point
the invariant holds. Evaluation over any consumers, of which it speaks, is evaluation itself over
those of the language. -/
theorem visited_sound :
    (∀ machine : Machine, machine.Reachable → Visited machine [] ∧
      ∀ limit source program after, machine.parse limit source = (.ok program, after) →
        ∀ fuel count, Visited (performAll ((actions fuel program).take count) after).2 program) ∧
    (∀ machine pending, Visited machine pending → Sound machine pending) ∧
    ∀ fuel tree, evaluateWith .standard fuel tree = evaluate fuel tree := by
  refine ⟨?_, fun machine pending visited => visited.kept.sound, evaluateWith_standard⟩
  intro machine reachable
  refine ⟨reachable.visited, ?_⟩
  intro limit source program after parsed fuel count
  exact (reachable.visited.program parsed).actions (List.Subset.refl program) fuel count

/-- Between the two statements `x` is bound, and the second one prints its value even if printing
stops at a name. -/
theorem visited_sound_joined :
    ∃ machine program, Visited machine program ∧ program.length = 2 ∧
      machine.symbols.strings.entries = #["a", "b", "ab"] ∧
      (machine.contents "x").isSome ∧ Sound machine program ∧
      ∀ statement ∈ program, ∀ stop,
        (evaluateWith (.wary stop) 1 statement).run machine =
          (evaluate 1 statement).run machine := by
  have parsed : Machine.parse 8 "x := \"a\" + \"b\"\nprint x" {} =
      (.ok [.assign (.identifier ⟨0⟩ ⟨1, 0⟩)
          (.binary .add (.string ⟨0⟩ ⟨1, 5⟩) (.string ⟨1⟩ ⟨1, 11⟩) ⟨1, 9⟩) ⟨1, 2⟩,
        .command .print (.identifier ⟨0⟩ ⟨2, 6⟩) ⟨2, 0⟩],
        { symbols := { strings := .ofTexts ["a", "b"], names := .ofTexts ["x"] } }) := by cbv
  have visited := (visited_sound.1 _ (.fresh {})).2 _ _ _ _ parsed 1 1
  have sound := visited_sound.2.1 _ _ visited
  refine ⟨_, _, visited, rfl, by cbv, by cbv, sound, ?_⟩
  exact fun statement member stop =>
    sound.consumers_settled statement member 1 _ (Consumers.faithful_wary stop)

end Scriptlet
