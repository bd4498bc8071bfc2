import Scriptlet.Proofs.Encoding
import Scriptlet.Proofs.Events.Session

/-! What is received is the input stream, line by line. -/

namespace Scriptlet

/-! ## Lines without their endings -/

/-- A carriage return at the end of a line is taken for a part of its ending, even if no line feed
follows it. -/
theorem Console.trimEnding_eq (line : List Char) :
    trimEnding line =
      if line.getLast? = some '\r' then (dropLineEnding line).dropLast
      else dropLineEnding line := by
  rw [trimEnding, dropLineEnding, List.getLast?_eq_head?_reverse]
  have whole := line.reverse_reverse
  generalize line.reverse = reversed at whole ⊢
  subst whole
  cases reversed with
  | nil => rfl
  | cons last before =>
      by_cases feed : last = '\n'
      · subst feed
        rw [if_neg (by simp)]
        split <;> simp_all
      · by_cases carriageReturn : last = '\r'
        · subst carriageReturn
          simp
        · simp [feed, carriageReturn]

/-- What the reading of a line comes to, once so many have been read. At the end of the input it is
nothing. -/
def readingAt (lines : List (List Char)) (index : Nat) : String :=
  String.ofList (Console.trimEnding (lines.getD index []))

/-- What is read of a text is its lines without their endings, except that a carriage return at its
very end is lost. -/
theorem readingAt_splitAfter (stream : String) (index : Nat) :
    readingAt (splitAfter (· == '\n') stream.toList) index =
      String.ofList
        (if index + 1 = (linesOf stream).length ∧ stream.toList.getLast? = some '\r' then
          ((linesOf stream).getD index []).dropLast
        else (linesOf stream).getD index []) := by
  rw [readingAt, linesOf, List.length_map]
  congr 1
  rw [List.getD_eq_getElem?_getD, List.getD_eq_getElem?_getD, List.getElem?_map]
  cases found : (splitAfter (· == '\n') stream.toList)[index]? with
  | none => simp [Console.trimEnding]
  | some line =>
      have ends := getLast?_piece found
      rw [Option.map_some, Option.getD_some, Option.getD_some, Console.trimEnding_eq]
      by_cases last : index + 1 = (splitAfter (· == '\n') stream.toList).length
      · simp only [ends.1 last, last, true_and]
      · rcases ends.2 last with ⟨closing, same, feed⟩
        cases beq_iff_eq.mp feed
        rw [if_neg (by simp [same]), if_neg (by simp [last])]

/-! ## Lines that wait -/

/-- A console before which the lines of a text wait. -/
def Console.Awaits (console : Console) (lines : List (List Char)) : Prop :=
  console.waiting = lines.map fun line => some (String.ofList line)

theorem Console.waiting_of_putLine {console after : Console} {text : String}
    {outcome : Except Failure Unit} (wrote : console.putLine text = (outcome, after)) :
    after.waiting = console.waiting := by
  rw [putLine, write] at wrote
  split at wrote
  · cases wrote
    rfl
  · split at wrote
    all_goals
      cases wrote
      rfl

/-- What the taking of a line comes to: at the end of the input, before a text, and before bytes
that are none. -/
theorem Console.takeLine_cases {console after : Console} {outcome : Except Failure String}
    (took : console.takeLine = (outcome, after)) :
    (console.waiting = [] ∧ outcome = .ok "" ∧ after = console) ∨
      (∃ text later, console.waiting = some text :: later ∧
        outcome = .ok (String.ofList (trimEnding text.toList)) ∧
        after = { console with waiting := later }) ∨
      ∃ later, console.waiting = none :: later ∧ outcome = .error .notText ∧
        after = { console with waiting := later } := by
  rw [takeLine] at took
  split at took
  · rename_i finished
    cases took
    exact .inl ⟨finished, rfl, rfl⟩
  · rename_i line later waits
    cases line with
    | some text =>
        cases took
        exact .inr (.inl ⟨text, later, waits, rfl, rfl⟩)
    | none =>
        cases took
        exact .inr (.inr ⟨later, waits, rfl, rfl⟩)

/-- Only what waits changes, and no line is put back or made up. -/
theorem Console.takeLine_frame {console after : Console} {outcome : Except Failure String}
    (took : console.takeLine = (outcome, after)) :
    after = { console with waiting := after.waiting } ∧ after.waiting <:+ console.waiting := by
  rcases takeLine_cases took with ⟨_, _, rfl⟩ | ⟨_, _, waits, _, rfl⟩ | ⟨_, waits, _, rfl⟩
  · exact ⟨rfl, List.suffix_rfl⟩
  all_goals
    rw [waits]
    exact ⟨rfl, List.suffix_cons _ _⟩

/-- Where lines of a text wait, the first of them is taken. -/
theorem Console.Awaits.takeLine {console : Console} {lines : List (List Char)}
    (awaits : console.Awaits lines) :
    ∃ after, console.takeLine = (.ok (readingAt lines 0), after) ∧ after.Awaits (lines.drop 1) := by
  rw [Awaits] at awaits
  rw [Console.takeLine, awaits]
  cases lines with
  | nil => exact ⟨console, rfl, awaits⟩
  | cons line later =>
      refine ⟨{ console with waiting := later.map fun line => some (String.ofList line) }, ?_, rfl⟩
      simp [readingAt, String.toList_ofList]

theorem Machine.Step.waiting {machine after : Machine} {events : List Event}
    (step : machine.Step events after) :
    after.console.waiting <:+ machine.console.waiting := by
  cases step with
  | bound | joined => exact List.suffix_rfl
  | shown wrote | cut wrote =>
      exact Console.waiting_of_putLine wrote ▸ List.suffix_rfl
  | received took | spoiled took => exact (Console.takeLine_frame took).2

theorem Machine.Steps.waiting {machine after : Machine} {events : List Event}
    (steps : machine.Steps events after) :
    after.console.waiting <:+ machine.console.waiting := by
  induction steps with
  | refl => exact List.suffix_rfl
  | cons step _ induction => exact induction.trans step.waiting

/-! ## Lines that are received -/

/-- What has been received is the beginning of the lines, and the others still wait. -/
structure Receives (lines : List (List Char)) (machine : Machine) (events : List Event) : Prop where
  awaits : machine.console.Awaits (lines.drop (receivedBy events).length)
  received : receivedBy events =
    (List.range (receivedBy events).length).map (readingAt lines)

/-- One action keeps what has been received and what waits in step. -/
theorem Receives.step {lines : List (List Char)} {here there : Machine} {past seen : List Event}
    (step : here.Step seen there) (receives : Receives lines here past) :
    Receives lines there (past ++ seen) := by
  have still (none : receivedBy seen = []) (same : there.console.waiting = here.console.waiting) :
      Receives lines there (past ++ seen) := by
    have all : receivedBy (past ++ seen) = receivedBy past := by
      rw [receivedBy_append, none, List.append_nil]
    constructor
    · rw [all, Console.Awaits, same]
      exact receives.awaits
    · rw [all]
      exact receives.received
  rcases receives.awaits.takeLine with ⟨console, next, awaits⟩
  cases step with
  | bound | joined => exact still rfl rfl
  | shown wrote | cut wrote =>
      exact still rfl (Console.waiting_of_putLine wrote)
  | received took =>
      rw [took] at next
      cases next
      have more :
          receivedBy (past ++ [.received (readingAt (lines.drop (receivedBy past).length) 0)]) =
            receivedBy past ++ [readingAt lines (receivedBy past).length] := by
        rw [receivedBy_append]
        simp [receivedBy, readingAt]
      constructor
      · rw [more, List.length_append, List.length_singleton, ← List.drop_drop]
        exact awaits
      · rw [more, List.length_append, List.length_singleton, List.range_succ, List.map_append,
          ← receives.received, List.map_singleton]
  | spoiled took =>
      rw [took] at next
      cases next

/-! ## Prompts that fail -/

/-- What comes after a step fails, or the step itself does. -/
theorem Evaluate.run_bind_error {step : Evaluate α} {next : α → Evaluate β}
    {machine after : Machine} {stop : Stop}
    (fails : (step >>= next).run machine = (.error stop, after)) :
    step.run machine = (.error stop, after) ∨
      ∃ value middle, step.run machine = (.ok value, middle) ∧
        (next value).run middle = (.error stop, after) := by
  rw [Comparison.run_bind] at fails
  rcases ran : step.run machine with ⟨_ | value, middle⟩
  all_goals rw [ran] at fails
  · cases fails
    exact .inl rfl
  · exact .inr ⟨value, middle, rfl, fails⟩

theorem Evaluate.waiting_printLine (value : Value) (machine : Machine) :
    ((printLine value).run machine).2.console.waiting = machine.console.waiting := by
  rw [run_printLine, run_onConsole]
  split <;> exact Console.waiting_of_putLine ‹_›

/-- Only a line that is no text fails to be taken. -/
theorem Console.none_mem_waiting {console after : Console} {failure : Failure}
    (fails : console.takeLine = (.error failure, after)) : none ∈ console.waiting := by
  rcases takeLine_cases fails with ⟨_, read, _⟩ | ⟨_, _, _, read, _⟩ | ⟨_, waits, _⟩
  · cases read
  · cases read
  · exact waits ▸ List.mem_cons_self

/-- Where lines of a text wait, an `input` that fails has taken none, beyond what the evaluation of
its prompt took. -/
theorem waiting_of_input_error {fuel : Nat} {prompt : Tree} {position : Position}
    {here after : Machine} {stop : Stop} (texts : none ∉ here.console.waiting)
    (fails : (evaluate fuel (.command .input prompt position)).run here = (.error stop, after)) :
    after.console.waiting = ((evaluateToOperand fuel prompt).run here).2.console.waiting := by
  have asked := ((accounts_evaluate fuel prompt).operand prompt.position here).waiting
  rw [evaluate] at fails
  rw [evaluateToOperand]
  rcases Evaluate.run_bind_error fails with unasked | ⟨value, middle, evaluated, fails⟩
  · rw [unasked]
  rw [evaluated] at asked ⊢
  have shown := Evaluate.waiting_printLine value middle
  rcases Evaluate.run_bind_error fails with unwritten | ⟨_, written, writes, fails⟩
  · rw [unwritten] at shown
    exact shown
  rw [writes] at shown
  rcases Evaluate.run_bind_error fails with unflushed | ⟨_, flushed, flushes, fails⟩
  · rw [Evaluate.run_flush] at unflushed
    rw [← (Prod.mk.inj unflushed).2]
    exact shown
  rw [Evaluate.run_flush] at flushes
  rw [← (Prod.mk.inj flushes).2] at fails
  -- Once the prompt is out, only a line that is no text could fail.
  rcases Evaluate.run_bind_error fails with unread | ⟨_, _, _, returns⟩
  · rw [Evaluate.run_inputLine] at unread
    split at unread
    · cases unread
    · rename_i took
      have spoiled := Console.none_mem_waiting took
      rw [show written.console.waiting = _ from shown] at spoiled
      exact absurd (asked.mem spoiled) texts
  · cases returns

/-! ## Sessions -/

theorem Session.receives {console : Console} {machine : Machine} {events : List Event}
    {lines : List (List Char)} (awaits : console.Awaits lines)
    (session : Session console machine events) : Receives lines machine events :=
  session.invariant ⟨awaits, rfl⟩
    (fun _ _ _ _ receives => ⟨receives.awaits, receives.received⟩)
    (fun _ _ _ _ step receives => receives.step step)

/-- Whatever is run, the texts received are the lines of the input stream in order, from the first
on, and empty once all have been read; and the others still wait. Each line is without its ending.
Only where a carriage return is the last character of the stream, it is missing from the last line,
though it belongs to it. An `input` whose prompt cannot be evaluated, written or flushed takes
nothing from what waits after the evaluation. -/
theorem Session.received_lines {console : Console} {stream : String}
    (waits : console.waiting = Console.linesOfInput stream.toUTF8)
    {machine : Machine} {events : List Event} (session : Session console machine events) :
    (∀ index text, (receivedBy events)[index]? = some text →
      text = String.ofList
        (if index + 1 = (linesOf stream).length ∧ stream.toList.getLast? = some '\r' then
          ((linesOf stream).getD index []).dropLast
        else (linesOf stream).getD index [])) ∧
      machine.console.waiting = console.waiting.drop (receivedBy events).length ∧
      ∀ fuel prompt position here stop after, here.console.waiting <:+ console.waiting →
        (evaluate fuel (.command .input prompt position)).run here = (.error stop, after) →
        after.console.waiting = ((evaluateToOperand fuel prompt).run here).2.console.waiting := by
  have awaits : console.Awaits (splitAfter (· == '\n') stream.toList) :=
    waits.trans (linesOfInput_toUTF8 stream)
  have receives := session.receives awaits
  refine ⟨?_, ?_, ?_⟩
  · intro index text found
    rw [receives.received, List.getElem?_map] at found
    rcases Option.map_eq_some_iff.mp found with ⟨number, counted, rfl⟩
    rcases List.getElem?_eq_some_iff.mp counted with ⟨_, same⟩
    rw [List.getElem_range] at same
    subst same
    exact readingAt_splitAfter stream index
  · rw [receives.awaits, awaits, List.map_drop]
  · intro fuel prompt position here stop after later fails
    refine waiting_of_input_error (fun spoiled => ?_) fails
    have member := later.mem spoiled
    rw [awaits, List.mem_map] at member
    rcases member with ⟨_, _, impossible⟩
    cases impossible

/-- Three lines are read in two runs, though only two are there. A carriage return in front of a
line stays. -/
theorem Session.received_lines_twice :
    let console : Console := { waiting := Console.linesOfInput "a\r\n\rb\n".toUTF8 }
    let first : Machine := (({ console } : Machine).run 0 3 "x := input \"?\"").2
    let machine : Machine := (first.run 0 3 "print input x\nprint input x").2
    let events : List Event := ({ console } : Machine).seenOf 0 3 "x := input \"?\"" ++
      first.seenOf 0 3 "print input x\nprint input x"
    Session console machine events ∧ receivedBy events = ["a", "\rb", ""] ∧
      machine.console.waiting = console.waiting.drop 3 := by
  intro console first machine events
  have session : Session console machine events := .run (.run .fresh 0 3 _) 0 3 _
  have received : receivedBy events = ["a", "\rb", ""] := by
    dsimp only [events, first, console]
    cbv
  have lines := session.received_lines rfl
  rw [received] at lines
  exact ⟨session, received, lines.2.1⟩

/-- A carriage return at the end of the stream belongs to the last line, and is not received. -/
theorem Session.received_lines_last :
    ¬ ∀ (console : Console) (stream : String) (machine : Machine) (events : List Event),
      console.waiting = Console.linesOfInput stream.toUTF8 → Session console machine events →
      ∀ index text, (receivedBy events)[index]? = some text →
        text = String.ofList ((linesOf stream).getD index []) := by
  intro all
  have received : (receivedBy
      (({ console := { waiting := Console.linesOfInput "a\r".toUTF8 } } : Machine).seenOf 0 3
        "x := input \"?\""))[0]? = some "a" := by
    cbv
  have kept := all _ "a\r" _ _ rfl (.run .fresh 0 3 "x := input \"?\"") 0 "a" received
  revert kept
  have line : linesOf "a\r" = [['a', '\r']] := by
    cbv
  rw [line]
  decide

end Scriptlet
