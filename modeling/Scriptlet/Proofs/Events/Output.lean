import Scriptlet.Proofs.Diagnostics.Parsing
import Scriptlet.Proofs.Events.Input

/-! What is shown is written line by line. No string ever holds a line feed, so the lines that are
written are exactly those that were shown. -/

namespace Scriptlet

/-! ## Texts without a line feed -/

def OneLine (text : String) : Prop :=
  '\n' ∉ text.toList

instance (text : String) : Decidable (OneLine text) :=
  inferInstanceAs (Decidable ('\n' ∉ text.toList))

theorem OneLine.append {first second : String} (one : OneLine first) (other : OneLine second) :
    OneLine (first ++ second) := by
  rw [OneLine, String.toList_append, List.mem_append]
  exact not_or.mpr ⟨one, other⟩

theorem lineFeed_not_mem_toDigits (number : Nat) : '\n' ∉ Nat.toDigits 10 number := by
  intro member
  have digit := Nat.isDigit_of_mem_toDigits (by decide) (by decide) member
  cases digit

theorem Integer.oneLine_text (integer : Integer) : OneLine integer.text := by
  have natural (number : Nat) : OneLine number.repr := by
    rw [OneLine, Nat.toList_repr]
    exact lineFeed_not_mem_toDigits number
  rw [Integer.text, Int.toString_eq_repr]
  cases integer.toInt with
  | ofNat number => exact natural number
  | negSucc number =>
      have sign : OneLine "-" := by decide
      exact sign.append (natural number.succ)

theorem Decimal.lineFeed_not_mem_layOut (number : DecimalNumber) : '\n' ∉ layOut number := by
  have digits := lineFeed_not_mem_toDigits number.digits
  have zeros (count : Nat) : '\n' ∉ zeros count := by
    simp [Decimal.zeros]
  unfold layOut
  dsimp only
  split_ifs
  · simp [digits, zeros]
  · have some (count : Nat) : '\n' ∉ (Nat.toDigits 10 number.digits).take count :=
      fun member => digits (List.mem_of_mem_take member)
    have others (count : Nat) : '\n' ∉ (Nat.toDigits 10 number.digits).drop count :=
      fun member => digits (List.mem_of_mem_drop member)
    simp [some, others]
  · simp [digits, zeros]

theorem Decimal.oneLine_text (decimal : Decimal) : OneLine decimal.text := by
  have sign : OneLine "-" := by decide
  unfold Decimal.text
  extract_lets bits magnitude
  have inside : OneLine magnitude := by
    unfold magnitude
    split
    · decide
    · split
      · rw [OneLine, String.toList_ofList]
        exact lineFeed_not_mem_layOut _
      · decide
  split
  · decide
  · split
    · exact inside
    · exact sign.append inside

/-! ## Tables without a line feed -/

structure Symbols.Unbroken (symbols : Symbols) : Prop where
  strings : ∀ text ∈ symbols.strings.entries, OneLine text
  names : ∀ name ∈ symbols.names.entries, OneLine name

theorem TextTable.mem_enter {table : TextTable} {text entry : String}
    (member : entry ∈ (table.enter text).2.entries) : entry ∈ table.entries ∨ entry = text := by
  rcases table.enter_cases text with ⟨index, _, entered⟩ | ⟨_, _, entered⟩
  · rw [entered] at member
    exact .inl member
  · rw [entered] at member
    exact Array.mem_push.mp member

theorem TextTable.oneLine_get? {table : TextTable}
    (each : ∀ entry ∈ table.entries, OneLine entry) (index : Nat) :
    OneLine ((table.get? index).getD "") := by
  cases found : table.get? index with
  | none =>
      change OneLine ""
      decide
  | some entry => exact each entry (Array.mem_of_getElem? found)

namespace Symbols.Unbroken

variable {symbols : Symbols} (unbroken : symbols.Unbroken)

include unbroken

theorem enterString {text : String} (plain : OneLine text) :
    (symbols.enterString text).2.Unbroken where
  strings := fun entry member =>
    (TextTable.mem_enter member).elim (unbroken.strings entry) fun new => new ▸ plain
  names := unbroken.names

theorem enterName {name : String} (plain : OneLine name) : (symbols.enterName name).2.Unbroken where
  strings := unbroken.strings
  names := fun entry member =>
    (TextTable.mem_enter member).elim (unbroken.names entry) fun new => new ▸ plain

theorem stringAt (handle : StringHandle) : OneLine (symbols.stringAt handle) :=
  TextTable.oneLine_get? unbroken.strings handle.index

theorem text (value : Value) : OneLine (value.text symbols) := by
  cases value with
  | integer value => exact value.oneLine_text
  | decimal value => exact Decimal.oneLine_text value
  | string handle => exact unbroken.stringAt handle
  | boolean value =>
      cases value with
      | false =>
          change OneLine "False"
          decide
      | true =>
          change OneLine "True"
          decide
  | identifier handle => exact TextTable.oneLine_get? unbroken.names handle.index

end Symbols.Unbroken

/-! ## Texts from a source and from the input -/

theorem lineFeed_not_mem_dropLineEnding {line : List Char} (last : '\n' ∉ line.dropLast) :
    '\n' ∉ dropLineEnding line := by
  rw [dropLineEnding]
  split
  · rename_i reversed found
    rw [List.reverse_eq_cons_iff, List.reverse_cons] at found
    simp_all
  · rename_i reversed _ found
    rw [List.reverse_eq_cons_iff] at found
    simp_all
  · rename_i _ unended
    rcases List.eq_nil_or_concat line with rfl | ⟨before, closing, rfl⟩
    · simp
    · rw [List.concat_eq_append, List.dropLast_concat] at last
      have different : closing ≠ '\n' := by
        rintro rfl
        exact unended before.reverse (by simp)
      simp [last, different.symm]

theorem lineFeed_not_mem_trimEnding {line : List Char} (last : '\n' ∉ line.dropLast) :
    '\n' ∉ Console.trimEnding line := by
  have ended := lineFeed_not_mem_dropLineEnding last
  rw [Console.trimEnding_eq]
  split
  · exact fun member => ended (List.mem_of_mem_dropLast member)
  · exact ended

theorem lineFeed_not_mem_linesOf {source : String} {line : List Char}
    (member : line ∈ linesOf source) : '\n' ∉ line := by
  rcases List.mem_map.mp member with ⟨piece, within, rfl⟩
  apply lineFeed_not_mem_dropLineEnding
  intro feed
  have plain := not_ends_of_mem_dropLast within '\n' feed
  cases plain

/-- No lexeme of a source reaches over the end of its line. -/
theorem Token.StandsIn.oneLine {source : String} {token : Token} (stands : token.StandsIn source) :
    OneLine token.text := by
  rcases stands.longest with ⟨text, index, found, _, longest⟩
  have plain := lineFeed_not_mem_linesOf (List.mem_of_getElem? found)
  intro feed
  apply plain
  apply List.mem_of_mem_drop
  apply longest.here.subset
  rcases token with ⟨kind, text, position⟩
  cases kind with
  | string => exact List.mem_cons_of_mem _ (List.mem_append_left _ feed)
  | _ => exact feed

/-- Parsing enters only texts without a line feed. -/
theorem Symbols.Unbroken.parse {machine : Machine} (unbroken : machine.symbols.Unbroken)
    (limit : Nat) (source : String) : (machine.parse limit source).2.symbols.Unbroken := by
  have admits : Admits (Token.StandsIn source) Symbols.Unbroken :=
    ⟨fun _ _ stands _ unbroken => unbroken.enterString stands.oneLine,
      fun _ _ stands _ unbroken => unbroken.enterName stands.oneLine⟩
  exact (meets_programOfSource admits limit machine.symbols unbroken).1

/-! ## What is written -/

/-- The lines that are shown, each with its ending. -/
def outputOf (events : List Event) : String :=
  String.join ((shownBy events).map (· ++ "\n"))

theorem outputOf_append (first second : List Event) :
    outputOf (first ++ second) = outputOf first ++ outputOf second := by
  rw [outputOf, shownBy_append, List.map_append, String.join_append]
  rfl

/-- Texts without a line feed can be told apart again. -/
theorem splitAfter_outputOf {events : List Event}
    (plain : ∀ text ∈ shownBy events, OneLine text) :
    splitAfter (· == '\n') (outputOf events).toList =
      (shownBy events).map fun text => text.toList ++ ['\n'] := by
  rw [outputOf, String.toList_join]
  generalize shownBy events = lines at plain ⊢
  induction lines with
  | nil => exact splitAfter_nil _
  | cons text later induction =>
      rcases List.forall_mem_cons.mp plain with ⟨here, there⟩
      have inside : ∀ character ∈ text.toList, (character == '\n') = false := by
        intro character member
        rw [beq_eq_false_iff_ne]
        rintro rfl
        exact here member
      rw [List.map_cons, List.flatMap_cons, String.toList_append, List.append_assoc, List.map_cons,
        ← induction there]
      exact splitAfter_append_cons inside rfl _

/-- Where there is always room, every line is written. -/
theorem Console.putLine_of_unlimited {console : Console} (unlimited : console.capacity = none)
    (text : String) :
    console.putLine text =
      (.ok (), { console with written := console.written ++ (text ++ "\n").toUTF8 }) := by
  rw [putLine, write, unlimited]

theorem Machine.Step.unlimited {machine after : Machine} {events : List Event}
    (step : machine.Step events after) (unlimited : machine.console.capacity = none) :
    after.console.capacity = none := by
  cases step with
  | bound | joined => exact unlimited
  | shown wrote =>
      rw [Console.putLine_of_unlimited unlimited] at wrote
      cases wrote
      exact unlimited
  | cut wrote =>
      rw [Console.putLine_of_unlimited unlimited] at wrote
      cases wrote
  | received took | spoiled took =>
      rw [(Console.takeLine_frame took).1]
      exact unlimited

/-- What holds while a session writes: no text has a line feed, and what was written are the lines
that were shown. -/
structure Writes (console : Console) (machine : Machine) (events : List Event) : Prop where
  unbroken : machine.symbols.Unbroken
  shown : ∀ text ∈ shownBy events, OneLine text
  waiting : machine.console.waiting <:+ console.waiting
  unlimited : machine.console.capacity = none
  written : machine.console.written = console.written ++ (outputOf events).toUTF8

section

variable {console : Console} {here there : Machine} {past seen : List Event}

/-- What does not write keeps what was written. -/
theorem Writes.quiet (writes : Writes console here past) (silent : shownBy seen = [])
    (unbroken : there.symbols.Unbroken)
    (waiting : there.console.waiting <:+ here.console.waiting)
    (unlimited : there.console.capacity = none)
    (same : there.console.written = here.console.written) :
    Writes console there (past ++ seen) where
  unbroken := unbroken
  shown := by
    rw [shownBy_append, silent, List.append_nil]
    exact writes.shown
  waiting := waiting.trans writes.waiting
  unlimited := unlimited
  written := by
    have nothing : outputOf (past ++ seen) = outputOf past := by
      rw [outputOf, outputOf, shownBy_append, silent, List.append_nil]
    rw [same, nothing]
    exact writes.written

/-- A line that is shown is written behind the others. -/
theorem Writes.line (writes : Writes console here past) (value : Value) :
    Writes console
      { here with console := { here.console with
        written := here.console.written ++ (value.text here.symbols ++ "\n").toUTF8 } }
      (past ++ [.shown (value.text here.symbols)]) where
  unbroken := writes.unbroken
  shown := by
    intro text member
    rw [shownBy_append] at member
    rcases List.mem_append.mp member with earlier | last
    · exact writes.shown text earlier
    · rw [List.mem_singleton.mp last]
      exact writes.unbroken.text value
  waiting := writes.waiting
  unlimited := writes.unlimited
  written := by
    have last : outputOf [.shown (value.text here.symbols)] = value.text here.symbols ++ "\n" := by
      simp [outputOf, shownBy]
    dsimp only
    rw [writes.written, outputOf_append, last, String.toUTF8_eq_toByteArray,
      String.toUTF8_eq_toByteArray, String.toUTF8_eq_toByteArray, ByteArray.append_assoc,
      ← String.toByteArray_append]

/-- One action keeps it so. -/
theorem Writes.step (lines : ∀ text, some text ∈ console.waiting → '\n' ∉ text.toList.dropLast)
    (step : here.Step seen there) (writes : Writes console here past) :
    Writes console there (past ++ seen) := by
  have waiting := step.waiting
  have unlimited := step.unlimited writes.unlimited
  cases step with
  | bound => exact writes.quiet rfl writes.unbroken waiting unlimited rfl
  | joined first second =>
      have joined := writes.unbroken.enterString
        ((writes.unbroken.stringAt first).append (writes.unbroken.stringAt second))
      exact writes.quiet rfl joined waiting unlimited rfl
  | @shown value _ wrote =>
      rw [Console.putLine_of_unlimited writes.unlimited] at wrote
      cases wrote
      exact writes.line value
  | cut wrote =>
      rw [Console.putLine_of_unlimited writes.unlimited] at wrote
      cases wrote
  | @received line console took =>
      have plain : OneLine line := by
        rcases Console.takeLine_cases took with
          ⟨_, read, _⟩ | ⟨text, _, waits, read, _⟩ | ⟨_, _, read, _⟩
        · cases read
          decide
        · cases read
          have waits : some text ∈ here.console.waiting := waits ▸ List.mem_cons_self
          rw [OneLine, String.toList_ofList]
          exact lineFeed_not_mem_trimEnding (lines text (writes.waiting.mem waits))
        · cases read
      have same : console.written = here.console.written := by
        rw [(Console.takeLine_frame took).1]
      exact writes.quiet rfl (writes.unbroken.enterString plain) waiting unlimited same
  | @spoiled _ console took =>
      have same : console.written = here.console.written := by
        rw [(Console.takeLine_frame took).1]
      exact writes.quiet rfl writes.unbroken waiting unlimited same

end

theorem Session.writes {console : Console} {bytes : ByteArray}
    (waits : console.waiting = Console.linesOfInput bytes) (unlimited : console.capacity = none)
    {machine : Machine} {events : List Event} (session : Session console machine events) :
    Writes console machine events := by
  have lines (text : String) (member : some text ∈ console.waiting) :
      '\n' ∉ text.toList.dropLast := by
    rw [waits] at member
    exact lineFeed_last_of_mem_linesOfInput member
  refine session.invariant ?_ ?_ fun _ _ _ _ step writes => writes.step lines step
  · exact ⟨⟨by simp, by simp⟩, by simp [shownBy], List.suffix_rfl, unlimited,
      by simp [outputOf, shownBy]⟩
  · intro machine past limit source writes
    exact ⟨writes.unbroken.parse limit source, writes.shown, writes.waiting, writes.unlimited,
      writes.written⟩

/-! ## What is shown -/

theorem Machine.Steps.unlimited {machine after : Machine} {events : List Event}
    (steps : machine.Steps events after) (unlimited : machine.console.capacity = none) :
    after.console.capacity = none := by
  induction steps with
  | refl => exact unlimited
  | cons step _ induction => exact induction (step.unlimited unlimited)

theorem Evaluate.showing_of_unlimited (value : Value) {machine : Machine}
    (unlimited : machine.console.capacity = none) :
    showing value machine = [.shown (value.text machine.symbols)] := by
  rw [showing, followedBy, run_printLine, run_onConsole, Console.putLine_of_unlimited unlimited]

theorem shownBy_receiving (yielded : Option Value) (machine : Machine) :
    shownBy (Evaluate.receiving yielded machine) = [] := by
  cases yielded <;> rfl

/-- Where there is always room, a `print` succeeds if its operand evaluates. -/
theorem isOk_print (fuel : Nat) (operand : Tree) (position : Position) {here : Machine}
    (unlimited : here.console.capacity = none) :
    ((evaluate fuel (.command .print operand position)).run here).1.isOk =
      ((evaluateToOperand fuel operand).run here).1.isOk := by
  have kept := ((accounts_evaluate fuel operand).operand operand.position here).unlimited unlimited
  rw [evaluate, Evaluate.command, Comparison.run_bind, evaluateToOperand]
  rcases ran : (Evaluate.operand operand.position (evaluate fuel operand)).run here with
    ⟨_ | value, after⟩
  · rfl
  · rw [ran] at kept
    dsimp only
    rw [Comparison.run_bind, Evaluate.run_printLine, Evaluate.run_onConsole,
      Console.putLine_of_unlimited kept]
    rfl

/-- Where there is always room, a `print` and an `input` show the value of their operand, if it
evaluates. -/
theorem shownBy_seen_command (fuel : Nat) {command : Command} (notDelete : command ≠ .delete)
    (operand : Tree) (position : Position) {here : Machine}
    (unlimited : here.console.capacity = none) :
    shownBy (seen fuel (.command command operand position) here) =
      shownBy (seen fuel operand here) ++
        match (evaluateToOperand fuel operand).run here with
        | (.ok value, after) => [value.text after.symbols]
        | (.error _, _) => [] := by
  have shows : shownBy ((evaluateToOperand fuel operand).followedBy Evaluate.showing here) =
      match (evaluateToOperand fuel operand).run here with
      | (.ok value, after) => [value.text after.symbols]
      | (.error _, _) => [] := by
    have kept :=
      ((accounts_evaluate fuel operand).operand operand.position here).unlimited unlimited
    rw [Evaluate.followedBy, evaluateToOperand]
    rcases ran : (Evaluate.operand operand.position (evaluate fuel operand)).run here with
      ⟨_ | value, after⟩
    · rfl
    · rw [ran] at kept
      dsimp only
      rw [Evaluate.showing_of_unlimited value kept]
      rfl
  cases command with
  | delete => exact absurd rfl notDelete
  | print => rw [seen, shownBy_append, shows]
  | input =>
      have received : shownBy ((evaluate fuel (.command .input operand position)).followedBy
          Evaluate.receiving here) = [] := by
        rw [Evaluate.followedBy]
        split
        · exact shownBy_receiving _ _
        · rfl
      rw [seen, shownBy_append, shownBy_append, shows, received, List.append_nil]

/-- Whatever is run, no string holds a line feed. What is written are the lines that were shown,
each with its ending, and they can be told apart. Every `print` and every `input` shows one line if
its operand evaluates, which is the text of the operand's value; and just then a `print`
succeeds. -/
theorem Session.output_lines {console : Console} {bytes : ByteArray}
    (waits : console.waiting = Console.linesOfInput bytes) (unlimited : console.capacity = none)
    {machine : Machine} {events : List Event} (session : Session console machine events) :
    (∀ text ∈ machine.symbols.strings.entries, '\n' ∉ text.toList) ∧
      machine.console.written = console.written ++ (outputOf events).toUTF8 ∧
      splitAfter (· == '\n') (outputOf events).toList =
        (shownBy events).map (fun text => text.toList ++ ['\n']) ∧
      ∀ fuel operand position (here : Machine), here.console.capacity = none →
        ((evaluate fuel (.command .print operand position)).run here).1.isOk =
            ((evaluateToOperand fuel operand).run here).1.isOk ∧
          ∀ command, command ≠ .delete →
            shownBy (seen fuel (.command command operand position) here) =
              shownBy (seen fuel operand here) ++
                match (evaluateToOperand fuel operand).run here with
                | (.ok value, after) => [value.text after.symbols]
                | (.error _, _) => [] := by
  have writes := session.writes waits unlimited
  refine ⟨writes.unbroken.strings, writes.written, splitAfter_outputOf writes.shown, ?_⟩
  intro fuel operand position here unlimited
  refine ⟨isOk_print fuel operand position unlimited, ?_⟩
  intro command notDelete
  exact shownBy_seen_command fuel notDelete operand position unlimited

/-- A prompt, a joined string and a number in two runs. -/
theorem Session.output_lines_joined :
    let console : Console := { waiting := Console.linesOfInput "a\r\n".toUTF8 }
    let first : Machine := (({ console } : Machine).run 0 3 "x := input \"?\"").2
    let machine : Machine := (first.run 0 3 "print x + \"b\"\nprint 1 - 2").2
    let events : List Event := ({ console } : Machine).seenOf 0 3 "x := input \"?\"" ++
      first.seenOf 0 3 "print x + \"b\"\nprint 1 - 2"
    Session console machine events ∧ shownBy events = ["?", "ab", "-1"] ∧
      machine.console.written = ByteArray.empty ++ "?\nab\n-1\n".toUTF8 := by
  intro console first machine events
  have session : Session console machine events := .run (.run .fresh 0 3 _) 0 3 _
  have shown : shownBy events = ["?", "ab", "-1"] := by
    dsimp only [events, first, console]
    cbv
  have lines := session.output_lines rfl rfl
  rw [outputOf, shown] at lines
  exact ⟨session, shown, lines.2.1⟩

end Scriptlet
