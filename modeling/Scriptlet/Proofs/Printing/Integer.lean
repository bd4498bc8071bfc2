import Scriptlet.CommandLine
import Scriptlet.Proofs.Arithmetic
import Scriptlet.Proofs.Events.Basic
import Scriptlet.Proofs.Printing.Expression

/-! Integers that are printed and read again. The text of a negative integer is two lexemes, a sign
and digits, and it takes an expression to put them together. -/

namespace Scriptlet

/-! ## Texts -/

namespace Integer

/-- The digits of an integer, without its sign. -/
def digits (integer : Integer) : List Char :=
  Nat.toDigits 10 integer.toInt.natAbs

/-- The lexemes that the text of an integer is made of. -/
def lexemes (integer : Integer) : List Lexeme :=
  if integer.toInt < 0 then [.sign (.binary .subtract), ⟨.integer, integer.digits⟩]
  else [⟨.integer, integer.digits⟩]

theorem toList_text (integer : Integer) :
    integer.text.toList =
      if integer.toInt < 0 then '-' :: integer.digits else integer.digits := by
  rw [text, Int.toString_eq_repr, Int.repr_eq_if, digits]
  by_cases negative : integer.toInt < 0
  · have magnitude : (-integer.toInt).toNat = integer.toInt.natAbs := by omega
    rw [if_neg (by omega), if_pos negative, String.toList_append, Nat.toList_repr, magnitude]
    rfl
  · have magnitude : integer.toInt.toNat = integer.toInt.natAbs := by omega
    rw [if_pos (by omega), if_neg negative, Nat.toList_repr, magnitude]

theorem isInteger_digits (integer : Integer) : Lexeme.isInteger integer.digits := by
  rw [Lexeme.isInteger, Bool.and_eq_true, List.all_eq_true]
  refine ⟨?_, fun character => Nat.isDigit_of_mem_toDigits (by omega) (Nat.le_refl 10)⟩
  rw [Bool.not_eq_true', List.isEmpty_eq_false_iff]
  exact Nat.toDigits_ne_nil

theorem denoted_digits (integer : Integer) :
    denoted (String.ofList integer.digits) = integer.toInt.natAbs := by
  rw [denoted, String.toList_ofList]
  exact Nat.ofDigitChars_ten_toDigits

theorem proper_lexemes (integer : Integer) : ∀ lexeme ∈ integer.lexemes, lexeme.Proper := by
  have proper := Lexeme.Proper.integer integer.isInteger_digits
  rw [lexemes]
  split
  · exact List.forall_mem_cons.mpr ⟨.symbol rfl rfl, List.forall_mem_singleton.mpr proper⟩
  · exact List.forall_mem_singleton.mpr proper

end Integer

/-- One space everywhere but behind the sign of a negative number. -/
def Layout.signed (negative : Bool) : Layout where
  leaves := false
  gap earlier later :=
    if negative ∧ earlier = .binary .subtract ∧ later = .integer then [] else [' ']
  blank := by
    intro earlier later character member
    split at member
    · cases member
    · rw [List.mem_singleton.mp member]
      rfl
  apart := by
    intro earlier later clashes
    rw [if_neg]
    · exact List.cons_ne_nil _ _
    · rintro ⟨_, rfl, rfl⟩
      cases clashes

/-- An integer stands behind an operand and an operator as its text does. -/
theorem Integer.line_lexemes (integer : Integer) {operand : Lexeme}
    (isOperand : operand.kind.isOperand) (operator : Lexeme) :
    (Layout.signed (integer.toInt < 0)).line (operand :: operator :: integer.lexemes) =
      operand.spelling ++ ' ' :: (operator.spelling ++ ' ' :: integer.text.toList) := by
  have notSign : operand.kind ≠ .binary .subtract := by
    intro sign
    rw [sign] at isOperand
    cases isOperand
  rw [toList_text, lexemes]
  by_cases negative : integer.toInt < 0
  · simp [Layout.line, Layout.signed, Lexeme.sign, Kind.label, BinaryOperator.symbol, notSign,
      negative]
  · simp [Layout.line, Layout.signed, negative]

/-! ## Numerals -/

namespace Integer

/-- An expression that an integer is written as. An operator in front of it takes the whole of it,
and it comes to the integer unless that is the least one, whose digits no word holds. -/
structure WrittenAs (integer : Integer) (numeral : Expression) : Prop where
  whole : ∀ operator : Token, operator.kind.isBinary → numeral.Grouped (some operator.binding)
  shallow : numeral.depth ≤ 2
  still : ∀ symbols, (numeral.tree symbols).2 = symbols
  value : integer ≠ Int64.minValue → ∀ symbols fuel machine,
    (evaluate fuel (numeral.tree symbols).1).run machine = (.ok (some (.integer integer)), machine)

section

variable {integer : Integer} (position : Position) (fuel : Nat) (machine : Machine)

theorem evaluate_natural (natural : 0 ≤ integer.toInt) :
    (evaluate fuel (.integer (String.ofList integer.digits) position)).run machine =
      (.ok (some (.integer integer)), machine) := by
  have value : Tree.exactValue? (.integer (String.ofList integer.digits) position) =
      some integer.toInt := by
    rw [Tree.exactValue?, denoted_digits, Int.natAbs_of_nonneg natural]
  apply evaluate_of_fits _ _ value
  · rw [Tree.isArithmetic, String.toList_ofList]
    exact integer.isInteger_digits
  · exact List.forall_mem_singleton.mpr (Tree.fits_of_exactValue value integer.fits)

theorem evaluate_negative (negative : integer.toInt < 0) (notLeast : integer ≠ Int64.minValue)
    (place : Position) :
    (evaluate fuel
      (.unary .negate (.integer (String.ofList integer.digits) position) place)).run machine =
      (.ok (some (.integer integer)), machine) := by
  have magnitude : Tree.exactValue? (.integer (String.ofList integer.digits) position) =
      some (-integer.toInt) := by
    rw [Tree.exactValue?, denoted_digits, Int.ofNat_natAbs_of_nonpos (Int.le_of_lt negative)]
  have value : Tree.exactValue? (.unary .negate
      (.integer (String.ofList integer.digits) position) place) = some integer.toInt := by
    rw [Tree.exactValue?, magnitude, Option.map_some, Int.neg_neg]
  -- The digits are read before they are negated, so a word has to hold what they denote as well.
  have above : integer.toInt ≠ least := fun same => notLeast (Int64.toInt_inj.mp same)
  have inside : least ≤ -integer.toInt ∧ -integer.toInt ≤ greatest := by
    have bounds := integer.fits
    rw [least] at above bounds ⊢
    rw [greatest] at bounds ⊢
    omega
  apply evaluate_of_fits _ _ value
  · rw [Tree.isArithmetic, Tree.isArithmetic, String.toList_ofList]
    exact integer.isInteger_digits
  · exact List.forall_mem_cons.mpr ⟨Tree.fits_of_exactValue magnitude inside,
      List.forall_mem_singleton.mpr (Tree.fits_of_exactValue value integer.fits)⟩

end

theorem exists_writtenAs (integer : Integer) {words : List Token}
    (shows : List.Forall₂ Token.Shows words integer.lexemes) :
    ∃ numeral : Expression, numeral.tokens = words ∧ integer.WrittenAs numeral := by
  rw [lexemes] at shows
  split at shows
  · rename_i negative
    rw [List.forall₂_cons_right_iff] at shows
    rcases shows with ⟨⟨_, _, place⟩, _, ⟨rfl, rfl⟩, shows, rfl⟩
    rw [List.forall₂_cons_right_iff] at shows
    rcases shows with ⟨⟨_, _, position⟩, _, ⟨rfl, rfl⟩, nothing, rfl⟩
    cases nothing
    refine ⟨.unary _ rfl (.operand _ rfl), rfl, ?_, Nat.le_refl 2, fun _ => rfl, ?_⟩
    · -- No operator binds more tightly than a sign, and a power, which binds as tightly, groups
      -- with what follows.
      intro operator isBinary
      refine ⟨?_, trivial⟩
      rintro _ ⟨⟩
      exact Token.not_yieldsTo_lead (.inr isBinary) rfl Bool.noConfusion
    · intro notLeast symbols fuel machine
      exact evaluate_negative position fuel machine negative notLeast place
  · rename_i natural
    rw [List.forall₂_cons_right_iff] at shows
    rcases shows with ⟨⟨_, _, position⟩, _, ⟨rfl, rfl⟩, nothing, rfl⟩
    cases nothing
    refine ⟨.operand _ rfl, rfl, fun _ _ => trivial, Nat.le_succ 1, fun _ => rfl, ?_⟩
    intro _ symbols fuel machine
    exact evaluate_natural position fuel machine (Int.not_lt.mp natural)

end Integer

/-! ## Sources -/

theorem Lexeme.proper_sign_of_isBinary {kind : Kind} (isBinary : kind.isBinary) :
    (Lexeme.sign kind).Proper := by
  cases kind with
  | binary | assign => exact .symbol rfl rfl
  | _ => cases isBinary

/-- An operand, an operator and the text of an integer are parsed as the operator between the
two. -/
theorem Integer.programOfSource_text (integer : Integer) {limit : Nat} (deep : 3 ≤ limit)
    {operand : Lexeme} (proper : operand.Proper) (isOperand : operand.kind.isOperand) {kind : Kind}
    (isBinary : kind.isBinary) {source : String}
    (written : source.toList =
      operand.spelling ++ ' ' :: (kind.label.toList ++ ' ' :: integer.text.toList))
    (symbols : Symbols) :
    ∃ (first operator : Token) (numeral : Expression), first.Shows operand ∧
      operator.kind = kind ∧ integer.WrittenAs numeral ∧
      (programOfSource limit source).runFrom symbols =
        (.ok [operator.between (first.leaf symbols).1 (numeral.tree (first.leaf symbols).2).1],
          (first.leaf symbols).2) := by
  let layout := Layout.signed (integer.toInt < 0)
  have whole : source = String.ofList (layout.line (operand :: .sign kind :: integer.lexemes)) := by
    rw [integer.line_lexemes isOperand, Lexeme.sign, ← written, String.ofList_toList]
  have properToo := Lexeme.proper_sign_of_isBinary isBinary
  rcases layout.scanSource_line (List.cons_ne_nil _ _)
      (List.forall_mem_cons.mpr ⟨proper, List.forall_mem_cons.mpr
        ⟨properToo, integer.proper_lexemes⟩⟩) with ⟨words, position, scanned, shows⟩
  rw [← whole] at scanned
  rw [List.forall₂_cons_right_iff] at shows
  rcases shows with ⟨first, _, shown, shows, rfl⟩
  rw [List.forall₂_cons_right_iff] at shows
  rcases shows with ⟨operator, _, ⟨rfl, text⟩, shows, rfl⟩
  rcases integer.exists_writtenAs shows with ⟨numeral, rfl, writtenAs⟩
  have firstOperand : first.kind.isOperand := by rwa [shown.1]
  let expression := Expression.binary operator isBinary (.operand first firstOperand) numeral
  have grouped : expression.Grouped none :=
    ⟨by simp, trivial, by simp [Expression.pending], writtenAs.whole operator isBinary⟩
  have fits : expression.depth ≤ limit := by
    have shallow := writtenAs.shallow
    dsimp only [expression, Expression.depth]
    omega
  refine ⟨first, operator, numeral, shown, rfl, writtenAs, ?_⟩
  rw [Expression.programOfSource_tokens grouped fits symbols scanned]
  dsimp only [expression, Expression.tree]
  rw [writtenAs.still]

/-! ## Runs -/

section

variable {fuel : Nat} {tree : Tree} {machine after : Machine}

theorem performAll_flush_of_ok (flushes : after.console.flushFails = false) :
    performAll [Evaluate.flush] after = (.completed [], after) := by
  rw [performAll, Evaluate.run_flush, flushes]
  rfl

/-- A program of one statement that succeeds. -/
theorem performAll_statement_ok {result : Option Value}
    (ran : (evaluate fuel tree).run machine = (.ok result, after))
    (flushes : after.console.flushFails = false) :
    performAll (actions fuel [tree]) machine = (.completed [], after) := by
  have step : (do let _ ← evaluate fuel tree : Evaluate Unit).run machine = (.ok (), after) :=
    Evaluate.run_bind_of_ok ran
  rw [← performAll_flush_of_ok flushes]
  exact performAll_of_ok [Evaluate.flush] step

/-- A program of one statement that fails. -/
theorem performAll_statement_error {error : EvalError}
    (ran : (evaluate fuel tree).run machine = (.error (.error error), after))
    (flushes : after.console.flushFails = false) :
    performAll (actions fuel [tree]) machine = (.completed [error], after) := by
  have step : (do let _ ← evaluate fuel tree : Evaluate Unit).run machine =
      (.error (.error error), after) :=
    Evaluate.run_bind_of_error ran
  refine (performAll_of_error [Evaluate.flush] step).trans ?_
  rw [performAll_flush_of_ok flushes]
  rfl

end

section

variable {fuel : Nat} {value : Tree} {machine : Machine} {handle : NameHandle}
  {place position : Position}

theorem Evaluate.run_required_identifier :
    (required place (evaluate fuel (.identifier handle place))).run machine =
      (.ok (.identifier handle), machine) := by
  rw [evaluate]
  rfl

theorem evaluate_assign_integer {word : Integer}
    (ran : (evaluate fuel value).run machine = (.ok (some (.integer word)), machine)) :
    (evaluate fuel (.assign (.identifier handle place) value position)).run machine =
      (.ok none, { machine with
        environment :=
          machine.environment.insert (machine.symbols.nameAt handle) (.integer word) }) := by
  rw [evaluate]
  refine (Evaluate.run_bind_of_ok Evaluate.run_required_identifier).trans ?_
  rw [Evaluate.run_bind_of_ok (Evaluate.run_operand_integer ran _)]
  rfl

theorem evaluate_assign_error {stop : Stop}
    (ran : (evaluate fuel value).run machine = (.error stop, machine)) :
    (evaluate fuel (.assign (.identifier handle place) value position)).run machine =
      (.error stop, machine) := by
  rw [evaluate]
  refine (Evaluate.run_bind_of_ok Evaluate.run_required_identifier).trans ?_
  rw [Evaluate.run_bind_of_error (Evaluate.run_operand_error ran _)]

theorem evaluate_print_variable {bound : Value}
    (found : machine.environment.get? (machine.symbols.nameAt handle) = some bound)
    {console : Console}
    (wrote : machine.console.putLine (bound.text machine.symbols) = (.ok (), console)) :
    (evaluate fuel (.command .print (.identifier handle place) position)).run machine =
      (.ok none, { machine with console }) := by
  have operand : (Evaluate.operand place (evaluate fuel (.identifier handle place))).run machine =
      (.ok bound, machine) := by
    rw [Evaluate.operand, Evaluate.run_bind_of_ok Evaluate.run_required_identifier,
      Evaluate.run_lookUp, found]
    rfl
  have shown : (Evaluate.printLine bound).run machine = (.ok (), { machine with console }) := by
    rw [Evaluate.run_printLine, Evaluate.run_onConsole, wrote]
  rw [evaluate, Evaluate.command]
  refine (Evaluate.run_bind_of_ok operand).trans ?_
  exact Evaluate.run_bind_of_ok shown

end

/-- A line that is written is written as a whole. -/
theorem Console.putLine_eq_ok {console after : Console} {text : String}
    (wrote : console.putLine text = (.ok (), after)) :
    after.written = console.written ++ (text ++ "\n").toUTF8 ∧
      after.flushFails = console.flushFails := by
  rw [putLine, write] at wrote
  split at wrote
  · cases wrote
    exact ⟨rfl, rfl⟩
  · split at wrote
    · cases wrote
      exact ⟨rfl, rfl⟩
    · cases wrote

namespace Machine

variable {machine : Machine} {limit : Nat} (deep : 3 ≤ limit) (fuel : Nat)
  (flushes : machine.console.flushFails = false)

include deep flushes

/-- Assigning the text of an integer binds the variable to it. -/
theorem run_assign_text {integer : Integer} (notLeast : integer ≠ Int64.minValue) :
    machine.run fuel limit ("x := " ++ integer.text) =
      (.completed [], { machine with
        symbols := (machine.symbols.enterName "x").2
        environment := machine.environment.insert "x" (.integer integer) }) := by
  have name : Lexeme.Proper ⟨.identifier, ['x']⟩ := .name (by decide)
  have written : ("x := " ++ integer.text).toList =
      ['x'] ++ ' ' :: (Kind.assign.label.toList ++ ' ' :: integer.text.toList) :=
    String.toList_append
  rcases integer.programOfSource_text deep name rfl rfl written machine.symbols with
    ⟨⟨_, _, place⟩, ⟨_, _, position⟩, numeral, ⟨rfl, rfl⟩, rfl, writtenAs, parsed⟩
  let symbols := (machine.symbols.enterName "x").2
  have value := writtenAs.value notLeast symbols fuel { machine with symbols }
  have assigned := @evaluate_assign_integer fuel _ { machine with symbols }
    (machine.symbols.enterName "x").1 place position integer value
  rw [Symbols.nameAt_enterName (.refl _)] at assigned
  rw [run_of_ok parsed]
  exact performAll_statement_ok assigned flushes

/-- The digits of the least integer are more than a word holds, even behind a sign. -/
theorem run_assign_least :
    machine.run fuel limit ("x := " ++ Integer.text Int64.minValue) =
      (.completed [.fault
        (.invalidLiteral "9223372036854775808" (.integer .tooLarge)) ⟨1, 6⟩], { machine with
        symbols := (machine.symbols.enterName "x").2 }) := by
  let expression := Expression.binary ⟨.assign, ":=", ⟨1, 2⟩⟩ rfl
    (.operand ⟨.identifier, "x", ⟨1, 0⟩⟩ rfl)
    (.unary ⟨.binary .subtract, "-", ⟨1, 5⟩⟩ rfl
      (.operand ⟨.integer, "9223372036854775808", ⟨1, 6⟩⟩ rfl))
  have scanned : scanSource ("x := " ++ Integer.text Int64.minValue) =
      .ok (expression.tokens ++ [.terminator ⟨1, 25⟩] ++ [.endOfInput 1]) := by
    cbv
  have grouped : expression.Grouped none :=
    ⟨by simp, trivial, by simp [Expression.pending], by simp; decide, trivial⟩
  have parsed := Expression.programOfSource_tokens grouped deep machine.symbols scanned
  let symbols := (machine.symbols.enterName "x").2
  let numeral := Tree.unary .negate (.integer "9223372036854775808" ⟨1, 6⟩) ⟨1, 5⟩
  have failed := @comesTo_evaluate numeral (by decide) fuel { machine with symbols }
  rw [run_of_ok parsed]
  exact performAll_statement_error (evaluate_assign_error failed) flushes

/-- Printing a variable that is bound to an integer writes the text of the integer. -/
theorem run_print_integer {integer : Integer}
    (found : machine.environment.get? "x" = some (.integer integer)) {console : Console}
    (wrote : machine.console.putLine integer.text = (.ok (), console)) :
    machine.run fuel limit "print x" =
      (.completed [], { machine with
        symbols := (machine.symbols.enterName "x").2
        console }) := by
  let expression := Expression.unary ⟨.command .print, "print", ⟨1, 0⟩⟩ rfl
    (.operand ⟨.identifier, "x", ⟨1, 6⟩⟩ rfl)
  have scanned : scanSource "print x" =
      .ok (expression.tokens ++ [.terminator ⟨1, 7⟩] ++ [.endOfInput 1]) := by
    cbv
  have grouped : expression.Grouped none := ⟨by simp, trivial⟩
  have fits : expression.depth ≤ limit := Nat.le_trans (Nat.le_succ 2) deep
  have parsed := Expression.programOfSource_tokens grouped fits machine.symbols scanned
  let symbols := (machine.symbols.enterName "x").2
  have name : symbols.nameAt (machine.symbols.enterName "x").1 = "x" :=
    Symbols.nameAt_enterName (.refl _)
  have stillFlushes : console.flushFails = false :=
    (Console.putLine_eq_ok wrote).2.trans flushes
  have printed := @evaluate_print_variable fuel { machine with symbols }
    (machine.symbols.enterName "x").1 ⟨1, 6⟩ ⟨1, 0⟩ (.integer integer) (by rw [name, found]) console
    wrote
  rw [run_of_ok parsed]
  exact performAll_statement_ok printed stillFlushes

end Machine

/-- Integers that are printed can be read back, all but the least one, on any machine and within any
limit that leaves room for a sign and an operator. Their text can be assigned to a variable, and to
print the variable writes the text again; behind an operand and any operator it is the whole of the
right operand, also where its sign stands behind another sign or a power. The text of the least
integer is faulted, and no variable changes. -/
theorem Machine.run_integerText {machine : Machine} {limit : Nat} (deep : 3 ≤ limit) (fuel : Nat)
    (flushes : machine.console.flush = .ok ()) :
    (∀ integer : Integer, integer ≠ Int64.minValue →
      (machine.console.putLine integer.text).1 = .ok () →
      ∃ after final, machine.run fuel limit ("x := " ++ integer.text) = (.completed [], after) ∧
        after.environment.get? "x" = some (.integer integer) ∧
        (∀ name ≠ "x", after.environment.get? name = machine.environment.get? name) ∧
        after.run fuel limit "print x" = (.completed [], final) ∧
        final.console.written = machine.console.written ++ (integer.text ++ "\n").toUTF8) ∧
    (∀ (integer : Integer) (operand : Lexeme) (operator : BinaryOperator),
      integer ≠ Int64.minValue → operand.Proper → operand.kind.isOperand →
      ∃ (token : Token) (right : Tree) (position : Position), token.Shows operand ∧
        (machine.parse limit
            (String.ofList operand.spelling ++ " " ++ operator.symbol ++ " " ++ integer.text)).1 =
          .ok [.binary operator (token.leaf machine.symbols).1 right position] ∧
        ∀ fuel current,
          (evaluate fuel right).run current = (.ok (some (.integer integer)), current)) ∧
    ∃ after, machine.run fuel limit ("x := " ++ Integer.text Int64.minValue) =
        (.completed [.fault
          (.invalidLiteral "9223372036854775808" (.integer .tooLarge)) ⟨1, 6⟩], after) ∧
      ∀ name, after.environment.get? name = machine.environment.get? name := by
  have flushes : machine.console.flushFails = false := by
    rw [Console.flush] at flushes
    split at flushes
    · cases flushes
    · rename_i works
      exact eq_false_of_ne_true works
  refine ⟨?_, ?_, _, run_assign_least deep fuel flushes, fun _ => rfl⟩
  · intro integer notLeast takes
    rcases wrote : machine.console.putLine integer.text with ⟨result, console⟩
    rw [wrote] at takes
    cases takes
    let after : Machine := { machine with
      symbols := (machine.symbols.enterName "x").2
      environment := machine.environment.insert "x" (.integer integer) }
    have bound (name : String) := machine.environment.get?_insert "x" name (.integer integer)
    have found : after.environment.get? "x" = some (.integer integer) :=
      (bound "x").trans (if_pos rfl)
    have printed := @run_print_integer after limit deep fuel flushes integer found console wrote
    refine ⟨after, _, run_assign_text deep fuel flushes notLeast, found, ?_, printed,
      (Console.putLine_eq_ok wrote).1⟩
    exact fun name other => (bound name).trans (if_neg other)
  · intro integer operand operator notLeast proper isOperand
    have written : (String.ofList operand.spelling ++ " " ++ operator.symbol ++ " " ++
        integer.text).toList = operand.spelling ++
          ' ' :: ((Kind.binary operator).label.toList ++ ' ' :: integer.text.toList) := by
      simp [Kind.label]
    rcases integer.programOfSource_text deep proper isOperand rfl written machine.symbols with
      ⟨token, ⟨_, _, position⟩, numeral, shown, rfl, writtenAs, parsed⟩
    have value := writtenAs.value notLeast (token.leaf machine.symbols).2
    refine ⟨token, _, position, shown, ?_, value⟩
    rw [Parse.runFrom] at parsed
    rw [Machine.parse, parsed]
    rfl

/-- The integer next to the least one, behind a string and a minus sign. -/
theorem Machine.run_integerText_negative :
    let machine : Machine := {}
    let limit := CommandLine.defaultDepthLimit
    let integer : Integer := -9223372036854775807
    let operand : Lexeme := ⟨.string, ['"', 'a', '"']⟩
    3 ≤ limit ∧ integer.text = "-9223372036854775807" ∧ machine.console.flush = .ok () ∧
      integer ≠ Int64.minValue ∧ (machine.console.putLine integer.text).1 = .ok () ∧
      (∃ after final, machine.run 0 limit ("x := " ++ integer.text) = (.completed [], after) ∧
        after.environment.get? "x" = some (.integer integer) ∧
        (∀ name ≠ "x", after.environment.get? name = machine.environment.get? name) ∧
        after.run 0 limit "print x" = (.completed [], final) ∧
        final.console.written = machine.console.written ++ (integer.text ++ "\n").toUTF8) ∧
      operand.Proper ∧
      ∃ (token : Token) (right : Tree) (position : Position), token.Shows operand ∧
        (machine.parse limit "\"a\" - -9223372036854775807").1 =
          .ok [.binary .subtract (token.leaf machine.symbols).1 right position] ∧
        ∀ fuel current,
          (evaluate fuel right).run current = (.ok (some (.integer integer)), current) := by
  intro machine limit integer operand
  have deep : 3 ≤ limit := by decide
  have flushes : machine.console.flush = .ok () := rfl
  have notLeast : integer ≠ Int64.minValue := by decide
  have takes : (machine.console.putLine integer.text).1 = .ok () := rfl
  have proper : operand.Proper := @Lexeme.Proper.string ['a'] (by simp) (by simp)
  have both := @run_integerText machine limit deep 0 flushes
  exact ⟨deep, by decide, flushes, notLeast, takes, both.1 integer notLeast takes, proper,
    both.2.1 integer operand .subtract notLeast proper rfl⟩

end Scriptlet
