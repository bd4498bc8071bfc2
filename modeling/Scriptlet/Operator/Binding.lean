import Scriptlet.Token.Kind

/-! How tightly operators hold their operands. -/

namespace Scriptlet

/-- The side to which a chain of equally strong operators groups. -/
inductive Grouping where
  | left | right
deriving DecidableEq, Repr, Inhabited

/-- A stronger operator takes its operands first. -/
structure Binding where
  strength : Nat
  grouping : Grouping
deriving DecidableEq, Repr, Inhabited

/-- Whether a waiting operator takes its operands before the incoming one is considered. Among
equals the incoming operator decides: it groups to the left only if it says so itself. -/
def Binding.yieldsTo (waiting incoming : Binding) : Bool :=
  incoming.strength < waiting.strength ||
    (waiting.strength == incoming.strength && incoming.grouping == .left)

/-- A kind without a binding never waits for an operand. -/
abbrev BindingTable := Kind → Option Binding

/-! Comparisons share a level with the connectives and with `input`; the grouping keeps them
apart. -/

def BinaryOperator.binding : BinaryOperator → Binding
  | power => ⟨5, .right⟩
  | multiply | divide => ⟨4, .left⟩
  | add | subtract => ⟨3, .left⟩
  | less | greater | lessEqual | greaterEqual | equal | notEqual => ⟨2, .right⟩
  | and | or => ⟨2, .left⟩

def Command.binding : Command → Binding
  | input => ⟨2, .left⟩
  | print | delete => ⟨1, .right⟩

def Kind.binding? : BindingTable
  | .unary _ => some ⟨5, .right⟩
  | .binary operator => some operator.binding
  | .command keyword => some keyword.binding
  | .assign => some ⟨1, .right⟩
  | .terminator | .openBlock | .closeBlock => some ⟨0, .left⟩
  | _ => none

end Scriptlet
