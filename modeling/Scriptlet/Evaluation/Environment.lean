import Scriptlet.Value.Basic

/-! The variables that have a value. -/

namespace Scriptlet

/-- Each name is bound at most once. -/
structure Environment where
  bindings : List (String × Value) := []
deriving Inhabited

namespace Environment

def get? (environment : Environment) (name : String) : Option Value :=
  environment.bindings.lookup name

/-- A name without a value stays without one. -/
def erase (environment : Environment) (name : String) : Environment :=
  ⟨environment.bindings.filter (·.1 != name)⟩

def insert (environment : Environment) (name : String) (value : Value) : Environment :=
  ⟨(name, value) :: (environment.erase name).bindings⟩

end Environment

end Scriptlet
