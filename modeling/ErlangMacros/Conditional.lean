import ErlangMacros.Error

/-!
# Conditionals

The open conditionals form a stack.  Tokens are emitted while the condition of every open conditional holds; each
frame keeps whether that was so for the frames below it.
-/

namespace ErlangMacros

namespace Conditional

/-- An open conditional. -/
structure Frame where
  condition : Bool
  /-- The conditions of all frames below hold. -/
  parentActive : Bool
  position : Option Position := none
  elseSeen : Bool := false
deriving DecidableEq

/-- The frame and all frames below it hold. -/
def Frame.active (f : Frame) : Bool :=
  f.parentActive && f.condition

/-- The open conditionals, innermost first. -/
structure Stack where
  frames : List Frame := []
deriving DecidableEq

namespace Stack

/-- Tokens are emitted. -/
def active (s : Stack) : Bool :=
  s.frames.head?.all Frame.active

/-- Open a conditional. -/
def push (s : Stack) (condition : Bool) (position : Option Position) : Stack :=
  ⟨{ condition, parentActive := s.active, position } :: s.frames⟩

/-- Turn to the other branch of the innermost conditional. -/
def flip (s : Stack) (position : Option Position) : Except Error Stack :=
  match s.frames with
  | [] => .error ⟨.elseWithoutConditional, position⟩
  | f :: fs =>
    if f.elseSeen then .error ⟨.secondElse f.position, position⟩
    else .ok ⟨{ f with elseSeen := true, condition := !f.condition } :: fs⟩

/-- Close the innermost conditional. -/
def close (s : Stack) (position : Option Position) : Except Error Stack :=
  match s.frames with
  | [] => .error ⟨.unmatchedEndif, position⟩
  | _ :: fs => .ok ⟨fs⟩

/-- The input may only end when no conditional is open. -/
def finish (s : Stack) : Except Error Unit :=
  match s.frames with
  | [] => .ok ()
  | f :: _ => .error ⟨.unterminatedConditional, f.position⟩

end Stack

end Conditional

end ErlangMacros
