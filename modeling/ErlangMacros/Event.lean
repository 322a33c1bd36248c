import ErlangMacros.Macro

/-!
# Events

What happens while preprocessing is told as a list of events.  They are what a log shows; nothing depends on them.
-/

namespace ErlangMacros

/-- A warning. -/
structure Diagnostic where
  position : Option Position
  message : Text
deriving DecidableEq

/-- The warning as it is reported. -/
def Diagnostic.toString (d : Diagnostic) : Text :=
  Position.label d.position d.message

/-- Something worth telling. -/
inductive Event where
  | preprocessing (path : Text)
  | defined (m : Macro)
  | undefined (name : Text)
  | entering (filename : Option Text)
  | leaving (filename : Option Text)
  | expanding (m : Macro) (position : Position)
  | skipping (keyword : Text) (position : Position)
  | moduleNamed (name : Text)
  | warned (d : Diagnostic)
  | emptyIncludePath
  | nullInIncludePath (path : Text)
  | failed (message : Text)
deriving DecidableEq

/-- How much an event matters. -/
inductive Level where
  | debug
  | warning
  | error
deriving DecidableEq

/-- The name of a level. -/
def Level.name : Level → Text
  | debug => "DEBUG"
  | warning => "WARNING"
  | error => "ERROR"

namespace Event

/-- The level of an event. -/
def level : Event → Level
  | warned _ | emptyIncludePath | nullInIncludePath _ => .warning
  | failed _ => .error
  | _ => .debug

/-- The event in words. -/
def message : Event → Text
  | preprocessing path => "Preprocessing " ++ path
  | defined m => "Defined " ++ m.shown
  | undefined name => "Undefined " ++ name
  | entering filename => "Entering " ++ filename.getD "None"
  | leaving filename => "Leaving " ++ filename.getD "None"
  | expanding m position => "Expanding " ++ m.shown ++ " at " ++ position.toString
  | skipping keyword position => "Skipping -" ++ keyword ++ " at " ++ position.toString
  | moduleNamed name => "Module name is '" ++ name ++ "'"
  | warned d => d.toString
  | emptyIncludePath => "Include path is empty."
  | nullInIncludePath path => "Include path '" ++ Text.shown path ++ "' contains a null byte."
  | failed message => message

/-- The line of a log for an event. -/
def line (e : Event) : Text :=
  e.level.name ++ ": " ++ e.message ++ "\n"

end Event

end ErlangMacros
