import ErlangMacros.Macro

/-!
# The macro table

A table holds at most one macro for each name and arity.  Its list runs through the names in the order of their
first definition, and through the variants of one name in the order of theirs.  Undefining a name removes all its
variants.
-/

namespace ErlangMacros

/-- The macros whose value is computed where they are called.  They always exist and cannot be redefined. -/
inductive Predefined where
  | line
  | file
  | moduleAtom
  | moduleString
  | machine
deriving DecidableEq

namespace Predefined

/-- The name of a predefined macro. -/
def name : Predefined → Text
  | line => "LINE"
  | file => "FILE"
  | moduleAtom => "MODULE"
  | moduleString => "MODULE_STRING"
  | machine => "MACHINE"

/-- All predefined macros. -/
def all : List Predefined :=
  [line, file, moduleAtom, moduleString, machine]

/-- The predefined macro with a name. -/
def ofName? (name : Text) : Option Predefined :=
  all.find? (·.name = name)

end Predefined

/-- The macros that are defined. -/
structure MacroTable where
  macros : List Macro := []
deriving DecidableEq

namespace MacroTable

/-- The name belongs to a predefined macro. -/
def isPredefined (name : Text) : Bool :=
  (Predefined.ofName? name).isSome

/-- Some variant of the name is in the table. -/
def contains (t : MacroTable) (name : Text) : Bool :=
  t.macros.any (·.name = name)

/-- The name is predefined or in the table. -/
def isDefined (t : MacroTable) (name : Text) : Bool :=
  isPredefined name || t.contains name

/-- The macro with a name and an arity. -/
def get? (t : MacroTable) (name : Text) (arity : Arity) : Option Macro :=
  t.macros.find? fun m => m.name = name && m.arity = arity

/-- The arities that a name is defined for, in the order of definition. -/
def arities (t : MacroTable) (name : Text) : List Arity :=
  (t.macros.filter (·.name = name)).map Macro.arity

/-- The number of definitions. -/
def size (t : MacroTable) : Nat :=
  t.macros.length

/-- Put a macro after the last one of the same name, or at the end if there is none. -/
def place (m : Macro) : List Macro → List Macro
  | [] => [m]
  | x :: xs =>
    if x.name = m.name && !xs.any (·.name = m.name) then x :: m :: xs else x :: place m xs

/-- Define a macro.  The name must not be predefined, nor defined already for the same arity. -/
def define (t : MacroTable) (m : Macro) : Except Error MacroTable :=
  if isPredefined m.name then .error ⟨.redefinePredefined m.name, some m.position⟩
  else
    match t.get? m.name m.arity with
    | some earlier => .error ⟨.alreadyDefined m.name m.arity earlier.position, some m.position⟩
    | none => .ok ⟨place m t.macros⟩

/-- Remove every definition of a name. -/
def undef (t : MacroTable) (name : Text) (position : Option Position) : Except Error MacroTable :=
  if isPredefined name then .error ⟨.undefinePredefined name, position⟩
  else if t.contains name then .ok ⟨t.macros.filter (·.name ≠ name)⟩
  else .error ⟨.undefineUnknown name, position⟩

/-- The order in which arities are listed: without arguments first. -/
def arityLE : Arity → Arity → Bool
  | none, _ => true
  | some _, none => false
  | some a, some b => a ≤ b

/-- The arities of a name from the least on. -/
def sortedArities (t : MacroTable) (name : Text) : List Arity :=
  (t.arities name).mergeSort arityLE

/-- The macro with a name and an arity, or the error of calling it. -/
def lookup (t : MacroTable) (name : Text) (arity : Arity) (position : Option Position) : Except Error Macro :=
  match t.get? name arity with
  | some m => .ok m
  | none =>
    if t.contains name then .error ⟨.arityMismatch name arity (t.sortedArities name), position⟩
    else .error ⟨.undefinedMacro name, position⟩

end MacroTable

end ErlangMacros
