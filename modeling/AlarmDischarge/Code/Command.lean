import AlarmDischarge.Code.Expr.Text

/-!
# `AlarmDischarge.Code.Command`: what happens at a program point

Main definitions:

* `Command`: the command at a node. `assign` is `Set`, and `fetch` is `External`;
* `Command.target?`, `Command.calleeName?`: the place it writes, and the function it calls (`target`,
  `callee_name`);
* `Command.defs`, `Command.uses`: the variables it defines and reads (`defs`, `uses`);
* `Command.overwrites`: whether it gives a variable a new value as a whole, as `reaching_out` asks.
-/

set_option autoImplicit false

namespace AlarmDischarge

open Std

/-- The command at a program point. -/
inductive Command where
  /-- stores the value of an expression -/
  | assign (place : LValue) (value : Expr)
  /-- stores the address of a new array of `size` elements -/
  | alloc (place : LValue) (size : Expr)
  /-- calls a function; merges of values at joins are calls of `phi` -/
  | call (result : Option LValue) (callee : Expr) (args : List Expr)
  /-- stores a result of code outside the program -/
  | fetch (place : LValue)
  /-- passes only if the condition holds -/
  | assume (condition : Expr)
  | ret (value : Option Expr)
  | skip
deriving DecidableEq

namespace Command

/-- The name of the called function, when the callee is a plain variable. -/
def calleeName? : Command → Option String
  | call _ callee _ => callee.bareVar?.map Variable.name
  | _ => none

/-- The place a command writes. -/
def target? : Command → Option LValue
  | assign place _ => some place
  | alloc place _ => some place
  | fetch place => some place
  | call result _ _ => result
  | assume _ => none
  | ret _ => none
  | skip => none

/-- The variables a command defines. An assumption defines, by refining them, the variables its
condition reads. -/
def defs : Command → ExtTreeSet String
  | assume condition => condition.variables
  | c =>
    match c.target?.bind LValue.definedVariable? with
    | some name => {name}
    | none => ∅

/-- The variables a command reads. The callee of a call is not read. -/
def uses : Command → ExtTreeSet String
  | assign place value => place.readVariables ∪ value.variables
  | alloc place size => place.readVariables ∪ size.variables
  | call result _ args =>
    args.foldl (fun names arg => names ∪ arg.variables) (result.elim ∅ LValue.readVariables)
  | fetch place => place.readVariables
  | assume condition => condition.variables
  | ret (some value) => value.variables
  | ret none => ∅
  | skip => ∅

/-- Whether a command writes a whole variable, so that what the variable held before is gone. -/
def overwrites (c : Command) : Bool := (c.target?.bind LValue.bareVar?).isSome

/-- A command in written form. -/
def text : Command → String
  | assign place value => place.text ++ " := " ++ value.text
  | alloc place size => place.text ++ " := alloc([" ++ size.text ++ "])"
  | call result callee args =>
    result.elim "" (fun place => place.text ++ " := ") ++ callee.text ++ "(" ++
      ", ".intercalate (args.map Expr.text) ++ ")"
  | fetch place => place.text ++ " := <external>"
  | assume condition => "assume(" ++ condition.text ++ ")"
  | ret (some value) => "return " ++ value.text
  | ret none => "return"
  | skip => "skip"

end Command

end AlarmDischarge
