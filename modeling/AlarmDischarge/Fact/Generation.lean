import AlarmDischarge.Code.Command
import AlarmDischarge.Fact.Set
import AlarmDischarge.Journal
import AlarmDischarge.Logic.Conversion

/-!
# `AlarmDischarge.Fact.Generation`: the facts a command establishes

| command                                 | fact                  |
|-----------------------------------------|-----------------------|
| `p := e`, both with a term              | `p = e`               |
| `a := alloc([n])`, `a` a whole variable | `arrsize(a) = n`      |
| `x := phi(y, z)`, `y`, `z` variables    | `(x = y || x = z)`    |
| `assume(l < r)`, both with a term       | `l < r`               |
| `assume(!c)`, where `c` establishes `f` | `!(f)`                |

Every other command establishes nothing: a fact left out only costs precision.

Main definitions: `Reading`, `Expr.conditionReading` (`condition_fact`), `Command.mergeReading`
(`phi_fact`), `Command.reading` and `Command.facts` (`generate_facts`).
-/

set_option autoImplicit false

namespace AlarmDischarge

open Std

/-- What reading a command for a fact yields: a fact, nothing to read, or something of the right
form (written as `subject`) with a part that has no term. -/
inductive Reading where
  | fact (f : Formula)
  | nothing
  | obscure (subject : String) (cause : NotConvertible)
deriving DecidableEq

namespace Reading

/-- The fact read, if one is. -/
def fact? : Reading → Option Formula
  | fact f => some f
  | nothing => none
  | obscure _ _ => none

/-- Changes the fact read. -/
def map (change : Formula → Formula) : Reading → Reading
  | fact f => fact (change f)
  | nothing => nothing
  | obscure subject cause => obscure subject cause

/-- A fact that rests on a conversion. -/
def ofConversion (subject : String) : Except NotConvertible Formula → Reading
  | .ok f => fact f
  | .error cause => obscure subject cause

/-- An obscure reading leaves a note. -/
def journal : Reading → Journal
  | obscure subject cause => .single .trace (subject ++ " contributes nothing: " ++ cause.message)
  | fact _ => []
  | nothing => []

end Reading

/-- What a branch condition says when it holds. -/
def Expr.conditionReading : Expr → Reading
  | .unary .not e => e.conditionReading.map .not
  | .binary .lt lhs rhs =>
    .ofConversion ("assume(" ++ (Expr.binary .lt lhs rhs).text ++ ")") do
      let l ← lhs.toTerm
      let r ← rhs.toTerm
      return .lt l r
  | _ => .nothing

/-- The name under which merges of values at joins are called. -/
def mergeFunction : String := "phi"

namespace Command

/-- What a merge of two variables into a place says. -/
def mergeReading (subject : String) (place : LValue) (args : List Expr) : Reading :=
  match args with
  | [first, second] =>
    match first.bareVar?, second.bareVar? with
    | some a, some b =>
      .ofConversion subject do
        let result ← place.toTerm
        return .or (.eq result (.var a.name)) (.eq result (.var b.name))
    | _, _ => .nothing
  | _ => .nothing

/-- What a command says once it has been passed. -/
def reading (c : Command) : Reading :=
  match c with
  | assign place value =>
    .ofConversion c.text do
      let l ← place.toTerm
      let r ← value.toTerm
      return .eq l r
  | alloc place size =>
    match place.bareVar? with
    | some array =>
      .ofConversion c.text do
        let n ← size.toTerm
        return .eq (.arraySize (.var array.name)) n
    | none => .nothing
  | call (some place) _ args =>
    if c.calleeName? = some mergeFunction then mergeReading c.text place args else .nothing
  | assume condition => condition.conditionReading
  | call none _ _ => .nothing
  | fetch _ => .nothing
  | ret _ => .nothing
  | skip => .nothing

/-- The facts a command establishes. -/
def facts (c : Command) : FactSet :=
  match c.reading.fact? with
  | some f => {f}
  | none => ∅

end Command

end AlarmDischarge
