import AlarmDischarge.Code.Expr.Text
import AlarmDischarge.Logic.Term

/-!
# `AlarmDischarge.Logic.Conversion`: from expressions to terms

An expression has a term when it is an integer literal, a variable, a field of what a pointer
variable points to, what a local pointer variable points to, a sum of integers, or the size of an
expression that has a term; casts are looked through. Nothing else has a term, and a part without a
term leaves the whole without one.

Main definitions: `NotConvertible` (`ConversionError`), `Expr.toTerm` (`convert`), `LValue.toTerm`
(`convert_lval`).
-/

set_option autoImplicit false

namespace AlarmDischarge

/-- Why an expression has no term: the part that cannot be converted, in written form. -/
structure NotConvertible where
  expr : String
deriving DecidableEq

/-- The message of a failed conversion. -/
def NotConvertible.message (e : NotConvertible) : String :=
  "expression not convertible to a term: " ++ e.expr

/-- The term of a place. A field `f` behind a pointer `p` is the variable `p->f`; what a local
pointer `p` refers to is the variable `p->this`. -/
def LValue.toTerm (place : LValue) : Except NotConvertible Term :=
  match place with
  | .mk (.var v) .none => .ok (.var v.name)
  | .mk (.mem address) (.field name .none) =>
    match address.bareVar? with
    | some v => .ok (.var (v.name ++ "->" ++ name))
    | none => .error ⟨place.text⟩
  | .mk (.mem address) .none =>
    match address.bareVar? with
    | some v => if v.isGlobal then .error ⟨place.text⟩ else .ok (.var (v.name ++ "->this"))
    | none => .error ⟨place.text⟩
  | _ => .error ⟨place.text⟩

/-- The term of an expression; of two parts without a term the left one is reported. -/
def Expr.toTerm : Expr → Except NotConvertible Term
  | .const (.int value) => .ok (.int value)
  | .lval place => place.toTerm
  | .binary .add lhs rhs => do
    let l ← lhs.toTerm
    let r ← rhs.toTerm
    return .add l r
  | .cast _ e => e.toTerm
  | .sizeOf e => do
    let t ← e.toTerm
    return .sizeOf t
  | e => .error ⟨e.text⟩

end AlarmDischarge
