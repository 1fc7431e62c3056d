import AlarmDischarge.Codec.Code
import AlarmDischarge.Proofs.Json.Access

/-!
# `AlarmDischarge.Proofs.Codec.Code`: programs are read back from JSON

The JSON of each part of a program represents it: `Node.represents`, `CType.represents`,
`Expr.represents` with the places, hosts and offsets that expressions are made from, and
`Command.represents`. The proofs follow the types, with one case for each constructor.
-/

set_option autoImplicit false

namespace AlarmDischarge

open Json (Represents)

/-! ### Nodes, types and variables -/

theorem Node.represents (n : Node) : Represents Node.ofJson? n.toJson n := by
  have hprocedure := Json.represents_text n.procedure
  have hindex := Json.represents_uint64 n.index
  refine ⟨.obj (by simp) (by simp [hprocedure.regular, hindex.regular]), ?_⟩
  simp [Node.toJson, Node.ofJson?, Json.record?, List.lookup_cons, hprocedure.required?_eq,
    hindex.required?_eq]

theorem CType.represents (t : CType) : Represents CType.ofJson? t.toJson t := by
  induction t with
  | void => exact ⟨.str _, rfl⟩
  | int => exact ⟨.str _, rfl⟩
  | char => exact ⟨.str _, rfl⟩
  | float => exact ⟨.str _, rfl⟩
  | ptr t ih => exact ih.tagged (by rw [Json.tagged, ofJson?])
  | array t n ih =>
    have hlength : Represents (Json.option? Json.int64?) (.ofOption .ofInt64 n) n :=
      .option fun m _ => ⟨Json.represents_int64 m, nofun⟩
    exact ih.taggedPair hlength (by rw [Json.tagged, ofJson?])
  | struct name => exact ⟨.tagged (.str name) _, rfl⟩

theorem Variable.represents (v : Variable) : Represents Variable.ofJson? v.toJson v := by
  have hname := Json.represents_text v.name
  have hglobal := Json.represents_bool v.isGlobal
  have htype := v.type.represents
  refine ⟨.obj (by simp) (by simp [hname.regular, hglobal.regular, htype.regular]), ?_⟩
  simp [Variable.toJson, Variable.ofJson?, Json.record?, List.lookup_cons, hname.required?_eq,
    hglobal.required?_eq, htype.required?_eq]

theorem Constant.represents (c : Constant) : Represents Constant.ofJson? c.toJson c := by
  cases c with
  | int value => exact (Json.represents_int64 value).tagged (by rw [Json.tagged, ofJson?])
  | char value => exact (Json.represents_char value).tagged (by rw [Json.tagged, ofJson?])
  | str value => exact (Json.represents_text value).tagged (by rw [Json.tagged, ofJson?])

/-! ### Operators -/

theorem UnaryOp.represents (op : UnaryOp) : Represents UnaryOp.ofJson? op.toJson op := by
  refine ⟨.str _, ?_⟩
  cases op
  all_goals rfl

theorem BinaryOp.represents (op : BinaryOp) : Represents BinaryOp.ofJson? op.toJson op := by
  refine ⟨.str _, ?_⟩
  cases op
  all_goals rfl

/-! ### Expressions and places -/

mutual

theorem Expr.represents : (e : Expr) → Represents Expr.ofJson? e.toJson e
  | .const c => c.represents.tagged (by rw [Json.tagged, Expr.ofJson?])
  | .lval place => place.represents.tagged (by rw [Json.tagged, Expr.ofJson?])
  | .sizeOfType t => t.represents.tagged (by rw [Json.tagged, Expr.ofJson?])
  | .sizeOf e => e.represents.tagged (by rw [Json.tagged, Expr.ofJson?])
  | .unary op e => op.represents.taggedPair e.represents (by rw [Json.tagged, Expr.ofJson?])
  | .binary op lhs rhs => by
    have hop := op.represents
    have hlhs := lhs.represents
    have hrhs := rhs.represents
    refine ⟨.tagged (.arr (by simp [hop.regular, hlhs.regular, hrhs.regular])) _, ?_⟩
    simp [Expr.toJson, Json.tagged, Expr.ofJson?, hop.read_eq, hlhs.read_eq, hrhs.read_eq]
  | .cast t e => t.represents.taggedPair e.represents (by rw [Json.tagged, Expr.ofJson?])
  | .addrOf place => place.represents.tagged (by rw [Json.tagged, Expr.ofJson?])
  | .startOf place => place.represents.tagged (by rw [Json.tagged, Expr.ofJson?])

theorem LValue.represents : (place : LValue) → Represents LValue.ofJson? place.toJson place
  | .mk host offset => by
    have hhost := host.represents
    have hoffset := offset.represents
    refine ⟨.obj (by simp) (by simp [hhost.regular, hoffset.regular]), ?_⟩
    simp [LValue.toJson, LValue.ofJson?, List.lookup_cons, hhost.read_eq, hoffset.read_eq]

theorem Host.represents : (host : Host) → Represents Host.ofJson? host.toJson host
  | .var v => v.represents.tagged (by rw [Json.tagged, Host.ofJson?])
  | .mem address => address.represents.tagged (by rw [Json.tagged, Host.ofJson?])

theorem Offset.represents : (offset : Offset) → Represents Offset.ofJson? offset.toJson offset
  | .none => ⟨.str _, by simp [Offset.toJson, Offset.ofJson?, Json.unit?]⟩
  | .field name rest =>
    (Json.represents_text name).taggedPair rest.represents (by rw [Json.tagged, Offset.ofJson?])
  | .index subscript rest =>
    subscript.represents.taggedPair rest.represents (by rw [Json.tagged, Offset.ofJson?])

end

/-! An expression or a place that is there is not taken for an absent one. -/

theorem Expr.toJson_ne_null (e : Expr) : e.toJson ≠ .null := by
  cases e
  all_goals
    rw [Expr.toJson, Json.tagged]
    nofun

theorem LValue.toJson_ne_null (place : LValue) : place.toJson ≠ .null := by
  cases place
  rw [LValue.toJson]
  nofun

theorem Expr.represents_list (es : List Expr) :
    Represents (Json.list? Expr.ofJson?) (.ofList Expr.toJson es) es :=
  .list fun e _ => e.represents

/-! ### Commands -/

theorem Command.represents_allocation (size : Expr) :
    Represents allocationOfJson? (allocationToJson size) size := by
  have hsize := size.represents
  exact ⟨hsize.regular.tagged _, hsize.read_eq⟩

theorem Command.represents (c : Command) : Represents Command.ofJson? c.toJson c := by
  cases c with
  | assign place value =>
    have hplace := place.represents
    have hvalue := value.represents
    refine ⟨.tagged (.obj (by simp) (by simp [hplace.regular, hvalue.regular])) _, ?_⟩
    rw [toJson, Json.tagged, ofJson?, hplace.field_eq, hvalue.field_eq]
    all_goals rfl
  | alloc place size =>
    have hplace := place.represents
    have hsize := represents_allocation size
    refine ⟨.tagged (.obj (by simp) (by simp [hplace.regular, hsize.regular])) _, ?_⟩
    rw [toJson, Json.tagged, ofJson?, hplace.field_eq, hsize.field_eq]
    all_goals rfl
  | call result callee args =>
    have hresult : Represents (Json.option? LValue.ofJson?) (.ofOption LValue.toJson result)
        result :=
      .option fun place _ => ⟨place.represents, place.toJson_ne_null⟩
    have hcallee := callee.represents
    have hargs := Expr.represents_list args
    refine ⟨.tagged (.obj (by simp)
      (by simp [hresult.regular, hcallee.regular, hargs.regular])) _, ?_⟩
    rw [toJson, Json.tagged, ofJson?, List.lookup_cons_self, hresult.defaulted?_eq,
      hcallee.field_eq, hargs.field_eq]
    all_goals rfl
  | fetch place =>
    have hplace := place.represents
    refine ⟨.tagged (.obj (by simp) (by simp [hplace.regular])) _, ?_⟩
    rw [toJson, Json.tagged, ofJson?, hplace.field_eq]
    all_goals rfl
  | assume condition => exact condition.represents.tagged (by rw [Json.tagged, ofJson?])
  | ret value =>
    have hvalue : Represents (Json.option? Expr.ofJson?) (.ofOption Expr.toJson value) value :=
      .option fun e _ => ⟨e.represents, e.toJson_ne_null⟩
    exact hvalue.tagged (by rw [Json.tagged, ofJson?])
  | skip => exact ⟨.str _, by simp [toJson, ofJson?, Json.unit?]⟩

end AlarmDischarge
