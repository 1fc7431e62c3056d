import AlarmDischarge.Json.Access
import AlarmDischarge.Proofs.Json.Text

/-!
# `AlarmDischarge.Proofs.Json.Access`: values that JSON stands for

A type of the library is exchanged by a pair of functions, one that writes JSON and one that reads it.
Whether the two belong together is said value by value: the written JSON represents the value if it is
regular, so that it survives as text, and if reading it gives the value. This module has the cases
that all types are made from:

* `represents_int64`, `represents_uint64`, `represents_uint32`: integers of each width, over their
  whole range;
* `represents_char`, `represents_text`: any character and any text;
* `Represents.list`, `Represents.option`: what is represented item by item. An absent value is written
  as `null`, so nothing that is present may be written so;
* `Represents.tagged`, `Represents.taggedPair`: alternatives with one field, and with two;
* `Represents.parse?_bind`: what represents a value does so as text, too.
-/

set_option autoImplicit false

namespace AlarmDischarge.Json

variable {α β γ : Type} {read : Json → Option α} {write : α → Json} {j k : Json} {a : α}

/-- JSON stands for a value under a reader: its text determines it, and it is read as the value. -/
structure Represents (read : Json → Option α) (j : Json) (a : α) : Prop where
  regular : j.Regular
  read_eq : read j = some a

namespace Represents

/-- A value is read back from the text of what represents it. -/
theorem parse?_bind (h : Represents read j a) : (parse? j.pretty).bind read = some a := by
  rw [parse?_pretty h.regular, Option.bind_some, h.read_eq]

/-! The readers of records are not opened below, because opening them would compare the bounds of the
integers digit by digit. -/

theorem field_eq {fields : List (String × Json)} {name : String} (h : Represents read j a)
    (hfield : fields.lookup name = some j) : (fields.lookup name).bind read = some a := by
  rw [hfield]
  exact h.read_eq

theorem required?_eq (h : Represents read j a) : required? read (some j) = some a := h.read_eq

theorem defaulted?_eq (h : Represents read j a) (default : α) :
    defaulted? default read (some j) = some a := h.read_eq

end Represents

/-! ### Scalars -/

theorem represents_text (s : String) : Represents text? (str s) s := ⟨.str s, rfl⟩

theorem represents_bool (b : Bool) : Represents bool? (bool b) b := ⟨.bool b, rfl⟩

theorem represents_int64 (n : Int64) : Represents int64? (ofInt64 n) n := by
  have hmin : -2 ^ 63 ≤ n.toInt := Int64.le_toInt n
  have hmax : n.toInt < 2 ^ 63 := Int64.toInt_lt n
  have hsize : n.toInt.natAbs < UInt64.size := by
    show n.toInt.natAbs < 2 ^ 64
    omega
  refine ⟨.int hsize, ?_⟩
  rw [ofInt64, int64?, if_pos ⟨Int64.minValue_le_toInt n, Int64.toInt_le n⟩, Int64.ofInt_toInt]

theorem represents_uint64 (n : UInt64) : Represents uint64? (ofUInt64 n) n := by
  have hlt : n.toNat < UInt64.size := n.toNat_lt_size
  refine ⟨.int hlt, ?_⟩
  rw [ofUInt64, uint64?, if_pos ⟨by omega, by omega⟩, Int.toNat_natCast, UInt64.ofNat_toNat]

theorem represents_uint32 (n : UInt32) : Represents uint32? (ofUInt32 n) n := by
  have hlt : n.toNat < UInt32.size := n.toNat_lt_size
  refine ⟨.int (Nat.lt_trans hlt (by decide)), ?_⟩
  rw [ofUInt32, uint32?, if_pos ⟨by omega, by omega⟩, Int.toNat_natCast, UInt32.ofNat_toNat]

theorem represents_char (c : Char) : Represents char? (ofChar c) c := by
  refine ⟨.str _, ?_⟩
  simp [ofChar, char?]

/-! ### Containers -/

namespace Represents

theorem list {xs : List α} (h : ∀ x ∈ xs, Represents read (write x) x) :
    Represents (list? read) (ofList write xs) xs := by
  refine ⟨.arr ?_, ?_⟩
  · intro i hi
    obtain ⟨x, hx, rfl⟩ := List.mem_map.mp hi
    exact (h x hx).regular
  · show (xs.map write).mapM read = some xs
    induction xs with
    | nil => rfl
    | cons x xs ih =>
      have hrest := ih fun y hy => h y (List.mem_cons_of_mem _ hy)
      rw [List.map_cons, List.mapM_cons, (h x List.mem_cons_self).read_eq, hrest]
      rfl

theorem option {o : Option α} (h : ∀ x ∈ o, Represents read (write x) x ∧ write x ≠ null) :
    Represents (option? read) (ofOption write o) o := by
  cases o with
  | none => exact ⟨.null, rfl⟩
  | some x =>
    obtain ⟨hx, hnull⟩ := h x rfl
    refine ⟨hx.regular, ?_⟩
    show option? read (write x) = _
    rw [option?, hx.read_eq]
    · rfl
    · exact hnull

end Represents

/-! ### Alternatives -/

theorem Regular.tagged (h : j.Regular) (name : String) : (Json.tagged name j).Regular :=
  .obj (by simp) (by simpa using h)

namespace Represents

variable {readA : Json → Option α} {readB : Json → Option β} {readC : Json → Option γ} {b : β}
  {name : String}

/-- An alternative with one field, of a reader that looks at the tag and reads the field. -/
theorem tagged {make : α → γ} (h : Represents readA j a)
    (hread : readC (Json.tagged name j) = (readA j).map make) :
    Represents readC (Json.tagged name j) (make a) := by
  refine ⟨h.regular.tagged name, ?_⟩
  rw [hread, h.read_eq, Option.map_some]

/-- An alternative with two fields, of a reader that looks at the tag and reads the fields in turn. -/
theorem taggedPair {make : α → β → γ} (ha : Represents readA j a) (hb : Represents readB k b)
    (hread : readC (Json.tagged name (.arr [j, k])) =
      do return make (← readA j) (← readB k)) :
    Represents readC (Json.tagged name (.arr [j, k])) (make a b) := by
  refine ⟨.tagged (.arr (by simp [ha.regular, hb.regular])) name, ?_⟩
  rw [hread, ha.read_eq, hb.read_eq]
  rfl

end Represents

end AlarmDischarge.Json
