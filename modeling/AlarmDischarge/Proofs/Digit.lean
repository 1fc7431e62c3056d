import AlarmDischarge.Text.Digit

/-!
# `AlarmDischarge.Proofs.Digit`: numbers are read back from their digits

Numbers are written without leading zeros and read digit by digit. Both text formats of the library
rest on this:

* `number?_toDigits`: the digits of a number in a base give the number back;
* `head?_toDigits`: the decimal digits of a positive number do not begin with a zero.
-/

set_option autoImplicit false

namespace AlarmDischarge.Text

theorem digit?_digitChar : ∀ d < 16, digit? (Nat.digitChar d) = some d := by
  decide

theorem pushDigit?_digitChar {base d : Nat} (hbase : base ≤ 16) (hd : d < base) (n : Nat) :
    pushDigit? base n (Nat.digitChar d) = some (base * n + d) := by
  rw [pushDigit?, digit?_digitChar d (Nat.lt_of_lt_of_le hd hbase), Option.bind_some, if_pos hd]

/-- The digits of a number in a base give the number back. The last digit is read last, so the
induction takes it off. -/
theorem number?_toDigits {base : Nat} (hone : 1 < base) (hbase : base ≤ 16) (n : Nat) :
    number? base (Nat.toDigits base n) = some n := by
  have hfold : (Nat.toDigits base n).foldlM (pushDigit? base) 0 = some n := by
    induction n using Nat.strongRecOn with
    | ind n ih =>
      rcases Nat.lt_or_ge n base with hlt | hge
      · rw [Nat.toDigits_of_lt_base hlt, List.foldlM_cons, pushDigit?_digitChar hbase hlt]
        show some (base * 0 + n) = some n
        rw [Nat.mul_zero, Nat.zero_add]
      · have hpos : 0 < base := by omega
        have hsmaller : n / base < n := Nat.div_lt_self (by omega) hone
        rw [Nat.toDigits_of_base_le hone hge, List.foldlM_append, ih _ hsmaller]
        show ([Nat.digitChar (n % base)].foldlM (pushDigit? base) (n / base)) = some n
        rw [List.foldlM_cons, pushDigit?_digitChar hbase (Nat.mod_lt n hpos), Nat.div_add_mod]
        rfl
  rw [number?, if_neg Nat.toDigits_ne_nil, hfold]

theorem isDigit_toDigits (n : Nat) : ∀ c ∈ Nat.toDigits 10 n, c.isDigit = true :=
  fun _ => Nat.isDigit_of_mem_toDigits (by decide) (by decide)

/-- The digits of a positive number do not begin with a zero. -/
theorem head?_toDigits {n : Nat} (h : 0 < n) : (Nat.toDigits 10 n).head? ≠ some '0' := by
  induction n using Nat.strongRecOn with
  | ind n ih =>
    rcases Nat.lt_or_ge n 10 with hlt | hge
    · rw [Nat.toDigits_of_lt_base hlt]
      simp only [List.head?_cons, ne_eq, Option.some.injEq, Nat.digitChar_eq_zero]
      omega
    · -- All digits but the last are those of a tenth of the number.
      have hhead := ih (n / 10) (by omega) (by omega)
      rw [Nat.toDigits_of_base_le (by decide) hge, List.head?_append]
      cases hdigits : (Nat.toDigits 10 (n / 10)).head? with
      | none => exact absurd (List.head?_eq_none_iff.mp hdigits) Nat.toDigits_ne_nil
      | some d =>
        rw [hdigits] at hhead
        exact hhead

end AlarmDischarge.Text
