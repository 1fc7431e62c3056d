import AlarmDischarge.Json.Printer
import AlarmDischarge.Json.Token
import AlarmDischarge.Proofs.Digit
import Mathlib.Data.List.TakeWhile

/-!
# `AlarmDischarge.Proofs.Json.Token`: scanning what was printed

The printer writes quoted texts, integers, words, marks and blanks. This module says of each of these
what tokens scanning finds in it, so that a longer text can be put together from them:

* `readString?_escaped`: the characters of a quoted text come back, whatever they are;
* `readNumber?_repr`: a 64-bit integer comes back;
* `Scans`, `ScansApart`: a text stands for tokens, wherever it occurs. A number is the one text that
  must be kept apart from what follows, since a further digit would belong to it.
-/

set_option autoImplicit false

namespace AlarmDischarge.Json

/-! ### Quoted texts -/

/-- Two hexadecimal digits behind two zeros are a code unit. -/
theorem readUnit?_digitChar {a b : Nat} (ha : a < 16) (hb : b < 16) (rest : List Char) :
    readUnit? ('0' :: '0' :: Nat.digitChar a :: Nat.digitChar b :: rest) =
      some (16 * a + b, rest) := by
  have hzero : '0' = Nat.digitChar 0 := rfl
  simp only [readUnit?, Text.number?, reduceCtorEq, if_false, List.foldlM_cons, List.foldlM_nil]
  rw [hzero]
  simp [Text.pushDigit?_digitChar, ha, hb]

/-- The escape of a control character is read as that character. -/
theorem readEscape?_control {c : Char} (h : c.toNat < 0x20) (rest : List Char) :
    readEscape? ('u' :: '0' :: '0' :: Nat.digitChar (c.toNat / 16) ::
      Nat.digitChar (c.toNat % 16) :: rest) = some (c, rest) := by
  have hunit : 16 * (c.toNat / 16) + c.toNat % 16 = c.toNat := Nat.div_add_mod _ 16
  show readCodePoint? _ = _
  rw [readCodePoint?, readUnit?_digitChar (by omega) (by omega), hunit]
  show (if c.toNat < 0xD800 ∨ 0xE000 ≤ c.toNat then some (Char.ofNat c.toNat, rest) else _) = _
  rw [if_pos (.inl (by omega)), Char.ofNat_toNat]

theorem readString?_escape {cs rest : List Char} {c : Char} (h : readEscape? cs = some (c, rest)) :
    readString? ('\\' :: cs) = (readString? rest).map fun r => (c :: r.1, r.2) := by
  rw [readString?]
  split
  · rename_i hread
    rw [h] at hread
    cases hread
    rfl
  · rename_i hread
    rw [h] at hread
    cases hread

/-- A character is read back from the form in which it stands in a quoted text. -/
theorem readString?_escapeChar (c : Char) (rest : List Char) :
    readString? (escapeChar c ++ rest) = (readString? rest).map fun r => (c :: r.1, r.2) := by
  unfold escapeChar
  split
  · exact readString?_escape rfl
  · exact readString?_escape rfl
  · exact readString?_escape rfl
  · exact readString?_escape rfl
  · exact readString?_escape rfl
  · exact readString?_escape rfl
  · exact readString?_escape rfl
  · rename_i hquote hbackslash _ _ _ _ _
    split
    · -- One digit, which the printer fills up with a zero.
      rename_i hsmall
      have hescape := readEscape?_control (c := c) (by omega) rest
      rw [Nat.div_eq_of_lt hsmall, Nat.mod_eq_of_lt hsmall] at hescape
      rw [Text.hex, Nat.toDigits_of_lt_base hsmall]
      exact readString?_escape hescape
    · split
      · rename_i hsmall
        have hescape := readEscape?_control hsmall rest
        rw [Text.hex, Nat.toDigits_of_base_le (by decide) (by omega),
          Nat.toDigits_of_lt_base (by omega)]
        exact readString?_escape hescape
      · rename_i hplain
        rw [List.singleton_append, readString?]
        · rw [if_neg hplain]
        · exact hquote
        · exact hbackslash

/-- A quoted text is read back up to its closing quote. -/
theorem readString?_escaped (cs rest : List Char) :
    readString? (cs.flatMap escapeChar ++ '"' :: rest) = some (cs, rest) := by
  induction cs with
  | nil => rw [List.flatMap_nil, List.nil_append, readString?]
  | cons c cs ih =>
    rw [List.flatMap_cons, List.append_assoc, readString?_escapeChar, ih]
    rfl

/-! ### Integers -/

theorem digitsValue_toDigits (n : Nat) : digitsValue (Nat.toDigits 10 n) = n :=
  Nat.ofDigitChars_ten_toDigits

namespace Numeral

/-- An integer as the parts of a written number. -/
def ofNat (negative : Bool) (n : Nat) : Numeral := ⟨negative, Nat.toDigits 10 n, none, none⟩

/-- The digits of a number are a whole part that the reader does not refuse. -/
theorem wellFormed_toDigits (n : Nat) :
    ¬ (Nat.toDigits 10 n = [] ∨
      (Nat.toDigits 10 n).head? = some '0' ∧ (Nat.toDigits 10 n).length ≠ 1) := by
  rintro (hnil | ⟨hhead, hlength⟩)
  · exact Nat.toDigits_ne_nil hnil
  · rcases Nat.eq_zero_or_pos n with rfl | hpos
    · exact hlength rfl
    · exact Text.head?_toDigits hpos hhead

theorem takeWhile_toDigits (n : Nat) :
    (Nat.toDigits 10 n).takeWhile Char.isDigit = Nat.toDigits 10 n :=
  List.takeWhile_eq_self_iff.mpr (Text.isDigit_toDigits n)

theorem dropWhile_toDigits (n : Nat) : (Nat.toDigits 10 n).dropWhile Char.isDigit = [] :=
  List.dropWhile_eq_nil_iff.mpr (Text.isDigit_toDigits n)

theorem read?_neg_toDigits (n : Nat) :
    read? ('-' :: Nat.toDigits 10 n) = some (ofNat true n) := by
  simp only [read?]
  rw [takeWhile_toDigits, dropWhile_toDigits, if_neg (wellFormed_toDigits n)]
  rfl

theorem read?_toDigits (n : Nat) : read? (Nat.toDigits 10 n) = some (ofNat false n) := by
  unfold read?
  split
  rename_i negative cs hsign
  split at hsign
  · -- No digit is a minus sign.
    rename_i rest hdigits
    have hminus := Text.isDigit_toDigits n '-' (by rw [hdigits]; exact List.mem_cons_self)
    cases hminus
  · cases hsign
    rw [takeWhile_toDigits, dropWhile_toDigits, if_neg (wellFormed_toDigits n)]
    rfl

/-- A number of 64 bits has at most twenty digits, and is far from the limit of the reader. -/
theorem inRange_ofNat {n : Nat} (h : n < UInt64.size) (negative : Bool) :
    (ofNat negative n).inRange = true := by
  have hlength : (Nat.toDigits 10 n).length ≤ 20 :=
    (Nat.length_toDigits_le_iff (by decide) (by decide)).mpr (Nat.lt_trans h (by decide))
  have hdrop := (List.dropWhile_suffix (· == '0') (l := Nat.toDigits 10 n)).length_le
  unfold inRange
  refine if_pos (.inr ?_)
  show ((List.dropWhile (· == '0') (Nat.toDigits 10 n ++ [])).length : Int) + 0 < 309
  rw [List.append_nil]
  omega

end Numeral

/-- A 64-bit integer is read back from its decimal form. -/
theorem readNumber?_repr {n : Int} (h : n.natAbs < UInt64.size) :
    readNumber? n.repr.toList = some (.int n) := by
  cases n with
  | ofNat n =>
    show readNumber? (Nat.repr n).toList = _
    rw [Nat.toList_repr, readNumber?, Numeral.read?_toDigits]
    show (if _ then some (Numeral.token _ _) else none) = _
    rw [if_pos (Numeral.inRange_ofNat (n := n) h false)]
    simp [Numeral.token, Numeral.ofNat, digitsValue_toDigits]
  | negSucc n =>
    show readNumber? ("-" ++ Nat.repr (n + 1)).toList = _
    rw [String.toList_append, Nat.toList_repr]
    show readNumber? ('-' :: Nat.toDigits 10 (n + 1)) = _
    rw [readNumber?, Numeral.read?_neg_toDigits]
    show (if _ then some (Numeral.token _ _) else none) = _
    rw [if_pos (Numeral.inRange_ofNat (n := n + 1) h true)]
    simp only [Numeral.token, Numeral.ofNat, digitsValue_toDigits]
    rfl

/-! ### Texts that stand for tokens -/

/-- A text does not go on with a number that stands before it. -/
def Ends (rest : List Char) : Prop := ∀ c ∈ rest.head?, isNumberChar c = false

/-- A text stands for tokens, whatever follows. -/
def Scans (cs : List Char) (ts : List Token) : Prop :=
  ∀ rest, Token.scan? (cs ++ rest) = (Token.scan? rest).map (ts ++ ·)

/-- A text stands for tokens, if what follows does not go on with a number. -/
def ScansApart (cs : List Char) (ts : List Token) : Prop :=
  ∀ rest, Ends rest → Token.scan? (cs ++ rest) = (Token.scan? rest).map (ts ++ ·)

section

variable {cs ds : List Char} {ts us : List Token}

theorem map_append_map_append (found : Option (List Token)) :
    (found.map (us ++ ·)).map (ts ++ ·) = found.map (ts ++ us ++ ·) := by
  cases found with
  | none => rfl
  | some vs => simp

theorem Scans.apart (h : Scans cs ts) : ScansApart cs ts := by
  intro rest _
  exact h rest

theorem Scans.append (h : Scans cs ts) (h' : Scans ds us) : Scans (cs ++ ds) (ts ++ us) := by
  intro rest
  rw [List.append_assoc, h, h', map_append_map_append]

theorem Scans.append_apart (h : Scans cs ts) (h' : ScansApart ds us) :
    ScansApart (cs ++ ds) (ts ++ us) := by
  intro rest hrest
  rw [List.append_assoc, h, h' rest hrest, map_append_map_append]

/-- What begins with a character that no number has keeps a number apart from what follows. -/
theorem ScansApart.append {d : Char} (h : ScansApart cs ts) (hd : isNumberChar d = false)
    (h' : Scans (d :: ds) us) : Scans (cs ++ d :: ds) (ts ++ us) := by
  intro rest
  have hends : Ends (d :: ds ++ rest) := by
    rintro c hc
    rw [← Option.some.inj hc]
    exact hd
  rw [List.append_assoc, h _ hends, h', map_append_map_append]

end

/-- The marks between values, and their tokens. -/
def marks : List (Char × Token) :=
  [('\x7b', .openObject), ('\x7d', .closeObject), ('[', .openArray), (']', .closeArray),
    (',', .comma), (':', .colon)]

theorem scans_mark {c : Char} {t : Token} (h : (c, t) ∈ marks) : Scans [c] [t] := by
  intro rest
  simp only [marks, List.mem_cons, Prod.mk.injEq, List.not_mem_nil, or_false] at h
  rw [List.singleton_append]
  rcases h with ⟨rfl, rfl⟩ | ⟨rfl, rfl⟩ | ⟨rfl, rfl⟩ | ⟨rfl, rfl⟩ | ⟨rfl, rfl⟩ | ⟨rfl, rfl⟩
  all_goals
    rw [Token.scan?]
    rfl

theorem scans_blank {c : Char} (h : isBlank c = true) : Scans [c] [] := by
  intro rest
  simp only [isBlank, Bool.or_eq_true, beq_iff_eq] at h
  rw [List.singleton_append]
  rcases h with ((rfl | rfl) | rfl) | rfl
  all_goals
    rw [Token.scan?, if_pos (by decide)]
    · simp
    all_goals simp

theorem scans_null : Scans "null".toList [.null] := by
  intro rest
  show Token.scan? ('n' :: 'u' :: 'l' :: 'l' :: rest) = _
  rw [Token.scan?]
  rfl

theorem scans_bool (b : Bool) : Scans (if b then "true" else "false").toList [.bool b] := by
  intro rest
  cases b with
  | true =>
    show Token.scan? ('t' :: 'r' :: 'u' :: 'e' :: rest) = _
    rw [Token.scan?]
    rfl
  | false =>
    show Token.scan? ('f' :: 'a' :: 'l' :: 's' :: 'e' :: rest) = _
    rw [Token.scan?]
    rfl

theorem scans_quote (s : String) : Scans (quote s).toList [.str s] := by
  intro rest
  have hread : readString? (s.toList.flatMap escapeChar ++ (['"'] ++ rest)) =
      some (s.toList, rest) :=
    readString?_escaped s.toList rest
  rw [quote, String.toList_ofList]
  show Token.scan? ('"' :: (s.toList.flatMap escapeChar ++ ['"'] ++ rest)) = _
  rw [List.append_assoc, Token.scan?]
  split
  · rename_i hbody
    rw [hread] at hbody
    cases hbody
    rw [String.ofList_toList]
    rfl
  · rename_i hbody
    rw [hread] at hbody
    cases hbody

/-! ### Scanning a number -/

theorem isBlank_of_isNumberChar {c : Char} (h : isNumberChar c = true) : isBlank c = false := by
  rw [Bool.eq_false_iff]
  intro hblank
  simp only [isBlank, Bool.or_eq_true, beq_iff_eq] at hblank
  rcases hblank with ((rfl | rfl) | rfl) | rfl
  all_goals exact absurd h (by decide)

/-- Where a number begins, all the number characters there are belong to it. -/
theorem scan?_numberChar {c : Char} (hc : isNumberChar c = true) (rest : List Char) :
    Token.scan? (c :: rest) =
      (readNumber? (c :: rest.takeWhile isNumberChar)).bind fun t =>
        (Token.scan? (rest.dropWhile isNumberChar)).map (t :: ·) := by
  -- Neither a mark nor a quote nor the first letter of a word can occur in a number.
  have hne : ∀ d, isNumberChar d = false → c ≠ d := by
    rintro d hd rfl
    rw [hc] at hd
    cases hd
  rw [Token.scan?, if_neg (by rw [isBlank_of_isNumberChar hc]; decide), if_pos hc]
  · cases readNumber? (c :: rest.takeWhile isNumberChar) with
    | none => rfl
    | some t =>
      cases Token.scan? (rest.dropWhile isNumberChar) with
      | none => rfl
      | some ts => rfl
  all_goals
    intros
    refine hne _ ?_ (by assumption)
    decide

theorem scansApart_number {c : Char} {cs : List Char} {t : Token}
    (hchars : ∀ d ∈ c :: cs, isNumberChar d = true) (h : readNumber? (c :: cs) = some t) :
    ScansApart (c :: cs) [t] := by
  intro rest hrest
  have hcs : ∀ d ∈ cs, isNumberChar d = true := fun d hd => hchars d (List.mem_cons_of_mem _ hd)
  have hend : rest.takeWhile isNumberChar = [] ∧ rest.dropWhile isNumberChar = rest := by
    cases rest with
    | nil => exact ⟨rfl, rfl⟩
    | cons d rest =>
      have hd : ¬ isNumberChar d = true := by
        rw [hrest d rfl]
        decide
      exact ⟨List.takeWhile_cons_of_neg hd, List.dropWhile_cons_of_neg hd⟩
  rw [List.cons_append, scan?_numberChar (hchars c List.mem_cons_self),
    List.takeWhile_append_of_pos hcs, List.dropWhile_append_of_pos hcs, hend.1, hend.2,
    List.append_nil, h]
  rfl

theorem isNumberChar_of_isDigit {c : Char} (h : c.isDigit = true) : isNumberChar c = true := by
  rw [isNumberChar, h, Bool.true_or]

/-- The decimal form of an integer has a first character, and number characters only. -/
theorem exists_toList_repr (n : Int) :
    ∃ c cs, n.repr.toList = c :: cs ∧ ∀ d ∈ c :: cs, isNumberChar d = true := by
  cases n with
  | ofNat n =>
    have hlist : (Int.ofNat n).repr.toList = Nat.toDigits 10 n := Nat.toList_repr
    rw [hlist]
    cases hdigits : Nat.toDigits 10 n with
    | nil => exact absurd hdigits Nat.toDigits_ne_nil
    | cons c cs =>
      refine ⟨c, cs, rfl, fun d hd => isNumberChar_of_isDigit (Text.isDigit_toDigits n d ?_)⟩
      rw [hdigits]
      exact hd
  | negSucc n =>
    refine ⟨'-', Nat.toDigits 10 (n + 1), ?_, ?_⟩
    · show ("-" ++ Nat.repr (n + 1)).toList = _
      rw [String.toList_append, Nat.toList_repr]
      rfl
    · intro d hd
      rcases List.mem_cons.mp hd with rfl | hdigit
      · decide
      · exact isNumberChar_of_isDigit (Text.isDigit_toDigits _ d hdigit)

theorem scansApart_int {n : Int} (h : n.natAbs < UInt64.size) :
    ScansApart n.repr.toList [.int n] := by
  obtain ⟨c, cs, hlist, hchars⟩ := exists_toList_repr n
  have hread := readNumber?_repr h
  rw [hlist] at hread ⊢
  exact scansApart_number hchars hread

end AlarmDischarge.Json
