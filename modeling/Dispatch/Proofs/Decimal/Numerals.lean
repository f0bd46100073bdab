import Dispatch.Decimal.Digits
import Mathlib.Data.List.Induction
import Mathlib.Data.Nat.Digits.Defs
/-!
# Numerals

Digits denote a number by their places, and with a minus sign in front its negative
(`Decimal.Denotes`); leading zeros do not count, and zero may have the sign. To read a text as
an integer is to find the integer that it denotes (`readInt?_eq_some_iff`), so every integer
is read from what is written for it (`denotes_intText`).
-/
namespace Dispatch.Decimal

/-- The characters are digits, at least one, and denote the number in base ten. -/
structure Numeral (cs : List Char) (n : Nat) : Prop where
  nonempty : cs ≠ []
  digits : ∀ c ∈ cs, isDigit c = true
  /-- The last digit is that of the ones. -/
  value : n = Nat.ofDigits 10 (cs.reverse.map digitValue)

/-- The characters are an optional minus sign and digits, and denote the integer. -/
inductive Denotes : List Char → Int → Prop
  | plain {cs : List Char} {n : Nat} (numeral : Numeral cs n) : Denotes cs n
  | negated {cs : List Char} {n : Nat} (numeral : Numeral cs n) : Denotes ('-' :: cs) (-n)

variable {cs : List Char}

/-! ## Reading -/

theorem ofDigits_eq (cs : List Char) :
    ofDigits cs = Nat.ofDigits 10 (cs.reverse.map digitValue) := by
  induction cs using List.reverseRecOn with
  | nil => rfl
  | append_singleton cs c ih =>
    have hstep : ofDigits (cs ++ [c]) = 10 * ofDigits cs + digitValue c := by
      rw [ofDigits, List.foldl_append]
      rfl
    rw [hstep, ih, List.reverse_concat, List.map_cons, Nat.ofDigits_cons, Nat.add_comm]

theorem readNat?_eq_some_iff {n : Nat} : readNat? cs = some n ↔ Numeral cs n := by
  simp only [readNat?, Bool.or_eq_true, List.isEmpty_iff, Bool.not_eq_true']
  constructor
  · intro h
    split at h
    · simp at h
    · next hdigits =>
      rw [not_or, Bool.not_eq_false, List.all_eq_true] at hdigits
      exact ⟨hdigits.1, hdigits.2, (Option.some.inj h).symm.trans (ofDigits_eq cs)⟩
  · rintro ⟨nonempty, digits, rfl⟩
    have hall := List.all_eq_true.2 digits
    rw [if_neg (by simp [nonempty, hall]), ofDigits_eq]

/-- A sign is no digit. -/
theorem not_numeral_minus {n : Nat} : ¬Numeral ('-' :: cs) n :=
  fun h => absurd (h.digits '-' List.mem_cons_self) (by decide)

theorem readInt?_minus (cs : List Char) :
    readInt? ('-' :: cs) = (readNat? cs).map fun n : Nat => -(n : Int) := by
  rw [readInt?]
  cases readNat? cs <;> rfl

theorem readInt?_of_ne_minus (h : ∀ ds, cs ≠ '-' :: ds) :
    readInt? cs = (readNat? cs).map Int.ofNat := by
  rw [readInt?]
  exact h

theorem readInt?_eq_some_iff {n : Int} : readInt? cs = some n ↔ Denotes cs n := by
  constructor
  · intro h
    by_cases hminus : ∃ ds, cs = '-' :: ds
    · obtain ⟨ds, rfl⟩ := hminus
      rw [readInt?_minus] at h
      obtain ⟨k, hk, rfl⟩ := Option.map_eq_some_iff.1 h
      exact .negated (readNat?_eq_some_iff.1 hk)
    · rw [readInt?_of_ne_minus (not_exists.1 hminus)] at h
      obtain ⟨k, hk, rfl⟩ := Option.map_eq_some_iff.1 h
      exact .plain (readNat?_eq_some_iff.1 hk)
  · rintro (numeral | numeral)
    · rw [readInt?_of_ne_minus fun ds h => not_numeral_minus (h ▸ numeral),
        readNat?_eq_some_iff.2 numeral]
      rfl
    · rw [readInt?_minus, readNat?_eq_some_iff.2 numeral]
      rfl

/-- An integer of 64 bits is read where it is denoted. -/
theorem readInt64?_eq_some_iff {k : Int64} : readInt64? cs = some k ↔ Denotes cs k.toInt := by
  simp only [readInt64?, Option.bind_eq_some_iff, readInt?_eq_some_iff,
    Int64.toInt_minValue, Int64.toInt_maxValue]
  constructor
  · rintro ⟨n, hn, h⟩
    split at h
    · next hrange =>
      obtain rfl := Option.some.inj h
      rwa [Int64.toInt_ofInt_of_le hrange.1 (by omega)]
    · simp at h
  · intro hk
    have hle := k.le_toInt
    have hlt := k.toInt_lt
    exact ⟨k.toInt, hk, by rw [if_pos ⟨hle, by omega⟩, Int64.ofInt_toInt]⟩

theorem readInt64?_eq_none_iff :
    readInt64? cs = none ↔ ∀ n, Denotes cs n → ¬(-2 ^ 63 ≤ n ∧ n < 2 ^ 63) := by
  rw [Option.eq_none_iff_forall_ne_some]
  constructor
  · rintro h n hn ⟨hle, hlt⟩
    refine h (Int64.ofInt n) (readInt64?_eq_some_iff.2 ?_)
    rwa [Int64.toInt_ofInt_of_le hle hlt]
  · intro h k hk
    exact h k.toInt (readInt64?_eq_some_iff.1 hk) ⟨k.le_toInt, k.toInt_lt⟩

/-! ## Writing -/

theorem isDigit_digitChar : ∀ d < 10, isDigit (digitChar d) = true := by decide

theorem digitValue_digitChar : ∀ d < 10, digitValue (digitChar d) = d := by decide

theorem numeral_natDigits (n : Nat) : Numeral (natDigits n) n := by
  fun_induction natDigits n with
  | case1 n hlt =>
    refine ⟨List.cons_ne_nil _ _, ?_, ?_⟩
    · simpa using isDigit_digitChar n hlt
    · simp [digitValue_digitChar n hlt]
  | case2 n hge ih =>
    have hlast : n % 10 < 10 := Nat.mod_lt n (by omega)
    refine ⟨by simp, ?_, ?_⟩
    · intro c hc
      rcases List.mem_append.1 hc with hc | hc
      · exact ih.digits c hc
      · rw [List.mem_singleton.1 hc]
        exact isDigit_digitChar _ hlast
    · rw [List.reverse_concat, List.map_cons, Nat.ofDigits_cons, ← ih.value,
        digitValue_digitChar _ hlast]
      exact (Nat.mod_add_div n 10).symm

theorem natText_of_lt {n : Nat} (h : n < 10) : natText n = String.singleton (digitChar n) := by
  rw [natText, natDigits, if_pos h, String.singleton_eq_ofList]

theorem toList_natText (n : Nat) : (natText n).toList = natDigits n := String.toList_ofList

/-- What is written for an integer denotes it. -/
theorem denotes_intText (n : Int) : Denotes (intText n).toList n := by
  cases n with
  | ofNat n =>
    rw [intText, toList_natText]
    exact .plain (numeral_natDigits n)
  | negSucc n =>
    rw [intText, String.toList_append, toList_natText, Int.negSucc_eq]
    exact .negated (numeral_natDigits (n + 1))

/-- What denotes an integer starts with a minus sign or a digit. -/
theorem Denotes.exists_cons {n : Int} (h : Denotes cs n) :
    ∃ c rest, cs = c :: rest ∧ (c = '-' ∨ isDigit c = true) := by
  cases h with
  | plain numeral =>
    obtain ⟨c, rest, rfl⟩ := List.exists_cons_of_ne_nil numeral.nonempty
    exact ⟨c, rest, rfl, .inr (numeral.digits c (List.mem_cons_self ..))⟩
  | negated numeral => exact ⟨'-', _, rfl, .inl rfl⟩

/-- Only zero is written with a zero in front. -/
theorem eq_zero_of_head?_natDigits {n : Nat} (h : (natDigits n).head? = some '0') : n = 0 := by
  have hzero : ∀ d < 10, digitChar d = '0' → d = 0 := by decide
  fun_induction natDigits n with
  | case1 n hlt => exact hzero n hlt (Option.some.inj h)
  | case2 n hge ih =>
    obtain ⟨c, cs, hdigits⟩ := List.exists_cons_of_ne_nil (numeral_natDigits (n / 10)).nonempty
    rw [hdigits] at ih h
    have hsmall := ih h
    omega

end Dispatch.Decimal
