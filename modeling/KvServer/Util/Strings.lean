import KvServer.Testclient.Lines
import Mathlib.Algebra.Order.Ring.Nat

/-!
# Numbers as text

`printf` writes a number as decimal digits with a sign, and `strtol` reads it back.  `strtol`
skips white space, takes an optional sign and digits as far as they go, clamps the number to
the range of its type and says where it stopped.  `atoi` is `strtol` cut down to an `int`, and
the `str_to_xx` functions also look whether the whole string was read.

What is written is read back, whatever follows, as long as no digit does
(`strtol_decimal`).
-/

namespace KvServer.Util

open Testclient

/-! ## Writing -/

/-- `'-'` -/
def MINUS : Byte := 45

/-- The decimal digits of a number. -/
def digits (n : Nat) : Str := (Nat.toDigits 10 n).map fun c => UInt8.ofNat c.toNat

/-- `%d`, and the same with `PRId64`. -/
def decimal (v : Int) : Str := if v < 0 then MINUS :: digits v.natAbs else digits v.natAbs

theorem digits_of_lt {n : Nat} (h : n < 10) : digits n = [UInt8.ofNat (48 + n)] := by
  rw [digits, Nat.toDigits_of_lt_base h, List.map_singleton, Nat.toNat_digitChar_of_lt_ten h]

theorem digits_of_ge {n : Nat} (h : 10 ≤ n) :
    digits n = digits (n / 10) ++ [UInt8.ofNat (48 + n % 10)] := by
  rw [digits, Nat.toDigits_of_base_le (by decide) h, List.map_append, List.map_singleton,
    Nat.toNat_digitChar_of_lt_ten (Nat.mod_lt n (by decide))]
  rfl

theorem digits_ne_nil (n : Nat) : digits n ≠ [] := by
  rw [digits, ne_eq, List.map_eq_nil_iff]
  exact Nat.toDigits_ne_nil

/-- How many digits a number has. -/
theorem length_digits_le_iff {n k : Nat} (hk : 0 < k) : (digits n).length ≤ k ↔ n < 10 ^ k := by
  rw [digits, List.length_map]
  exact Nat.length_toDigits_le_iff (by decide) hk

theorem toNat_digit {d : Nat} (h : d < 10) : (UInt8.ofNat (48 + d)).toNat = 48 + d := by
  rw [UInt8.toNat_ofNat']
  omega

theorem isDigit_digit {d : Nat} (h : d < 10) : IsDigit (UInt8.ofNat (48 + d)) := by
  have hd := toNat_digit h
  refine ⟨UInt8.le_iff_toNat_le.mpr ?_, UInt8.le_iff_toNat_le.mpr ?_⟩
  · rw [hd]
    exact Nat.le_add_right 48 d
  · rw [hd]
    show 48 + d ≤ 57
    omega

theorem isDigit_of_mem_digits {n : Nat} {c : Byte} (h : c ∈ digits n) : IsDigit c := by
  induction n using Nat.strongRecOn with
  | ind n ih =>
      rcases Nat.lt_or_ge n 10 with hlt | hge
      · rw [digits_of_lt hlt, List.mem_singleton] at h
        exact h ▸ isDigit_digit hlt
      · rw [digits_of_ge hge, List.mem_append, List.mem_singleton] at h
        rcases h with h | rfl
        · exact ih (n / 10) (Nat.div_lt_self (by omega) (by decide)) h
        · exact isDigit_digit (Nat.mod_lt n (by decide))

/-- The digits are read back. -/
@[simp] theorem number_digits (n : Nat) : number (digits n) = n := by
  induction n using Nat.strongRecOn with
  | ind n ih =>
      rcases Nat.lt_or_ge n 10 with hlt | hge
      · rw [digits_of_lt hlt, number, List.foldl_cons, List.foldl_nil, toNat_digit hlt]
        omega
      · have hdiv := ih (n / 10) (Nat.div_lt_self (by omega) (by decide))
        rw [number] at hdiv
        rw [digits_of_ge hge, number, List.foldl_append, hdiv, List.foldl_cons, List.foldl_nil,
          toNat_digit (Nat.mod_lt n (by decide))]
        omega

/-! ## Reading -/

def INT_MAX : Int := 2147483647

def LONG_MIN : Int := -9223372036854775808

def LONG_MAX : Int := 9223372036854775807

/-- The string from the sign on. -/
def behindSpaces (s : Str) : Str := s.dropWhile fun c => IsSpace c

/-- The digits that a number is read from. -/
def digitsOf (s : Str) : Str := (behindSign (behindSpaces s)).takeWhile fun c => IsDigit c

/-- `end - start`: what was read.  Without digits it is nothing. -/
def lengthRead (s : Str) : Nat :=
  if digitsOf s = [] then 0
  else s.length - (behindSign (behindSpaces s)).length + (digitsOf s).length

/-- `strtol(start, &end, 10)`, which is also `strtoll`. -/
def strtol (s : Str) : Int :=
  if digitsOf s = [] then 0
  else max LONG_MIN (min LONG_MAX (signed (behindSpaces s) (digitsOf s)))

/-- `(int)` of a `long`. -/
def toInt (v : Int) : Int := Int.bmod v 4294967296

def atoi (s : Str) : Int := toInt (strtol s)

/-- `str_to_int64`.  The flag is `errno == 0`. -/
def strToInt64 (s : Str) : Int × Bool := (strtol s, lengthRead s = s.length)

/-! ## What is written is read back -/

/-- No digit is in front. -/
def NoDigitFirst (s : Str) : Prop := ∀ c ∈ s.head?, ¬ IsDigit c

theorem takeWhile_digits {n : Nat} {t : Str} (ht : NoDigitFirst t) :
    (digits n ++ t).takeWhile (fun c => IsDigit c) = digits n := by
  rw [List.takeWhile_append_of_pos fun c hc => decide_eq_true (isDigit_of_mem_digits hc)]
  cases t with
  | nil => rw [List.takeWhile_nil, List.append_nil]
  | cons c t =>
      have hc : ¬ IsDigit c := ht c rfl
      rw [List.takeWhile_cons_of_neg (by simpa using hc), List.append_nil]

theorem not_isSpace_of_isDigit {c : Byte} (h : IsDigit c) : ¬ IsSpace c := by
  revert h
  refine forall_byte (P := fun c => IsDigit c → ¬ IsSpace c) ?_ c
  decide +kernel

theorem not_sign_of_isDigit {c : Byte} (h : IsDigit c) : c ≠ 45 ∧ c ≠ 43 := by
  revert h
  refine forall_byte (P := fun c => IsDigit c → c ≠ 45 ∧ c ≠ 43) ?_ c
  decide +kernel

/-- A number begins with a digit. -/
theorem digits_cons (n : Nat) : ∃ c t, digits n = c :: t ∧ IsDigit c := by
  cases h : digits n with
  | nil => exact absurd h (digits_ne_nil n)
  | cons c t => exact ⟨c, t, rfl, isDigit_of_mem_digits (h ▸ List.mem_cons_self)⟩

theorem behindSpaces_cons {c : Byte} {s : Str} (h : ¬ IsSpace c) :
    behindSpaces (c :: s) = c :: s :=
  List.dropWhile_cons_of_neg (by simpa using h)

/-- What the reading functions see of a number that was written. -/
structure Seen (v : Int) (t : Str) : Prop where
  digits : digitsOf (decimal v ++ t) = digits v.natAbs
  signed : signed (behindSpaces (decimal v ++ t)) (Util.digits v.natAbs) = v
  length : lengthRead (decimal v ++ t) = (decimal v).length

theorem seen_decimal (v : Int) {t : Str} (ht : NoDigitFirst t) : Seen v t := by
  obtain ⟨c, rest, hdigits, hc⟩ := digits_cons v.natAbs
  by_cases hv : v < 0
  · have hdecimal : decimal v = MINUS :: Util.digits v.natAbs := if_pos hv
    have hspaces : behindSpaces (decimal v ++ t) = MINUS :: (Util.digits v.natAbs ++ t) := by
      rw [hdecimal]
      exact behindSpaces_cons (by decide)
    have hsign : behindSign (behindSpaces (decimal v ++ t)) = Util.digits v.natAbs ++ t := by
      rw [hspaces]
      rfl
    have hread : digitsOf (decimal v ++ t) = Util.digits v.natAbs := by
      rw [digitsOf, hsign, takeWhile_digits ht]
    refine ⟨hread, ?_, ?_⟩
    · rw [Testclient.signed, hspaces, number_digits]
      show (-(v.natAbs : Int)) = v
      omega
    · rw [lengthRead, hread, if_neg (digits_ne_nil _), hsign, hdecimal]
      simp only [List.cons_append, List.length_cons, List.length_append]
      omega
  · have hdecimal : decimal v = Util.digits v.natAbs := if_neg hv
    have hspaces : behindSpaces (decimal v ++ t) = Util.digits v.natAbs ++ t := by
      rw [hdecimal, hdigits]
      exact behindSpaces_cons (not_isSpace_of_isDigit hc)
    have hhead : (Util.digits v.natAbs ++ t).head? = some c := by rw [hdigits]; rfl
    have hne := not_sign_of_isDigit hc
    have hsign : behindSign (behindSpaces (decimal v ++ t)) = Util.digits v.natAbs ++ t := by
      rw [hspaces, behindSign, hhead, if_neg (by simpa using hne)]
    have hread : digitsOf (decimal v ++ t) = Util.digits v.natAbs := by
      rw [digitsOf, hsign, takeWhile_digits ht]
    refine ⟨hread, ?_, ?_⟩
    · rw [Testclient.signed, hspaces, hhead, number_digits, if_neg (by simpa using hne.1)]
      omega
    · rw [lengthRead, hread, if_neg (digits_ne_nil _), hsign, hdecimal]
      simp only [List.length_append]
      omega

/-- A number that was written is read back, whatever follows it. -/
theorem strtol_decimal {v : Int} (hlo : LONG_MIN ≤ v) (hhi : v ≤ LONG_MAX) {t : Str}
    (ht : NoDigitFirst t) : strtol (decimal v ++ t) = v := by
  have hseen := seen_decimal v ht
  rw [strtol, hseen.digits, if_neg (digits_ne_nil _), hseen.signed, Int.min_eq_right hhi,
    Int.max_eq_right hlo]

theorem noDigitFirst_nil : NoDigitFirst [] := fun _ h => by cases h

theorem toInt_of_range {v : Int} (hlo : -2147483648 ≤ v) (hhi : v ≤ INT_MAX) : toInt v = v := by
  rw [INT_MAX] at hhi
  exact Int.bmod_eq_of_le (by omega) (by omega)

/-- `atoi` of a size. -/
theorem atoi_digits {n : Nat} (h : (n : Int) ≤ INT_MAX) {t : Str} (ht : NoDigitFirst t) :
    atoi (digits n ++ t) = n := by
  have hdecimal : decimal (n : Int) = digits n := if_neg (by omega)
  have hlong : (n : Int) ≤ LONG_MAX := Int.le_trans h (by decide)
  rw [atoi, ← hdecimal, strtol_decimal (Int.le_trans (by decide) (Int.natCast_nonneg n)) hlong ht,
    toInt_of_range (by omega) h]

end KvServer.Util
