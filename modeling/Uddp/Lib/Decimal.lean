import Mathlib.Data.Nat.Digits.Defs
import Uddp.Lib.Text

/-!
# Decimal numbers

* `decimal`, `formatInt` : the verb `%d`; `parseNumber` : the same numbers read, however large;
* **`parseNumber_formatInt`** : what `%d` writes reads back;
* `parseInt_eq` : `strconv.ParseInt` is `parseNumber` within 64 bits, so `parseInt_formatInt` follows.
-/

namespace Uddp.Lib

/-- The ASCII digit of `d`. -/
def digit (d : Nat) : UInt8 := UInt8.ofNat (48 + d)

def decimal (n : Nat) : Bytes := if n = 0 then [48] else (Nat.digits 10 n).reverse.map digit

/-- The verb `%d`. -/
def formatInt (n : Int) : Bytes := if n < 0 then 45 :: decimal n.natAbs else decimal n.natAbs

/-- A sign or none, and digits. -/
def parseNumber (s : Bytes) : Option Int :=
  if (splitSign s).2 = [] then none
  else (parseDigits 0 (splitSign s).2).map (fun (n : Nat) => if (splitSign s).1 then -(n : Int) else n)

/-! ## Digits -/

theorem digit_range {d : Nat} (h : d < 10) : 48 ≤ digit d ∧ digit d ≤ 57 ∧ (digit d).toNat - 48 = d := by
  have hd : (digit d).toNat = 48 + d := by
    rw [digit, UInt8.toNat_ofNat']
    omega
  refine ⟨UInt8.le_iff_toNat_le.mpr ?_, UInt8.le_iff_toNat_le.mpr ?_, ?_⟩
  · rw [hd]
    exact Nat.le_add_right 48 d
  · rw [hd]
    exact Nat.add_le_add_left (Nat.le_of_lt_succ h) 48
  · omega

theorem parseDigits_append (n : Nat) (a b : Bytes) :
    parseDigits n (a ++ b) = (parseDigits n a).bind (fun m => parseDigits m b) := by
  induction a generalizing n with
  | nil => rfl
  | cons x a ih =>
      rw [List.cons_append, parseDigits, parseDigits]
      by_cases hx : 48 ≤ x ∧ x ≤ 57
      · rw [if_pos hx, if_pos hx, ih]
      · rw [if_neg hx, if_neg hx, Option.bind_none]

theorem parseDigits_digits {ds : List Nat} (h : ∀ d ∈ ds, d < 10) :
    parseDigits 0 (ds.reverse.map digit) = some (Nat.ofDigits 10 ds) := by
  induction ds with
  | nil => rfl
  | cons d ds ih =>
      obtain ⟨hlow, hhigh, hval⟩ := digit_range (h d (by simp))
      rw [List.reverse_cons, List.map_append, parseDigits_append, ih (fun x hx => h x (List.mem_cons_of_mem d hx)),
        Option.bind_some, List.map_cons, List.map_nil, parseDigits, if_pos ⟨hlow, hhigh⟩, parseDigits, hval,
        Nat.ofDigits_cons]
      congr 1
      omega

theorem parseDigits_decimal (n : Nat) : parseDigits 0 (decimal n) = some n := by
  unfold decimal
  by_cases h0 : n = 0
  · rw [if_pos h0, h0]
    decide
  · rw [if_neg h0, parseDigits_digits (fun d hd => Nat.digits_lt_base (by decide) hd), Nat.ofDigits_digits]

theorem decimal_ne_nil (n : Nat) : decimal n ≠ [] := by
  unfold decimal
  split_ifs with h0
  · exact List.cons_ne_nil _ _
  · simpa [Nat.digits_eq_nil_iff_eq_zero] using h0

theorem parseDigits_range {n m : Nat} {s : Bytes} (h : parseDigits n s = some m) : ∀ b ∈ s, 48 ≤ b ∧ b ≤ 57 := by
  induction s generalizing n with
  | nil => exact List.forall_mem_nil _
  | cons x s ih =>
      rw [parseDigits] at h
      by_cases hx : 48 ≤ x ∧ x ≤ 57
      · rw [if_pos hx] at h
        exact List.forall_mem_cons.mpr ⟨hx, ih h⟩
      · rw [if_neg hx] at h
        exact absurd h (by simp)

/-! ## Signed numbers -/

theorem splitSign_digits {s : Bytes} (h : ∀ b ∈ s, 48 ≤ b ∧ b ≤ 57) : splitSign s = (false, s) := by
  unfold splitSign
  split
  · exact absurd (h 43 (by simp)) (by decide)
  · exact absurd (h 45 (by simp)) (by decide)
  · rfl

theorem splitSign_mem {s : Bytes} {b : UInt8} (h : b ∈ s) : b = 43 ∨ b = 45 ∨ b ∈ (splitSign s).2 := by
  unfold splitSign
  split
  · exact (List.mem_cons.mp h).imp_right Or.inr
  · exact Or.inr (List.mem_cons.mp h)
  · exact Or.inr (Or.inr h)

/-- **What `%d` writes reads back.** -/
theorem parseNumber_formatInt (n : Int) : parseNumber (formatInt n) = some n := by
  have hdigits := parseDigits_decimal n.natAbs
  have hne := decimal_ne_nil n.natAbs
  unfold parseNumber formatInt
  by_cases hneg : n < 0
  · have hsign : splitSign (45 :: decimal n.natAbs) = (true, decimal n.natAbs) := rfl
    rw [if_pos hneg, hsign, if_neg hne, hdigits, Option.map_some, if_pos rfl]
    congr 1
    omega
  · rw [if_neg hneg, splitSign_digits (parseDigits_range hdigits), if_neg hne, hdigits, Option.map_some,
      if_neg Bool.false_ne_true]
    congr 1
    omega

/-- `strconv.ParseInt` reads the same numbers and refuses those beyond 64 bits. -/
theorem parseInt_eq (s : Bytes) : parseInt s =
    (parseNumber s).bind (fun n => if -2 ^ 63 ≤ n ∧ n < 2 ^ 63 then some (Int64.ofInt n) else none) := by
  unfold parseInt parseNumber
  by_cases hnil : (splitSign s).2 = []
  · rw [if_pos hnil, if_pos hnil, Option.bind_none]
  rw [if_neg hnil, if_neg hnil]
  cases parseDigits 0 (splitSign s).2 with
  | none => rfl
  | some n =>
      rw [Option.map_some, Option.bind_some]
      dsimp only
      cases (splitSign s).1 with
      | true =>
          rw [if_pos rfl, if_pos rfl]
          exact if_congr (by omega) rfl rfl
      | false =>
          rw [if_neg Bool.false_ne_true, if_neg Bool.false_ne_true]
          exact if_congr (by omega) rfl rfl

theorem parseInt_formatInt {n : Int} (hlow : -2 ^ 63 ≤ n) (hhigh : n < 2 ^ 63) :
    parseInt (formatInt n) = some (Int64.ofInt n) := by
  rw [parseInt_eq, parseNumber_formatInt, Option.bind_some, if_pos ⟨hlow, hhigh⟩]

theorem formatInt_natCast (n : Nat) : formatInt n = decimal n := if_neg (by omega)

theorem parseInt_decimal {n : Nat} (h : n < 2 ^ 63) : parseInt (decimal n) = some (Int64.ofNat n) := by
  rw [← formatInt_natCast, parseInt_formatInt (by omega) (by omega)]
  rfl

theorem parseNumber_bytes {s : Bytes} {n : Int} (h : parseNumber s = some n) :
    s ≠ [] ∧ ∀ b ∈ s, b ≠ 10 ∧ b ≠ 13 := by
  unfold parseNumber at h
  by_cases hnil : (splitSign s).2 = []
  · rw [if_pos hnil] at h
    exact absurd h (by simp)
  rw [if_neg hnil] at h
  obtain ⟨m, hm, -⟩ := Option.map_eq_some_iff.mp h
  refine ⟨?_, ?_⟩
  · rintro rfl
    exact hnil rfl
  · intro b hb
    rcases splitSign_mem hb with rfl | rfl | hdigit
    · decide
    · decide
    · have hlow := UInt8.le_iff_toNat_le.mp (parseDigits_range hm b hdigit).1
      constructor
      · rintro rfl
        exact absurd hlow (by decide)
      · rintro rfl
        exact absurd hlow (by decide)

theorem parseInt_bytes {s : Bytes} {n : Int64} (h : parseInt s = some n) : s ≠ [] ∧ ∀ b ∈ s, b ≠ 10 ∧ b ≠ 13 := by
  rw [parseInt_eq] at h
  obtain ⟨m, hm, -⟩ := Option.bind_eq_some_iff.mp h
  exact parseNumber_bytes hm

example : formatInt (-120) = utf8 "-120" := by decide +kernel

end Uddp.Lib
