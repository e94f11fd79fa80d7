import Uddp.Lib.Bytes

/-!
# Text as bytes

* `utf8` : the bytes of a text;
* `toUpper`, `equalFold` : comparison without case, as far as ASCII text on the other side can tell;
* `parseInt` : `strconv.ParseInt` to base 10 and 64 bits;
* `hex` : the verb `%x` on bytes.
-/

namespace Uddp.Lib

def utf8 (s : String) : Bytes := s.toUTF8.data.toList

theorem utf8_append (s t : String) : utf8 (s ++ t) = utf8 s ++ utf8 t := by
  simp [utf8]

/-- The capital of an ASCII letter. -/
def upperByte (b : UInt8) : UInt8 := if 97 ≤ b ∧ b ≤ 122 then b - 32 else b

/-- `strings.ToUpper`, as far as it gives ASCII: besides the small letters, U+0131 and U+017F have the capitals `I`
and `S`. No other rune becomes an ASCII letter, and it is left as it is. -/
def toUpper : Bytes → Bytes
  | 0xC4 :: 0xB1 :: bs => 73 :: toUpper bs
  | 0xC5 :: 0xBF :: bs => 83 :: toUpper bs
  | b :: bs => upperByte b :: toUpper bs
  | [] => []

/-- `strings.EqualFold` with a text of ASCII letters other than `K` and `S`, which have no other forms. -/
def equalFold (s t : Bytes) : Bool := s.map upperByte = t.map upperByte

/-- The value of the decimal digits `bs` behind the value `n`. -/
def parseDigits : Nat → Bytes → Option Nat
  | n, [] => some n
  | n, b :: bs => if 48 ≤ b ∧ b ≤ 57 then parseDigits (10 * n + (b.toNat - 48)) bs else none

/-- The sign of a number and its digits. -/
def splitSign : Bytes → Bool × Bytes
  | 43 :: bs => (false, bs)
  | 45 :: bs => (true, bs)
  | bs => (false, bs)

/-- `strconv.ParseInt(s, 10, 64)`; every error is `none`. -/
def parseInt (s : Bytes) : Option Int64 :=
  if (splitSign s).2 = [] then none
  else
    match parseDigits 0 (splitSign s).2 with
    | none => none
    | some n =>
        if (splitSign s).1 then if n ≤ 2 ^ 63 then some (Int64.ofInt (-n)) else none
        else if n < 2 ^ 63 then some (Int64.ofInt n) else none

/-- Bytes that are ASCII in capitals have no other forms. -/
theorem toUpper_of_ascii {s t : Bytes} (h : s.map upperByte = t) (ht : ∀ b ∈ t, b < 128) : toUpper s = t := by
  subst h
  induction s using toUpper.induct with
  | case1 bs ih => exact absurd (ht (upperByte 0xC4) List.mem_cons_self) (by decide)
  | case2 bs ih => exact absurd (ht (upperByte 0xC5) List.mem_cons_self) (by decide)
  | case3 b bs h₁ h₂ ih =>
      rw [toUpper, ih (fun x hx => ht x (List.mem_cons_of_mem _ hx)), List.map_cons]
      · exact h₁
      · exact h₂
  | case4 => rfl

/-- Capitals other than `I` and `S` come from ASCII only. -/
theorem map_upperByte_of_toUpper {s t : Bytes} (h : toUpper s = t) (hi : 73 ∉ t) (hs : 83 ∉ t) : s.map upperByte = t := by
  subst h
  induction s using toUpper.induct with
  | case1 bs ih => exact absurd (by simp [toUpper]) hi
  | case2 bs ih => exact absurd (by simp [toUpper]) hs
  | case3 b bs h₁ h₂ ih =>
      rw [toUpper] at hi hs ⊢
      · rw [List.map_cons, ih (fun h => hi (List.mem_cons_of_mem _ h)) (fun h => hs (List.mem_cons_of_mem _ h))]
      all_goals first | exact h₁ | exact h₂
  | case4 => rfl

example : parseInt (utf8 "-12") = some (-12) ∧ parseInt (utf8 "9223372036854775808") = none := by decide +kernel

example : toUpper (utf8 "ping") = utf8 "PING" ∧ toUpper (utf8 "ſet") = utf8 "SET" := by decide +kernel

/-! ## Hexadecimal text -/

def hexDigit (n : Nat) : Char := Char.ofNat (if n < 10 then 48 + n else 87 + n)

/-- The text of `bs` under the verb `%x`. -/
def hex (bs : Bytes) : String := String.ofList (bs.flatMap fun b => [hexDigit (b.toNat / 16), hexDigit (b.toNat % 16)])

theorem hexDigit_injective : ∀ m < 16, ∀ n < 16, hexDigit m = hexDigit n → m = n := by decide

theorem hex_injective {as bs : Bytes} (h : hex as = hex bs) : as = bs := by
  have hlist := String.ofList_injective h
  clear h
  induction as generalizing bs with
  | nil =>
      cases bs with
      | nil => rfl
      | cons b bs => cases hlist
  | cons a as ih =>
      cases bs with
      | nil => cases hlist
      | cons b bs =>
          simp only [List.flatMap_cons, List.cons_append, List.nil_append, List.cons.injEq] at hlist
          obtain ⟨hhigh, hlow, hrest⟩ := hlist
          have ha := a.toNat_lt
          have hb := b.toNat_lt
          have hhigh' := hexDigit_injective _ (by omega) _ (by omega) hhigh
          have hlow' := hexDigit_injective _ (by omega) _ (by omega) hlow
          have hbyte : a.toNat = b.toNat := by omega
          rw [UInt8.toNat_inj.mp hbyte, ih hrest]

end Uddp.Lib
