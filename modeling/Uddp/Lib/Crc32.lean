import Uddp.Lib.Bytes

/-!
# CRC-32 (IEEE, reflected)

`checksumIEEE` is the checksum of Go's `hash/crc32`: the remainder starts at all ones, takes the
bytes least significant bit first, and is complemented at the end. Every step is injective in the
remainder and in the byte, so two strings that differ in exactly one byte have different checksums
(`checksumIEEE_ne_of_byte`).
-/

namespace Uddp.Lib

/-- The reflected generator polynomial. -/
def ieeePoly : BitVec 32 := 0xEDB88320#32

/-- One bit of the division. -/
def crcBit (c : BitVec 32) : BitVec 32 :=
  if c.getLsbD 0 then (c >>> 1) ^^^ ieeePoly else c >>> 1

/-- One byte of the division. -/
def crcByte (c : BitVec 32) (b : UInt8) : BitVec 32 :=
  crcBit^[8] (c ^^^ b.toBitVec.setWidth 32)

def checksumIEEE (p : Bytes) : UInt32 := ⟨~~~(p.foldl crcByte 0xFFFFFFFF#32)⟩

/-! ## Injectivity -/

theorem crcBit_msb (c : BitVec 32) : (crcBit c).getLsbD 31 = c.getLsbD 0 := by
  unfold crcBit
  split
  · next h =>
    rw [h, BitVec.getLsbD_xor, BitVec.getLsbD_ushiftRight, BitVec.getLsbD_of_ge c (1 + 31) (by omega)]
    decide
  · next h =>
    rw [BitVec.getLsbD_ushiftRight, BitVec.getLsbD_of_ge c (1 + 31) (by omega)]
    simpa using h

theorem eq_of_ushiftRight_one {c d : BitVec 32} (h0 : c.getLsbD 0 = d.getLsbD 0)
    (hs : c >>> 1 = d >>> 1) : c = d := by
  apply BitVec.eq_of_getLsbD_eq
  intro i _
  cases i with
  | zero => exact h0
  | succ i =>
      have h := congrArg (fun x => BitVec.getLsbD x i) hs
      simp only [BitVec.getLsbD_ushiftRight] at h
      rwa [Nat.add_comm 1 i] at h

theorem crcBit_injective : Function.Injective crcBit := by
  intro c d h
  have h0 : c.getLsbD 0 = d.getLsbD 0 := by rw [← crcBit_msb c, ← crcBit_msb d, h]
  refine eq_of_ushiftRight_one h0 ?_
  unfold crcBit at h
  rw [h0] at h
  split at h
  · exact (BitVec.xor_left_inj ieeePoly).mp h
  · exact h

theorem crcByte_injective_left (b : UInt8) : Function.Injective (fun c => crcByte c b) := by
  intro c d h
  exact (BitVec.xor_left_inj _).mp (crcBit_injective.iterate 8 h)

theorem crcByte_injective_right (c : BitVec 32) : Function.Injective (crcByte c) := by
  intro a b h
  have hx := (BitVec.xor_right_inj _).mp (crcBit_injective.iterate 8 h)
  have hw := congrArg (BitVec.setWidth 8) hx
  simp only [BitVec.setWidth_setWidth_of_le _ (show 8 ≤ 32 by decide), BitVec.setWidth_eq] at hw
  exact UInt8.toBitVec_inj.mp hw

theorem foldl_crcByte_injective (p : Bytes) : Function.Injective (fun c => p.foldl crcByte c) := by
  induction p with
  | nil => exact fun _ _ h => h
  | cons b p ih => exact fun c d h => crcByte_injective_left b (ih h)

/-- A single changed byte changes the checksum. -/
theorem checksumIEEE_ne_of_byte (p q : Bytes) {a b : UInt8} (h : a ≠ b) :
    checksumIEEE (p ++ a :: q) ≠ checksumIEEE (p ++ b :: q) := by
  intro hc
  have hb := congrArg UInt32.toBitVec hc
  simp only [checksumIEEE, List.foldl_append, List.foldl_cons] at hb
  have hf := foldl_crcByte_injective q (BitVec.not_inj.mp hb)
  exact h (crcByte_injective_right _ hf)

/-- The check value of the standard: the checksum of the nine digits. -/
example : checksumIEEE [0x31, 0x32, 0x33, 0x34, 0x35, 0x36, 0x37, 0x38, 0x39] = 0xCBF43926 := by
  decide +kernel

end Uddp.Lib
