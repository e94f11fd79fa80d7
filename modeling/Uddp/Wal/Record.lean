import Uddp.Lib.Crc32

/-!
# Log records and their wire format

* `Record` and its payload codec, `encodePayload` / `decodePayload`; a slice outside the payload is
  the error `.panic`;
* `decodePayload_encodePayload` : an encoded record followed by anything decodes to it;
  `encodePayload_of_decodePayload` : nothing else decodes; **`decodePayload_extensions`** : both, and no slice
  leaves the payload. `decodePayload_prefix` : no proper prefix of an encoded record decodes;
* `frame r` : the bytes `Append` writes for `r` (length, checksum, payload). `Fits r` : they are fewer
  than `2 ^ 32`.
-/

namespace Uddp.Wal
open Uddp.Lib

abbrev RecordKind := UInt8

def KindPut : RecordKind := 1

def KindDelete : RecordKind := 2

/-- One committed mutation. -/
structure Record where
  commitPosition : UInt64
  kind : RecordKind
  key : Bytes
  value : Bytes
  /-- Zero means no expiry. -/
  expiresAtUnixNano : Int64
  idempotencyKey : Bytes
  deriving DecidableEq, Repr

inductive DecodeError
  | payloadTooShort
  | truncatedKey
  | truncatedValueLength
  | truncatedValue
  | truncatedExpiry
  | truncatedIdempotencyKeyLength
  | truncatedIdempotencyKey
  | panic
  deriving DecidableEq, Repr

def DecodeError.text : DecodeError → String
  | .payloadTooShort => "payload too short"
  | .truncatedKey => "truncated key"
  | .truncatedValueLength => "truncated value length"
  | .truncatedValue => "truncated value"
  | .truncatedExpiry => "truncated expiry"
  | .truncatedIdempotencyKeyLength => "truncated idempotency key length"
  | .truncatedIdempotencyKey => "truncated idempotency key"
  | .panic => "slice bounds out of range"

/-! ## The payload codec -/

def encodePayload (rec : Record) : Bytes :=
  putUint64 rec.commitPosition ++ [rec.kind] ++
    putUint32 (UInt32.ofNat rec.key.length) ++ rec.key ++
    putUint32 (UInt32.ofNat rec.value.length) ++ rec.value ++
    putUint64 rec.expiresAtUnixNano.toUInt64 ++
    putUint32 (UInt32.ofNat rec.idempotencyKey.length) ++ rec.idempotencyKey

/-- `p[i:j]`. -/
def sub (p : Bytes) (i j : Nat) : Except DecodeError Bytes :=
  match slice p i j with
  | some b => .ok b
  | none => .error .panic

/-- `p[i]`. -/
def byteAt (p : Bytes) (i : Nat) : Except DecodeError UInt8 :=
  match p[i]? with
  | some b => .ok b
  | none => .error .panic

def decodePayload (p : Bytes) : Except DecodeError Record :=
  if p.length < 8 + 1 + 4 then .error .payloadTooShort
  else do
    let commitPosition ← sub p 0 8
    let kind ← byteAt p 8
    let off := 9
    let keyLenField ← sub p off (off + 4)
    let keyLen := (uint32 keyLenField).toNat
    let off := off + 4
    if off + keyLen > p.length then .error .truncatedKey
    else do
      let key ← sub p off (off + keyLen)
      let off := off + keyLen
      if off + 4 > p.length then .error .truncatedValueLength
      else do
        let valLenField ← sub p off (off + 4)
        let valLen := (uint32 valLenField).toNat
        let off := off + 4
        if off + valLen > p.length then .error .truncatedValue
        else do
          let value ← sub p off (off + valLen)
          let off := off + valLen
          if off + 8 > p.length then .error .truncatedExpiry
          else do
            let expiry ← sub p off (off + 8)
            let off := off + 8
            if off + 4 > p.length then .error .truncatedIdempotencyKeyLength
            else do
              let idLenField ← sub p off (off + 4)
              let idLen := (uint32 idLenField).toNat
              let off := off + 4
              if off + idLen > p.length then .error .truncatedIdempotencyKey
              else do
                let idempotencyKey ← sub p off (off + idLen)
                .ok { commitPosition := uint64 commitPosition, kind := kind, key := key, value := value
                      expiresAtUnixNano := (uint64 expiry).toInt64, idempotencyKey := idempotencyKey }

/-- The three length fields can hold the three lengths. -/
structure LengthsFit (rec : Record) : Prop where
  key : rec.key.length < 2 ^ 32
  value : rec.value.length < 2 ^ 32
  idempotencyKey : rec.idempotencyKey.length < 2 ^ 32

theorem length_encodePayload (rec : Record) : (encodePayload rec).length =
    29 + rec.key.length + rec.value.length + rec.idempotencyKey.length := by
  simp only [encodePayload, List.length_append, length_putUint64, length_putUint32, List.length_singleton]
  omega

theorem sub_next {p a b c : Bytes} (hp : p = a ++ (b ++ c)) {i j : Nat} (hi : i = a.length) (hj : j = i + b.length) :
    sub p i j = .ok b ∧ p = (a ++ b) ++ c ∧ j = (a ++ b).length := by
  have hsplit : p = (a ++ b) ++ c := by rw [hp, List.append_assoc]
  have hend : j = a.length + b.length := by rw [hj, hi]
  refine ⟨?_, hsplit, by rw [List.length_append, hend]⟩
  rw [sub, slice_middle hsplit hi hend]

theorem byteAt_next {p a c : Bytes} {b : UInt8} (hp : p = a ++ ([b] ++ c)) {i j : Nat} (hi : i = a.length)
    (hj : j = i + 1) : byteAt p i = .ok b ∧ p = (a ++ [b]) ++ c ∧ j = (a ++ [b]).length := by
  have hget : p[i]? = some b := by
    rw [hp, hi, List.getElem?_append_right (Nat.le_refl _), Nat.sub_self]
    rfl
  refine ⟨by rw [byteAt, hget], by rw [hp, List.append_assoc], by rw [List.length_append, hj, hi, List.length_singleton]⟩

theorem take_of_sub {p b : Bytes} {i j : Nat} (h : sub p i j = .ok b) :
    p.take j = p.take i ++ b ∧ b.length = j - i ∧ i ≤ j ∧ j ≤ p.length := by
  unfold sub slice at h
  split_ifs at h with hb
  · obtain ⟨hij, hj⟩ := hb
    have hb : b = (p.drop i).take (j - i) := (Except.ok.inj h).symm
    refine ⟨?_, ?_, hij, hj⟩
    · rw [hb, ← List.take_add, Nat.add_sub_cancel' hij]
    · rw [hb, List.length_take, List.length_drop]
      omega

theorem take_of_byteAt {p : Bytes} {i : Nat} {b : UInt8} (h : byteAt p i = .ok b) :
    p.take (i + 1) = p.take i ++ [b] := by
  unfold byteAt at h
  cases hb : p[i]? with
  | none => simp [hb] at h
  | some x =>
      simp only [hb, Except.ok.injEq] at h
      subst h
      rw [List.take_add_one, hb]
      rfl

theorem toNat_ofNat_length {n : Nat} (h : n < 2 ^ 32) : (UInt32.ofNat n).toNat = n := by
  rw [UInt32.toNat_ofNat']
  exact Nat.mod_eq_of_lt h

theorem decodePayload_encodePayload (rec : Record) (s : Bytes) (h : LengthsFit rec) :
    decodePayload (encodePayload rec ++ s) = .ok rec := by
  have hk := toNat_ofNat_length h.key
  have hv := toNat_ofNat_length h.value
  have hd := toNat_ofNat_length h.idempotencyKey
  obtain ⟨p, hp⟩ : ∃ p, p = encodePayload rec ++ s := ⟨_, rfl⟩
  have hlen : p.length = 29 + rec.key.length + rec.value.length + rec.idempotencyKey.length + s.length := by
    rw [hp, List.length_append, length_encodePayload]
  rw [← hp]
  -- every field at the offset where the decoder looks for it
  have h0 : p = [] ++ (putUint64 rec.commitPosition ++ ([rec.kind] ++ (putUint32 (UInt32.ofNat rec.key.length) ++ (rec.key ++
      (putUint32 (UInt32.ofNat rec.value.length) ++ (rec.value ++ (putUint64 rec.expiresAtUnixNano.toUInt64 ++
      (putUint32 (UInt32.ofNat rec.idempotencyKey.length) ++ (rec.idempotencyKey ++ s))))))))) := by
    rw [hp, encodePayload]
    simp only [List.append_assoc, List.nil_append]
  obtain ⟨s1, h1, l1⟩ := sub_next h0 (i := 0) (j := 8) rfl (by rw [length_putUint64])
  obtain ⟨s2, h2, l2⟩ := byteAt_next h1 l1 (j := 9) rfl
  obtain ⟨s3, h3, l3⟩ := sub_next h2 l2 (j := 9 + 4) (by rw [length_putUint32])
  obtain ⟨s4, h4, l4⟩ := sub_next h3 l3 rfl
  obtain ⟨s5, h5, l5⟩ := sub_next h4 l4 (j := 9 + 4 + rec.key.length + 4) (by rw [length_putUint32])
  obtain ⟨s6, h6, l6⟩ := sub_next h5 l5 rfl
  obtain ⟨s7, h7, l7⟩ := sub_next h6 l6 (j := 9 + 4 + rec.key.length + 4 + rec.value.length + 8)
    (by rw [length_putUint64])
  obtain ⟨s8, h8, l8⟩ := sub_next h7 l7 (j := 9 + 4 + rec.key.length + 4 + rec.value.length + 8 + 4)
    (by rw [length_putUint32])
  obtain ⟨s9, -, -⟩ := sub_next h8 l8 rfl
  unfold decodePayload
  rw [if_neg (by omega)]
  simp only [s1, s2, s3, bind, Except.bind, uint32_putUint32, hk]
  rw [if_neg (by omega)]
  simp only [s4]
  rw [if_neg (by omega)]
  simp only [s5, uint32_putUint32, hv]
  rw [if_neg (by omega)]
  simp only [s6]
  rw [if_neg (by omega)]
  simp only [s7]
  rw [if_neg (by omega)]
  simp only [s8, uint32_putUint32, hd]
  rw [if_neg (by omega)]
  simp only [s9, uint64_putUint64]
  simp

theorem ok_of_bind {α β : Type} {x : Except DecodeError α} {f : α → Except DecodeError β} {b : β}
    (h : x >>= f = .ok b) : ∃ a, x = .ok a ∧ f a = .ok b := by
  cases x with
  | error e => cases h
  | ok a => exact ⟨a, rfl, h⟩

theorem ok_of_guard {α : Type} {c : Prop} [Decidable c] {e : DecodeError} {x : Except DecodeError α} {a : α}
    (h : (if c then .error e else x) = .ok a) : ¬ c ∧ x = .ok a := by
  by_cases hc : c
  · rw [if_pos hc] at h
    cases h
  · rw [if_neg hc] at h
    exact ⟨hc, h⟩

theorem putUint32_of_length {b : Bytes} {n : Nat} (hb : b.length = 4) (hn : n = (uint32 b).toNat) :
    putUint32 (UInt32.ofNat n) = b ∧ n < 2 ^ 32 := by
  subst hn
  exact ⟨by rw [UInt32.ofNat_toNat, putUint32_uint32 b hb], (uint32 b).toNat_lt⟩

theorem encodePayload_of_decodePayload {p : Bytes} {rec : Record} (h : decodePayload p = .ok rec) :
    (∃ s, p = encodePayload rec ++ s) ∧ LengthsFit rec := by
  unfold decodePayload at h
  obtain ⟨-, h⟩ := ok_of_guard h
  obtain ⟨pos, h1, h⟩ := ok_of_bind h
  obtain ⟨kind, h2, h⟩ := ok_of_bind h
  obtain ⟨klen, h3, h⟩ := ok_of_bind h
  obtain ⟨-, h⟩ := ok_of_guard h
  obtain ⟨key, h4, h⟩ := ok_of_bind h
  obtain ⟨-, h⟩ := ok_of_guard h
  obtain ⟨vlen, h5, h⟩ := ok_of_bind h
  obtain ⟨-, h⟩ := ok_of_guard h
  obtain ⟨value, h6, h⟩ := ok_of_bind h
  obtain ⟨-, h⟩ := ok_of_guard h
  obtain ⟨expiry, h7, h⟩ := ok_of_bind h
  obtain ⟨-, h⟩ := ok_of_guard h
  obtain ⟨dlen, h8, h⟩ := ok_of_bind h
  obtain ⟨-, h⟩ := ok_of_guard h
  obtain ⟨ikey, h9, h⟩ := ok_of_bind h
  have hrec := Except.ok.inj h
  obtain ⟨t1, l1, -, -⟩ := take_of_sub h1
  have t2 := take_of_byteAt h2
  obtain ⟨t3, l3, -, -⟩ := take_of_sub h3
  obtain ⟨t4, l4, -, -⟩ := take_of_sub h4
  obtain ⟨t5, l5, -, -⟩ := take_of_sub h5
  obtain ⟨t6, l6, -, -⟩ := take_of_sub h6
  obtain ⟨t7, l7, -, -⟩ := take_of_sub h7
  obtain ⟨t8, l8, -, -⟩ := take_of_sub h8
  obtain ⟨t9, l9, -, -⟩ := take_of_sub h9
  obtain ⟨ek, fk⟩ := putUint32_of_length (by omega) (show key.length = (uint32 klen).toNat by omega)
  obtain ⟨ev, fv⟩ := putUint32_of_length (by omega) (show value.length = (uint32 vlen).toNat by omega)
  obtain ⟨ed, fd⟩ := putUint32_of_length (by omega) (show ikey.length = (uint32 dlen).toNat by omega)
  subst hrec
  refine ⟨⟨p.drop (9 + 4 + (uint32 klen).toNat + 4 + (uint32 vlen).toNat + 8 + 4 + (uint32 dlen).toNat), ?_⟩,
    ⟨fk, fv, fd⟩⟩
  -- the slices follow one another from the start of `p`
  rw [t8, t7, t6, t5, t4, t3, t2, t1, List.take_zero, List.nil_append] at t9
  rw [encodePayload]
  simp only [ek, ev, ed, putUint64_uint64 pos l1, UInt64.toUInt64_toInt64, putUint64_uint64 expiry (by omega)]
  rw [← t9, List.take_append_drop]

/-! ### No slice outside the payload -/

theorem sub_ok {p : Bytes} {i j : Nat} (hij : i ≤ j) (hj : j ≤ p.length) : ∃ b, sub p i j = .ok b :=
  ⟨_, by rw [sub, slice_of_le hij hj]⟩

theorem byteAt_ok {p : Bytes} {i : Nat} (hi : i < p.length) : ∃ b, byteAt p i = .ok b :=
  ⟨p[i], by rw [byteAt, List.getElem?_eq_getElem hi]⟩

theorem bind_no_panic {α β : Type} {x : Except DecodeError α} {f : α → Except DecodeError β} (hx : ∃ a, x = .ok a)
    (hf : ∀ a, f a ≠ .error .panic) : x >>= f ≠ .error .panic := by
  obtain ⟨a, rfl⟩ := hx
  exact hf a

theorem guard_no_panic {α : Type} {c : Prop} [Decidable c] {e : DecodeError} {x : Except DecodeError α} (he : e ≠ .panic)
    (hx : ¬ c → x ≠ .error .panic) : (if c then .error e else x) ≠ .error .panic := by
  by_cases hc : c
  · rw [if_pos hc]
    intro h
    exact he (Except.error.inj h)
  · rw [if_neg hc]
    exact hx hc

/-- Every slice of the decoder is inside the payload: the check in front of it says so. -/
theorem decodePayload_no_panic (p : Bytes) : decodePayload p ≠ .error .panic := by
  unfold decodePayload
  refine guard_no_panic (by decide) fun hshort => ?_
  refine bind_no_panic (sub_ok (by omega) (by omega)) fun _ => ?_
  refine bind_no_panic (byteAt_ok (by omega)) fun _ => ?_
  refine bind_no_panic (sub_ok (by omega) (by omega)) fun klen => ?_
  refine guard_no_panic (by decide) fun hkey => ?_
  refine bind_no_panic (sub_ok (by omega) (by omega)) fun _ => ?_
  refine guard_no_panic (by decide) fun hvlen => ?_
  refine bind_no_panic (sub_ok (by omega) (by omega)) fun vlen => ?_
  refine guard_no_panic (by decide) fun hvalue => ?_
  refine bind_no_panic (sub_ok (by omega) (by omega)) fun _ => ?_
  refine guard_no_panic (by decide) fun hexpiry => ?_
  refine bind_no_panic (sub_ok (by omega) (by omega)) fun _ => ?_
  refine guard_no_panic (by decide) fun hdlen => ?_
  refine bind_no_panic (sub_ok (by omega) (by omega)) fun dlen => ?_
  refine guard_no_panic (by decide) fun hidem => ?_
  refine bind_no_panic (sub_ok (by omega) (by omega)) fun _ => ?_
  simp

/-- **What decodes.** A payload decodes to a record exactly when it is the encoding of that record with anything behind
it, and the three lengths fit their fields. Every other payload is an error of the decoder's own, never a slice outside it. -/
theorem decodePayload_extensions (p : Bytes) :
    (∀ rec, decodePayload p = .ok rec ↔ (∃ s, p = encodePayload rec ++ s) ∧ LengthsFit rec) ∧
      ((¬ ∃ rec s, p = encodePayload rec ++ s ∧ LengthsFit rec) → ∃ e, decodePayload p = .error e) ∧
      decodePayload p ≠ .error .panic := by
  refine ⟨fun rec => ⟨encodePayload_of_decodePayload, ?_⟩, fun hnone => ?_, decodePayload_no_panic p⟩
  · rintro ⟨⟨s, rfl⟩, hfit⟩
    exact decodePayload_encodePayload rec s hfit
  · cases hd : decodePayload p with
    | error e => exact ⟨e, rfl⟩
    | ok rec =>
        obtain ⟨⟨s, hs⟩, hfit⟩ := encodePayload_of_decodePayload hd
        exact absurd ⟨rec, s, hs, hfit⟩ hnone

/-- A record cut short does not decode. -/
theorem decodePayload_prefix {q : Bytes} {rec : Record} (hf : LengthsFit rec) (hq : q <+: encodePayload rec)
    (hne : q ≠ encodePayload rec) : ∃ e, decodePayload q = .error e := by
  cases hd : decodePayload q with
  | error e => exact ⟨e, rfl⟩
  | ok r =>
      exfalso
      obtain ⟨⟨s, hs⟩, hfit⟩ := encodePayload_of_decodePayload hd
      obtain ⟨t, ht⟩ := hq
      have heq : encodePayload rec = encodePayload r ++ (s ++ t) := by rw [← ht, hs, List.append_assoc]
      have hr : r = rec := by
        have h1 := decodePayload_encodePayload rec [] hf
        rw [List.append_nil, heq, decodePayload_encodePayload r (s ++ t) hfit] at h1
        exact Except.ok.inj h1
      subst hr
      -- so `q` is at least as long as the whole record
      have hlen := congrArg List.length ht
      rw [hs] at hlen hne
      simp only [List.length_append] at hlen
      have : s = [] := List.length_eq_zero_iff.mp (by omega)
      exact hne (by rw [this, List.append_nil])

/-! ## Frames -/

/-- The checksum and the payload. -/
def body (rec : Record) : Bytes := putUint32 (checksumIEEE (encodePayload rec)) ++ encodePayload rec

/-- The bytes of one record in the log. -/
def frame (rec : Record) : Bytes := putUint32 (UInt32.ofNat (body rec).length) ++ body rec

/-- The framed record, its length field included, is shorter than `2 ^ 32` bytes. -/
def Fits (rec : Record) : Prop := (frame rec).length < 2 ^ 32

instance (rec : Record) : Decidable (Fits rec) := inferInstanceAs (Decidable (_ < _))

theorem length_body (rec : Record) : (body rec).length = 4 + (encodePayload rec).length := by
  rw [body, List.length_append, length_putUint32]

theorem length_frame (rec : Record) : (frame rec).length = 4 + (body rec).length := by
  rw [frame, List.length_append, length_putUint32]

theorem frame_ne_nil (rec : Record) : frame rec ≠ [] := by
  intro h
  have := congrArg List.length h
  rw [length_frame, List.length_nil] at this
  omega

theorem Fits.lengthsFit {rec : Record} (h : Fits rec) : LengthsFit rec := by
  unfold Fits at h
  rw [length_frame, length_body, length_encodePayload] at h
  exact ⟨by omega, by omega, by omega⟩

end Uddp.Wal
