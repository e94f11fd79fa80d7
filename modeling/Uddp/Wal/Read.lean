import Uddp.Wal.Record

/-!
# Reading records back

* `readRecord r` : one record from the unread bytes `r`, with the four ways Go's `readRecord` ends;
* `readRecord_frame` : a frame is read back whole; `readRecord_torn` : a frame cut short is torn;
* `frames rs` : the bytes of consecutive records; `Cut rs k t` : the first `k` records of `rs` whole and
  then the proper part `t` of the next one. `cut_of_prefix` : every prefix of `frames rs` is such a cut.
-/

namespace Uddp.Wal
open Uddp.Lib

inductive ReadError
  | checksumMismatch (got want : UInt32)
  | payload (e : DecodeError)
  deriving DecidableEq, Repr

/-- The verb `%x`. -/
def hex (v : UInt32) : String := String.ofList (Nat.toDigits 16 v.toNat)

def ReadError.text : ReadError → String
  | .checksumMismatch got want => "checksum mismatch: got " ++ hex got ++ " want " ++ hex want
  | .payload e => e.text

/-- How one read ends. `record` carries the size the caller adds to its offset and the bytes left. -/
inductive ReadResult
  | eof
  | torn
  | corrupt (e : ReadError)
  | record (rec : Record) (n : Nat) (rest : Bytes)
  deriving DecidableEq, Repr

/-- The size is `int64(4 + length)` with the sum taken in `uint32`. -/
def readRecord (r : Bytes) : ReadResult :=
  if r = [] then .eof
  else if r.length < 4 then .torn
  else
    let length := uint32 (r.take 4)
    let r := r.drop 4
    if r.length < length.toNat then .torn
    else
      let body := r.take length.toNat
      if body.length < 4 then .torn
      else
        let wantCRC := uint32 (body.take 4)
        let payload := body.drop 4
        let gotCRC := checksumIEEE payload
        if gotCRC ≠ wantCRC then .corrupt (.checksumMismatch gotCRC wantCRC)
        else
          match decodePayload payload with
          | .error e => .corrupt (.payload e)
          | .ok rec => .record rec (4 + length).toNat (r.drop length.toNat)

@[simp] theorem readRecord_nil : readRecord [] = .eof := rfl

theorem readRecord_append {l b : Bytes} (hl : l.length = 4) (hb : b.length = (uint32 l).toNat) (hb4 : 4 ≤ b.length)
    (rest : Bytes) :
    readRecord (l ++ (b ++ rest)) =
      if checksumIEEE (b.drop 4) ≠ uint32 (b.take 4) then
        .corrupt (.checksumMismatch (checksumIEEE (b.drop 4)) (uint32 (b.take 4)))
      else match decodePayload (b.drop 4) with
        | .error e => .corrupt (.payload e)
        | .ok rec => .record rec (4 + uint32 l).toNat rest := by
  have hne : l ++ (b ++ rest) ≠ [] := by
    intro h
    have := congrArg List.length h
    simp only [List.length_append, List.length_nil] at this
    omega
  have htake : (l ++ (b ++ rest)).take 4 = l := by rw [← hl, List.take_left]
  have hdrop : (l ++ (b ++ rest)).drop 4 = b ++ rest := by rw [← hl, List.drop_left]
  unfold readRecord
  rw [if_neg hne, if_neg (by simp only [List.length_append]; omega)]
  simp only [htake, hdrop, ← hb, List.take_left, List.drop_left]
  rw [if_neg (by simp), if_neg (by omega)]

theorem Fits.toNat_length {rec : Record} (h : Fits rec) : (UInt32.ofNat (body rec).length).toNat = (body rec).length := by
  unfold Fits at h
  rw [length_frame] at h
  exact toNat_ofNat_length (by omega)

/-- A frame whose length field can hold the length of its body is read back whole, but its size is taken modulo `2 ^ 32`. -/
theorem readRecord_frame_mod {rec : Record} (h : (body rec).length < 2 ^ 32) (rest : Bytes) :
    readRecord (frame rec ++ rest) = .record rec ((frame rec).length % 2 ^ 32) rest := by
  have hlen : (UInt32.ofNat (body rec).length).toNat = (body rec).length := toNat_ofNat_length h
  have hfit : LengthsFit rec := by
    rw [length_body, length_encodePayload] at h
    exact ⟨by omega, by omega, by omega⟩
  have htake : (body rec).take 4 = putUint32 (checksumIEEE (encodePayload rec)) := by
    rw [body, ← length_putUint32 (checksumIEEE (encodePayload rec)), List.take_left]
  have hdrop : (body rec).drop 4 = encodePayload rec := by
    rw [body, ← length_putUint32 (checksumIEEE (encodePayload rec)), List.drop_left]
  have hsize : (4 + UInt32.ofNat (body rec).length).toNat = (frame rec).length % 2 ^ 32 := by
    rw [length_frame, UInt32.toNat_add, hlen]
    rfl
  have hdec := decodePayload_encodePayload rec [] hfit
  rw [List.append_nil] at hdec
  have hsplit : frame rec ++ rest = putUint32 (UInt32.ofNat (body rec).length) ++ (body rec ++ rest) := by
    rw [frame, List.append_assoc]
  rw [hsplit, readRecord_append (length_putUint32 _) (by rw [uint32_putUint32, hlen]) (by rw [length_body]; omega) rest,
    htake, hdrop, uint32_putUint32, if_neg (by simp), hdec, uint32_putUint32]
  simp only [hsize]

theorem readRecord_frame {rec : Record} (h : Fits rec) (rest : Bytes) :
    readRecord (frame rec ++ rest) = .record rec (frame rec).length rest := by
  unfold Fits at h
  rw [readRecord_frame_mod (by rw [length_frame] at h; omega), Nat.mod_eq_of_lt h]

/-- A frame that the end of the file cuts short is torn, wherever the cut falls. -/
theorem readRecord_torn {rec : Record} (h : Fits rec) {t : Bytes} (ht : t <+: frame rec) (h0 : t ≠ [])
    (hne : t ≠ frame rec) : readRecord t = .torn := by
  have hlen := h.toNat_length
  have hlt : t.length < (frame rec).length := by
    rcases Nat.lt_or_ge t.length (frame rec).length with hlt | hge
    · exact hlt
    · exact absurd (ht.eq_of_length_le hge) hne
  rw [length_frame] at hlt
  unfold readRecord
  rw [if_neg h0]
  by_cases h4 : t.length < 4
  · rw [if_pos h4]
  · -- the length field is whole and asks for more than there is
    have htake : t.take 4 = putUint32 (UInt32.ofNat (body rec).length) := by
      have hp := (List.take_prefix 4 t).trans ht
      have hq : putUint32 (UInt32.ofNat (body rec).length) <+: frame rec := List.prefix_append _ _
      have hl : (t.take 4).length = (putUint32 (UInt32.ofNat (body rec).length)).length := by
        rw [List.length_take, length_putUint32]
        omega
      exact (List.prefix_of_prefix_length_le hp hq hl.le).eq_of_length hl
    rw [if_neg h4]
    simp only [htake, uint32_putUint32, hlen]
    rw [if_pos (by rw [List.length_drop]; omega)]

theorem torn_of_part {r : Record} (hr : Fits r) {t : Bytes} (hp : t <+: frame r) (hne : t ≠ frame r) :
    t = [] ∨ readRecord t = .torn := by
  by_cases h0 : t = []
  · exact Or.inl h0
  · exact Or.inr (readRecord_torn hr hp h0 hne)

theorem readRecord_shorter {r rest : Bytes} {rec : Record} {n : Nat} (h : readRecord r = .record rec n rest) :
    rest.length < r.length := by
  unfold readRecord at h
  split_ifs at h with h1 h2
  dsimp only at h
  split_ifs at h
  split at h
  · cases h
  · next hd =>
    injection h with _ _ hrest
    rw [← hrest, List.length_drop, List.length_drop]
    omega

/-! ## Consecutive frames -/

def frames (rs : List Record) : Bytes := rs.flatMap frame

@[simp] theorem frames_nil : frames [] = [] := rfl

theorem frames_cons (r : Record) (rs : List Record) : frames (r :: rs) = frame r ++ frames rs := rfl

@[simp] theorem frames_append (rs ss : List Record) : frames (rs ++ ss) = frames rs ++ frames ss :=
  List.flatMap_append

@[simp] theorem frames_singleton (r : Record) : frames [r] = frame r := by
  simp [frames]

/-- The first `k` records of `rs` whole, and then the part `t` of the next one. -/
structure Cut (rs : List Record) (k : Nat) (t : Bytes) : Prop where
  le : k ≤ rs.length
  tail : t = [] ∨ ∃ r, rs[k]? = some r ∧ t <+: frame r ∧ t ≠ frame r

theorem cut_of_prefix {rs : List Record} {q : Bytes} (h : q <+: frames rs) :
    ∃ k t, q = frames (rs.take k) ++ t ∧ Cut rs k t := by
  induction rs generalizing q with
  | nil =>
      have hq : q = [] := List.prefix_nil.mp h
      exact ⟨0, [], by simp [hq], ⟨Nat.le_refl 0, Or.inl rfl⟩⟩
  | cons r rs ih =>
      by_cases hle : (frame r).length ≤ q.length
      · -- the first frame is whole
        obtain ⟨q', rfl⟩ := List.prefix_of_prefix_length_le (List.prefix_append (frame r) (frames rs)) h hle
        obtain ⟨k, t, hq', hcut⟩ := ih ((List.prefix_append_right_inj (frame r)).mp h)
        exact ⟨k + 1, t, by rw [List.take_succ_cons, frames_cons, hq', List.append_assoc],
          ⟨Nat.succ_le_succ hcut.le, hcut.tail⟩⟩
      · have hp : q <+: frame r :=
          List.prefix_of_prefix_length_le h (List.prefix_append (frame r) (frames rs)) (by omega)
        refine ⟨0, q, by simp, ⟨Nat.zero_le _, Or.inr ⟨r, rfl, hp, ?_⟩⟩⟩
        rintro rfl
        exact hle le_rfl

theorem Cut.torn {rs : List Record} {k : Nat} {t : Bytes} (h : Cut rs k t) (hfit : ∀ r ∈ rs, Fits r) :
    t = [] ∨ readRecord t = .torn := by
  rcases h.tail with h0 | ⟨r, hr, hp, hne⟩
  · exact Or.inl h0
  · exact torn_of_part (hfit r (List.mem_of_getElem? hr)) hp hne

theorem Cut.short {rs : List Record} {k : Nat} {t : Bytes} (h : Cut rs k t) {r : Record} (hr : rs[k]? = some r) :
    t.length < (frame r).length := by
  rcases h.tail with rfl | ⟨r', hr', hp, hne⟩
  · exact List.length_pos_iff.mpr (frame_ne_nil r)
  · rw [hr] at hr'
    obtain rfl := Option.some.inj hr'
    exact lt_of_not_ge fun hge => hne (hp.eq_of_length_le hge)

end Uddp.Wal
