import Uddp.Engine.History
import Uddp.Lib.LastWrite

/-!
# State and change stream

* `Reachable e` : `e` comes from a new file by mutations and clean restarts;
* `Engine.stream e` : the records that `Fetch` reads from the first offset on;
* `lookup_tablesOf` : the index holds what the last record of each key says;
* **`stream_agrees`** : in every reachable state the stream has one record for each committed mutation, and `Get`
  answers what the last record of its key says.
-/

namespace Uddp
open Uddp.Lib Uddp.Wal

/-! ## Reachable engines -/

inductive Reachable : Engine → Prop
  | fresh : Reachable fresh
  | call {e : Engine} (h : Reachable e) (c : Call) (hc : c.Fits) : Reachable (step e c).2
  | restart {e e' : Engine} (h : Reachable e) (hr : e.restart = .ok e') : Reachable e'

/-- What is true of every record a mutation commits. -/
structure Sound (rs : List Record) : Prop where
  fits : ∀ r ∈ rs, Wal.Fits r
  kind : ∀ r ∈ rs, r.kind = KindPut ∨ r.kind = KindDelete

theorem Call.record_kind (c : Call) : c.record.kind = KindPut ∨ c.record.kind = KindDelete := by
  cases c with
  | delete key idem => exact Or.inr rfl
  | _ => exact Or.inl rfl

theorem Sound.snoc {rs : List Record} (h : Sound rs) {c : Call} (hc : c.Fits) (n : UInt64) :
    Sound (rs ++ [stamp c.record n]) := by
  refine ⟨fits_snoc h.fits hc n, fun r hr => ?_⟩
  rcases List.mem_append.mp hr with hr | hr
  · exact h.kind r hr
  · rw [List.mem_singleton.mp hr]
    exact c.record_kind

theorem answer_sound {rs : List Record} {c : Call} (hc : c.Fits) (h : Sound rs) : Sound (answer rs c).2 := by
  rcases answer_history rs c with hsame | ⟨-, hnew⟩
  · rw [hsame]
    exact h
  · rw [hnew]
    exact h.snoc hc _

theorem Sound.take {rs : List Record} (h : Sound rs) (k : Nat) : Sound (rs.take k) :=
  ⟨fun r hr => h.fits r (List.mem_of_mem_take hr), fun r hr => h.kind r (List.mem_of_mem_take hr)⟩

theorem Reachable.represents {e : Engine} (h : Reachable e) : ∃ rs, Represents e rs ∧ Sound rs := by
  induction h with
  | fresh => exact ⟨[], represents_fresh, by simp, by simp⟩
  | call _ c hc ih =>
      obtain ⟨rs, hrs, hsound⟩ := ih
      exact ⟨_, (step_represents hrs c).2, answer_sound hc hsound⟩
  | restart _ hr ih =>
      obtain ⟨rs, hrs, hsound⟩ := ih
      obtain ⟨e', hr', hrs'⟩ := restart_represents hrs hsound.fits
      rw [hr] at hr'
      cases hr'
      exact ⟨rs, hrs', hsound⟩

/-! ## The stream -/

/-- Every record that the log reads from position 1 on. -/
def Engine.stream (e : Engine) : List Record := (e.log.readRange 1 e.log.byteOffsets.length).1

/-- A file of whole records is read as they are, durable or not, and also while others append. -/
theorem readRange_whole {w : WAL} {rs : List Record} (hdata : w.out.file.data = logBytes rs) (hopen : w.out.file.closed = false)
    (hoffs : w.byteOffsets = offsetsFrom headerSize rs) (hfit : ∀ r ∈ rs, Wal.Fits r) (limit : Int) :
    w.readRange 1 limit = (rs.take limit.toNat, none) := by
  have hread := readRange_log (t := []) (by rw [hdata, List.append_nil]) hopen hfit (Or.inl rfl) (Or.inl hoffs) 1 limit
    (fun hbig => absurd hbig (by decide))
  rw [hread]
  by_cases h0 : limit ≤ 0
  · rw [if_pos (Or.inr h0), Int.toNat_of_nonpos h0, List.take_zero]
  · rw [if_neg (by simp [h0]), if_neg (by decide)]
    rfl

theorem stream_whole {e : Engine} {rs : List Record} (hdata : e.log.out.file.data = logBytes rs)
    (hopen : e.log.out.file.closed = false) (hoffs : e.log.byteOffsets = offsetsFrom headerSize rs)
    (hfit : ∀ r ∈ rs, Wal.Fits r) : e.stream = rs := by
  unfold Engine.stream
  rw [readRange_whole hdata hopen hoffs hfit, hoffs, length_offsetsFrom, Int.toNat_natCast, List.take_length]

theorem readRange_holds {w : WAL} {rs : List Record} (h : Holds w rs) (hfit : ∀ r ∈ rs, Wal.Fits r) (limit : Int) :
    w.readRange 1 limit = (rs.take limit.toNat, none) := readRange_whole h.data h.opened h.byteOffsets hfit limit

theorem stream_holds {e : Engine} {rs : List Record} (h : Holds e.log rs) (hfit : ∀ r ∈ rs, Wal.Fits r) : e.stream = rs :=
  stream_whole h.data h.opened h.byteOffsets hfit

theorem Represents.stream {e : Engine} {rs : List Record} (h : Represents e rs) (hfit : ∀ r ∈ rs, Wal.Fits r) :
    e.stream = rs := stream_holds h.holds hfit

theorem stamped_positions {n : UInt64} {rs : List Record} (h : Stamped n rs) :
    rs.map Record.commitPosition = (List.range rs.length).map (fun i => n + UInt64.ofNat i) := by
  induction rs generalizing n with
  | nil => rfl
  | cons r rs ih =>
      rw [List.map_cons, ih h.2, h.1, List.length_cons, List.range_succ_eq_map, List.map_cons, List.map_map]
      congr 1
      · simp
      · apply List.map_congr_left
        intro i _
        rw [Function.comp_apply, position_succ]

/-! ## The last record of a key -/

def lastFor (key : Bytes) (rs : List Record) : Option Record := rs.reverse.find? (fun r => r.key = key)

theorem lastFor_eq (key : Bytes) (rs : List Record) : lastFor key rs = lastOf Record.key key rs := rfl

/-- The entry that a record leaves behind. -/
def entryOf (r : Record) : Option Entry :=
  if r.kind = KindPut then some ⟨r.value, r.commitPosition, expiryTime r.expiresAtUnixNano⟩ else none

theorem lookup_replay (t : Tables) {r : Record} (hr : r.kind = KindPut ∨ r.kind = KindDelete) (key : Bytes) :
    (replay t r).index.lookup key = if r.key = key then entryOf r else t.index.lookup key := by
  unfold replay entryOf
  dsimp only
  rcases hr with hk | hk
  · rw [if_pos hk, if_pos hk]
    by_cases h : r.key = key
    · rw [if_pos h, ← h, Finmap.lookup_insert]
    · rw [if_neg h, Finmap.lookup_insert_of_ne _ (Ne.symm h)]
  · have hne : r.kind ≠ KindPut := by
      rw [hk]
      decide
    rw [if_neg hne, if_pos hk, if_neg hne]
    by_cases h : r.key = key
    · rw [if_pos h, ← h, Finmap.lookup_erase]
    · rw [if_neg h, Finmap.lookup_erase_ne (Ne.symm h)]

/-- The index is what the last record of each key says. -/
theorem lookup_tablesOf {rs : List Record} (hk : ∀ r ∈ rs, r.kind = KindPut ∨ r.kind = KindDelete) (key : Bytes) :
    (tablesOf rs).index.lookup key = (lastFor key rs).bind entryOf := by
  rw [lastFor_eq]
  exact lookup_foldl (fun t : Tables => t.index.lookup key) (fun t r hr => lookup_replay t hr key) hk
    (Finmap.lookup_empty key)

/-! ## `Get` and the stream -/

/-- An expiry that is not positive is none. -/
def Live (rec : Record) (now : Time) : Prop := rec.expiresAtUnixNano ≤ 0 ∨ now ≤ rec.expiresAtUnixNano.toInt

theorem expired_iff (value : Bytes) (version : UInt64) (exp : Int64) (now : Time) :
    expired ⟨value, version, expiryTime exp⟩ now = true ↔ 0 < exp ∧ exp.toInt < now := by
  unfold expired expiryTime
  by_cases h : exp > 0
  · have hpos : 0 < exp.toInt := Int64.lt_iff_toInt_lt.mp h
    have hne : exp.toInt ≠ zeroTime := by
      unfold zeroTime
      omega
    simp [h, hne]
  · have hnot : ¬ 0 < exp := h
    simp [hnot]

theorem get_iff {t : Tables} {key : Bytes} {o : Option Record} (h : t.index.lookup key = o.bind entryOf) (now : Time)
    (value : Bytes) (version : UInt64) :
    t.get key now = some (value, version) ↔ ∃ rec, o = some rec ∧ rec.kind = KindPut ∧ rec.commitPosition = version ∧
      rec.value = value ∧ Live rec now := by
  unfold Tables.get
  rw [h]
  cases o with
  | none => simp
  | some rec =>
      by_cases hk : rec.kind = KindPut
      · have hlive : expired ⟨rec.value, rec.commitPosition, expiryTime rec.expiresAtUnixNano⟩ now = true ↔ ¬ Live rec now := by
          rw [expired_iff, Live, not_or, Int64.not_le, Int.not_le]
        simp only [Option.bind_some, entryOf, hk, if_true]
        by_cases hl : Live rec now
        · rw [if_neg (fun hexp => hlive.mp hexp hl)]
          constructor
          · intro heq
            cases heq
            exact ⟨rec, rfl, hk, rfl, rfl, hl⟩
          · rintro ⟨r, hr, -, rfl, rfl, -⟩
            cases hr
            rfl
        · rw [if_pos (hlive.mpr hl)]
          constructor
          · intro heq
            cases heq
          · rintro ⟨r, hr, -, -, -, hlive'⟩
            cases hr
            exact absurd hlive' hl
      · simp only [Option.bind_some, entryOf, hk, if_false]
        constructor
        · intro heq
          cases heq
        · rintro ⟨r, hr, hk', -⟩
          cases hr
          exact absurd hk' hk

theorem step_stream {e : Engine} {rs : List Record} (h : Represents e rs) (hs : Sound rs) {c : Call} (hc : c.Fits) :
    match (step e c).1 with
    | .ok out =>
        if out.deduplicated then (step e c).2.stream = rs
        else out.version = out.commitPosition ∧ (step e c).2.stream = rs ++ [stamp c.record out.commitPosition]
    | .error _ => (step e c).2.stream = rs := by
  obtain ⟨hout, hnext⟩ := step_represents h c
  have hstream := hnext.stream (answer_fits hc hs.fits)
  rw [hout, hstream]
  unfold answer
  cases hd : (tablesOf rs).decide c with
  | hit out =>
      have hflag := Tables.dedupHit_flag (Tables.decide_hit hd)
      simp only [hflag, if_true]
  | conflict => rfl
  | write rec =>
      rw [Tables.decide_write hd]
      simp [outcomeAt]

/-- **State and change stream agree.** In every reachable state:
a mutation that commits adds one record, at its commit position and version, and no other answer adds one; restarts
succeed and keep the stream; `Fetch` reads the stream; its offsets are `1, .., LastCommitPosition`; and `Get` finds a
value exactly when the last record of the key is a put with that value and version that is live. -/
theorem stream_agrees {e : Engine} (h : Reachable e) :
    (∀ c : Call, c.Fits →
      match (step e c).1 with
      | .ok out =>
          if out.deduplicated then (step e c).2.stream = e.stream
          else out.version = out.commitPosition ∧
            (step e c).2.stream = e.stream ++ [stamp c.record out.commitPosition]
      | .error _ => (step e c).2.stream = e.stream) ∧
    (∃ e', e.restart = .ok e' ∧ e'.stream = e.stream) ∧
    (∀ limit : Int, e.fetch 1 limit = .ok ((e.stream.take limit.toNat).map changeOf)) ∧
    e.stream.map Record.commitPosition = (List.range e.stream.length).map (fun i => UInt64.ofNat (i + 1)) ∧
    e.log.lastCommitPosition = UInt64.ofNat e.stream.length ∧
    ∀ (key : Bytes) (now : Time) (value : Bytes) (version : UInt64),
      e.get key now = some (value, version) ↔ ∃ rec, lastFor key e.stream = some rec ∧ rec.kind = KindPut ∧
        rec.commitPosition = version ∧ rec.value = value ∧ Live rec now := by
  obtain ⟨rs, hrs, hsound⟩ := h.represents
  have hone : ∀ i, (1 : UInt64) + UInt64.ofNat i = UInt64.ofNat (i + 1) := by
    intro i
    rw [UInt64.ofNat_add, UInt64.add_comm]
    rfl
  rw [hrs.stream hsound.fits]
  refine ⟨fun c hc => step_stream hrs hsound hc, ?_, ?_, ?_, ?_, ?_⟩
  · obtain ⟨e', hr, hrs'⟩ := restart_represents hrs hsound.fits
    exact ⟨e', hr, hrs'.stream hsound.fits⟩
  · intro limit
    unfold Engine.fetch
    rw [readRange_holds hrs.holds hsound.fits]
  · rw [stamped_positions hrs.holds.stamped]
    exact List.map_congr_left (fun i _ => hone i)
  · unfold WAL.lastCommitPosition
    rw [hrs.holds.next, UInt64.add_comm, UInt64.add_sub_cancel]
  · intro key now value version
    apply get_iff
    rw [hrs.tables, lookup_tablesOf hsound.kind]

/-- A put whose expiry is negative. -/
def putNegative : Call := .applyPut [0x6b] [0x76] (-1) []

/-- The put of a negative expiry is found after that time has passed. -/
theorem negative_expiry_live : (step fresh putNegative).2.stream = [stamp putNegative.record 1] ∧
    putNegative.record.expiresAtUnixNano ≠ 0 ∧ putNegative.record.expiresAtUnixNano.toInt < 0 ∧
    (step fresh putNegative).2.get [0x6b] 0 = some ([0x76], 1) := by
  have hrs := (step_represents represents_fresh putNegative).2
  have hstream := hrs.stream (answer_fits (by decide) (by simp))
  refine ⟨hstream.trans rfl, by decide, by decide, ?_⟩
  rw [hrs.tables]
  decide

/-- A reachable state to which all of it applies. -/
theorem stream_agrees_put : Reachable (step fresh putNegative).2 ∧
    ((step fresh putNegative).2.get [0x6b] 0 = some ([0x76], 1) ↔
      ∃ rec, lastFor [0x6b] (step fresh putNegative).2.stream = some rec ∧ rec.kind = KindPut ∧
        rec.commitPosition = 1 ∧ rec.value = [0x76] ∧ Live rec 0) :=
  have h : Reachable (step fresh putNegative).2 := .call .fresh putNegative (by decide)
  ⟨h, (stream_agrees h).2.2.2.2.2 [0x6b] 0 [0x76] 1⟩

end Uddp
