import Mathlib.Data.Finmap
import Uddp.Lib.LastWrite
import Uddp.Wal.Faults

/-!
# The offset store

The committed offset of every consumer group, in a log of its own.

* `openOffsets` : `streaming.Open` on a file; `commit`, `fetch` : the methods, each under the store's lock;
* `offsetIn g rs` : the offset that the records `rs` hold for the group `g`, the last one written;
* `openOffsets_part` : `streaming.Open` on any part of the file;
* **`commit_cases`** : every way one `Commit` can end.
-/

namespace Uddp.Streaming
open Uddp.Lib Uddp.Wal

/-! ## The store -/

abbrev Offsets := Finmap (fun _ : Bytes => UInt64)

structure OffsetStore where
  log : WAL
  offsets : Offsets

inductive CommitError
  | offsetRegression
  | wal (e : AppendError)
  deriving DecidableEq, Repr

def CommitError.text : CommitError → String
  | .offsetRegression => "streaming: offset commit would move backward"
  | .wal e => e.text

def encodeOffset (v : UInt64) : Bytes := putUint64 v

/-- Reading fewer than eight bytes panics; the text of the panic stands for it. -/
def decodeOffset (b : Bytes) : Except String UInt64 :=
  if b.length < 8 then .error ("runtime error: index out of range [7] with length " ++ toString b.length)
  else .ok (uint64 (b.take 8))

def replay (offsets : Offsets) (rec : Record) : Except String Offsets :=
  match decodeOffset rec.value with
  | .error e => .error e
  | .ok offset => .ok (offsets.insert rec.key offset)

/-- `streaming.Open` on the contents of the file, with the file it leaves behind. -/
def openOffsets (f : File) : Except OpenError OffsetStore × File :=
  match openFile replay ∅ f with
  | (.error e, f) => (.error e, f)
  | (.ok (offsets, log), f) => (.ok ⟨log, offsets⟩, f)

def offsetRecord (group : Bytes) (offset : UInt64) : Record :=
  { commitPosition := 0, kind := KindPut, key := group, value := encodeOffset offset, expiresAtUnixNano := 0
    idempotencyKey := [] }

namespace OffsetStore

/-- The store that `streaming.Open` makes of a new file. -/
def fresh : OffsetStore := ⟨freshWAL, ∅⟩

def fetch (s : OffsetStore) (group : Bytes) : Option UInt64 := s.offsets.lookup group

/-- `Commit`, with the offset and the error it returns. -/
def commit (s : OffsetStore) (group : Bytes) (offset : UInt64) (io : AppendIO) :
    (UInt64 × Option CommitError) × OffsetStore :=
  match (s.offsets.lookup group).filter (fun current => offset < current) with
  | some current => ((current, some .offsetRegression), s)
  | none =>
      match s.log.append (offsetRecord group offset) io with
      | (.error e, log) => ((0, some (.wal e)), { s with log := log })
      | (.ok _, log) => ((offset, none), { log := log, offsets := s.offsets.insert group offset })

end OffsetStore

/-- What a stop of the process somewhere in `Commit` can leave of the log: a part of what the whole call writes, with
everything that was durable before it. -/
structure Stops (s : OffsetStore) (group : Bytes) (offset : UInt64) (io : AppendIO) (f : File) : Prop where
  kept : f.data <+: (s.commit group offset io).2.log.out.file.data
  durable : s.log.out.file.synced ≤ f.data.length
  synced : s.log.out.file.synced ≤ f.synced
  reopened : f.closed = false

instance (s : OffsetStore) (group : Bytes) (offset : UInt64) (io : AppendIO) (f : File) :
    Decidable (Stops s group offset io f) :=
  decidable_of_iff (f.data <+: (s.commit group offset io).2.log.out.file.data ∧ s.log.out.file.synced ≤ f.data.length ∧
      s.log.out.file.synced ≤ f.synced ∧ f.closed = false)
    ⟨fun h => ⟨h.1, h.2.1, h.2.2.1, h.2.2.2⟩, fun h => ⟨h.kept, h.durable, h.synced, h.reopened⟩⟩

/-! ## What the records hold -/

theorem decodeOffset_ok {b : Bytes} (h : b.length = 8) : decodeOffset b = .ok (uint64 b) := by
  unfold decodeOffset
  rw [if_neg (by omega), ← h, List.take_length]

@[simp] theorem length_encodeOffset (v : UInt64) : (encodeOffset v).length = 8 := length_putUint64 v

/-- The offset that the records hold for a group. -/
def offsetIn (g : Bytes) (rs : List Record) : Option UInt64 := (lastOf Record.key g rs).map (fun r => uint64 r.value)

theorem offsetIn_snoc (g : Bytes) (rs : List Record) (r : Record) :
    offsetIn g (rs ++ [r]) = if r.key = g then some (uint64 r.value) else offsetIn g rs := by
  unfold offsetIn
  rw [lastOf_snoc]
  by_cases h : r.key = g
  · rw [if_pos h, if_pos h, Option.map_some]
  · rw [if_neg h, if_neg h]

def setOffset (offsets : Offsets) (rec : Record) : Offsets := offsets.insert rec.key (uint64 rec.value)

theorem replay_ok {rec : Record} (h : rec.value.length = 8) (offsets : Offsets) :
    replay offsets rec = .ok (setOffset offsets rec) := by
  unfold replay
  rw [decodeOffset_ok h]
  rfl

theorem lookup_setOffsets (g : Bytes) (rs : List Record) : (rs.foldl setOffset ∅).lookup g = offsetIn g rs := by
  have hset : ∀ (t : Offsets) (r : Record), True →
      (setOffset t r).lookup g = if r.key = g then some (uint64 r.value) else t.lookup g := by
    intro t r _
    unfold setOffset
    by_cases h : r.key = g
    · rw [if_pos h, ← h, Finmap.lookup_insert]
    · rw [if_neg h, Finmap.lookup_insert_of_ne _ (Ne.symm h)]
  rw [lookup_foldl (fun t : Offsets => t.lookup g) hset (fun _ _ => trivial) (Finmap.lookup_empty g)]
  unfold offsetIn
  cases lastOf Record.key g rs with
  | none => rfl
  | some r => rfl

/-! ## `streaming.Open` -/

/-- Records as `Commit` writes them. -/
structure Written (rs : List Record) : Prop where
  fits : ∀ r ∈ rs, Fits r
  values : ∀ r ∈ rs, r.value.length = 8

theorem Written.take {rs : List Record} (h : Written rs) (k : Nat) : Written (rs.take k) :=
  ⟨fun r hr => h.fits r (List.mem_of_mem_take hr), fun r hr => h.values r (List.mem_of_mem_take hr)⟩

theorem Written.snoc {rs : List Record} (h : Written rs) {g : Bytes} {o : UInt64} (hfit : Fits (offsetRecord g o))
    (position : UInt64) : Written (rs ++ [stamp (offsetRecord g o) position]) := by
  refine ⟨fits_snoc h.fits hfit position, fun r hr => ?_⟩
  rcases List.mem_append.mp hr with hr | hr
  · exact h.values r hr
  · rw [List.mem_singleton.mp hr]
    exact length_encodeOffset o

/-- **`streaming.Open`** on any part of the file of a store: it finds the offsets of the records that the part has whole. -/
theorem openOffsets_part {w : WAL} {rs : List Record} (h : LogState w rs) (hw : Written rs) {f : File}
    (hf : f.data <+: w.out.file.data) (hlen : headerSize ≤ f.data.length) (hc : f.closed = false) :
    ∃ k s, k ≤ rs.length ∧ openOffsets f = (.ok s, s.log.out.file) ∧ Holds s.log (rs.take k) ∧
      (∀ g, s.fetch g = offsetIn g (rs.take k)) ∧ s.log.out.file.synced = min f.synced (logBytes (rs.take k)).length ∧
      ∀ n ≤ rs.length, (logBytes (rs.take n)).length ≤ f.data.length ↔ n ≤ k := by
  obtain ⟨k, w', hk, hopen, hholds, hsync, hwhole⟩ :=
    h.reopen hw.fits (fun offsets r hr => replay_ok (hw.values r hr) offsets) ∅ hf hlen hc
  refine ⟨k, ⟨w', (rs.take k).foldl setOffset ∅⟩, hk, ?_, hholds, fun g => lookup_setOffsets g _, hsync, hwhole⟩
  unfold openOffsets
  rw [hopen]

theorem openOffsets_log {rs : List Record} (hw : Written rs) (hst : Stamped 1 rs) {f : File} (hf : f.data = logBytes rs)
    (hc : f.closed = false) :
    ∃ s, openOffsets f = (.ok s, f) ∧ Holds s.log rs ∧ s.log.out.file = f ∧ ∀ g, s.fetch g = offsetIn g rs := by
  obtain ⟨w, hopen, hholds, -, hsame⟩ := openFile_log (fun offsets r hr => replay_ok (hw.values r hr) offsets) hw.fits hst
    (Or.inl rfl) ∅ f (by rw [hf, List.append_nil]) hc
  refine ⟨⟨w, rs.foldl setOffset ∅⟩, ?_, hholds, hsame rfl, fun g => lookup_setOffsets g rs⟩
  unfold openOffsets
  rw [hopen, hsame rfl]

/-! ## `Commit` -/

/-- How one `Commit` can end, in a store whose log is at `rs`. -/
inductive Committed (s : OffsetStore) (rs : List Record) (g : Bytes) (o : UInt64) :
    (UInt64 × Option CommitError) × OffsetStore → Prop
  | regression (current : UInt64) (behind : s.fetch g = some current ∧ o < current) :
      Committed s rs g o ((current, some .offsetRegression), s)
  | done (s' : OffsetStore) (ahead : s.fetch g ≤ some o)
      (holds : Holds s'.log (rs ++ [stamp (offsetRecord g o) s.log.next]))
      (durable : s'.log.out.file.synced = s'.log.out.file.data.length) (set : s'.offsets = s.offsets.insert g o) :
      Committed s rs g o ((o, none), s')
  | failed (s' : OffsetStore) (e : AppendError) (rs' : List Record) (ahead : s.fetch g ≤ some o)
      (left : rs' = rs ∨ rs' = rs ++ [stamp (offsetRecord g o) s.log.next]) (log : LogState s'.log rs')
      (synced : s'.log.out.file.synced = s.log.out.file.synced) (same : s'.offsets = s.offsets) :
      Committed s rs g o ((0, some (.wal e)), s')

theorem commit_cases {s : OffsetStore} {rs : List Record} (h : LogState s.log rs) {g : Bytes} {o : UInt64}
    (hfit : Fits (offsetRecord g o)) (io : AppendIO) : Committed s rs g o (s.commit g o io) := by
  unfold OffsetStore.commit
  split
  · next current hbehind =>
    obtain ⟨hcurrent, hlt⟩ := Option.filter_eq_some_iff.mp hbehind
    exact .regression current ⟨hcurrent, by simpa using hlt⟩
  · next hahead =>
    have hle : s.fetch g ≤ some o := by
      cases hcurrent : s.fetch g with
      | none => exact Option.none_le
      | some current =>
          have hnot := Option.filter_eq_none_iff.mp hahead current hcurrent
          exact Option.some_le_some.mpr (UInt64.not_lt.mp (by simpa using hnot))
    rcases h.append hfit io with ⟨hok, hholds, hdurable⟩ | ⟨err, rs', herr, hleft, hlog, hsync⟩
    · cases happ : s.log.append (offsetRecord g o) io with
      | mk res log =>
          rw [happ] at hok hholds hdurable
          obtain rfl : res = .ok s.log.next := hok
          exact .done _ hle hholds hdurable rfl
    · cases happ : s.log.append (offsetRecord g o) io with
      | mk res log =>
          rw [happ] at herr hlog hsync
          obtain rfl : res = .error err := herr
          exact .failed _ err rs' hle hleft hlog hsync rfl

theorem fetch_insert {s s' : OffsetStore} {g : Bytes} {o : UInt64} (h : s'.offsets = s.offsets.insert g o) (g' : Bytes) :
    s'.fetch g' = if g = g' then some o else s.fetch g' := by
  unfold OffsetStore.fetch
  rw [h]
  by_cases hg : g = g'
  · rw [if_pos hg, ← hg, Finmap.lookup_insert]
  · rw [if_neg hg, Finmap.lookup_insert_of_ne _ (Ne.symm hg)]

/-! ## A store without faults -/

/-- `Close` and then `streaming.Open` on the same file. -/
def OffsetStore.restart (s : OffsetStore) : Except OpenError OffsetStore :=
  (openOffsets { (s.log.close none none).2.out.file with closed := false }).1

/-- The store holds the records `rs`, all of them durable. -/
structure Stored (s : OffsetStore) (rs : List Record) : Prop where
  holds : Holds s.log rs
  written : Written rs
  durable : s.log.out.file.synced = s.log.out.file.data.length
  offsets : ∀ g, s.fetch g = offsetIn g rs

theorem stored_fresh : Stored .fresh [] :=
  ⟨freshWAL_holds, ⟨by simp, by simp⟩, rfl, fun g => Finmap.lookup_empty g⟩

section Stored
variable {s : OffsetStore} {rs : List Record} {g : Bytes} {o : UInt64}

theorem Stored.commit (h : Stored s rs) (hfit : Fits (offsetRecord g o)) :
    ∃ rs', Stored (s.commit g o AppendIO.ok).2 rs' ∧ (rs' = rs ∨ rs' = rs ++ [stamp (offsetRecord g o) s.log.next]) := by
  obtain ⟨w, happ, hholds, hdurable⟩ := append_ok h.holds (offsetRecord g o)
  unfold OffsetStore.commit
  split
  · exact ⟨rs, h, Or.inl rfl⟩
  · rw [happ]
    refine ⟨_, ⟨hholds, h.written.snoc hfit _, hdurable, fun g' => ?_⟩, Or.inr rfl⟩
    rw [offsetIn_snoc, fetch_insert (s := s) rfl g', h.offsets]
    show _ = if g = g' then some (uint64 (putUint64 o)) else _
    rw [uint64_putUint64]

theorem offsetIn_commit {rs' : List Record} {position : UInt64}
    (h : rs' = rs ∨ rs' = rs ++ [stamp (offsetRecord g o) position]) {g' : Bytes} {o' : UInt64}
    (ho' : offsetIn g' rs' = some o') : offsetIn g' rs = some o' ∨ g' = g ∧ o' = o := by
  rcases h with rfl | rfl
  · exact Or.inl ho'
  · rw [offsetIn_snoc] at ho'
    by_cases hg : g = g'
    · rw [if_pos (show (stamp (offsetRecord g o) position).key = g' from hg)] at ho'
      refine Or.inr ⟨hg.symm, ?_⟩
      rw [← Option.some.inj ho']
      exact uint64_putUint64 o
    · rw [if_neg (show (stamp (offsetRecord g o) position).key ≠ g' from hg)] at ho'
      exact Or.inl ho'

theorem Stored.restart (h : Stored s rs) : ∃ s', s.restart = .ok s' ∧ Stored s' rs := by
  obtain ⟨s', hopen, hholds, hfile, hfetch⟩ := openOffsets_log h.written h.holds.stamped h.holds.data h.holds.opened
  refine ⟨s', ?_, hholds, h.written, by rw [hfile]; exact h.durable, hfetch⟩
  unfold OffsetStore.restart
  rw [(close_file h.holds).2, hopen]

/-- A stop somewhere in a `Commit` keeps its record or does not. -/
theorem Stored.crash (h : Stored s rs) (hfit : Fits (offsetRecord g o)) {f : File} (hstop : Stops s g o AppendIO.ok f)
    (hlasting : f.synced = f.data.length) : ∃ s' rs', (openOffsets f).1 = .ok s' ∧ Stored s' rs' ∧
      (rs' = rs ∨ rs' = rs ++ [stamp (offsetRecord g o) s.log.next]) := by
  obtain ⟨rs', hstored, hrs'⟩ := h.commit hfit
  have hlen : (logBytes rs).length ≤ f.data.length := by
    rw [← h.holds.data, ← h.durable]
    exact hstop.durable
  obtain ⟨k, s', hk, hopen, hholds, hfetch, hsync, hwhole⟩ := openOffsets_part (.working hstored.holds) hstored.written
    hstop.kept ((headerSize_le_logBytes rs).trans hlen) hstop.reopened
  have hpre : rs <+: rs' := by
    rcases hrs' with rfl | rfl
    · exact List.prefix_rfl
    · exact List.prefix_append _ _
  have hrsk : rs.length ≤ k := by
    apply (hwhole rs.length hpre.length_le).mp
    rwa [take_of_part hpre le_rfl, List.take_length]
  refine ⟨s', rs'.take k, by rw [hopen], ⟨hholds, hstored.written.take k, ?_, hfetch⟩, ?_⟩
  · rw [hsync, hholds.data, hlasting]
    exact min_eq_right ((hwhole k hk).mpr le_rfl)
  · rcases hrs' with rfl | rfl
    · exact Or.inl (List.take_of_length_le hrsk)
    · rw [List.length_append, List.length_singleton] at hk
      rcases Nat.lt_or_ge rs.length k with hlt | hge
      · exact Or.inr (List.take_of_length_le (by rw [List.length_append, List.length_singleton]; exact hlt))
      · obtain rfl : k = rs.length := le_antisymm hge hrsk
        exact Or.inl List.take_left

end Stored

end Uddp.Streaming
