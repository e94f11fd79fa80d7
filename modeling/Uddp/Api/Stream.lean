import Uddp.Api.Servers
import Uddp.Engine.Stream
import Uddp.Lib.Text
import Uddp.Streaming.Offsets

/-!
# The stream API

`StreamServer` serves the change stream of the engine and the offset store.

* `StreamServer.fetch`, `.commitOffset`, `.fetchOffset` : the handlers, with the checks they make and their errors;
* `message` : a record of the log as a client sees it; `pageOf rs k` : the page behind the first `k` records;
* **`fetch_page`** : one `Fetch` from behind the first `k` records of a log.
-/

namespace Uddp
open Uddp.Lib Uddp.Wal

/-! ## Messages -/

inductive ChangeKind
  | unspecified
  | put
  | delete
  deriving DecidableEq, Repr

/-- The change record of the native API, not that of the engine. -/
structure Native.ChangeRecord where
  offset : UInt64
  kind : ChangeKind
  key : Bytes
  value : Bytes
  deriving DecidableEq, Repr

structure FetchRequest where
  namespaceId : String
  fromOffset : UInt64
  maxRecords : Int32
  deriving DecidableEq, Repr

structure FetchResponse where
  records : List Native.ChangeRecord
  nextOffset : UInt64
  deriving DecidableEq, Repr

structure CommitOffsetRequest where
  namespaceId : String
  consumerGroup : String
  offset : UInt64
  deriving DecidableEq, Repr

structure CommitOffsetResponse where
  committedOffset : UInt64
  deriving DecidableEq, Repr

structure FetchOffsetRequest where
  namespaceId : String
  consumerGroup : String
  deriving DecidableEq, Repr

structure FetchOffsetResponse where
  offset : UInt64
  found : Bool
  deriving DecidableEq, Repr

/-- How a handler answers. -/
inductive Reply (α : Type)
  | ok (resp : α)
  | status (s : Status)
  | panic
  deriving DecidableEq, Repr

/-! ## Handlers -/

def defaultMaxRecords : Int := 500

def toChangeKind (k : RecordKind) : ChangeKind :=
  if k = KindPut then .put else if k = KindDelete then .delete else .unspecified

def toNative (r : ChangeRecord) : Native.ChangeRecord := ⟨r.offset, toChangeKind r.kind, r.key, r.value⟩

/-- The limit of a page: `max_records` if it is positive. -/
def pageLimit (maxRecords : Int32) : Int := if maxRecords.toInt ≤ 0 then defaultMaxRecords else maxRecords.toInt

namespace StreamServer
variable (quote : String → String) (spec : NamespaceSpec)

def fetch (e : Engine) (req : FetchRequest) : Reply FetchResponse :=
  match checkNamespace quote spec req.namespaceId with
  | some s => .status s
  | none =>
      if req.fromOffset = 0 then .status ⟨.invalidArgument, "from_offset must be >= 1"⟩
      else
        match e.fetch req.fromOffset (pageLimit req.maxRecords) with
        | .error err =>
            match err.text with
            | none => .panic
            | some text => .status ⟨.internal, "fetch: " ++ text⟩
        | .ok recs => .ok ⟨recs.map toNative, recs.foldl (fun _ r => r.offset + 1) req.fromOffset⟩

/-- The checks of the two offset requests. -/
def checkGroup (namespaceId consumerGroup : String) : Option Status :=
  match checkNamespace quote spec namespaceId with
  | some s => some s
  | none => if consumerGroup = "" then some ⟨.invalidArgument, "consumer_group must not be empty"⟩ else none

def commitOffset (s : Streaming.OffsetStore) (req : CommitOffsetRequest) (io : AppendIO) :
    Reply CommitOffsetResponse × Streaming.OffsetStore :=
  match checkGroup quote spec req.namespaceId req.consumerGroup with
  | some status => (.status status, s)
  | none =>
      match s.commit (utf8 req.consumerGroup) req.offset io with
      | ((committed, none), s') => (.ok ⟨committed⟩, s')
      | ((committed, some .offsetRegression), s') =>
          (.status ⟨.failedPrecondition, "offset " ++ toString req.offset.toNat ++ " is behind the committed offset " ++
            toString committed.toNat ++ " for group " ++ quote req.consumerGroup⟩, s')
      | ((_, some err), s') => (.status ⟨.internal, "commit_offset: " ++ err.text⟩, s')

def fetchOffset (s : Streaming.OffsetStore) (req : FetchOffsetRequest) : Reply FetchOffsetResponse :=
  match checkGroup quote spec req.namespaceId req.consumerGroup with
  | some status => .status status
  | none =>
      match s.fetch (utf8 req.consumerGroup) with
      | none => .ok ⟨0, false⟩
      | some offset => .ok ⟨offset, true⟩

end StreamServer

/-- A consumer asks for an offset beyond `2 ^ 63`: on every node that has just been started, the index of its empty log is
left, and the handler does not return. -/
theorem fetch_leaves_index : (fresh.log.readRange 9223372036854775809 500).2 = some .panic ∧
    ∀ (quote : String → String) (spec : NamespaceSpec),
      StreamServer.fetch quote spec fresh ⟨spec.id, 9223372036854775809, 0⟩ = .panic := by
  have hread : fresh.log.readRange 9223372036854775809 500 = ([], some .panic) := by decide +kernel
  refine ⟨by rw [hread], fun quote spec => ?_⟩
  have hspec : checkNamespace quote spec spec.id = none := if_neg (fun h => h rfl)
  have hlimit : pageLimit 0 = 500 := by decide
  unfold StreamServer.fetch Engine.fetch
  rw [hspec]
  simp only [hlimit, hread]
  rfl

/-! ## One page -/

/-- A record of the log as a client sees it. -/
def message (r : Record) : Native.ChangeRecord := toNative (changeOf r)

theorem checkNamespace_self (quote : String → String) (spec : NamespaceSpec) : checkNamespace quote spec spec.id = none := by
  unfold checkNamespace
  rw [if_neg (by simp)]

/-- The offset of the record behind the first `k`. -/
def offsetAfter (k : Nat) : UInt64 := 1 + UInt64.ofNat k

theorem offsetAfter_succ (k : Nat) : offsetAfter k + 1 = offsetAfter (k + 1) := by
  unfold offsetAfter
  rw [← position_succ, UInt64.add_assoc, UInt64.add_comm (UInt64.ofNat k), ← UInt64.add_assoc]

theorem toNat_offsetAfter {k : Nat} (hk : k < 2 ^ 63) : (offsetAfter k).toNat = k + 1 := by
  have hone : (1 : UInt64).toNat = 1 := rfl
  unfold offsetAfter
  rw [UInt64.toNat_add, UInt64.toNat_ofNat', hone]
  omega

theorem pageLimit_pos (maxRecords : Int32) : 0 < pageLimit maxRecords := by
  unfold pageLimit defaultMaxRecords
  split_ifs <;> omega

theorem engine_fetch_page {e : Engine} {rs : List Record} (h : Holds e.log rs) (hfit : ∀ r ∈ rs, Wal.Fits r) {k : Nat}
    (hk : k < 2 ^ 63) {limit : Int} (hlimit : 0 < limit) :
    e.fetch (offsetAfter k) limit = .ok (((rs.drop k).take limit.toNat).map changeOf) := by
  have hpos := toNat_offsetAfter hk
  have hread := readRange_log (t := []) (by rw [h.data, List.append_nil]) h.opened hfit (Or.inl rfl)
    (Or.inl h.byteOffsets) (offsetAfter k) limit (fun hbig => by omega)
  have hne : ¬ (offsetAfter k = 0 ∨ limit ≤ 0) := by
    rintro (h0 | h0)
    · rw [h0, UInt64.toNat_zero] at hpos
      omega
    · omega
  rw [if_neg hne, if_neg (by omega), hpos, Nat.add_sub_cancel] at hread
  unfold Engine.fetch
  rw [hread]

/-- The last record of a page decides where the next one starts. -/
theorem nextOffset_stamped {k : Nat} {page : List Record} (hst : Stamped (offsetAfter k) page) :
    (page.map changeOf).foldl (fun _ r => r.offset + 1) (offsetAfter k) = offsetAfter (k + page.length) := by
  induction page generalizing k with
  | nil => rfl
  | cons r page ih =>
      obtain ⟨hr, hpage⟩ := hst
      rw [offsetAfter_succ] at hpage
      have hfirst : (changeOf r).offset + 1 = offsetAfter (k + 1) := by
        show r.commitPosition + 1 = _
        rw [hr, offsetAfter_succ]
      rw [List.map_cons, List.foldl_cons, hfirst, ih hpage, List.length_cons]
      congr 1
      omega

theorem stamped_drop {rs : List Record} (h : Stamped 1 rs) (k : Nat) : Stamped (offsetAfter k) (rs.drop k) := by
  rcases Nat.lt_or_ge rs.length k with hlt | hle
  · rw [List.drop_of_length_le hlt.le]
    trivial
  · rw [← List.take_append_drop k rs] at h
    have hdrop := ((stamped_append 1 _ _).mp h).2
    rwa [List.length_take, Nat.min_eq_left hle] at hdrop

/-- The records behind the first `k`, as many as the limit allows. -/
def pageOf (rs : List Record) (k : Nat) (maxRecords : Int32) : List Record :=
  (rs.drop k).take (pageLimit maxRecords).toNat

theorem take_append_page (rs : List Record) (k : Nat) (maxRecords : Int32) :
    rs.take k ++ pageOf rs k maxRecords = rs.take (k + (pageOf rs k maxRecords).length) := by
  unfold pageOf
  rw [List.take_add, List.length_take, ← List.take_eq_take_min]

theorem pageOf_eq_nil {rs : List Record} {k : Nat} {maxRecords : Int32} : pageOf rs k maxRecords = [] ↔ rs.length ≤ k := by
  have hpos := pageLimit_pos maxRecords
  unfold pageOf
  rw [List.take_eq_nil_iff, List.drop_eq_nil_iff]
  omega

theorem length_pageOf_le (rs : List Record) (k : Nat) (maxRecords : Int32) :
    ((pageOf rs k maxRecords).length : Int) ≤ pageLimit maxRecords := by
  have hpos := pageLimit_pos maxRecords
  have hle : (pageOf rs k maxRecords).length ≤ (pageLimit maxRecords).toNat := List.length_take_le _ _
  omega

theorem length_pageOf_le_rest {rs : List Record} {k : Nat} (hk : k ≤ rs.length) (maxRecords : Int32) :
    k + (pageOf rs k maxRecords).length ≤ rs.length := by
  unfold pageOf
  rw [List.length_take, List.length_drop]
  omega

/-- **One `Fetch`** from behind the first `k` records: as many of the next records as the limit allows, and the offset
behind them. -/
theorem fetch_page (quote : String → String) (spec : NamespaceSpec) {e : Engine} {rs : List Record} (h : Holds e.log rs)
    (hfit : ∀ r ∈ rs, Wal.Fits r) {k : Nat} (hk : k < 2 ^ 63) (maxRecords : Int32) :
    StreamServer.fetch quote spec e ⟨spec.id, offsetAfter k, maxRecords⟩ =
      .ok ⟨(pageOf rs k maxRecords).map message, offsetAfter (k + (pageOf rs k maxRecords).length)⟩ := by
  have hne : offsetAfter k ≠ 0 := by
    intro h0
    have hpos := toNat_offsetAfter hk
    rw [h0, UInt64.toNat_zero] at hpos
    omega
  unfold StreamServer.fetch pageOf
  simp only [checkNamespace_self, if_neg hne, engine_fetch_page h hfit hk (pageLimit_pos maxRecords)]
  rw [nextOffset_stamped (stamped_take (stamped_drop h.stamped k) _), List.map_map]
  rfl

/-! ## Offsets -/

section Offsets
variable {quote : String → String} {spec : NamespaceSpec} {s : Streaming.OffsetStore} {consumerGroup : String}

theorem checkGroup_self (quote : String → String) (spec : NamespaceSpec) (consumerGroup : String) :
    StreamServer.checkGroup quote spec spec.id consumerGroup =
      if consumerGroup = "" then some ⟨.invalidArgument, "consumer_group must not be empty"⟩ else none := by
  unfold StreamServer.checkGroup
  rw [checkNamespace_self]

/-- A refused `CommitOffset` leaves the store alone, any other commits. -/
theorem commitOffset_store (o : UInt64) (io : AppendIO) :
    (StreamServer.commitOffset quote spec s ⟨spec.id, consumerGroup, o⟩ io).2 =
      if consumerGroup = "" then s else (s.commit (utf8 consumerGroup) o io).2 := by
  unfold StreamServer.commitOffset
  simp only [checkGroup_self]
  by_cases hempty : consumerGroup = ""
  · rw [if_pos hempty, if_pos hempty]
  · rw [if_neg hempty, if_neg hempty]
    dsimp only
    split
    · next hcommit => rw [hcommit]
    · next hcommit => rw [hcommit]
    · next hcommit => rw [hcommit]

theorem stored_commitOffset (quote : String → String) (spec : NamespaceSpec) {os : List Record} (h : Streaming.Stored s os)
    {o : UInt64} (hfit : Wal.Fits (Streaming.offsetRecord (utf8 consumerGroup) o)) :
    ∃ os', Streaming.Stored (StreamServer.commitOffset quote spec s ⟨spec.id, consumerGroup, o⟩ AppendIO.ok).2 os' ∧
      (os' = os ∨ os' = os ++ [stamp (Streaming.offsetRecord (utf8 consumerGroup) o) s.log.next]) := by
  rw [commitOffset_store]
  split_ifs
  · exact ⟨os, h, Or.inl rfl⟩
  · exact h.commit hfit

theorem fetchOffset_ok {resp : FetchOffsetResponse}
    (h : StreamServer.fetchOffset quote spec s ⟨spec.id, consumerGroup⟩ = .ok resp) :
    if resp.found then s.fetch (utf8 consumerGroup) = some resp.offset else s.fetch (utf8 consumerGroup) = none := by
  unfold StreamServer.fetchOffset at h
  simp only [checkGroup_self] at h
  by_cases hempty : consumerGroup = ""
  · rw [if_pos hempty] at h
    cases h
  · rw [if_neg hempty] at h
    dsimp only at h
    split at h
    · next hfetch =>
      cases h
      exact hfetch
    · next hfetch =>
      cases h
      exact hfetch

end Offsets

end Uddp
