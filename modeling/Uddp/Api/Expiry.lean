import Uddp.Api.Servers
import Uddp.Engine.Faults

/-!
# Time to live

A write with a TTL stores `t + ttlSeconds * 10 ^ 9`, the deadline, as an `int64`: the product, the sum and the conversion
wrap.

* `deadline ttl t` : the time the client asks for, in integers; `toInt_expiryOf` : the time the record carries;
* `TimedWrite` : the calls that write a value with a TTL resolved at `t`: `Put`, `CompareAndSet`, and the application of a
  proposed command;
* `Aged` : an engine after such a write and any life in which no other mutation is made of the key: mutations of other
  keys, with any faults, and restarts on whatever a crash leaves;
* `Settled` : what all of that keeps; `Aged.get` : what `Get` answers;
* **`ttl_honoured_iff`** : when `Get` keeps to the deadline.
-/

namespace Uddp
open Uddp.Lib Uddp.Wal

/-! ## Deadlines -/

/-- The end of a TTL, as the client means it. -/
def deadline (ttlSeconds : Int64) (t : Time) : Int := t + ttlSeconds.toInt * 10 ^ 9

theorem resolveExpiry_eq (ttl : Int64) (t : Time) : resolveExpiry ttl t = expiryOf ttl t := by
  unfold resolveExpiry expiryOf
  by_cases h : ttl ≤ 0
  · rw [if_pos h, if_neg (Int64.not_lt.mpr h)]
  · rw [if_neg h, if_pos (Int64.not_le.mp h)]

section Arithmetic
variable {ttl : Int64} {t : Int} (httl : 0 < ttl)
include httl

/-- The record carries the deadline modulo `2 ^ 64`. -/
theorem toInt_expiryOf : (expiryOf ttl t).toInt = (deadline ttl t).bmod (2 ^ 64) := by
  have hsecond : second.toInt = 10 ^ 9 := by decide
  unfold expiryOf deadline
  rw [if_pos httl, Int64.toInt_ofInt, Int64.toInt_mul, hsecond]
  exact Int.add_bmod_bmod

theorem lt_deadline : t < deadline ttl t := by
  have hpos : 0 < ttl.toInt := Int64.lt_iff_toInt_lt.mp httl
  exact Int.lt_add_of_pos_right t (Int.mul_pos hpos (by decide))

/-- Nothing wraps exactly when the deadline is an `int64`. -/
theorem toInt_expiryOf_eq_iff (ht : 0 < t) : (expiryOf ttl t).toInt = deadline ttl t ↔ deadline ttl t < 2 ^ 63 := by
  constructor
  · intro h
    rw [← h]
    exact (expiryOf ttl t).toInt_lt
  · intro h
    have hlt := lt_deadline (t := t) httl
    rw [toInt_expiryOf httl]
    exact Int.bmod_eq_of_le_mul_two (by omega) (by omega)

end Arithmetic

section Ends
-- the end `x` that the record carries and the end `d` that the client means
variable {t x d : Int} (hpos : 0 < t) (hlt : t < d) (hword : x < 2 ^ 63) (hexact : x = d ↔ d < 2 ^ 63)
include hpos hlt hexact

theorem ends_agree (hfit : d < 2 ^ 63) (now : Int) : (x ≤ 0 ∨ now ≤ x) ↔ now ≤ d := by
  have hx := hexact.mpr hfit
  omega

theorem ends_agree_iff : (∀ now ≥ t, (x ≤ 0 ∨ now ≤ x ↔ now ≤ d)) ↔ d < 2 ^ 63 := by
  constructor
  · intro h
    -- the deadline and the time after it tell the two ends apart
    have hat := h d (by omega)
    have hafter := h (d + 1) (by omega)
    omega
  · intro hfit now _
    exact ends_agree hpos hlt hexact hfit now

include hword in
theorem ends_agree_word_iff (hmax : t < 2 ^ 63) : (∀ now ≥ t, now < 2 ^ 63 → (x ≤ 0 ∨ now ≤ x ↔ now ≤ d)) ↔
    d < 2 ^ 63 ∨ x ≤ 0 ∨ x = 2 ^ 63 - 1 := by
  constructor
  · intro h
    have hend := h (2 ^ 63 - 1) (by omega) (by omega)
    omega
  · rintro (hfit | hwrapped) now - hnow
    · exact ends_agree hpos hlt hexact hfit now
    · by_cases hfit : d < 2 ^ 63
      · exact ends_agree hpos hlt hexact hfit now
      · omega

end Ends

/-! ## Writes with a TTL -/

/-- The calls that write `value` to `key` with a TTL that was resolved at the time `t`. A replicated command is applied
at another time, `now`, than it was proposed at. -/
inductive TimedWrite (key value : Bytes) (ttl : Int64) (t : Time) : Call → Prop
  | put (idem : Bytes) : TimedWrite key value ttl t (.put key value ttl idem t)
  | compareAndSet (expected : UInt64) (idem : Bytes) (now : Time) :
      TimedWrite key value ttl t (.compareAndSet key value expected ttl idem t now)
  | replicated {cmd : Command} {c : Call} (now : Time) (hop : cmd.op = OpPut ∨ cmd.op = OpCompareAndSet)
      (hkey : cmd.key = key) (hvalue : cmd.value = value) (hexpiry : cmd.expiresAtUnixNano = resolveExpiry ttl t)
      (heffect : cmd.effect now = .call c) : TimedWrite key value ttl t c

theorem TimedWrite.record {key value : Bytes} {ttl : Int64} {t : Time} {c : Call} (h : TimedWrite key value ttl t c) :
    ∃ idem, c.record = putRecord key value (expiryOf ttl t) idem := by
  cases h with
  | put idem => exact ⟨idem, rfl⟩
  | compareAndSet expected idem now => exact ⟨idem, rfl⟩
  | @replicated cmd _ now hop hkey hvalue hexpiry heffect =>
      rw [resolveExpiry_eq] at hexpiry
      refine ⟨cmd.idempotencyKey, ?_⟩
      rw [← hkey, ← hvalue, ← hexpiry]
      unfold Command.effect at heffect
      rcases hop with hop | hop
      · rw [if_pos hop] at heffect
        cases heffect
        rfl
      · rw [hop] at heffect
        cases heffect
        rfl

/-- An engine some time after a write of `value` with a TTL, which got the version `version`. A retry that is answered
with the outcome of an earlier call is not a write. A restart finds what a crash leaves of the file, up to all of it. -/
inductive Aged (key value : Bytes) (ttl : Int64) (t : Time) (version : UInt64) : Engine → Prop
  | written {e : Engine} (h : Reached e) {c : Call} (hc : TimedWrite key value ttl t c) (hfits : c.Fits) (io : AppendIO)
      {out : Outcome} (hout : (c.run e io).1 = .ok out) (hnew : out.deduplicated = false) (hversion : out.version = version) :
      Aged key value ttl t version (c.run e io).2
  | call {e : Engine} (h : Aged key value ttl t version e) (c : Call) (hfits : c.Fits) (hother : c.record.key ≠ key)
      (io : AppendIO) : Aged key value ttl t version (c.run e io).2
  | restart {e e' : Engine} {f : File} (h : Aged key value ttl t version e) (hcrash : Crash e.log.out.file f)
      (hopen : (openEngine f).1 = .ok e') : Aged key value ttl t version e'

/-! ## What keeps the record of a key -/

/-- The record `r` is in the log, durably, no later record has its key, and the index has its entry. -/
structure Settled (e : Engine) (r : Record) (before after : List Record) : Prop where
  log : LogState e.log (before ++ r :: after)
  sound : Sound (before ++ r :: after)
  last : ∀ x ∈ after, x.key ≠ r.key
  durable : (logBytes (before ++ [r])).length ≤ e.log.out.file.synced
  index : e.index.lookup r.key = entryOf r

theorem run_lookup_ne (e : Engine) {c : Call} {key : Bytes} (h : c.record.key ≠ key) (io : AppendIO) :
    (c.run e io).2.index.lookup key = e.index.lookup key := by
  rw [Call.run_eq]
  cases hd : e.decide c with
  | hit out => rfl
  | conflict => rfl
  | write rec =>
      obtain rfl := Tables.decide_write hd
      show (e.write c.record io).2.index.lookup key = _
      unfold Engine.write
      split
      · rfl
      · next pos log _ => exact (lookup_replay e.toTables (r := stamp c.record pos) c.record_kind key).trans (if_neg h)

section Keeping
variable {e e' : Engine} {r : Record} {before after : List Record}

theorem Settled.call (h : Settled e r before after) {c : Call} (hc : c.Fits) (hother : c.record.key ≠ r.key) (io : AppendIO) :
    ∃ after', Settled (c.run e io).2 r before after' := by
  obtain ⟨rs', hlog, hrs', hsync⟩ := h.log.call hc io
  have hindex := (run_lookup_ne e hother io).trans h.index
  rcases hrs' with rfl | rfl
  · exact ⟨after, hlog, h.sound, h.last, h.durable.trans hsync, hindex⟩
  · have happend : before ++ r :: after ++ [stamp c.record e.log.next] = before ++ r :: (after ++ [stamp c.record e.log.next]) := by
      simp
    refine ⟨after ++ [stamp c.record e.log.next], happend ▸ hlog, happend ▸ h.sound.snoc hc _, fun x hx => ?_,
      h.durable.trans hsync, hindex⟩
    rcases List.mem_append.mp hx with hx | hx
    · exact h.last x hx
    · rw [List.mem_singleton.mp hx]
      exact hother

theorem Settled.restart (h : Settled e r before after) {f : File} (hcrash : Crash e.log.out.file f)
    (hopen : (openEngine f).1 = .ok e') : ∃ after', Settled e' r before after' := by
  have hheader := (headerSize_le_logBytes (before ++ [r])).trans h.durable
  obtain ⟨k, -, hlog, htables, hdurable⟩ := h.log.restart h.sound hheader hcrash hopen
  have htake : (before ++ r :: after).take (before.length + 1) = before ++ [r] := by
    rw [List.take_length_add_append]
    rfl
  have hlen : before.length + 1 ≤ (before ++ r :: after).length := by simp
  obtain ⟨hk, hsync⟩ := hdurable _ hlen (htake.symm ▸ h.durable)
  -- the records that are left are those up to `r` and some of the later ones
  obtain ⟨m, rfl⟩ := Nat.exists_eq_add_of_le hk
  have hleft : (before ++ r :: after).take (before.length + 1 + m) = before ++ r :: after.take m := by
    rw [Nat.add_assoc, List.take_length_add_append, Nat.add_comm 1 m, List.take_succ_cons]
  have hlast : ∀ x ∈ after.take m, x.key ≠ r.key := fun x hx => h.last x (List.mem_of_mem_take hx)
  have hsound := hleft ▸ h.sound.take (before.length + 1 + m)
  refine ⟨after.take m, hleft ▸ hlog, hsound, hlast, htake ▸ hsync, ?_⟩
  rw [htables, hleft, lookup_tablesOf hsound.kind, lastFor_eq, lastOf_of_split before hlast]
  rfl

theorem settled_of_write (h : Reached e) {c : Call} (hc : c.Fits) {io : AppendIO} {out : Outcome}
    (hout : (c.run e io).1 = .ok out) (hnew : out.deduplicated = false) :
    ∃ before, Settled (c.run e io).2 (stamp c.record out.version) before [] := by
  obtain ⟨rs, hlog, hsound, -⟩ := h.logState
  rw [Call.run_eq] at hout ⊢
  cases hd : e.decide c with
  | hit out' =>
      rw [hd] at hout
      cases hout
      have hflag := Tables.dedupHit_flag (Tables.decide_hit hd)
      rw [hnew] at hflag
      cases hflag
  | conflict =>
      rw [hd] at hout
      cases hout
  | write rec =>
      obtain rfl := Tables.decide_write hd
      rw [hd] at hout
      have hwrite : (e.write c.record io).1 = .ok out := hout
      show ∃ before, Settled (e.write c.record io).2 _ _ _
      unfold Engine.write at hwrite ⊢
      have happend := hlog.append hc io
      cases happ : e.log.append c.record io with
      | mk res w =>
          rw [happ] at happend hwrite
          rcases happend with ⟨hok, holds, durable⟩ | ⟨err, rs', herr, -⟩
          · cases hok
            cases hwrite
            refine ⟨rs, .working holds, hsound.snoc hc _, by simp, ?_, ?_⟩
            · exact (durable.trans (congrArg List.length holds.data)).ge
            · exact (lookup_replay e.toTables (r := stamp c.record e.log.next) c.record_kind c.record.key).trans (if_pos rfl)
          · cases herr
            cases hwrite

end Keeping

section Aging
variable {key value : Bytes} {ttl : Int64} {t : Time} {version : UInt64} {e : Engine}

theorem Aged.settled (h : Aged key value ttl t version e) :
    ∃ idem before after, Settled e (stamp (putRecord key value (expiryOf ttl t) idem) version) before after := by
  induction h with
  | written hreached hc hfits io hout hnew hversion =>
      obtain ⟨idem, hrecord⟩ := hc.record
      obtain ⟨before, hsettled⟩ := settled_of_write hreached hfits hout hnew
      rw [hrecord, hversion] at hsettled
      exact ⟨idem, before, [], hsettled⟩
  | call _ c hfits hother io ih =>
      obtain ⟨idem, before, after, hsettled⟩ := ih
      obtain ⟨after', hsettled'⟩ := hsettled.call hfits hother io
      exact ⟨idem, before, after', hsettled'⟩
  | restart _ hcrash hopen ih =>
      obtain ⟨idem, before, after, hsettled⟩ := ih
      obtain ⟨after', hsettled'⟩ := hsettled.restart hcrash hopen
      exact ⟨idem, before, after', hsettled'⟩

theorem Aged.cleanRestart {e' : Engine} (h : Aged key value ttl t version e) (hr : e.restart = .ok e') :
    Aged key value ttl t version e' := by
  obtain ⟨idem, before, after, hsettled⟩ := h.settled
  exact .restart h hsettled.log.crash_close hr

/-- What `Get` answers: an expiry that has wrapped to zero or below counts as none. -/
theorem Aged.get (h : Aged key value ttl t version e) (now : Time) :
    e.get key now =
      if (expiryOf ttl t).toInt ≤ 0 ∨ now ≤ (expiryOf ttl t).toInt then some (value, version) else none := by
  obtain ⟨idem, before, after, hsettled⟩ := h.settled
  have hlookup : e.index.lookup key = some ⟨value, version, expiryTime (expiryOf ttl t)⟩ := hsettled.index
  have hexpired := expired_iff value version (expiryOf ttl t) now
  rw [Int64.lt_iff_toInt_lt] at hexpired
  unfold Tables.get
  rw [hlookup]
  dsimp only
  by_cases hlive : (expiryOf ttl t).toInt ≤ 0 ∨ now ≤ (expiryOf ttl t).toInt
  · rw [if_pos hlive, if_neg]
    intro hdead
    obtain ⟨hpos, hlate⟩ := hexpired.mp hdead
    exact hlive.elim (fun h => absurd hpos (Int.not_lt.mpr h)) (fun h => absurd hlate (Int.not_lt.mpr h))
  · obtain ⟨hpos, hlate⟩ := not_or.mp hlive
    rw [if_neg hlive, if_pos (hexpired.mpr ⟨Int.not_le.mp hpos, Int.not_le.mp hlate⟩)]

/-- `Get` at the time `now` finds the value up to the deadline, and nothing after it. -/
def Honoured (e : Engine) (key value : Bytes) (version : UInt64) (deadline now : Time) : Prop :=
  e.get key now = if now ≤ deadline then some (value, version) else none

theorem Aged.honoured_iff (h : Aged key value ttl t version e) (now : Time) :
    Honoured e key value version (deadline ttl t) now ↔
      ((expiryOf ttl t).toInt ≤ 0 ∨ now ≤ (expiryOf ttl t).toInt ↔ now ≤ deadline ttl t) := by
  unfold Honoured
  rw [h.get now]
  by_cases hlive : (expiryOf ttl t).toInt ≤ 0 ∨ now ≤ (expiryOf ttl t).toInt <;>
    by_cases hdead : now ≤ deadline ttl t <;> simp [hlive, hdead]

/-- **Time to live.** Some time after a write with the TTL `ttl` at the time `t`, without another mutation of the key:
`Get` keeps to the deadline at all times from `t` on exactly when the deadline is an `int64`; it does so at all times
that an `int64` can name exactly when the deadline is one, or the expiry of the record has wrapped to zero or below, or to
the last time there is; and of two writes the one with the larger TTL expires first only if its deadline is no `int64`. -/
theorem ttl_honoured_iff {t : Int} (httl : 0 < ttl) (hpos : 0 < t) (hmax : t < 2 ^ 63) (h : Aged key value ttl t version e) :
    ((∀ now ≥ t, Honoured e key value version (deadline ttl t) now) ↔ deadline ttl t < 2 ^ 63) ∧
      ((∀ now ≥ t, now < 2 ^ 63 → Honoured e key value version (deadline ttl t) now) ↔
        deadline ttl t < 2 ^ 63 ∨ expiryOf ttl t ≤ 0 ∨ expiryOf ttl t = Int64.maxValue) ∧
      ∀ ttl' ≥ ttl, deadline ttl' t < 2 ^ 63 → ∀ (value' : Bytes) (version' : UInt64) (e' : Engine),
        Aged key value' ttl' t version' e' → ∀ now, (e.get key now).isSome → (e'.get key now).isSome := by
  have hexact := toInt_expiryOf_eq_iff httl hpos
  have hlt := lt_deadline (t := t) httl
  have hnonpos : expiryOf ttl t ≤ 0 ↔ (expiryOf ttl t).toInt ≤ 0 := Int64.le_iff_toInt_le
  have hlast : expiryOf ttl t = Int64.maxValue ↔ (expiryOf ttl t).toInt = 2 ^ 63 - 1 := by
    rw [← Int64.toInt_inj]
    rfl
  simp only [h.honoured_iff, hnonpos, hlast]
  refine ⟨ends_agree_iff hpos hlt hexact, ends_agree_word_iff hpos hlt (expiryOf ttl t).toInt_lt hexact hmax, ?_⟩
  intro ttl' hle hfit value' version' e' h' now hfound
  have hdeadlines : deadline ttl t ≤ deadline ttl' t :=
    Int.add_le_add_left (Int.mul_le_mul_of_nonneg_right (Int64.le_iff_toInt_le.mp hle) (by decide)) t
  have hagree := ends_agree hpos hlt hexact (Int.lt_of_le_of_lt hdeadlines hfit) now
  have httl' : 0 < ttl' := Int64.lt_of_lt_of_le httl hle
  have hagree' := ends_agree hpos (lt_deadline httl') (toInt_expiryOf_eq_iff httl' hpos) hfit now
  rw [h.get now, Option.isSome_ite] at hfound
  rw [h'.get now, Option.isSome_ite]
  exact hagree'.mpr (Int.le_trans (hagree.mp hfound) hdeadlines)

end Aging

/-- A write with a TTL of ten seconds, followed by one of another key. -/
def tenSeconds : Call := .put [0x6b] [0x76] 10 [] 1700000000000000000

def otherPut : Call := .applyPut [0x6c] [0x76] 0 []

/-- After a restart the write of ten seconds is found at its deadline and not later. -/
theorem ttl_honoured_restart : ∃ e, (step (step fresh tenSeconds).2 otherPut).2.restart = .ok e ∧
    e.get [0x6b] 1700000010000000000 = some ([0x76], 1) ∧ e.get [0x6b] 1700000010000000001 = none := by
  have hout : (tenSeconds.run fresh AppendIO.ok).1 = .ok ⟨1, 1, false⟩ := rfl
  have hwritten : Aged [0x6b] [0x76] 10 1700000000000000000 1 (step fresh tenSeconds).2 :=
    .written .fresh (.put []) (by decide) AppendIO.ok hout rfl rfl
  have hnext : Aged [0x6b] [0x76] 10 1700000000000000000 1 (step (step fresh tenSeconds).2 otherPut).2 :=
    .call hwritten otherPut (by decide) (by decide) AppendIO.ok
  have hhistory := (step_represents (step_represents represents_fresh tenSeconds).2 otherPut).2
  obtain ⟨e, hrestart, -⟩ := restart_represents hhistory (by decide +kernel)
  have hhonoured := (ttl_honoured_iff (by decide) (by decide) (by decide) (hnext.cleanRestart hrestart)).1.mpr (by decide)
  exact ⟨e, hrestart, hhonoured 1700000010000000000 (by decide), hhonoured 1700000010000000001 (by decide)⟩

/-- A TTL of 18446744074 seconds, which is 584 years, ends after less than a second, where one of ten seconds does not. -/
theorem long_ttl_expires_first :
    (step fresh (.put [0x6b] [0x76] 18446744074 [] 1700000000000000000)).2.get [0x6b] 1700000001000000000 = none ∧
      (1700000001000000000 : Int) ≤ 1700000000000000000 + 18446744074 * 10 ^ 9 ∧
      (step fresh (.put [0x6b] [0x76] 10 [] 1700000000000000000)).2.get [0x6b] 1700000001000000000 = some ([0x76], 1) := by
  have htables := fun c => (step_represents represents_fresh c).2.tables
  refine ⟨?_, by decide, ?_⟩
  · rw [htables]
    decide
  · rw [htables]
    decide

end Uddp
