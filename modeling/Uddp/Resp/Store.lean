import Uddp.Api.Expiry
import Uddp.Resp.Deletion
import Uddp.Resp.Replies
import Uddp.Resp.Subset

/-!
# The listener as a store

What the RESP listener is for: its clients, who send bytes and read bytes, work on one map from keys to values, some of
which go away at a time.

* `Store`, `Store.find`, `Store.delete`, `Store.serve` : that map, and what a client is told, with no log, version or byte
  of the protocol in it;
* `Ask`, `Ask.command` : what a client wants, and the command it sends;
* `store` : the map that an engine holds; `find_store`, `put_store`, `delete_store` : the engine calls on it;
* `dispatch_store` : a command on the engine is the same command on the map;
* `Asked`, `worldOf` : the commands of any number of connections, in the order in which they are served, and the engine that
  each connection meets;
* **`connections_refine_store`** : every connection reads what the map says.
-/

namespace Uddp
open Uddp.Lib Uddp.Wal

namespace Resp

/-! ## The map -/

/-- A value, and the last time at which it is there. -/
structure Binding where
  value : Bytes
  deadline : Option Time
  deriving DecidableEq, Repr

def Binding.Live (b : Binding) (now : Time) : Prop := ∀ d ∈ b.deadline, now ≤ d

instance (b : Binding) (now : Time) : Decidable (b.Live now) :=
  match h : b.deadline with
  | none => isTrue fun d hd => by rw [h] at hd; cases hd
  | some d => decidable_of_iff (now ≤ d) (by simp [Binding.Live, h])

abbrev Store := Bytes → Option Binding

namespace Store

def find (s : Store) (key : Bytes) (now : Time) : Option Bytes :=
  match s key with
  | none => none
  | some b => if b.Live now then some b.value else none

/-- Every key in turn, at a time of its own; the result is how many were there. -/
def delete (now : Nat → Time) : Nat → List Bytes → Store → Nat × Store
  | _, [], s => (0, s)
  | i, key :: keys, s =>
      match s.find key (now i) with
      | none => delete now (i + 1) keys s
      | some _ => ((delete now (i + 1) keys (Function.update s key none)).1 + 1,
          (delete now (i + 1) keys (Function.update s key none)).2)

end Store

/-- The end of so many seconds. -/
def endOf (now : Int) (seconds : Nat) : Int := now + seconds * 10 ^ 9

/-- What a client wants. -/
inductive Ask
  | ping
  | get (key : Bytes)
  | set (key value : Bytes)
  | setEx (key value : Bytes) (seconds : Nat)
  | del (key : Bytes) (keys : List Bytes)
  deriving DecidableEq, Repr

/-- What the client is told; `now i` is the time at its `i`-th key. -/
def Store.serve (s : Store) (now : Nat → Time) : Ask → Seen × Store
  | .ping => (.simple (utf8 "PONG"), s)
  | .get key => ((s.find key (now 0)).elim .null .bulk, s)
  | .set key value => (.simple (utf8 "OK"), Function.update s key (some ⟨value, none⟩))
  | .setEx key value seconds =>
      (.simple (utf8 "OK"), Function.update s key (some ⟨value, some (endOf (now 0) seconds)⟩))
  | .del key keys => (.integer (s.delete now 0 (key :: keys)).1, (s.delete now 0 (key :: keys)).2)

def Ask.command : Ask → Command
  | .ping => ⟨utf8 "PING", []⟩
  | .get key => ⟨utf8 "GET", [key]⟩
  | .set key value => ⟨utf8 "SET", [key, value]⟩
  | .setEx key value seconds => ⟨utf8 "SET", [key, value, utf8 "EX", decimal seconds]⟩
  | .del key keys => ⟨utf8 "DEL", key :: keys⟩

/-- A deadline lies in the future, and in the range of `UnixNano`. -/
def Ask.InRange (now : Nat → Time) : Ask → Prop
  | .setEx _ _ seconds => 0 < seconds ∧ 0 < now 0 ∧ endOf (now 0) seconds < 2 ^ 63
  | .ping | .get _ | .set _ _ | .del _ _ => True

instance (now : Nat → Time) : (ask : Ask) → Decidable (ask.InRange now)
  | .setEx _ _ seconds => inferInstanceAs (Decidable (0 < seconds ∧ 0 < now 0 ∧ endOf (now 0) seconds < 2 ^ 63))
  | .ping | .get _ | .set _ _ | .del _ _ => isTrue trivial

/-! ## The map of an engine -/

def bindingOf (ent : Entry) : Binding := ⟨ent.value, if ent.expiresAt = zeroTime then none else some ent.expiresAt⟩

theorem live_binding_iff (ent : Entry) (now : Time) : (bindingOf ent).Live now ↔ expired ent now = false := by
  unfold bindingOf Binding.Live expired
  by_cases hzero : ent.expiresAt = zeroTime
  · simp [hzero]
  · simp [hzero]

/-- The map without the versions. -/
def store (t : Tables) : Store := fun key => (t.index.lookup key).map bindingOf

theorem find_store (t : Tables) (key : Bytes) (now : Time) : (store t).find key now = (t.get key now).map Prod.fst := by
  unfold Store.find store Tables.get
  cases t.index.lookup key with
  | none => rfl
  | some ent =>
      rw [Option.map_some]
      dsimp only
      cases hexp : expired ent now with
      | false => exact if_pos ((live_binding_iff ent now).mpr hexp)
      | true =>
          refine if_neg fun hlive => ?_
          rw [live_binding_iff, hexp] at hlive
          cases hlive

theorem store_insert (t : Tables) (key : Bytes) (ent : Entry) (dedup : Dedup) :
    store ⟨t.index.insert key ent, dedup⟩ = Function.update (store t) key (some (bindingOf ent)) := by
  funext k
  unfold store
  by_cases hk : k = key
  · subst hk
    rw [Finmap.lookup_insert, Function.update_self]
    rfl
  · rw [Finmap.lookup_insert_of_ne _ hk, Function.update_of_ne hk]

theorem store_erase (t : Tables) (key : Bytes) (dedup : Dedup) :
    store ⟨t.index.erase key, dedup⟩ = Function.update (store t) key none := by
  funext k
  unfold store
  by_cases hk : k = key
  · subst hk
    rw [Finmap.lookup_erase, Function.update_self]
    rfl
  · rw [Finmap.lookup_erase_ne hk, Function.update_of_ne hk]

/-! ## Engine calls on the map -/

section Calls
variable {e : Engine} (hlog : Flushed e.log)
include hlog

theorem put_store (key value : Bytes) (ttlSeconds : Int64) (now : Time) :
    ∃ e', e.put key value ttlSeconds [] now AppendIO.ok = (.ok (outcomeAt e.log.next), e') ∧ Flushed e'.log ∧
      store e'.toTables = Function.update (store e.toTables) key
        (some (bindingOf ⟨value, e.log.next, expiryTime (expiryOf ttlSeconds now)⟩)) := by
  obtain ⟨w, happ, hw⟩ := append_extended hlog (putRecord key value (expiryOf ttlSeconds now) [])
  refine ⟨⟨⟨e.index.insert key ⟨value, e.log.next, expiryTime (expiryOf ttlSeconds now)⟩, e.dedup⟩, w⟩, ?_, hw.flushed, ?_⟩
  · have hmiss : e.dedupHit [] = none := rfl
    unfold Engine.put Engine.applyPut Engine.commit
    simp only [hmiss, happ]
    rfl
  · exact store_insert e.toTables key _ e.dedup

theorem delete_store (key : Bytes) :
    ∃ e', e.delete key [] AppendIO.ok = (.ok (outcomeAt e.log.next), e') ∧ Flushed e'.log ∧
      store e'.toTables = Function.update (store e.toTables) key none := by
  obtain ⟨w, happ, hw⟩ := append_extended hlog (deleteRecord key [])
  refine ⟨⟨⟨e.index.erase key, e.dedup⟩, w⟩, ?_, hw.flushed, store_erase e.toTables key e.dedup⟩
  have hmiss : e.dedupHit [] = none := rfl
  unfold Engine.delete Engine.commit
  simp only [hmiss, happ]
  rfl

end Calls

theorem binding_forever (value : Bytes) (version : UInt64) (now : Time) :
    bindingOf ⟨value, version, expiryTime (expiryOf 0 now)⟩ = ⟨value, none⟩ := by
  have hzero : expiryTime (expiryOf 0 now) = zeroTime := rfl
  unfold bindingOf
  rw [hzero, if_pos rfl]

theorem seconds_lt {seconds : Nat} {now : Int} (hnow : 0 < now) (hfit : endOf now seconds < 2 ^ 63) : seconds < 2 ^ 63 := by
  unfold endOf at hfit
  omega

theorem binding_until {seconds : Nat} {now : Int} (hpos : 0 < seconds) (hnow : 0 < now) (hfit : endOf now seconds < 2 ^ 63)
    (value : Bytes) (version : UInt64) :
    bindingOf ⟨value, version, expiryTime (expiryOf (Int64.ofNat seconds) now)⟩ = ⟨value, some (endOf now seconds)⟩ := by
  have hsec : (Int64.ofNat seconds).toInt = seconds := Int64.toInt_ofNat_of_lt (seconds_lt hnow hfit)
  have httl : 0 < Int64.ofNat seconds := Int64.lt_iff_toInt_lt.mpr (by rw [hsec]; exact Int.natCast_pos.mpr hpos)
  have hdead : deadline (Int64.ofNat seconds) now = endOf now seconds := by rw [deadline, hsec, endOf]
  have hexp : (expiryOf (Int64.ofNat seconds) now).toInt = endOf now seconds := by
    rw [(toInt_expiryOf_eq_iff httl hnow).mpr (by rw [hdead]; exact hfit), hdead]
  have hafter : 0 < endOf now seconds := by
    unfold endOf
    omega
  have hgt : 0 < expiryOf (Int64.ofNat seconds) now := by
    rw [Int64.lt_iff_toInt_lt, hexp]
    exact hafter
  have htime : expiryTime (expiryOf (Int64.ofNat seconds) now) = endOf now seconds := by
    unfold expiryTime
    rw [if_pos hgt, hexp]
  have hne : endOf now seconds ≠ zeroTime := (Int.lt_trans (by decide) hafter).ne'
  unfold bindingOf
  rw [htime, if_neg hne]

/-! ## Commands on the map -/

theorem delete_le (now : Nat → Time) (i : Nat) (keys : List Bytes) (s : Store) : (s.delete now i keys).1 ≤ keys.length := by
  induction keys generalizing i s with
  | nil => exact Nat.le_refl 0
  | cons key keys ih =>
      rw [Store.delete]
      cases s.find key (now i) with
      | none => exact Nat.le_succ_of_le (ih (i + 1) s)
      | some value => exact Nat.succ_le_succ (ih (i + 1) _)

/-- The loop of `DEL` goes over the map as `Store.delete` does. -/
theorem delLoop_store {e : Engine} (hlog : Flushed e.log) (now : Nat → Time) (i : Nat) (keys : List Bytes) (deleted : Int64) :
    ∃ e', delLoop e now (fun _ => AppendIO.ok) i keys deleted =
        (.integer (deleted + Int64.ofNat ((store e.toTables).delete now i keys).1), e') ∧ Flushed e'.log ∧
      store e'.toTables = ((store e.toTables).delete now i keys).2 := by
  induction keys generalizing e i deleted with
  | nil =>
      refine ⟨e, ?_, hlog, rfl⟩
      rw [delLoop, Store.delete, show Int64.ofNat 0 = 0 from rfl, Int64.add_zero]
  | cons key keys ih =>
      have hfind := find_store e.toTables key (now i)
      rw [delLoop, Store.delete]
      cases hget : e.get key (now i) with
      | none =>
          rw [hget, Option.map_none] at hfind
          rw [hfind]
          exact ih hlog (i + 1) deleted
      | some found =>
          rw [hget, Option.map_some] at hfind
          obtain ⟨e₁, hdelete, hlog₁, hstore₁⟩ := delete_store hlog key
          obtain ⟨e', hloop, hlog', hstore⟩ := ih hlog₁ (i + 1) (deleted + 1)
          rw [hstore₁] at hloop hstore
          rw [hfind, hdelete]
          refine ⟨e', hloop.trans ?_, hlog', hstore⟩
          rw [Int64.ofNat_add, Int64.add_assoc, Int64.add_comm 1]
          rfl

/-- **A command on an engine** that nobody comes between, and whose log works, is the command on its map: the reply says what
the map says, and the engine that is left holds the map that is left. -/
theorem dispatch_store {e : Engine} (hlog : Flushed e.log) {now : Nat → Time} {ask : Ask} (hrange : ask.InRange now)
    (hargs : ask.command.args.length < 2 ^ 63) :
    (dispatch e now (fun _ => AppendIO.ok) ask.command).1.seen = ((store e.toTables).serve now ask).1 ∧
      Flushed (dispatch e now (fun _ => AppendIO.ok) ask.command).2.log ∧
      store (dispatch e now (fun _ => AppendIO.ok) ask.command).2.toTables = ((store e.toTables).serve now ask).2 := by
  have hget : toUpper (utf8 "GET") = utf8 "GET" := by decide +kernel
  have hset : toUpper (utf8 "SET") = utf8 "SET" := by decide +kernel
  have hdel : toUpper (utf8 "DEL") = utf8 "DEL" := by decide +kernel
  unfold dispatch Ask.command
  cases ask with
  | ping =>
      rw [if_pos (by decide +kernel)]
      exact ⟨rfl, hlog, rfl⟩
  | get key =>
      dsimp only
      rw [hget, if_neg (by decide), if_pos rfl]
      refine ⟨?_, hlog, rfl⟩
      show (getReply (e.get key (now 0))).seen = ((store e.toTables).find key (now 0)).elim .null .bulk
      rw [find_store]
      cases e.get key (now 0) with
      | none => rfl
      | some found => rfl
  | set key value =>
      obtain ⟨e', hput, hlog', hstore⟩ := put_store hlog key value 0 (now 0)
      have hargs : parseSet [key, value] = .ok (key, value, 0) := rfl
      dsimp only
      rw [hset, if_neg (by decide), if_neg (by decide), if_pos rfl, hargs]
      dsimp only
      rw [hput]
      rw [binding_forever] at hstore
      exact ⟨rfl, hlog', hstore⟩
  | setEx key value seconds =>
      obtain ⟨hpos, hnow, hfit⟩ := hrange
      have hlt := seconds_lt hnow hfit
      obtain ⟨e', hput, hlog', hstore⟩ := put_store hlog key value (Int64.ofNat seconds) (now 0)
      have hsec : (Int64.ofNat seconds).toInt = seconds := Int64.toInt_ofNat_of_lt hlt
      have hargs : parseSet [key, value, utf8 "EX", decimal seconds] = .ok (key, value, Int64.ofNat seconds) := by
        refine parseSet_ok_iff.mpr (Or.inr ⟨utf8 "EX", decimal seconds, [], rfl, ?_, parseInt_decimal hlt, ?_⟩)
        · exact named_ex_iff.mp (by decide +kernel)
        · rw [Int64.lt_iff_toInt_lt, hsec]
          exact Int.natCast_pos.mpr hpos
      dsimp only
      rw [hset, if_neg (by decide), if_neg (by decide), if_pos rfl, hargs]
      dsimp only
      rw [hput]
      rw [binding_until hpos hnow hfit] at hstore
      exact ⟨rfl, hlog', hstore⟩
  | del key keys =>
      obtain ⟨e', hloop, hlog', hstore⟩ := delLoop_store hlog now 0 (key :: keys) 0
      have hcount := delete_le now 0 (key :: keys) (store e.toTables)
      dsimp only
      rw [hdel, if_neg (by decide), if_neg (by decide), if_neg (by decide), if_pos rfl]
      rw [hloop]
      refine ⟨?_, hlog', hstore⟩
      show Seen.integer _ = Seen.integer _
      rw [Int64.zero_add, Int64.toInt_ofNat_of_lt (Nat.lt_of_le_of_lt hcount hargs)]

/-! ## Connections -/

/-- A command of the connection `conn`, with the times its keys meet. -/
structure Asked (ι : Type) where
  conn : ι
  ask : Ask
  now : Nat → Time

variable {ι : Type}

/-- The commands one behind the other, on the engine. -/
def serveEngine (e : Engine) (x : Asked ι) : Reply × Engine := dispatch e x.now (fun _ => AppendIO.ok) x.ask.command

/-- The commands one behind the other, on the map. -/
def serveStore (s : Store) (x : Asked ι) : Seen × Store := s.serve x.now x.ask

/-- A status of one line or a value; no error. -/
def Seen.Plain : Seen → Prop
  | .simple text => ¬crlf <:+: text
  | .error _ => False
  | .integer _ | .bulk _ | .null => True

theorem serve_plain (s : Store) (now : Nat → Time) (ask : Ask) : (s.serve now ask).1.Plain := by
  have hpong : ¬crlf <:+: utf8 "PONG" := by decide +kernel
  have hok : ¬crlf <:+: utf8 "OK" := by decide +kernel
  cases ask with
  | ping => exact hpong
  | get key =>
      show (((s.find key (now 0)).elim .null .bulk : Seen)).Plain
      cases s.find key (now 0) with
      | none => trivial
      | some value => trivial
  | set key value => exact hok
  | setEx key value seconds => exact hok
  | del key keys => trivial

theorem framed_of_plain {r : Reply} (h : r.seen.Plain) : r.Framed := by
  cases r with
  | simpleString text => exact h
  | error msg => exact h.elim
  | integer n => trivial
  | bulkString b => trivial
  | nullBulkString => trivial

theorem run_store {rt : Runtime} {e : Engine} (hlog : Flushed e.log) {xs : List (Asked ι)}
    (hfit : ∀ x ∈ xs, x.ask.command.Fits rt) (hrange : ∀ x ∈ xs, x.ask.InRange x.now) :
    (run serveEngine e xs).1.map Reply.seen = (run serveStore (store e.toTables) xs).1 ∧
      (∀ r ∈ (run serveEngine e xs).1, r.Framed) ∧
      store (run serveEngine e xs).2.toTables = (run serveStore (store e.toTables) xs).2 := by
  induction xs generalizing e with
  | nil => exact ⟨rfl, List.forall_mem_nil _, rfl⟩
  | cons x xs ih =>
      obtain ⟨hx, hxs⟩ := List.forall_mem_cons.mp hfit
      obtain ⟨hxr, hxsr⟩ := List.forall_mem_cons.mp hrange
      have hargs : x.ask.command.args.length < 2 ^ 63 := by
        have hparts := hx.parts
        have hmax := rt.maxAlloc_lt
        unfold sliceHeaderSize at hparts
        omega
      obtain ⟨hseen, hlog', hstore⟩ := dispatch_store hlog hxr hargs
      obtain ⟨hseens, hframed, hlast⟩ := ih hlog' hxs hxsr
      rw [hstore] at hseens hlast
      rw [run_cons, run_cons, List.map_cons]
      refine ⟨List.cons_eq_cons.mpr ⟨hseen, hseens⟩, List.forall_mem_cons.mpr ⟨framed_of_plain ?_, hframed⟩, hlast⟩
      show (dispatch e x.now _ x.ask.command).1.seen.Plain
      rw [hseen]
      exact serve_plain _ _ _

/-! ## What a connection sees of it -/

variable [DecidableEq ι]

/-- What the `k`-th command of the connection `i` meets. -/
def worldOf (i : ι) : Engine → List (Asked ι) → Nat → World
  | e, [], _ => ⟨e, fun _ => 0, fun _ => AppendIO.ok⟩
  | e, x :: xs, k =>
      if x.conn = i then
        match k with
        | 0 => ⟨e, x.now, fun _ => AppendIO.ok⟩
        | k + 1 => worldOf i (serveEngine e x).2 xs k
      else worldOf i (serveEngine e x).2 xs k

/-- The commands of the connection `i`. -/
def sentBy (i : ι) (xs : List (Asked ι)) : List Command := (xs.filter (·.conn = i)).map (·.ask.command)

/-- The answers that are for the connection `i`. -/
def answersTo {α : Type} (i : ι) (xs : List (Asked ι)) (answers : List α) : List α :=
  ((xs.zip answers).filter (·.1.conn = i)).map Prod.snd

theorem turnsOf_succ (world : Nat → World) (n : Nat) (cmds : List Command) :
    turnsOf world (n + 1) cmds = turnsOf (fun k => world (k + 1)) n cmds := by
  induction cmds generalizing n with
  | nil => rfl
  | cons cmd cmds ih => rw [turnsOf, turnsOf, ih]

/-- The turns of a connection give its part of the replies. -/
theorem turnsOf_worldOf (i : ι) (e : Engine) (xs : List (Asked ι)) :
    (turnsOf (worldOf i e xs) 0 (sentBy i xs)).map Turn.reply = answersTo i xs (run serveEngine e xs).1 := by
  induction xs generalizing e with
  | nil => rfl
  | cons x xs ih =>
      rw [run_cons]
      unfold sentBy answersTo at ih ⊢
      rw [List.zip_cons_cons]
      by_cases hx : x.conn = i
      · rw [List.filter_cons_of_pos (by simpa using hx), List.filter_cons_of_pos (by simpa using hx), List.map_cons,
          List.map_cons, ← ih (serveEngine e x).2, turnsOf, turnsOf_succ, List.map_cons]
        have hfirst : worldOf i e (x :: xs) 0 = ⟨e, x.now, fun _ => AppendIO.ok⟩ := if_pos hx
        have hrest : (fun k => worldOf i e (x :: xs) (k + 1)) = worldOf i (serveEngine e x).2 xs :=
          funext fun k => if_pos hx
        rw [hfirst, hrest]
        rfl
      · rw [List.filter_cons_of_neg (by simpa using hx), List.filter_cons_of_neg (by simpa using hx), ←
          ih (serveEngine e x).2]
        have hrest : worldOf i e (x :: xs) = worldOf i (serveEngine e x).2 xs := funext fun k => if_neg hx
        rw [hrest]

theorem map_answersTo {α β : Type} (f : α → β) (i : ι) (xs : List (Asked ι)) (answers : List α) :
    (answersTo i xs answers).map f = answersTo i xs (answers.map f) := by
  unfold answersTo
  rw [List.zip_map_right, List.filter_map, List.map_map, List.map_map]
  rfl

theorem mem_of_mem_answersTo {α : Type} {i : ι} {xs : List (Asked ι)} {answers : List α} {a : α}
    (h : a ∈ answersTo i xs answers) : a ∈ answers := by
  obtain ⟨p, hp, rfl⟩ := List.mem_map.mp h
  exact (List.of_mem_zip (List.mem_of_mem_filter hp)).2

theorem length_answersTo {α : Type} (i : ι) {xs : List (Asked ι)} {answers : List α} (h : answers.length = xs.length) :
    (answersTo i xs answers).length = (sentBy i xs).length := by
  have hfst : (xs.zip answers).map Prod.fst = xs := List.map_fst_zip (Nat.le_of_eq h.symm)
  unfold answersTo sentBy
  rw [List.length_map, List.length_map]
  conv_rhs => rw [← hfst, List.filter_map, List.length_map]
  rfl

/-- **The listener is a store.** Any number of connections send commands of the subset, as many as they like without waiting,
and the commands are served in some order, each without another in between, by an engine with any contents whose log works.
Then every connection reads one reply for each of its commands and nothing else, and the replies are what one map from keys
to values, started from the contents of the engine, says to the commands in that order: a value is there from the `SET` that
brings it to the next `SET` or `DEL` of its key, and with `EX` up to its deadline. In the end the engine holds what the map
holds. -/
theorem connections_refine_store (rt : Runtime) (last : IoError) {e : Engine} (hlog : Flushed e.log) (xs : List (Asked ι))
    (hfit : ∀ x ∈ xs, x.ask.command.Fits rt) (hrange : ∀ x ∈ xs, x.ask.InRange x.now) :
    (∀ i fuel, (sentBy i xs).length < fuel →
      (handleConn rt last (worldOf i e xs) fuel 0 ((sentBy i xs).flatMap encode)).2 = some (.error (.io last)) ∧
      parseReplies (sentBy i xs).length (handleConn rt last (worldOf i e xs) fuel 0 ((sentBy i xs).flatMap encode)).1 =
        some (answersTo i xs (run serveStore (store e.toTables) xs).1, [])) ∧
    ∀ key now, ((run serveEngine e xs).2.get key now).map Prod.fst =
      (run serveStore (store e.toTables) xs).2.find key now := by
  obtain ⟨hseen, hframed, hstore⟩ := run_store hlog hfit hrange
  constructor
  · intro i fuel hfuel
    have hsent : ∀ cmd ∈ sentBy i xs, cmd.Fits rt := by
      intro cmd hcmd
      obtain ⟨x, hx, rfl⟩ := List.mem_map.mp hcmd
      exact hfit x (List.mem_of_mem_filter hx)
    rw [handleConn_pipeline rt last _ 0 hsent hfuel]
    refine ⟨rfl, ?_⟩
    have hparse := (parseReplies_iff (answersTo i xs (run serveEngine e xs).1)).mpr
      (fun r hr => hframed r (mem_of_mem_answersTo hr))
    rw [map_answersTo, hseen, length_answersTo i (length_run serveEngine e xs), ← turnsOf_worldOf, List.flatMap_map] at hparse
    exact hparse
  · intro key now
    rw [← hstore, find_store]

/-- A value that goes away: one connection sets it for ten seconds, and another one looks for it twice and deletes it. -/
def lease : List (Asked Bool) :=
  [⟨false, .setEx (utf8 "k") (utf8 "\r\n") 10, fun _ => 10 ^ 9⟩, ⟨true, .get (utf8 "k"), fun _ => 11 * 10 ^ 9⟩,
    ⟨true, .get (utf8 "k"), fun _ => 11 * 10 ^ 9 + 1⟩, ⟨false, .set (utf8 "k") [], fun _ => 12 * 10 ^ 9⟩,
    ⟨true, .del (utf8 "k") [utf8 "k"], fun _ => 13 * 10 ^ 9⟩]

theorem connections_refine_lease :
    parseReplies 3 (handleConn amd64 .eof (worldOf true fresh lease) 4 0 ((sentBy true lease).flatMap encode)).1 =
      some ([.bulk (utf8 "\r\n"), .null, .integer 1], []) := by
  have hfit : ∀ x ∈ lease, x.ask.command.Fits amd64 := by
    intro x hx
    constructor
    · revert x
      decide +kernel
    · revert x
      decide +kernel
  have hrange : ∀ x ∈ lease, x.ask.InRange x.now := by decide
  have h := ((connections_refine_store amd64 .eof (e := fresh) ⟨rfl, rfl, rfl⟩ lease hfit hrange).1 true 4 (by decide)).2
  exact h.trans (by decide +kernel)

end Resp
end Uddp
