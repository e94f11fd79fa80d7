import Uddp.Resp.Server

/-!
# The declared subset

The compatibility table promises an error for every command outside the subset.

* `Declared` : the forms of the table; `Refused` : an error, and the engine as it was;
* `Overlooked` : commands outside the table that are served all the same: `PING` with arguments, `SET` with options behind
  `EX n`, and names that `strings.ToUpper` takes from outside ASCII;
* **`overlooked_iff`** : the commands outside the table that are not refused are exactly these.
-/

namespace Uddp.Resp
open Uddp.Lib Uddp.Wal

/-! ## The table -/

/-- The word without ASCII case. -/
def Named (name : Bytes) (word : String) : Prop := name.map upperByte = utf8 word

/-- `EX n` with a positive `n`. -/
def Expiry (opt n : Bytes) : Prop := Named opt "EX" ∧ ∃ ttlSeconds, parseInt n = some ttlSeconds ∧ 0 < ttlSeconds

inductive Declared : Command → Prop
  | ping {name : Bytes} (h : Named name "PING") : Declared ⟨name, []⟩
  | get {name : Bytes} (h : Named name "GET") (key : Bytes) : Declared ⟨name, [key]⟩
  | set {name : Bytes} (h : Named name "SET") (key value : Bytes) : Declared ⟨name, [key, value]⟩
  | setEx {name opt n : Bytes} (h : Named name "SET") (hex : Expiry opt n) (key value : Bytes) :
      Declared ⟨name, [key, value, opt, n]⟩
  | del {name : Bytes} (h : Named name "DEL") (key : Bytes) (keys : List Bytes) : Declared ⟨name, key :: keys⟩

inductive Overlooked : Command → Prop
  | ping {name : Bytes} (h : toUpper name = utf8 "PING") (arg : Bytes) (args : List Bytes) : Overlooked ⟨name, arg :: args⟩
  | options {name opt n : Bytes} (h : toUpper name = utf8 "SET") (hex : Expiry opt n) (key value more : Bytes)
      (mores : List Bytes) : Overlooked ⟨name, key :: value :: opt :: n :: more :: mores⟩
  | foldedPing {name : Bytes} (h : toUpper name = utf8 "PING") (hascii : ¬Named name "PING") : Overlooked ⟨name, []⟩
  | foldedSet {name : Bytes} (h : toUpper name = utf8 "SET") (hascii : ¬Named name "SET") (key value : Bytes) :
      Overlooked ⟨name, [key, value]⟩
  | foldedSetEx {name opt n : Bytes} (h : toUpper name = utf8 "SET") (hascii : ¬Named name "SET") (hex : Expiry opt n)
      (key value : Bytes) : Overlooked ⟨name, [key, value, opt, n]⟩

/-- The command gets an error, and neither the index nor the log changes. -/
def Refused (e : Engine) (now : Nat → Time) (io : Nat → AppendIO) (cmd : Command) : Prop :=
  (∃ msg, (dispatch e now io cmd).1 = .error msg) ∧ (dispatch e now io cmd).2 = e

/-! ## Names -/

theorem Named.toUpper {name : Bytes} {word : String} (h : Named name word) (hword : ∀ b ∈ utf8 word, b < 128) :
    toUpper name = utf8 word := toUpper_of_ascii h hword

theorem named_get {name : Bytes} (h : toUpper name = utf8 "GET") : Named name "GET" :=
  map_upperByte_of_toUpper h (by decide +kernel) (by decide +kernel)

theorem named_del {name : Bytes} (h : toUpper name = utf8 "DEL") : Named name "DEL" :=
  map_upperByte_of_toUpper h (by decide +kernel) (by decide +kernel)

theorem named_ex_iff {opt : Bytes} : equalFold opt (utf8 "EX") = true ↔ Named opt "EX" := by
  have hex : (utf8 "EX").map upperByte = utf8 "EX" := by decide +kernel
  unfold equalFold Named
  rw [hex, decide_eq_true_iff]

/-! ## `SET` -/

/-- **What `SET` accepts.** Nothing behind `EX n` is looked at. -/
theorem parseSet_ok_iff {args : List Bytes} {key value : Bytes} {ttlSeconds : Int64} :
    parseSet args = .ok (key, value, ttlSeconds) ↔ args = [key, value] ∧ ttlSeconds = 0 ∨
      ∃ opt n more, args = key :: value :: opt :: n :: more ∧ Named opt "EX" ∧ parseInt n = some ttlSeconds ∧ 0 < ttlSeconds := by
  constructor
  · intro h
    unfold parseSet at h
    split at h
    · cases h
      exact Or.inl ⟨rfl, rfl⟩
    · next key' value' opt n more =>
      split at h
      · next hopt =>
        cases hn : parseInt n with
        | none =>
            rw [hn] at h
            cases h
        | some ttl =>
            rw [hn] at h
            dsimp only at h
            split at h
            · cases h
            · next hpos =>
              cases h
              exact Or.inr ⟨opt, n, more, rfl, named_ex_iff.mp hopt, hn, Int64.not_le.mp hpos⟩
      · cases h
    · cases h
    · cases h
    · cases h
  · rintro (⟨rfl, rfl⟩ | ⟨opt, n, more, rfl, hopt, hn, hpos⟩)
    · rfl
    · rw [parseSet, if_pos (named_ex_iff.mpr hopt), hn]
      exact if_neg (Int64.not_le.mpr hpos)

theorem Expiry.parseSet {opt n : Bytes} (h : Expiry opt n) (key value : Bytes) (more : List Bytes) :
    ∃ set, Resp.parseSet (key :: value :: opt :: n :: more) = .ok set := by
  obtain ⟨hopt, ttlSeconds, hn, hpos⟩ := h
  exact ⟨(key, value, ttlSeconds), parseSet_ok_iff.mpr (Or.inr ⟨opt, n, more, rfl, hopt, hn, hpos⟩)⟩

/-- `SET` never leaves the engine as it was. -/
theorem put_ne (e : Engine) (key value : Bytes) (ttlSeconds : Int64) (now : Time) (io : AppendIO) :
    (e.put key value ttlSeconds [] now io).2 ≠ e := by
  have hnext : (e.put key value ttlSeconds [] now io).2.log.next = e.log.next + 1 := by
    have happend := append_next e.log (putRecord key value (expiryOf ttlSeconds now) []) io
    have hmiss : e.dedupHit [] = none := rfl
    unfold Engine.put Engine.applyPut Engine.commit
    rw [hmiss]
    dsimp only
    split
    · next err log h =>
      rw [h] at happend
      exact happend
    · next pos log h =>
      rw [h] at happend
      exact happend
  intro h
  rw [h] at hnext
  have hne : e.log.next ≠ e.log.next + 1 := by
    intro heq
    have := UInt64.toNat_inj.mpr heq
    rw [UInt64.toNat_add] at this
    have hlt := e.log.next.toNat_lt
    simp at this
    omega
  exact hne hnext

theorem not_refused_ping {cmd : Command} (h : toUpper cmd.name = utf8 "PING") (e : Engine) (now : Nat → Time)
    (io : Nat → AppendIO) : ¬Refused e now io cmd := by
  rintro ⟨⟨msg, hmsg⟩, -⟩
  rw [dispatch, if_pos h] at hmsg
  cases hmsg

theorem not_refused_set {cmd : Command} (h : toUpper cmd.name = utf8 "SET") (hset : ∃ set, parseSet cmd.args = .ok set)
    (e : Engine) (now : Nat → Time) (io : Nat → AppendIO) : ¬Refused e now io cmd := by
  obtain ⟨⟨key, value, ttlSeconds⟩, hset⟩ := hset
  have hping : toUpper cmd.name ≠ utf8 "PING" := by
    rw [h]
    decide +kernel
  have hget : toUpper cmd.name ≠ utf8 "GET" := by
    rw [h]
    decide +kernel
  rintro ⟨-, hsame⟩
  have hput := put_ne e key value ttlSeconds (now 0) (io 0)
  rw [dispatch, if_neg hping, if_neg hget, if_pos h, hset] at hsame
  dsimp only at hsame
  cases hres : e.put key value ttlSeconds [] (now 0) (io 0) with
  | mk result e' =>
      rw [hres] at hput hsame
      cases result with
      | error err => exact hput hsame
      | ok out => exact hput hsame

theorem refused_of_not {cmd : Command} (hping : toUpper cmd.name ≠ utf8 "PING")
    (hget : toUpper cmd.name = utf8 "GET" → ∀ key, cmd.args ≠ [key])
    (hset : toUpper cmd.name = utf8 "SET" → ∃ r, parseSet cmd.args = .error r)
    (hdel : toUpper cmd.name = utf8 "DEL" → cmd.args = []) (e : Engine) (now : Nat → Time) (io : Nat → AppendIO) :
    Refused e now io cmd := by
  unfold Refused dispatch
  rw [if_neg hping]
  by_cases hg : toUpper cmd.name = utf8 "GET"
  · rw [if_pos hg]
    split
    · next key hargs => exact absurd hargs (hget hg key)
    · exact ⟨⟨_, rfl⟩, rfl⟩
  rw [if_neg hg]
  by_cases hs : toUpper cmd.name = utf8 "SET"
  · obtain ⟨r, hr⟩ := hset hs
    rw [if_pos hs, hr]
    refine ⟨?_, rfl⟩
    rcases parseSet_error hr with rfl | rfl | rfl
    · exact ⟨_, rfl⟩
    · exact ⟨_, rfl⟩
    · exact ⟨_, rfl⟩
  rw [if_neg hs]
  by_cases hd : toUpper cmd.name = utf8 "DEL"
  · rw [if_pos hd, hdel hd]
    exact ⟨⟨_, rfl⟩, rfl⟩
  · rw [if_neg hd]
    exact ⟨⟨_, rfl⟩, rfl⟩

/-! ## The commands that are overlooked -/

theorem declared_or_overlooked_set {cmd : Command} (h : toUpper cmd.name = utf8 "SET") {set : Bytes × Bytes × Int64}
    (hset : parseSet cmd.args = .ok set) : Declared cmd ∨ Overlooked cmd := by
  obtain ⟨name, args⟩ := cmd
  obtain ⟨key, value, ttlSeconds⟩ := set
  rcases parseSet_ok_iff.mp hset with ⟨hargs, -⟩ | ⟨opt, n, more, hargs, hopt, hn, hpos⟩
  · cases hargs
    by_cases hascii : Named name "SET"
    · exact Or.inl (.set hascii key value)
    · exact Or.inr (.foldedSet h hascii key value)
  · cases hargs
    have hex : Expiry opt n := ⟨hopt, ttlSeconds, hn, hpos⟩
    cases more with
    | nil =>
        by_cases hascii : Named name "SET"
        · exact Or.inl (.setEx hascii hex key value)
        · exact Or.inr (.foldedSetEx h hascii hex key value)
    | cons x more => exact Or.inr (.options h hex key value x more)

theorem Declared.toUpper {cmd : Command} (h : Declared cmd) :
    Uddp.Lib.toUpper cmd.name = utf8 "PING" ∧ Named cmd.name "PING" ∧ cmd.args = [] ∨
      Uddp.Lib.toUpper cmd.name = utf8 "GET" ∨
      Uddp.Lib.toUpper cmd.name = utf8 "SET" ∧ Named cmd.name "SET" ∧ (cmd.args.length = 2 ∨ cmd.args.length = 4) ∨
      Uddp.Lib.toUpper cmd.name = utf8 "DEL" := by
  cases h with
  | ping h => exact Or.inl ⟨h.toUpper (by decide +kernel), h, rfl⟩
  | get h key => exact Or.inr (Or.inl (h.toUpper (by decide +kernel)))
  | set h key value => exact Or.inr (Or.inr (Or.inl ⟨h.toUpper (by decide +kernel), h, Or.inl rfl⟩))
  | setEx h hex key value => exact Or.inr (Or.inr (Or.inl ⟨h.toUpper (by decide +kernel), h, Or.inr rfl⟩))
  | del h key keys => exact Or.inr (Or.inr (Or.inr (h.toUpper (by decide +kernel))))

theorem Declared.ping_iff {cmd : Command} (h : Declared cmd) (hname : Uddp.Lib.toUpper cmd.name = utf8 "PING") :
    Named cmd.name "PING" ∧ cmd.args = [] := by
  rcases h.toUpper with h | h | h | h
  · exact h.2
  · exact absurd (hname.symm.trans h) (by decide +kernel)
  · exact absurd (hname.symm.trans h.1) (by decide +kernel)
  · exact absurd (hname.symm.trans h) (by decide +kernel)

theorem Declared.set_iff {cmd : Command} (h : Declared cmd) (hname : Uddp.Lib.toUpper cmd.name = utf8 "SET") :
    Named cmd.name "SET" ∧ (cmd.args.length = 2 ∨ cmd.args.length = 4) := by
  rcases h.toUpper with h | h | h | h
  · exact absurd (hname.symm.trans h.1) (by decide +kernel)
  · exact absurd (hname.symm.trans h) (by decide +kernel)
  · exact h.2
  · exact absurd (hname.symm.trans h) (by decide +kernel)

/-- **The declared subset.** Whatever the engine, the commands outside the table that are not refused without effect are
exactly the overlooked ones. -/
theorem overlooked_iff (e : Engine) (now : Nat → Time) (io : Nat → AppendIO) (cmd : Command) :
    ¬Declared cmd ∧ ¬Refused e now io cmd ↔ Overlooked cmd := by
  constructor
  · rintro ⟨hout, hserved⟩
    by_cases hping : toUpper cmd.name = utf8 "PING"
    · obtain ⟨name, args⟩ := cmd
      cases args with
      | nil => exact .foldedPing hping (fun h => hout (.ping h))
      | cons arg args => exact .ping hping arg args
    by_cases hset : toUpper cmd.name = utf8 "SET" ∧ ∃ set, parseSet cmd.args = .ok set
    · obtain ⟨hname, set, hset⟩ := hset
      exact (declared_or_overlooked_set hname hset).resolve_left hout
    · -- the rest is in the table or refused
      refine absurd (refused_of_not hping ?_ ?_ ?_ e now io) hserved
      · rintro hget key hargs
        obtain ⟨name, args⟩ := cmd
        cases hargs
        exact hout (.get (named_get hget) key)
      · intro hname
        cases hargs : parseSet cmd.args with
        | error r => exact ⟨r, rfl⟩
        | ok set => exact absurd ⟨hname, set, hargs⟩ hset
      · intro hdel
        obtain ⟨name, args⟩ := cmd
        cases args with
        | nil => rfl
        | cons key keys => exact absurd (.del (named_del hdel) key keys) hout
  · intro h
    cases h with
    | ping h arg args =>
        refine ⟨fun hd => ?_, not_refused_ping h e now io⟩
        exact absurd (hd.ping_iff h).2 (List.cons_ne_nil _ _)
    | options h hex key value more mores =>
        refine ⟨fun hd => ?_, not_refused_set h (hex.parseSet key value (more :: mores)) e now io⟩
        have hlen := (hd.set_iff h).2
        simp at hlen
    | foldedPing h hascii => exact ⟨fun hd => hascii (hd.ping_iff h).1, not_refused_ping h e now io⟩
    | foldedSet h hascii key value =>
        refine ⟨fun hd => hascii (hd.set_iff h).1, not_refused_set h ⟨(key, value, 0), ?_⟩ e now io⟩
        exact parseSet_ok_iff.mpr (Or.inl ⟨rfl, rfl⟩)
    | foldedSetEx h hascii hex key value =>
        exact ⟨fun hd => hascii (hd.set_iff h).1, not_refused_set h (hex.parseSet key value []) e now io⟩

/-- On a new engine `SET k v EX 10 NX` is executed with the option ignored, `PING x` gets a `PONG`, and `ſet k v` is a `SET`;
none of them is in the table. -/
theorem set_option_ignored :
    (¬Declared ⟨utf8 "SET", [utf8 "k", utf8 "v", utf8 "EX", utf8 "10", utf8 "NX"]⟩ ∧
      (dispatch fresh (fun _ => 1) (fun _ => AppendIO.ok)
        ⟨utf8 "SET", [utf8 "k", utf8 "v", utf8 "EX", utf8 "10", utf8 "NX"]⟩).1 = .simpleString (utf8 "OK") ∧
      (dispatch fresh (fun _ => 1) (fun _ => AppendIO.ok)
        ⟨utf8 "SET", [utf8 "k", utf8 "v", utf8 "EX", utf8 "10", utf8 "NX"]⟩).2.get (utf8 "k") 2 = some (utf8 "v", 1)) ∧
    (¬Declared ⟨utf8 "PING", [utf8 "x"]⟩ ∧
      (dispatch fresh (fun _ => 1) (fun _ => AppendIO.ok) ⟨utf8 "PING", [utf8 "x"]⟩).1 = .simpleString (utf8 "PONG")) ∧
    (¬Declared ⟨utf8 "ſet", [utf8 "k", utf8 "v"]⟩ ∧
      (dispatch fresh (fun _ => 1) (fun _ => AppendIO.ok) ⟨utf8 "ſet", [utf8 "k", utf8 "v"]⟩).2.get (utf8 "k") 2 =
        some (utf8 "v", 1)) := by
  refine ⟨⟨fun hd => ?_, by decide +kernel, by decide +kernel⟩, ⟨fun hd => ?_, by decide +kernel⟩, fun hd => ?_, by decide +kernel⟩
  · exact absurd (hd.set_iff (by decide +kernel)).2 (by decide)
  · exact absurd (hd.ping_iff (by decide +kernel)).2 (List.cons_ne_nil _ _)
  · have hnamed := (hd.set_iff (by decide +kernel)).1
    unfold Named at hnamed
    exact absurd hnamed (by decide +kernel)

end Uddp.Resp
