import Uddp.Resp.Protocol

/-!
# The grammar of requests

A request is a line `*n`, and `n` bulk strings: a line `$len`, `len` bytes and CR LF.

* `Request used cmd` : the bytes `used` are a request for `cmd`;
* **`readCommand_grammar`** : `ReadCommand` accepts the requests, those whose bulk strings have a negative size, and those
  with any two bytes in the place of CR LF;
* `writeBulkString`, `encode` : how a client writes a command; **`pipeline_round_trip`** : every pipeline reads back.
-/

namespace Uddp.Resp
open Uddp.Lib Uddp.Lib.Reader

/-! ## The grammar -/

/-- A bulk string of the grammar. -/
def Bulk.Proper (u : Bulk) : Prop := Header 36 u.head u.size ∧ u.size.toInt = u.body.length ∧ u.tail = crlf

/-- The bytes `used` are a request for `cmd`. -/
def Request (used : Bytes) (cmd : Command) : Prop :=
  ∃ head us, (∃ n, Header 42 head n ∧ n.toInt = List.length us) ∧ us ≠ [] ∧ (∀ u ∈ us, Bulk.Proper u) ∧
    head ++ us.flatMap Bulk.wire = used ∧ us.map Bulk.body = cmd.name :: cmd.args

/-- The size is not negative, and CR LF follows the body. -/
def Bulk.Regular (u : Bulk) : Prop := 0 ≤ u.size.toInt ∧ u.tail = crlf

theorem Bulk.Read.proper_iff {rt : Runtime} {u : Bulk} (h : u.Read rt) : u.Proper ↔ u.Regular := by
  obtain ⟨hhead, ⟨hneg, -, -⟩ | ⟨hlen, -, -⟩⟩ := h
  · constructor
    · rintro ⟨-, hlen, -⟩
      omega
    · rintro ⟨hpos, -⟩
      omega
  · constructor
    · rintro ⟨-, -, htail⟩
      exact ⟨by omega, htail⟩
    · rintro ⟨-, htail⟩
      exact ⟨hhead, hlen, htail⟩

theorem header_unique {kind : UInt8} (hkind : kind ≠ 10 ∧ kind ≠ 13) {u v r s : Bytes} {n m : Int64} (hu : Header kind u n)
    (hv : Header kind v m) (h : u ++ r = v ++ s) : u = v ∧ n = m ∧ r = s := by
  obtain ⟨t, hn, hline⟩ := (header_iff hkind).mp hu
  obtain ⟨t', hm, hline'⟩ := (header_iff hkind).mp hv
  obtain ⟨huv, ht, hrs⟩ := (reads_readLine .eof).unique hline hline' h
  cases ht
  rw [hn] at hm
  exact ⟨huv, Option.some.inj hm, hrs⟩

theorem Bulk.Read.eq_of_proper {rt : Runtime} {u v : Bulk} {r s : Bytes} (hu : u.Read rt) (hv : v.Proper)
    (h : u.wire ++ r = v.wire ++ s) : u = v ∧ r = s := by
  obtain ⟨hhead, hbody⟩ := hu
  obtain ⟨hhead', hlen', htail'⟩ := hv
  rw [Bulk.wire, Bulk.wire, List.append_assoc u.head, List.append_assoc v.head] at h
  obtain ⟨hheads, hsizes, hrest⟩ := header_unique (by decide) hhead hhead' h
  rcases hbody with ⟨hneg, -, -⟩ | ⟨hlen, -, htail⟩
  · rw [hsizes] at hneg
    omega
  · have hbodies : u.body.length = v.body.length := by
      rw [hsizes] at hlen
      omega
    rw [List.append_assoc u.body, List.append_assoc v.body] at hrest
    obtain ⟨hbody, hrest⟩ := List.append_inj hrest hbodies
    obtain ⟨htails, hrs⟩ := List.append_inj hrest (by rw [htail, htail']; rfl)
    cases u
    cases v
    cases hheads
    cases hsizes
    cases hbody
    cases htails
    exact ⟨rfl, hrs⟩

theorem bulks_eq_of_proper {rt : Runtime} {us vs : List Bulk} (hlen : us.length = vs.length) (hus : ∀ u ∈ us, u.Read rt)
    (hvs : ∀ v ∈ vs, v.Proper) {r s : Bytes} (h : us.flatMap Bulk.wire ++ r = vs.flatMap Bulk.wire ++ s) :
    us = vs ∧ r = s := by
  induction us generalizing vs with
  | nil =>
      rw [List.length_eq_zero_iff.mp hlen.symm] at h ⊢
      exact ⟨rfl, h⟩
  | cons u us ih =>
      cases vs with
      | nil => cases hlen
      | cons v vs =>
          obtain ⟨hu, hus⟩ := List.forall_mem_cons.mp hus
          obtain ⟨hv, hvs'⟩ := List.forall_mem_cons.mp hvs
          rw [List.flatMap_cons, List.flatMap_cons, List.append_assoc, List.append_assoc] at h
          obtain ⟨rfl, htail⟩ := hu.eq_of_proper hv h
          obtain ⟨rfl, hrs⟩ := ih (Nat.succ.inj hlen) hus hvs' htail
          exact ⟨rfl, hrs⟩

/-- An accepted request with the bytes of one of the grammar is regular. -/
theorem Accepted.regular {rt : Runtime} {head : Bytes} {us : List Bulk} (h : Accepted rt head us) {used r s : Bytes}
    {cmd : Command} (hreq : Request used cmd) (hbs : head ++ us.flatMap Bulk.wire ++ r = used ++ s) : ∀ u ∈ us, u.Regular := by
  obtain ⟨n, hhead, hlen⟩ := h.header
  obtain ⟨head', vs, ⟨m, hhead', hlen'⟩, -, hvs, rfl, -⟩ := hreq
  rw [List.append_assoc, List.append_assoc] at hbs
  obtain ⟨-, rfl, hbulks⟩ := header_unique (by decide) hhead hhead' hbs
  obtain ⟨rfl, -⟩ := bulks_eq_of_proper (by omega) h.bulks hvs hbulks
  exact fun u hu => (h.bulks u hu).proper_iff.mp (hvs u hu)

/-- An accepted request is in the grammar exactly if its bulk strings are regular. -/
theorem Accepted.request_iff {rt : Runtime} {head : Bytes} {us : List Bulk} (h : Accepted rt head us) {cmd : Command}
    (hcmd : us.map Bulk.body = cmd.name :: cmd.args) (rest : Bytes) :
    (∃ used, head ++ us.flatMap Bulk.wire ++ rest = used ++ rest ∧ Request used cmd) ↔ ∀ u ∈ us, u.Regular := by
  constructor
  · rintro ⟨used, hused, hreq⟩
    exact h.regular hreq hused
  · intro hregular
    exact ⟨_, rfl, head, us, h.header, h.nonempty, fun u hu => (h.bulks u hu).proper_iff.mpr (hregular u hu), rfl, hcmd⟩

/-- **The grammar.** `ReadCommand` returns a command exactly on the accepted requests, and such a request is one of the
grammar, for the command that is returned, exactly if no bulk string of it has a negative size and CR LF follows each body.
Every other stream is an error, but for those on which `make` panics. -/
theorem readCommand_grammar (rt : Runtime) (last : IoError) (bs : Bytes) :
    (∀ cmd rest, readCommand rt last bs = .ok (cmd, rest) ↔ ∃ head us, Accepted rt head us ∧
      bs = head ++ us.flatMap Bulk.wire ++ rest ∧ us.map Bulk.body = cmd.name :: cmd.args ∧
      ((∃ used, bs = used ++ rest ∧ Request used cmd) ↔ ∀ u ∈ us, u.Regular)) ∧
    ((∃ e, readCommand rt last bs = .error (.error e)) ↔
      ¬Oversized rt bs ∧ ¬∃ head us rest, Accepted rt head us ∧ bs = head ++ us.flatMap Bulk.wire ++ rest) := by
  have hok (cmd : Command) (rest : Bytes) : readCommand rt last bs = .ok (cmd, rest) ↔ ∃ head us, Accepted rt head us ∧
      bs = head ++ us.flatMap Bulk.wire ++ rest ∧ us.map Bulk.body = cmd.name :: cmd.args := by
    rw [reads_readCommand rt last bs cmd rest]
    constructor
    · rintro ⟨_, rfl, head, us, hacc, rfl, hcmd⟩
      exact ⟨head, us, hacc, rfl, hcmd⟩
    · rintro ⟨head, us, hacc, rfl, hcmd⟩
      exact ⟨_, rfl, head, us, hacc, rfl, hcmd⟩
  constructor
  · intro cmd rest
    rw [hok]
    constructor
    · rintro ⟨head, us, hacc, rfl, hcmd⟩
      exact ⟨head, us, hacc, rfl, hcmd, hacc.request_iff hcmd rest⟩
    · rintro ⟨head, us, hacc, hbs, hcmd, -⟩
      exact ⟨head, us, hacc, hbs, hcmd⟩
  · constructor
    · rintro ⟨e, he⟩
      constructor
      · intro hover
        have hpanic := (panics_readCommand_iff rt last .makeslice bs).mpr ⟨rfl, hover⟩
        rw [Panics, he] at hpanic
        cases hpanic
      · rintro ⟨head, us, rest, hacc, hbs⟩
        cases us with
        | nil => exact hacc.nonempty rfl
        | cons u us =>
            have hread := (hok ⟨u.body, us.map Bulk.body⟩ rest).mpr ⟨head, u :: us, hacc, hbs, rfl⟩
            rw [he] at hread
            cases hread
    · rintro ⟨hover, hno⟩
      cases h : readCommand rt last bs with
      | ok p =>
          obtain ⟨head, us, hacc, hbs, -⟩ := (hok p.1 p.2).mp h
          exact absurd ⟨head, us, p.2, hacc, hbs⟩ hno
      | error halt =>
          cases halt with
          | error e => exact ⟨e, rfl⟩
          | panic k => exact absurd ((panics_readCommand_iff rt last k bs).mp h).2 hover

/-- The limit on amd64. -/
def amd64 : Runtime := ⟨2 ^ 48, by decide⟩

theorem not_request {rt : Runtime} {u : Bulk} (hu : u.Read rt) (hfit : sliceHeaderSize ≤ rt.maxAlloc) (hirr : ¬u.Regular)
    (cmd : Command) : ¬Request (utf8 "*1\r\n" ++ u.wire) cmd := by
  have hhead : Header 42 (utf8 "*1\r\n") 1 := ⟨utf8 "1", by decide +kernel, Or.inl (by decide +kernel)⟩
  have hacc : Accepted rt (utf8 "*1\r\n") [u] := ⟨⟨1, hhead, rfl⟩, List.cons_ne_nil _ _, hfit, List.forall_mem_singleton.mpr hu⟩
  intro hreq
  refine hirr (hacc.regular hreq (r := []) (s := []) ?_ u (List.mem_singleton_self u))
  rw [List.flatMap_singleton]

/-- `PING` with two bytes behind it that are not CR LF, and a bulk string of the size -1: both are accepted, and neither is in
the grammar. -/
theorem readCommand_desynchronises :
    (readCommand amd64 .eof (utf8 "*1\r\n$4\r\nPING*1") = .ok (⟨utf8 "PING", []⟩, []) ∧
      ∀ cmd, ¬Request (utf8 "*1\r\n$4\r\nPING*1") cmd) ∧
    readCommand amd64 .eof (utf8 "*1\r\n$-1\r\n") = .ok (⟨[], []⟩, []) ∧
      ∀ cmd, ¬Request (utf8 "*1\r\n$-1\r\n") cmd := by
  have hping : (⟨utf8 "$4\r\n", 4, utf8 "PING", utf8 "*1"⟩ : Bulk).Read amd64 :=
    ⟨⟨utf8 "4", by decide +kernel, Or.inl (by decide +kernel)⟩, Or.inr ⟨by decide +kernel, by decide +kernel, by decide +kernel⟩⟩
  have hnull : (⟨utf8 "$-1\r\n", -1, [], []⟩ : Bulk).Read amd64 :=
    ⟨⟨utf8 "-1", by decide +kernel, Or.inl (by decide +kernel)⟩, Or.inl ⟨by decide, rfl, rfl⟩⟩
  have hbytes : utf8 "*1\r\n$4\r\nPING*1" = utf8 "*1\r\n" ++ (utf8 "$4\r\n" ++ (utf8 "PING" ++ utf8 "*1")) := by decide +kernel
  have hbytes' : utf8 "*1\r\n$-1\r\n" = utf8 "*1\r\n" ++ (utf8 "$-1\r\n" ++ ([] ++ [])) := by decide +kernel
  refine ⟨⟨by decide +kernel, fun cmd => ?_⟩, by decide +kernel, fun cmd => ?_⟩
  · rw [hbytes]
    exact not_request hping (by decide) (fun h => absurd h.2 (by decide +kernel)) cmd
  · rw [hbytes']
    exact not_request hnull (by decide) (fun h => absurd h.1 (by decide)) cmd

/-! ## Pipelines -/

def writeBulkString (b : Bytes) : Bytes := 36 :: decimal b.length ++ crlf ++ b ++ crlf

/-- How a client sends a command. -/
def encode (cmd : Command) : Bytes :=
  42 :: decimal (cmd.args.length + 1) ++ crlf ++ (cmd.name :: cmd.args).flatMap writeBulkString

/-- `ReadCommand` again and again. -/
def readCommands (rt : Runtime) (last : IoError) : Nat → Reader ReadError (List Command)
  | 0 => pure []
  | n + 1 => do
      let cmd ← readCommand rt last
      let cmds ← readCommands rt last n
      pure (cmd :: cmds)

/-- The process can hold the parts of the command and the slice of them. -/
structure Command.Fits (rt : Runtime) (cmd : Command) : Prop where
  parts : sliceHeaderSize * (cmd.args.length + 1) ≤ rt.maxAlloc
  bodies : ∀ b ∈ cmd.name :: cmd.args, b.length + 2 ≤ rt.maxAlloc

/-- The bulk string that `WriteBulkString` writes. -/
def bulkOf (b : Bytes) : Bulk := ⟨36 :: decimal b.length ++ crlf, Int64.ofNat b.length, b, crlf⟩

theorem header_decimal (kind : UInt8) {n : Nat} (h : n < 2 ^ 63) : Header kind (kind :: decimal n ++ crlf) (Int64.ofNat n) :=
  ⟨decimal n, parseInt_decimal h, Or.inl rfl⟩

theorem bulkOf_read {rt : Runtime} {b : Bytes} (h : b.length + 2 ≤ rt.maxAlloc) : (bulkOf b).Read rt := by
  have hlt := rt.maxAlloc_lt
  have hsize := Int64.toInt_ofNat_of_lt (show b.length < 2 ^ 63 by omega)
  exact ⟨header_decimal 36 (by omega), Or.inr ⟨hsize, by show (Int64.ofNat b.length).toInt + 2 ≤ _; omega, rfl⟩⟩

theorem readCommand_encode {rt : Runtime} (last : IoError) {cmd : Command} (h : cmd.Fits rt) (rest : Bytes) :
    readCommand rt last (encode cmd ++ rest) = .ok (cmd, rest) := by
  have hlt := rt.maxAlloc_lt
  have hparts := h.parts
  have hcount : cmd.args.length + 1 < 2 ^ 63 := by
    unfold sliceHeaderSize at hparts
    omega
  refine (reads_readCommand rt last _ _ _).mpr ⟨encode cmd, rfl, 42 :: decimal (cmd.args.length + 1) ++ crlf,
    (cmd.name :: cmd.args).map bulkOf, ⟨⟨_, header_decimal 42 hcount, ?_⟩, ?_, ?_, ?_⟩, ?_, ?_⟩
  · rw [Int64.toInt_ofNat_of_lt hcount, List.length_map, List.length_cons]
  · exact List.cons_ne_nil _ _
  · rw [List.length_map, List.length_cons]
    exact hparts
  · intro u hu
    obtain ⟨b, hb, rfl⟩ := List.mem_map.mp hu
    exact bulkOf_read (h.bodies b hb)
  · rw [encode, List.flatMap_map]
    congr 2
    funext b
    show 36 :: decimal b.length ++ crlf ++ (b ++ crlf) = 36 :: decimal b.length ++ crlf ++ b ++ crlf
    rw [List.append_assoc _ b]
  · rw [List.map_map]
    exact List.map_id _

/-- **Pipelines round-trip.** Whatever commands a client sends, one behind the other, `ReadCommand` returns them in order and
leaves what follows. -/
theorem pipeline_round_trip (rt : Runtime) (last : IoError) (cmds : List Command) (hfit : ∀ cmd ∈ cmds, cmd.Fits rt)
    (rest : Bytes) : readCommands rt last cmds.length (cmds.flatMap encode ++ rest) = .ok (cmds, rest) := by
  induction cmds with
  | nil => rfl
  | cons cmd cmds ih =>
      obtain ⟨hcmd, hcmds⟩ := List.forall_mem_cons.mp hfit
      rw [List.length_cons, readCommands, List.flatMap_cons, List.append_assoc]
      refine bind_ok_iff.mpr ⟨cmd, _, readCommand_encode last hcmd _, ?_⟩
      exact bind_ok_iff.mpr ⟨cmds, rest, ih hcmds, rfl⟩

/-- Two commands with framing bytes and an empty string in their parts, and half a command behind them. -/
theorem pipeline_round_trip_two :
    let cmds : List Command := [⟨utf8 "SET", [utf8 "\r\n$3\r\n", []]⟩, ⟨utf8 "*1\r\n", []⟩]
    (∀ cmd ∈ cmds, cmd.Fits amd64) ∧
      readCommands amd64 .eof cmds.length (cmds.flatMap encode ++ utf8 "*2\r\n$") = .ok (cmds, utf8 "*2\r\n$") := by
  intro cmds
  have hfit : ∀ cmd ∈ cmds, cmd.Fits amd64 := by
    intro cmd hcmd
    constructor
    · revert cmd
      decide +kernel
    · revert cmd
      decide +kernel
  exact ⟨hfit, pipeline_round_trip amd64 .eof cmds hfit _⟩

end Uddp.Resp
