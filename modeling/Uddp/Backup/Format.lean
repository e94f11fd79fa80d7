import Uddp.Lib.Gob
import Uddp.Lib.Text
import Uddp.Replication.Fsm

/-!
# Backup files

`backup.Write` stores, with the entries, a checksum of their encoding; `backup.Read` encodes the entries it has decoded
once more, in its own process, and compares.

* `write`, `read`, `encodeCommand` : the functions that encode, in a process with its registry of types;
* `Gob` : the codecs they use, and the one of `encodeCommand`;
* **`read_write_iff`** : what was written can be read exactly when the two processes number the types of the entries
  alike; `read_later` : so it can in the process that wrote it;
* `entryIds_after` : the numbers, by what a process has encoded first.
-/

namespace Uddp.Backup
open Uddp.Lib Uddp.Wal

/-! ## The file -/

def currentFormatVersion : Int := 1

structure Meta where
  formatVersion : Int
  namespaceId : String
  recoveryPoint : UInt64
  entryCount : Int
  createdAt : Time
  sha256Entries : String
  deriving DecidableEq, Repr

structure Payload where
  metadata : Meta
  entries : List SnapshotEntry
  deriving DecidableEq, Repr

/-- The Go types that get a number. -/
inductive GobType
  | snapshotEntry
  | snapshotEntries
  | command
  | metadata
  | time
  | payload
  | other (name : String)
  deriving DecidableEq, Repr

/-- `encoding/gob` for the types of this program. A struct gets its number before the types of its fields, a slice after
that of its elements. -/
structure Gob where
  entries : Codec GobType (List SnapshotEntry)
  payload : Codec GobType Payload
  command : Codec GobType Command
  entries_types : entries.types = [.snapshotEntry, .snapshotEntries]
  payload_types : payload.types = [.payload, .metadata, .time, .snapshotEntry, .snapshotEntries]
  command_types : command.types = [.command, .snapshotEntry, .snapshotEntries]

/-- What a process has encoded before, as far as it matters. -/
abbrev Process := Registry GobType

inductive BackupError
  | encodeEntries (err : String)
  | encodePayload (err : String)
  | decode (err : String)
  | version (found : Int)
  | reencode (err : String)
  | checksum (got want : String)
  deriving DecidableEq, Repr

def BackupError.text : BackupError → String
  | .encodeEntries err => "backup: encode entries: " ++ err
  | .encodePayload err => "backup: encode payload: " ++ err
  | .decode err => "backup: decode: " ++ err
  | .version found => "backup: unsupported format version " ++ toString found ++ " (this build supports version " ++
      toString currentFormatVersion ++ " only)"
  | .reencode err => "backup: re-encode entries for checksum: " ++ err
  | .checksum got want => "backup: checksum mismatch (got " ++ got ++ ", want " ++ want ++
      ") — file is corrupt or was tampered with"

section Functions
-- `sha256` is `sha256.Sum256`
variable (g : Gob) (sha256 : Bytes → Bytes)

/-- `Write` at the time `now`, to a writer that fails with `fault` if at all; the bytes are what it has written. -/
def write (p : Process) (m : Meta) (entries : List SnapshotEntry) (now : Time) (fault : Option String) :
    Except BackupError (Meta × Bytes) × Process :=
  match g.entries.encodeIn p entries with
  | (.error err, p) => (.error (.encodeEntries err), p)
  | (.ok entryBuf, p) =>
      let m := { m with
        formatVersion := currentFormatVersion
        entryCount := entries.length
        sha256Entries := hex (sha256 entryBuf)
        createdAt := now }
      match g.payload.encodeIn p ⟨m, entries⟩ with
      | (.error err, p) => (.error (.encodePayload err), p)
      | (.ok bs, p) =>
          match fault with
          | some err => (.error (.encodePayload err), p)
          | none => (.ok (m, bs), p)

def read (q : Process) (bs : Bytes) : Except BackupError (Meta × List SnapshotEntry) × Process :=
  match g.payload.decode bs with
  | .error err => (.error (.decode err), q)
  | .ok p =>
      if p.metadata.formatVersion ≠ currentFormatVersion then (.error (.version p.metadata.formatVersion), q)
      else
        match g.entries.encodeIn q p.entries with
        | (.error err, q) => (.error (.reencode err), q)
        | (.ok entryBuf, q) =>
            let got := hex (sha256 entryBuf)
            if got ≠ p.metadata.sha256Entries then (.error (.checksum got p.metadata.sha256Entries), q)
            else (.ok (p.metadata, p.entries), q)

/-- `encodeCommand`, with which a node proposes. -/
def encodeCommand (p : Process) (cmd : Command) : Except String Bytes × Process :=
  match g.command.encodeIn p cmd with
  | (.error err, p) => (.error ("replication: encode command: " ++ err), p)
  | (.ok bs, p) => (.ok bs, p)

end Functions

/-! ## Written and read -/

section RoundTrip
variable {g : Gob} {sha256 : Bytes → Bytes} {p p' q : Process} {m written : Meta} {entries : List SnapshotEntry} {now : Time}
  {fault : Option String} {bs : Bytes}

theorem write_ok (h : write g sha256 p m entries now fault = (.ok (written, bs), p')) :
    (∃ entryBuf, g.entries.encode (g.entries.ids p) entries = .ok entryBuf ∧
      written.sha256Entries = hex (sha256 entryBuf)) ∧ written.formatVersion = currentFormatVersion ∧
      written.recoveryPoint = m.recoveryPoint ∧ g.payload.decode bs = .ok ⟨written, entries⟩ ∧ p' = (p.register g.entries.types).register g.payload.types := by
  unfold write Codec.encodeIn at h
  cases hentries : g.entries.encode (g.entries.ids p) entries with
  | error err =>
      rw [hentries] at h
      cases h
  | ok entryBuf =>
      rw [hentries] at h
      dsimp only at h
      split at h
      · cases h
      · next hpayload =>
        cases hpayload' : g.payload.encode _ _ with
        | error err =>
            rw [hpayload'] at hpayload
            cases hpayload
        | ok bs' =>
            rw [hpayload'] at hpayload
            cases hpayload
            cases fault with
            | some err => cases h
            | none =>
                cases h
                exact ⟨⟨entryBuf, rfl, rfl⟩, rfl, rfl, g.payload.decode_encode hpayload', rfl⟩

theorem read_ok_iff : (read g sha256 q bs).1 = .ok (m, entries) ↔ g.payload.decode bs = .ok ⟨m, entries⟩ ∧
    m.formatVersion = currentFormatVersion ∧
    ∃ entryBuf, g.entries.encode (g.entries.ids q) entries = .ok entryBuf ∧ hex (sha256 entryBuf) = m.sha256Entries := by
  unfold read Codec.encodeIn
  cases g.payload.decode bs with
  | error err => simp
  | ok payload =>
      obtain ⟨m', entries'⟩ := payload
      dsimp only
      split
      · next hversion =>
        simp only [reduceCtorEq, false_iff]
        rintro ⟨hpayload, hversion', -⟩
        cases hpayload
        exact hversion hversion'
      · next hversion =>
        cases hentries : g.entries.encode (g.entries.ids q) entries' with
        | error err =>
            simp only [reduceCtorEq, false_iff]
            rintro ⟨hpayload, -, entryBuf, hentries', -⟩
            cases hpayload
            rw [hentries] at hentries'
            cases hentries'
        | ok entryBuf =>
            dsimp only
            by_cases hsum : hex (sha256 entryBuf) = m'.sha256Entries
            · rw [if_neg (not_not.mpr hsum)]
              constructor
              · intro h
                cases h
                exact ⟨rfl, not_not.mp hversion, entryBuf, hentries, hsum⟩
              · rintro ⟨hpayload, -⟩
                cases hpayload
                rfl
            · rw [if_pos hsum]
              simp only [reduceCtorEq, false_iff]
              rintro ⟨hpayload, -, entryBuf', hentries', hsum'⟩
              cases hpayload
              rw [hentries] at hentries'
              cases hentries'
              exact hsum hsum'

/-- The checksum of the encoding in the reader's process is another than the stored one. -/
theorem read_mismatch (hdecode : g.payload.decode bs = .ok ⟨m, entries⟩) (hversion : m.formatVersion = currentFormatVersion)
    {entryBuf : Bytes} (hentries : g.entries.encode (g.entries.ids q) entries = .ok entryBuf)
    (hsum : hex (sha256 entryBuf) ≠ m.sha256Entries) :
    (read g sha256 q bs).1 = .error (.checksum (hex (sha256 entryBuf)) m.sha256Entries) := by
  unfold read Codec.encodeIn
  rw [hdecode]
  dsimp only
  rw [if_neg (not_not.mpr hversion), hentries]
  dsimp only
  rw [if_pos hsum]

/-- **Written and read.** A backup that was written in the process `p` is read in the process `q`, with the metadata that
`Write` returned and the same entries, exactly when the two give the types of the entries the same numbers. `SHA-256` is
taken to have no collision between the two encodings. -/
theorem read_write_iff (hwrite : write g sha256 p m entries now fault = (.ok (written, bs), p'))
    (hfree : ∀ a b, g.entries.encode (g.entries.ids p) entries = .ok a → g.entries.encode (g.entries.ids q) entries = .ok b →
      sha256 a = sha256 b → a = b) :
    (read g sha256 q bs).1 = .ok (written, entries) ↔ g.entries.ids p = g.entries.ids q := by
  obtain ⟨⟨entryBuf, hentries, hsum⟩, hversion, -, hdecode, -⟩ := write_ok hwrite
  rw [read_ok_iff, ← g.entries.encode_same_iff hentries]
  constructor
  · rintro ⟨-, -, entryBuf', hentries', hsum'⟩
    have hsame : entryBuf = entryBuf' := hfree _ _ hentries hentries' (hex_injective (hsum.symm.trans hsum'.symm))
    rw [hsame, hentries']
  · intro hentries'
    exact ⟨hdecode, hversion, entryBuf, hentries', hsum.symm⟩

/-- The process that has written a backup can read it, whatever it encodes in between. -/
theorem read_later (hwrite : write g sha256 p m entries now fault = (.ok (written, bs), p')) (ts : List GobType) :
    (read g sha256 (p'.register ts) bs).1 = .ok (written, entries) := by
  obtain ⟨⟨entryBuf, hentries, hsum⟩, hversion, -, hdecode, rfl⟩ := write_ok hwrite
  refine read_ok_iff.mpr ⟨hdecode, hversion, entryBuf, ?_, hsum.symm⟩
  -- the encoding of the entries has numbered their types
  have hmem := (p.register_types g.entries.types).2
  have hlater := (Registry.register_types (p.register g.entries.types) g.payload.types).1
  have hids : g.entries.ids (p.register g.entries.types) = g.entries.ids p := by
    unfold Codec.ids
    rw [Registry.register_of_subset hmem]
  rw [g.entries.ids_register fun t ht => hlater.subset (hmem t ht), g.entries.ids_register hmem, hids]
  exact hentries

end RoundTrip

/-! ## What a process has encoded first -/

/-- The values that this program encodes: the entries of a raft snapshot or of a checksum, a backup, a command. -/
inductive Encoded
  | entries
  | payload
  | command
  deriving DecidableEq, Repr

def Gob.typesOf (g : Gob) : Encoded → List GobType
  | .entries => g.entries.types
  | .payload => g.payload.types
  | .command => g.command.types

/-- A process of this program that has encoded `xs`. -/
def Gob.after (g : Gob) (xs : List Encoded) : Process := xs.foldl (fun p x => p.register (g.typesOf x)) Registry.empty

theorem Gob.after_snoc (g : Gob) (xs : List Encoded) (x : Encoded) :
    g.after (xs ++ [x]) = (g.after xs).register (g.typesOf x) := by
  rw [Gob.after, List.foldl_append]
  rfl

theorem encodeCommand_after (g : Gob) (xs : List Encoded) (cmd : Command) :
    (encodeCommand g (g.after xs) cmd).2 = g.after (xs ++ [.command]) := by
  rw [g.after_snoc]
  unfold encodeCommand Codec.encodeIn
  cases g.command.encode (g.command.ids (g.after xs)) cmd with
  | error err => rfl
  | ok bs => rfl

theorem write_after {g : Gob} {sha256 : Bytes → Bytes} {xs : List Encoded} {p' : Process} {m written : Meta}
    {entries : List SnapshotEntry} {now : Time} {fault : Option String} {bs : Bytes}
    (h : write g sha256 (g.after xs) m entries now fault = (.ok (written, bs), p')) :
    p' = g.after (xs ++ [.entries] ++ [.payload]) := by
  obtain ⟨-, -, -, -, hp'⟩ := write_ok h
  rw [g.after_snoc, g.after_snoc]
  exact hp'

/-- The numbers of the types of the entries, by the first value that was encoded. -/
def entryIds : Option Encoded → List Nat
  | none | some .entries => [64, 65]
  | some .command => [65, 66]
  | some .payload => [67, 68]

theorem Gob.mem_typesOf (g : Gob) (x : Encoded) : ∀ t ∈ g.entries.types, t ∈ g.typesOf x := by
  rw [g.entries_types]
  cases x with
  | entries => simp [Gob.typesOf, g.entries_types]
  | payload => simp [Gob.typesOf, g.payload_types]
  | command => simp [Gob.typesOf, g.command_types]

/-- **The first value** that a process encodes decides. -/
theorem entryIds_after (g : Gob) (xs : List Encoded) : g.entries.ids (g.after xs) = entryIds xs.head? := by
  cases xs with
  | nil =>
      unfold Codec.ids
      rw [g.entries_types]
      rfl
  | cons x xs =>
      -- what comes later leaves the numbers as they are
      have hlater : ∀ (p : Process), (∀ t ∈ g.entries.types, t ∈ p.types) →
          g.entries.ids (xs.foldl (fun p x => p.register (g.typesOf x)) p) = g.entries.ids p := by
        induction xs with
        | nil => exact fun p _ => rfl
        | cons y ys ih =>
            intro p hp
            have hnext := fun t ht => (p.register_types (g.typesOf y)).1.subset (hp t ht)
            rw [List.foldl_cons, ih _ hnext, g.entries.ids_register hp]
      have hfirst := fun t ht => (Registry.register_types Registry.empty (g.typesOf x)).2 t (g.mem_typesOf x t ht)
      show g.entries.ids (xs.foldl _ (Registry.empty.register (g.typesOf x))) = _
      rw [hlater _ hfirst]
      unfold Codec.ids
      rw [Registry.register_of_subset hfirst, g.entries_types]
      cases x with
      | entries =>
          rw [Gob.typesOf, g.entries_types]
          rfl
      | payload =>
          rw [Gob.typesOf, g.payload_types]
          rfl
      | command =>
          rw [Gob.typesOf, g.command_types]
          rfl

/-! ## A codec -/

instance encodableUInt8 : Encodable UInt8 := .ofLeftInverse UInt8.toNat UInt8.ofNat fun _ => UInt8.ofNat_toNat

instance encodableUInt64 : Encodable UInt64 := .ofLeftInverse UInt64.toNat UInt64.ofNat fun _ => UInt64.ofNat_toNat

instance encodableInt64 : Encodable Int64 := .ofLeftInverse Int64.toInt Int64.ofInt Int64.ofInt_toInt

instance encodableChar : Encodable Char := .ofLeftInverse Char.toNat Char.ofNat Char.ofNat_toNat

instance encodableString : Encodable String := .ofLeftInverse String.toList String.ofList fun _ => String.ofList_toList

instance encodableSnapshotEntry : Encodable SnapshotEntry :=
  .ofLeftInverse (fun x => (x.key, x.value, x.expiresAtUnixNano)) (fun x => ⟨x.1, x.2.1, x.2.2⟩) fun _ => rfl

instance encodablePayload : Encodable Payload :=
  .ofLeftInverse
    (fun x => (x.metadata.formatVersion, x.metadata.namespaceId, x.metadata.recoveryPoint, x.metadata.entryCount,
      x.metadata.createdAt, x.metadata.sha256Entries, x.entries))
    (fun x => ⟨⟨x.1, x.2.1, x.2.2.1, x.2.2.2.1, x.2.2.2.2.1, x.2.2.2.2.2.1⟩, x.2.2.2.2.2.2⟩) fun _ => rfl

instance encodableCommand : Encodable Command :=
  .ofLeftInverse
    (fun x => (x.op, x.key, x.value, x.expiresAtUnixNano, x.expectedVersion, x.idempotencyKey, x.entries))
    (fun x => ⟨x.1, x.2.1, x.2.2.1, x.2.2.2.1, x.2.2.2.2.1, x.2.2.2.2.2.1, x.2.2.2.2.2.2⟩) fun _ => rfl

/-- A codec that does what is asked of `encoding/gob`. -/
def plainGob : Gob where
  entries := .plain [.snapshotEntry, .snapshotEntries]
  payload := .plain [.payload, .metadata, .time, .snapshotEntry, .snapshotEntries]
  command := .plain [.command, .snapshotEntry, .snapshotEntries]
  entries_types := rfl
  payload_types := rfl
  command_types := rfl

theorem plainGob_writes (p : Process) (m : Meta) (entries : List SnapshotEntry) (now : Time) :
    ∃ written bs p', write plainGob id p m entries now none = (.ok (written, bs), p') := ⟨_, _, _, rfl⟩

/-- A backup of a node that has encoded nothing before is read by one that has taken a raft snapshot first. -/
theorem read_write_snapshot : ∃ written bs p', write plainGob id (plainGob.after []) ⟨0, "n", 1, 0, 0, ""⟩ [⟨[107], [118], 0⟩]
      1700000000000000000 none = (.ok (written, bs), p') ∧
    (read plainGob id (plainGob.after [.entries, .command]) bs).1 = .ok (written, [⟨[107], [118], 0⟩]) := by
  obtain ⟨written, bs, p', hwrite⟩ := plainGob_writes (plainGob.after []) ⟨0, "n", 1, 0, 0, ""⟩ [⟨[107], [118], 0⟩] 1700000000000000000
  refine ⟨written, bs, p', hwrite, (read_write_iff hwrite fun _ _ _ _ h => h).mpr ?_⟩
  rw [entryIds_after, entryIds_after]
  rfl

section Refused
variable {g : Gob} {sha256 : Bytes → Bytes} {p' : Process} {m written : Meta} {entries : List SnapshotEntry} {now : Time}
  {bs : Bytes}

/-- A process that has encoded nothing before numbers the types otherwise than one that has proposed a command. -/
theorem read_of_node_ne (hsha : Function.Injective sha256)
    (hwrite : write g sha256 (g.after [.command]) m entries now none = (.ok (written, bs), p')) :
    ∀ entryBuf, g.entries.encode (g.entries.ids (g.after [])) entries = .ok entryBuf →
      hex (sha256 entryBuf) ≠ written.sha256Entries := by
  obtain ⟨⟨entryBuf, hentries, hsum⟩, -, -, -, -⟩ := write_ok hwrite
  intro entryBuf' hentries' hsame
  obtain rfl : entryBuf' = entryBuf := hsha (hex_injective (hsame.trans hsum))
  have hids := (g.entries.encode_same_iff hentries).mp hentries'
  rw [entryIds_after, entryIds_after] at hids
  exact absurd hids (by decide)

end Refused

/-- No backup of a node that has proposed a command, the usual case on a replicated one, is read by a process that has
encoded nothing before, whatever the codec. -/
theorem node_backup_refused :
    (∀ (g : Gob) (sha256 : Bytes → Bytes), Function.Injective sha256 → ∀ m entries now written bs p',
      write g sha256 (g.after [.command]) m entries now none = (.ok (written, bs), p') →
      (read g sha256 (g.after []) bs).1 ≠ .ok (written, entries)) ∧
    ∀ m entries now, ∃ written bs p' got want,
      write plainGob id (plainGob.after [.command]) m entries now none = (.ok (written, bs), p') ∧
      (read plainGob id (plainGob.after []) bs).1 = .error (.checksum got want) := by
  constructor
  · intro g sha256 hsha m entries now written bs p' hwrite hread
    obtain ⟨-, -, entryBuf, hentries, hsum⟩ := read_ok_iff.mp hread
    exact read_of_node_ne hsha hwrite entryBuf hentries hsum
  · intro m entries now
    obtain ⟨written, bs, p', hwrite⟩ := plainGob_writes (plainGob.after [.command]) m entries now
    obtain ⟨-, hversion, -, hdecode, -⟩ := write_ok hwrite
    exact ⟨written, bs, p', _, _, hwrite,
      read_mismatch hdecode hversion rfl (read_of_node_ne Function.injective_id hwrite _ rfl)⟩

end Uddp.Backup
