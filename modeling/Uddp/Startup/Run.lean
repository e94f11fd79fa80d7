import Uddp.Api.Node
import Uddp.Startup.Peers
import Uddp.Wal.OpenFaults

/-!
# Starting a node

* `newNamespaceSpec` : the namespace and the profile that a node may declare;
* `start` : `run` of `uddp-node` up to `Serve`, on the two files of its directory; `openEngineWith_ok`, `openOffsetsWith_ok` :
  without faults it opens them as `openEngine` and `openOffsets` do;
* `start_opened`, `start_succeeds` : a start without replication is the two `Open`s behind its checks;
* **`failed_starts_harmless`** : starts that fail leave what a later start finds.
-/

namespace Uddp
open Uddp.Lib Uddp.Wal

/-! ## The catalog -/

/-- `alwaysSupportedProfiles`, and the profile that needs a replica group. -/
def supportedProfile (profile : String) (replicationEnabled : Bool) : Bool :=
  profile = "cache" || (profile = "durable" && replicationEnabled)

def wantedProfiles (replicationEnabled : Bool) : String :=
  if replicationEnabled then "cache, durable" else "cache (durable requires replication to be enabled on this node)"

def newNamespaceSpec (quote : String → String) (id profile : String) (replicationEnabled : Bool) :
    Except String NamespaceSpec :=
  if id = "" then .error "catalog: namespace id must not be empty"
  else if supportedProfile profile replicationEnabled then .ok ⟨id, profile⟩
  else .error ("catalog: unsupported workload profile: " ++ quote profile ++ " (supported: " ++
    wantedProfiles replicationEnabled ++ ")")

theorem newNamespaceSpec_ok_iff {quote : String → String} {id profile : String} {replicationEnabled : Bool}
    {spec : NamespaceSpec} : newNamespaceSpec quote id profile replicationEnabled = .ok spec ↔
      id ≠ "" ∧ (profile = "cache" ∨ profile = "durable" ∧ replicationEnabled = true) ∧ spec = ⟨id, profile⟩ := by
  unfold newNamespaceSpec supportedProfile
  by_cases hid : id = ""
  · simp [hid]
  · rw [if_neg hid]
    split
    · next h =>
      simp only [Bool.or_eq_true, Bool.and_eq_true, decide_eq_true_eq] at h
      simp [hid, h, eq_comm]
    · next h =>
      simp only [Bool.or_eq_true, Bool.and_eq_true, decide_eq_true_eq] at h
      simp [h]

/-! ## `run` -/

structure NodeConfig where
  dataDir : String
  namespaceID : String
  profile : String
  tlsCert : String
  tlsKey : String
  authToken : Bytes
  raftID : String
  raftAddr : String
  raftPeers : List Peer
  raftTLSCert : String
  raftTLSKey : String
  raftTLSCA : String
  deriving DecidableEq, Repr

/-- The files of the directory. A file that is not there is empty. -/
structure Disk where
  wal : File
  offsets : File
  deriving DecidableEq, Repr

/-- What a start meets. `replication` is `replication.Open` and what raft applies to the engine from then on. -/
structure StartIO where
  mkdirAll : Option String
  wal : OpenIO
  offsets : OpenIO
  replication : Engine → Option String × Engine
  listen : Option String
  loadKeyPair : Option String

/-- A node that serves. -/
structure Running where
  spec : NamespaceSpec
  engine : Engine
  offsets : Streaming.OffsetStore
  replicated : Bool
  tls : Bool
  token : Bytes

/-- A store over a log: `mk` puts together what `replay` has built and the log. -/
def openStore {σ α : Type} (mk : σ → WAL → α) (replay : σ → Record → Except String σ) (st : σ) (io : OpenIO) (path : String)
    (f : File) : Except String α × File :=
  match openWith io path replay st f with
  | (.error err, f) => (.error err, f)
  | (.ok (x, log), f) => (.ok (mk x log), f)

/-- `engine.Open`. -/
def openEngineWith : OpenIO → String → File → Except String Engine × File :=
  openStore (fun t log => { t with log := log }) replayCallback Tables.empty

/-- `streaming.Open`. -/
def openOffsetsWith : OpenIO → String → File → Except String Streaming.OffsetStore × File :=
  openStore (fun offsets log => ⟨log, offsets⟩) Streaming.replay ∅

/-- The file that a deferred `Close` leaves to the next process. -/
def released (w : WAL) : File := { (w.close none none).2.out.file with closed := false }

def NodeConfig.startReplication (cfg : NodeConfig) (io : StartIO) (eng : Engine) : Option String × Engine :=
  if (cfg.raftTLSCert ≠ "" ∨ cfg.raftTLSKey ≠ "" ∨ cfg.raftTLSCA ≠ "") ∧
      (cfg.raftTLSCert = "" ∨ cfg.raftTLSKey = "" ∨ cfg.raftTLSCA = "") then
    (some "--raft-tls-cert, --raft-tls-key, and --raft-tls-ca must be set together", eng)
  else ((io.replication eng).1.map ("start replication: " ++ ·), (io.replication eng).2)

def NodeConfig.tlsEnabled (cfg : NodeConfig) : Bool := cfg.tlsCert ≠ "" || cfg.tlsKey ≠ ""

/-- The listener and its certificate. -/
def NodeConfig.listenFault (cfg : NodeConfig) (io : StartIO) : Option String :=
  match io.listen with
  | some err => some err
  | none =>
      if cfg.tlsEnabled then
        if cfg.tlsCert = "" ∨ cfg.tlsKey = "" then some "both --tls-cert and --tls-key must be set together"
        else io.loadKeyPair.map ("load TLS keypair: " ++ ·)
      else none

section Start
-- the verb `%q` and `filepath.Join`
variable (quote : String → String) (join : String → String → String)

/-- `run` up to `Serve`, with the files it leaves. -/
def start (cfg : NodeConfig) (io : StartIO) (d : Disk) : Except String Running × Disk :=
  let replicationEnabled := decide (cfg.raftPeers ≠ [])
  if replicationEnabled = true ∧ (cfg.raftID = "" ∨ cfg.raftAddr = "") then
    (.error "--raft-id and --raft-addr are required when --raft-peers is set", d)
  else
    match newNamespaceSpec quote cfg.namespaceID cfg.profile replicationEnabled with
    | .error err => (.error err, d)
    | .ok spec =>
        match io.mkdirAll with
        | some err => (.error err, d)
        | none =>
            match openEngineWith io.wal (join cfg.dataDir "partition-0.wal") d.wal with
            | (.error err, f) => (.error err, { d with wal := f })
            | (.ok eng, _) =>
                match openOffsetsWith io.offsets (join cfg.dataDir "consumer-offsets.wal") d.offsets with
                | (.error err, g) => (.error err, ⟨released eng.log, g⟩)
                | (.ok offsets, _) =>
                    let r := if replicationEnabled then cfg.startReplication io eng else (none, eng)
                    match r.1.or (cfg.listenFault io) with
                    | some err => (.error err, ⟨released r.2.log, released offsets.log⟩)
                    | none =>
                        (.ok ⟨spec, r.2, offsets, replicationEnabled, cfg.tlsEnabled, cfg.authToken⟩,
                          ⟨r.2.log.out.file, offsets.log.out.file⟩)

variable {quote join} in
/-- A node that serves was given a namespace that it may declare, and has what its files open to. -/
theorem start_ok {cfg : NodeConfig} {io : StartIO} {d d' : Disk} {node : Running}
    (h : start quote join cfg io d = (.ok node, d')) :
    node.replicated = decide (cfg.raftPeers ≠ []) ∧
      newNamespaceSpec quote cfg.namespaceID cfg.profile node.replicated = .ok node.spec ∧
      (openOffsetsWith io.offsets (join cfg.dataDir "consumer-offsets.wal") d.offsets).1 = .ok node.offsets ∧
      (cfg.raftPeers = [] → (openEngineWith io.wal (join cfg.dataDir "partition-0.wal") d.wal).1 = .ok node.engine) := by
  unfold start at h
  dsimp only at h
  split at h
  · cases h
  · split at h
    · cases h
    · next hspec =>
      split at h
      · cases h
      · split at h
        · cases h
        · next heng =>
          split at h
          · cases h
          · next hoffsets =>
            split at h
            · cases h
            · cases h
              refine ⟨rfl, hspec, by rw [hoffsets], fun hpeers => ?_⟩
              simp [heng, hpeers]

/-- A start that ends with an error, as a step of the disk. -/
def failedStart (d : Disk) (a : NodeConfig × StartIO) : Option Disk :=
  match start quote join a.1 a.2 d with
  | (.error _, d') => some d'
  | (.ok _, _) => none

end Start

/-- The same node, but for how much of its files is on the disk. -/
def Running.unsynced (node : Running) : Running :=
  { node with engine := { node.engine with log := node.engine.log.unsynced }
              offsets := { node.offsets with log := node.offsets.log.unsynced } }

section Store
variable {σ α : Type} {mk : σ → WAL → α} {replay : σ → Record → Except String σ} {st : σ} {io : OpenIO} {path : String}
  {f g : File}

theorem openStore_ok (mk : σ → WAL → α) (replay : σ → Record → Except String σ) (st : σ) (path : String) (f : File) :
    openStore mk replay st .ok path f =
      (((openFile replay st f).1.mapError OpenError.text).map fun p => mk p.1 p.2, (openFile replay st f).2) := by
  unfold openStore
  rw [openWith_ok]
  cases (openFile replay st f).1 with
  | error e => rfl
  | ok p => rfl

theorem openStore_settles (hio : io.Harmless) {r : Except String α} (h : openStore mk replay st io path f = (r, g)) :
    Unharmed replay st f g := by
  unfold openStore at h
  split at h
  · next hopen =>
    cases h
    exact openWith_settles replay st hio hopen
  · next hopen =>
    cases h
    exact openWith_settles replay st hio hopen

theorem openStore_released {a : α} (h : openStore mk replay st io path f = (.ok a, g)) (hclosed : g.closed = false) :
    ∃ x w, a = mk x w ∧ released w = g := by
  unfold openStore at h
  split at h
  · cases h
  · next x w g' hopen =>
    cases h
    have hout := openWith_log replay st hopen
    have hflushed : Flushed w := ⟨by rw [hout], by rw [hout], by rw [hout]; exact hclosed⟩
    refine ⟨x, w, rfl, ?_⟩
    unfold released
    rw [close_flushed hflushed, hout]
    obtain ⟨data, synced, closed, hle⟩ := g
    cases hclosed
    rfl

theorem openStore_settled (hg : Unharmed replay st f g) (h : Wieldy f.data) {forget : α → α}
    (hforget : ∀ x w, forget (mk x w) = mk x w.unsynced) :
    (openStore mk replay st .ok path g).1.map forget = (openStore mk replay st .ok path f).1.map forget := by
  have hview : ∀ f', (openStore mk replay st .ok path f').1.map forget =
      ((seenLog (openFile replay st f').1).mapError OpenError.text).map fun p => mk p.1 p.2 := fun f' => by
    rw [openStore_ok]
    cases (openFile replay st f').1 with
    | error e => rfl
    | ok p => exact congrArg Except.ok (hforget p.1 p.2)
  rw [hview, hview, (hg.openFile replay st h).1]

end Store

theorem openEngineWith_ok (path : String) (f : File) :
    openEngineWith .ok path f = ((openEngine f).1.mapError OpenError.text, (openEngine f).2) := by
  rw [openEngineWith, openStore_ok]
  unfold openEngine
  rcases openFile replayCallback Tables.empty f with ⟨r, g⟩
  cases r with
  | error e => rfl
  | ok p => rfl

theorem openOffsetsWith_ok (path : String) (f : File) : openOffsetsWith .ok path f =
    ((Streaming.openOffsets f).1.mapError OpenError.text, (Streaming.openOffsets f).2) := by
  rw [openOffsetsWith, openStore_ok]
  unfold Streaming.openOffsets
  rcases openFile Streaming.replay ∅ f with ⟨r, g⟩
  cases r with
  | error e => rfl
  | ok p => rfl

theorem openOffsets_newFile : Streaming.openOffsets newFile = (.ok .fresh, freshWAL.out.file) := by
  rw [Streaming.openOffsets, openFile_newFile]
  rfl

/-! ## A start without replication -/

section Plain
variable {quote : String → String} {join : String → String → String} {cfg : NodeConfig} {io : StartIO} {d d' : Disk}

theorem mapError_eq_ok {ε ε' α : Type} {f : ε → ε'} {r : Except ε α} {a : α} (h : r.mapError f = .ok a) : r = .ok a := by
  cases r with
  | error e => cases h
  | ok b => rw [Except.ok.inj h]

/-- What the node serves is what its files open to. -/
theorem start_opened (hpeers : cfg.raftPeers = []) (hwal : io.wal = .ok) (hoffsets : io.offsets = .ok) {node : Running}
    (h : start quote join cfg io d = (.ok node, d')) :
    (openEngine d.wal).1 = .ok node.engine ∧ (Streaming.openOffsets d.offsets).1 = .ok node.offsets := by
  obtain ⟨-, -, hoff, heng⟩ := start_ok h
  have heng := heng hpeers
  rw [hwal, openEngineWith_ok] at heng
  rw [hoffsets, openOffsetsWith_ok] at hoff
  exact ⟨mapError_eq_ok heng, mapError_eq_ok hoff⟩

/-- Flags that a node without replication takes, on a machine that lets it listen. -/
structure Startable (quote : String → String) (cfg : NodeConfig) (io : StartIO) : Prop where
  peers : cfg.raftPeers = []
  spec : newNamespaceSpec quote cfg.namespaceID cfg.profile false = .ok ⟨cfg.namespaceID, cfg.profile⟩
  mkdirAll : io.mkdirAll = none
  wal : io.wal = .ok
  offsets : io.offsets = .ok
  listen : cfg.listenFault io = none

theorem start_succeeds (h : Startable quote cfg io) {eng : Engine} {offsets : Streaming.OffsetStore}
    (heng : (openEngine d.wal).1 = .ok eng) (hoffsets : (Streaming.openOffsets d.offsets).1 = .ok offsets) :
    start quote join cfg io d =
      (.ok ⟨⟨cfg.namespaceID, cfg.profile⟩, eng, offsets, false, cfg.tlsEnabled, cfg.authToken⟩,
        ⟨eng.log.out.file, offsets.log.out.file⟩) := by
  unfold start
  simp [h.peers, h.spec, h.mkdirAll, h.wal, h.offsets, h.listen, openEngineWith_ok, openOffsetsWith_ok, heng, hoffsets,
    Except.mapError]

end Plain

/-! ## Starts that fail -/

/-- The disk `d'` is `d` as it was, or as a start leaves it. -/
structure DiskUnharmed (d d' : Disk) : Prop where
  wal : Unharmed replayCallback Tables.empty d.wal d'.wal
  offsets : Unharmed Streaming.replay ∅ d.offsets d'.offsets

section Failing
variable {quote : String → String} {join : String → String → String} {cfg : NodeConfig} {io : StartIO} {d d' : Disk}

theorem start_settles (hpeers : cfg.raftPeers = []) (hwal : io.wal.Harmless) (hoffsets : io.offsets.Harmless)
    (hd : d.wal.closed = false ∧ d.offsets.closed = false) {err : String}
    (h : start quote join cfg io d = (.error err, d')) : DiskUnharmed d d' := by
  unfold start at h
  simp only [hpeers] at h
  split at h
  · cases h
    exact ⟨.refl _ _ _, .refl _ _ _⟩
  · split at h
    · cases h
      exact ⟨.refl _ _ _, .refl _ _ _⟩
    · split at h
      · cases h
        exact ⟨.refl _ _ _, .refl _ _ _⟩
      · split at h
        · next hopen =>
          cases h
          exact ⟨openStore_settles hwal hopen, .refl _ _ _⟩
        · next eng f hopen =>
          have hf := openStore_settles hwal hopen
          obtain ⟨t, w, rfl, hreleased⟩ := openStore_released hopen (hf.closed.trans hd.1)
          split at h
          · next hopen' =>
            cases h
            exact ⟨hreleased.symm ▸ hf, openStore_settles hoffsets hopen'⟩
          · next offs g hopen' =>
            have hg := openStore_settles hoffsets hopen'
            obtain ⟨x, w', rfl, hreleased'⟩ := openStore_released hopen' (hg.closed.trans hd.2)
            simp only [ne_eq, not_true_eq_false, decide_false, Bool.false_eq_true, if_false, Option.none_or] at h
            split at h
            · cases h
              exact ⟨hreleased.symm ▸ hf, hreleased'.symm ▸ hg⟩
            · cases h

theorem map_eq_map_cases {α β : Type} {f : α → β} {r r' : Except String α} (h : r.map f = r'.map f) :
    (∃ err, r = .error err ∧ r' = .error err) ∨ ∃ a a', r = .ok a ∧ r' = .ok a' ∧ f a = f a' := by
  cases r with
  | error err =>
      cases r' with
      | error err' => exact Or.inl ⟨err, rfl, by rw [Except.error.inj h]⟩
      | ok a' => cases h
  | ok a =>
      cases r' with
      | error err' => cases h
      | ok a' => exact Or.inr ⟨a, a', rfl, rfl, Except.ok.inj h⟩

/-- A start depends on what its files open to. -/
theorem start_congr (hpeers : cfg.raftPeers = [])
    (hwal : ∀ path, (openEngineWith io.wal path d'.wal).1.map (fun e => { e with log := e.log.unsynced }) =
      (openEngineWith io.wal path d.wal).1.map fun e => { e with log := e.log.unsynced })
    (hoffsets : ∀ path, (openOffsetsWith io.offsets path d'.offsets).1.map (fun s => { s with log := s.log.unsynced }) =
      (openOffsetsWith io.offsets path d.offsets).1.map fun s => { s with log := s.log.unsynced }) :
    (start quote join cfg io d').1.map Running.unsynced = (start quote join cfg io d).1.map Running.unsynced := by
  unfold start
  simp only [hpeers, ne_eq, not_true_eq_false, decide_false, Bool.false_eq_true, false_and, if_false, Option.none_or]
  split
  · rfl
  · split
    · rfl
    · have hwal := hwal (join cfg.dataDir "partition-0.wal")
      have hoffsets := hoffsets (join cfg.dataDir "consumer-offsets.wal")
      generalize openEngineWith io.wal (join cfg.dataDir "partition-0.wal") d'.wal = e' at hwal ⊢
      generalize openEngineWith io.wal (join cfg.dataDir "partition-0.wal") d.wal = e at hwal ⊢
      generalize openOffsetsWith io.offsets (join cfg.dataDir "consumer-offsets.wal") d'.offsets = o' at hoffsets ⊢
      generalize openOffsetsWith io.offsets (join cfg.dataDir "consumer-offsets.wal") d.offsets = o at hoffsets ⊢
      obtain ⟨e', f'⟩ := e'
      obtain ⟨e, f⟩ := e
      obtain ⟨o', g'⟩ := o'
      obtain ⟨o, g⟩ := o
      rcases map_eq_map_cases hwal with ⟨err, rfl, rfl⟩ | ⟨eng', eng, rfl, rfl, heng⟩
      · rfl
      · rcases map_eq_map_cases hoffsets with ⟨err, rfl, rfl⟩ | ⟨offs', offs, rfl, rfl, hoffs⟩
        · rfl
        · cases cfg.listenFault io with
          | some err => rfl
          | none => simp only [Except.map, Running.unsynced, heng, hoffs]

/-- **Failed starts.** However often a node without replication fails to start, for its flags, its port, its certificate or
an error of the disk, and as long as no read of a log fails and no header is written in part, a later start that can open its
files does what it would have done at once: it fails with the same error or it serves the same records and offsets. -/
theorem failed_starts_harmless (hopen : d.wal.closed = false ∧ d.offsets.closed = false) (hwal : Wieldy d.wal.data)
    (hoffsets : Wieldy d.offsets.data) {tries : List (NodeConfig × StartIO)}
    (htries : ∀ a ∈ tries, a.1.raftPeers = [] ∧ a.2.wal.Harmless ∧ a.2.offsets.Harmless)
    (hrun : runActions (failedStart quote join) d tries = some d') (hpeers : cfg.raftPeers = []) (hio : io.wal = .ok)
    (hio' : io.offsets = .ok) :
    (start quote join cfg io d').1.map Running.unsynced = (start quote join cfg io d).1.map Running.unsynced := by
  -- by the tries: each leaves the disk as it was at first or as an `Open` leaves it
  have hsettled : DiskUnharmed d d' := by
    have hstep : ∀ s a s', DiskUnharmed d s → (a.1.raftPeers = [] ∧ a.2.wal.Harmless ∧ a.2.offsets.Harmless) →
        failedStart quote join s a = some s' → DiskUnharmed d s' := by
      intro s a s' hs ha h
      unfold failedStart at h
      split at h
      · next hstart =>
        cases h
        have hnext := start_settles ha.1 ha.2.1 ha.2.2
          ⟨hs.wal.closed.trans hopen.1, hs.offsets.closed.trans hopen.2⟩ hstart
        exact ⟨hs.wal.trans _ _ hwal hnext.wal, hs.offsets.trans _ _ hoffsets hnext.offsets⟩
      · cases h
    exact runActions_along hstep ⟨.refl _ _ _, .refl _ _ _⟩ (along_of_mem htries d) hrun
  refine start_congr hpeers (fun path => ?_) fun path => ?_
  · rw [hio]
    exact openStore_settled hsettled.wal hwal fun _ _ => rfl
  · rw [hio']
    exact openStore_settled hsettled.offsets hoffsets fun _ _ => rfl

end Failing

/-- A log with a torn tail, and no offsets yet. -/
def tornDisk : Disk := ⟨paddedFile, newFile⟩

def plainConfig : NodeConfig := ⟨"data", "n", "cache", "", "", [], "", "", [], "", "", ""⟩

def quietStart : StartIO := ⟨none, .ok, .ok, fun eng => (none, eng), none, none⟩

def durableConfig : NodeConfig := { plainConfig with profile := "durable" }

def diskError : StartIO := { quietStart with wal := { OpenIO.ok with seek := some "input/output error" } }

def portTaken : StartIO := { quietStart with listen := some "bind: address already in use" }

def failingTries : List (NodeConfig × StartIO) :=
  [(durableConfig, quietStart), (plainConfig, diskError), (plainConfig, portTaken)]

def slashJoin (dir file : String) : String := dir ++ "/" ++ file

theorem failingTries_run : ∃ d', runActions (failedStart id slashJoin) tornDisk failingTries = some d' := by
  have hopen : ∀ path, ∃ eng g, openEngineWith .ok path paddedFile = (.ok eng, g) := fun path => by
    rw [openEngineWith_ok, openEngine, openFile_accepted paddedFile_accepted rfl]
    exact ⟨_, _, rfl⟩
  have hopen' : ∀ path, ∃ offsets g, openOffsetsWith .ok path newFile = (.ok offsets, g) := fun path => by
    rw [openOffsetsWith_ok, openOffsets_newFile]
    exact ⟨_, _, rfl⟩
  obtain ⟨eng, f, heng⟩ := hopen (slashJoin "data" "partition-0.wal")
  obtain ⟨offsets, g, hoffsets⟩ := hopen' (slashJoin "data" "consumer-offsets.wal")
  have hfirst : failedStart id slashJoin tornDisk (durableConfig, quietStart) = some tornDisk := rfl
  have hsecond : failedStart id slashJoin tornDisk (plainConfig, diskError) = some tornDisk := rfl
  have hthird : failedStart id slashJoin tornDisk (plainConfig, portTaken) = some ⟨released eng.log, released offsets.log⟩ := by
    have hspec : newNamespaceSpec id "n" "cache" false = .ok ⟨"n", "cache"⟩ := rfl
    simp [failedStart, start, plainConfig, portTaken, quietStart, tornDisk, hspec, heng, hoffsets, NodeConfig.listenFault]
  refine ⟨⟨released eng.log, released offsets.log⟩, ?_⟩
  rw [failingTries, runActions_cons _ hfirst, runActions_cons _ hsecond, runActions_cons _ hthird]
  rfl

theorem failed_starts_torn : ∃ d', runActions (failedStart id slashJoin) tornDisk failingTries = some d' ∧
    (start id slashJoin plainConfig quietStart d').1.map Running.unsynced =
      (start id slashJoin plainConfig quietStart tornDisk).1.map Running.unsynced := by
  have hwal : Wieldy tornDisk.wal.data := by
    intro cs t h _
    obtain ⟨rfl, rfl⟩ := h.scanned.unique paddedFile_accepted.scanned
    intro c hc
    rw [List.mem_singleton.mp hc]
    decide
  have hoffsets : Wieldy tornDisk.offsets.data := by
    intro cs t h ht
    exact absurd (List.append_eq_nil_iff.mp h.scanned.split.symm).2 ht
  have hharmless : OpenIO.ok.Harmless := ⟨rfl, nofun⟩
  have htries : ∀ a ∈ failingTries, a.1.raftPeers = [] ∧ a.2.wal.Harmless ∧ a.2.offsets.Harmless := by
    intro a ha
    simp only [failingTries, List.mem_cons, List.not_mem_nil, or_false] at ha
    rcases ha with rfl | rfl | rfl
    · exact ⟨rfl, hharmless, hharmless⟩
    · exact ⟨rfl, ⟨rfl, nofun⟩, hharmless⟩
    · exact ⟨rfl, hharmless, hharmless⟩
  obtain ⟨d', hrun⟩ := failingTries_run
  exact ⟨d', hrun, failed_starts_harmless ⟨rfl, rfl⟩ hwal hoffsets htries hrun rfl rfl rfl⟩

end Uddp
