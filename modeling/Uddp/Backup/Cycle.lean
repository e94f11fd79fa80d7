import Uddp.Api.Node

/-!
# A backup and its restore

A backup that was created through the admin API, and what comes back when it is restored, on a node that goes on serving
everything else in between.

* `NodeEffect`, **`nodeStep_effect`** : what one call of a handler can do to the node; `Lasts` : files are written once, and the
  process keeps the numbers of its types;
* `NodeState.Intact`, `run_intact` : the engine of a node without I/O errors;
* `TakenIn` : the entries are those of a snapshot that the backup took in the course of the run; `BackupOk`, `backup_step`,
  `backup_run` : how far a `CreateBackup` has come, and that its file holds the entries from then on;
* `restoreActions`, `restore_alone` : a `RestoreBackup` that nobody comes between;
* **`backup_restores`** : it brings back what was live when the backup was taken.
-/

namespace Uddp
open Uddp.Lib Uddp.Wal

/-! ## What a call does to the node -/

/-- Every way in which a call leaves the node. -/
inductive NodeEffect (s : NodeState) (c : NodeEnv) : NodeState → Prop
  | none : NodeEffect s c s
  | call (op : Call) : NodeEffect s c { s with engine := (op.run s.engine c.append).2 }
  | reset : NodeEffect s c { s with engine := (s.engine.reset c.reset).2 }
  | commit (g : Bytes) (o : UInt64) : NodeEffect s c { s with offsets := (s.offsets.commit g o c.append).2 }
  | metrics (m : Metrics) : NodeEffect s c { s with metrics := m }
  | encode (ts : List Backup.GobType) : NodeEffect s c { s with process := s.process.register ts }
  /-- A file that was not there. -/
  | create (ts : List Backup.GobType) (path : String) (bs : Bytes) (h : s.files path = Option.none) :
      NodeEffect s c { s with process := s.process.register ts, files := Function.update s.files path (some bs) }

section Effects
variable {P : Packages} {spec : NamespaceSpec} {s s' : NodeState} {c : NodeEnv}
  {out : NodeTask ⊕ Except Status NodeAnswer}

theorem mutate_effect {m : Mutation} (h : s.mutate P spec c m = some (out, s')) : NodeEffect s c s' := by
  unfold NodeState.mutate at h
  split at h
  · cases h
    exact .none
  · split at h
    · next err e hrun =>
      cases h
      have := NodeEffect.call (s := s) (c := c) m.call
      rw [hrun] at this
      exact this
    · next o e hrun =>
      cases h
      have := NodeEffect.call (s := s) (c := c) m.call
      rw [hrun] at this
      exact this

theorem reply_state {α : Type} {f : α → NodeAnswer} {r : Reply α} (h : s.reply f r = some (out, s')) : s' = s := by
  cases r with
  | ok resp =>
      cases h
      rfl
  | status status =>
      cases h
      rfl
  | panic => cases h

theorem snapshot_taken {k : List SnapshotEntry → NodeStep} (h : s.snapshot c k = some (out, s')) :
    ∃ entries, s.engine.Snapshot c.nowAt entries ∧ k entries = some (out, s') := by
  unfold NodeState.snapshot at h
  split at h
  · next hlisted => exact ⟨_, ⟨c.listed, hlisted, rfl⟩, h⟩
  · cases h

theorem resetEngine_effect {text : String} {k : NodeState → NodeStep}
    (hk : ∀ e, k { s with engine := e } = some (out, s') → s' = { s with engine := e })
    (h : s.resetEngine c text k = some (out, s')) : NodeEffect s c s' := by
  unfold NodeState.resetEngine at h
  have heffect := NodeEffect.reset (s := s) (c := c)
  split at h
  · next err e hreset =>
    cases h
    rw [hreset] at heffect
    exact heffect
  · next e hreset =>
    rw [hreset] at heffect
    rw [hk e h]
    exact heffect

theorem register_append (p : Backup.Process) (ts ts' : List Backup.GobType) :
    (p.register ts).register ts' = p.register (ts ++ ts') := by
  rw [Registry.register, Registry.register, Registry.register, List.foldl_append]

theorem write_process (g : Backup.Gob) (sha256 : Bytes → Bytes) (p : Backup.Process) (m : Backup.Meta)
    (entries : List SnapshotEntry) (now : Time) (fault : Option String) :
    ∃ ts, (Backup.write g sha256 p m entries now fault).2 = p.register ts := by
  unfold Backup.write Codec.encodeIn
  cases g.entries.encode (g.entries.ids p) entries with
  | error err => exact ⟨_, rfl⟩
  | ok entryBuf =>
      refine ⟨g.entries.types ++ g.payload.types, ?_⟩
      rw [← register_append]
      dsimp only
      generalize g.payload.encode _ _ = result
      cases result with
      | error err => rfl
      | ok bs =>
          cases fault with
          | none => rfl
          | some err => rfl

variable (P spec) in
theorem createBackup_process (recoveryPoint : UInt64) (path : String) (entries : List SnapshotEntry) (now : Time)
    (io : Backup.WriteFileIO) (p : Backup.Process) : ∃ ts, (AdminServer.createBackup P.gob P.sha256 P.rfc3339 spec p path
      entries recoveryPoint now io).2 = p.register ts := by
  unfold AdminServer.createBackup Backup.writeFile
  split
  · exact ⟨[], rfl⟩
  · cases io.create with
    | some err => exact ⟨[], rfl⟩
    | none =>
        obtain ⟨ts, hts⟩ := write_process P.gob P.sha256 p ⟨0, spec.id, recoveryPoint, 0, zeroTime, ""⟩ entries now io.write
        refine ⟨ts, ?_⟩
        dsimp only
        cases hwrite : Backup.write P.gob P.sha256 p ⟨0, spec.id, recoveryPoint, 0, zeroTime, ""⟩ entries now io.write with
        | mk result q =>
            rw [hwrite] at hts
            cases result with
            | error err => exact hts
            | ok found =>
                cases io.sync with
                | none => exact hts
                | some err => exact hts

theorem createBackup_written {g : Backup.Gob} {sha256 : Bytes → Bytes} {rfc3339 : Time → String} {p p' : Backup.Process}
    {path : String} {entries : List SnapshotEntry} {recoveryPoint : UInt64} {now : Time} {io : Backup.WriteFileIO}
    {info : BackupInfo} {bs : Bytes}
    (h : AdminServer.createBackup g sha256 rfc3339 spec p path entries recoveryPoint now io = (.ok (info, bs), p')) :
    io.create = none ∧ ∃ m written, Backup.write g sha256 p m entries now io.write = (.ok (written, bs), p') ∧
      info = backupInfo rfc3339 written := by
  unfold AdminServer.createBackup Backup.writeFile at h
  split at h
  · cases h
  · cases hcreate : io.create with
    | some err =>
        rw [hcreate] at h
        cases h
    | none =>
        rw [hcreate] at h
        dsimp only at h
        cases hwrite : Backup.write g sha256 p ⟨0, spec.id, recoveryPoint, 0, zeroTime, ""⟩ entries now io.write with
        | mk result q =>
            rw [hwrite] at h
            cases result with
            | error err => cases h
            | ok found =>
                cases hsync : io.sync with
                | some err =>
                    rw [hsync] at h
                    cases h
                | none =>
                    rw [hsync] at h
                    cases h
                    exact ⟨rfl, _, found.1, hwrite, rfl⟩

/-- `O_EXCL`: a file is created only where there is none. -/
theorem createFault_none {path : String} (h : s.createFault c path = none) : s.files path = none := by
  unfold NodeState.createFault at h
  split at h
  · cases h
  · next hnone => exact Option.not_isSome_iff_eq_none.mp hnone

theorem writeBackup_effect {path : String} {entries : List SnapshotEntry} {recoveryPoint : UInt64}
    (h : s.writeBackup P spec c path entries recoveryPoint = some (out, s')) : NodeEffect s c s' := by
  obtain ⟨ts, hts⟩ := createBackup_process P spec recoveryPoint path entries (c.now 0)
    { c.write with create := s.createFault c path } s.process
  unfold NodeState.writeBackup at h
  dsimp only at h
  split at h
  · next info bs p hcreate =>
    rw [hcreate] at hts
    cases h
    cases hts
    exact .create ts path bs (createFault_none (createBackup_written hcreate).1)
  · next status p hcreate =>
    rw [hcreate] at hts
    cases hts
    split at h
    · cases h
      exact .encode ts
    · next hnone =>
      cases h
      exact .create ts path c.left (createFault_none hnone)

theorem read_process (g : Backup.Gob) (sha256 : Bytes → Bytes) (p : Backup.Process) (bs : Bytes) :
    ∃ ts, (Backup.read g sha256 p bs).2 = p.register ts := by
  unfold Backup.read Codec.encodeIn
  cases g.payload.decode bs with
  | error err => exact ⟨[], rfl⟩
  | ok payload =>
      dsimp only
      split
      · exact ⟨[], rfl⟩
      · refine ⟨g.entries.types, ?_⟩
        generalize g.entries.encode _ _ = result
        cases result with
        | error err => rfl
        | ok entryBuf =>
            dsimp only
            split
            · rfl
            · rfl

theorem readBackup_process (path : String) : ∃ ts, (s.readBackup P c path).2 = s.process.register ts := by
  unfold NodeState.readBackup
  cases c.openFault with
  | some err => exact ⟨[], rfl⟩
  | none =>
      cases s.files path with
      | none => exact ⟨[], rfl⟩
      | some bs =>
          obtain ⟨ts, hts⟩ := read_process P.gob P.sha256 s.process bs
          refine ⟨ts, ?_⟩
          dsimp only
          split
          · next hread =>
            rw [hread] at hts
            exact hts
          · next hread =>
            rw [hread] at hts
            exact hts

theorem restoreBackup_effect {path : String} (h : s.restoreBackup P c path = some (out, s')) : NodeEffect s c s' := by
  obtain ⟨ts, hts⟩ := readBackup_process (P := P) (s := s) (c := c) path
  unfold NodeState.restoreBackup at h
  split at h
  · cases h
    exact .none
  · split at h
    · next err p hread =>
      rw [hread] at hts
      cases h
      cases hts
      exact .encode ts
    · next m entries p hread =>
      rw [hread] at hts
      cases h
      cases hts
      exact .encode ts

theorem commitOffset_effect (quote : String → String) (spec : NamespaceSpec) (store : Streaming.OffsetStore)
    (req : CommitOffsetRequest) (io : AppendIO) : (StreamServer.commitOffset quote spec store req io).2 = store ∨
      (StreamServer.commitOffset quote spec store req io).2 = (store.commit (utf8 req.consumerGroup) req.offset io).2 := by
  unfold StreamServer.commitOffset
  split
  · exact Or.inl rfl
  · right
    split
    · next heq => rw [heq]
    · next heq => rw [heq]
    · next heq => rw [heq]

theorem request_effect {req : NodeRequest} (h : req.step P spec s c = some (out, s')) : NodeEffect s c s' := by
  cases req with
  | get req =>
      simp only [NodeRequest.step] at h
      split at h
      · cases h
        exact .none
      · cases h
        exact .none
  | put req => exact mutate_effect h
  | delete req => exact mutate_effect h
  | compareAndSet req => exact mutate_effect h
  | fetch req =>
      rw [reply_state h]
      exact .none
  | commitOffset req =>
      rw [reply_state h]
      rcases commitOffset_effect P.quote spec s.offsets req c.append with hsame | hcommit
      · rw [hsame]
        exact .none
      · rw [hcommit]
        exact .commit _ _
  | fetchOffset req =>
      rw [reply_state h]
      exact .none
  | addNode id raftAddr =>
      cases h
      exact .none
  | removeNode id =>
      cases h
      exact .none
  | listNodes =>
      cases h
      exact .none
  | createBackup path =>
      simp only [NodeRequest.step] at h
      split at h
      · cases h
        exact .none
      · obtain ⟨entries, -, hk⟩ := snapshot_taken h
        cases hk
        exact .none
  | restoreBackup path => exact restoreBackup_effect h
  | exportNamespace =>
      simp only [NodeRequest.step] at h
      obtain ⟨entries, -, hk⟩ := snapshot_taken h
      cases hk
      exact .none
  | deleteNamespace confirm =>
      simp only [NodeRequest.step] at h
      split at h
      · cases h
        exact .none
      · obtain ⟨entries, -, hk⟩ := snapshot_taken h
        cases hk
        exact .none
  | getUsage =>
      simp only [NodeRequest.step] at h
      obtain ⟨entries, -, hk⟩ := snapshot_taken h
      cases hk
      exact .none
  | check =>
      cases h
      exact .none

theorem nodeStep_effect {t : NodeTask} (h : t.step P spec s c = some (out, s')) : NodeEffect s c s' := by
  cases t with
  | request req => exact request_effect h
  | respond o =>
      cases h
      exact .metrics _
  | position path entries =>
      cases h
      exact .none
  | write path entries recoveryPoint => exact writeBackup_effect h
  | reset m entries =>
      simp only [NodeTask.step] at h
      refine resetEngine_effect (fun e hk => ?_) h
      cases hk
      rfl
  | load m entries =>
      cases entries with
      | nil =>
          cases h
          exact .none
      | cons ent entries =>
          have heffect := NodeEffect.call (s := s) (c := c) ent.call
          simp only [NodeTask.step] at h
          split at h
          · next err e hput =>
            cases h
            rw [show ent.call.run s.engine c.append = (.error err, e) from hput] at heffect
            exact heffect
          · next o e hput =>
            cases h
            rw [show ent.call.run s.engine c.append = (.ok o, e) from hput] at heffect
            exact heffect
  | wipe before =>
      simp only [NodeTask.step] at h
      refine resetEngine_effect (fun e hk => ?_) h
      cases hk
      rfl

end Effects

/-! ## Files are written once -/

/-- The files of `s` are in `s'` as they were, and the types have the numbers they had. -/
structure Lasts (s s' : NodeState) : Prop where
  files : ∀ path bs, s.files path = some bs → s'.files path = some bs
  process : ∃ ts, s'.process = s.process.register ts

theorem Lasts.refl (s : NodeState) : Lasts s s := ⟨fun _ _ h => h, [], rfl⟩

theorem NodeEffect.lasts {s s' : NodeState} {c : NodeEnv} (h : NodeEffect s c s') : Lasts s s' := by
  cases h with
  | none => exact .refl s
  | call op => exact ⟨fun _ _ h => h, [], rfl⟩
  | reset => exact ⟨fun _ _ h => h, [], rfl⟩
  | commit g o => exact ⟨fun _ _ h => h, [], rfl⟩
  | metrics m => exact ⟨fun _ _ h => h, [], rfl⟩
  | encode ts => exact ⟨fun _ _ h => h, ts, rfl⟩
  | create ts path bs hnone =>
      refine ⟨fun path' bs' h => ?_, ts, rfl⟩
      have hne : path' ≠ path := by
        rintro rfl
        rw [hnone] at h
        cases h
      simp only [Function.update_of_ne hne]
      exact h

/-- The engine is that of some history, and all of it is durable. -/
def NodeState.Intact (s : NodeState) : Prop := ∃ rs, Represents s.engine rs

/-- The disk does what it should for the log. -/
structure NodeEnv.Sound (c : NodeEnv) : Prop where
  append : c.append = AppendIO.ok
  reset : c.reset = ResetIO.ok

theorem NodeEffect.intact {s s' : NodeState} {c : NodeEnv} (h : NodeEffect s c s') (hc : c.Sound) (hs : s.Intact) :
    s'.Intact := by
  obtain ⟨rs, hrs⟩ := hs
  cases h with
  | call op =>
      refine ⟨(answer rs op).2, ?_⟩
      show Represents (op.run s.engine c.append).2 _
      rw [hc.append]
      exact (step_represents hrs op).2
  | reset =>
      refine ⟨[], ?_⟩
      show Represents (s.engine.reset c.reset).2 []
      rw [hc.reset, reset_holds hrs.holds]
      exact represents_fresh
  | none => exact ⟨rs, hrs⟩
  | commit g o => exact ⟨rs, hrs⟩
  | metrics m => exact ⟨rs, hrs⟩
  | encode ts => exact ⟨rs, hrs⟩
  | create ts path bs hnone => exact ⟨rs, hrs⟩

/-! ## A backup in the course of a run -/

section Runs
variable {ω : Type} [DecidableEq ω] {P : Packages} {spec : NamespaceSpec} {token : Bytes} {rpc : ω → Incoming NodeRequest}

/-- The action, if it is a call, meets a disk that works. -/
def RpcAction.Sound {ω : Type} : RpcAction NodeEnv ω → Prop
  | .work _ c => c.Sound
  | .arrive _ | .authenticate _ | .count _ | .observe _ => True

theorem gateway_effect {x y : NodeGateway ω} {a : RpcAction NodeEnv ω}
    (h : x.step token (nodeHandlers P spec) rpc a = some y) :
    y.shared = x.shared ∨ ∃ o c, a = .work o c ∧ NodeEffect x.shared c y.shared := by
  cases a with
  | arrive o =>
      obtain ⟨-, rfl⟩ := gateway_arrive h
      exact Or.inl rfl
  | authenticate o =>
      obtain ⟨-, ⟨err, -, rfl⟩ | ⟨-, rfl⟩⟩ := gateway_authenticate h
      · exact Or.inl rfl
      · exact Or.inl rfl
  | work o c =>
      obtain ⟨t, s, -, ⟨t', hstep, rfl⟩ | ⟨r, hstep, rfl⟩⟩ := gateway_work h
      · exact Or.inr ⟨o, c, rfl, nodeStep_effect hstep⟩
      · exact Or.inr ⟨o, c, rfl, nodeStep_effect hstep⟩
  | count o =>
      obtain ⟨r, -, rfl⟩ := gateway_count h
      exact Or.inl rfl
  | observe o =>
      obtain ⟨r, -, rfl⟩ := gateway_observe h
      exact Or.inl rfl

theorem gateway_lasts {x y : NodeGateway ω} {a : RpcAction NodeEnv ω}
    (h : x.step token (nodeHandlers P spec) rpc a = some y) : Lasts x.shared y.shared := by
  rcases gateway_effect h with hsame | ⟨o, c, -, heffect⟩
  · rw [hsame]
    exact .refl _
  · exact heffect.lasts

theorem gateway_intact {x y : NodeGateway ω} {a : RpcAction NodeEnv ω} (ha : a.Sound)
    (h : x.step token (nodeHandlers P spec) rpc a = some y) (hx : x.shared.Intact) : y.shared.Intact := by
  rcases gateway_effect h with hsame | ⟨o, c, rfl, heffect⟩
  · rw [hsame]
    exact hx
  · exact heffect.intact ha hx

theorem run_intact {s : NodeState} (hs : s.Intact) {as : List (RpcAction NodeEnv ω)} (has : ∀ a ∈ as, a.Sound)
    {x : NodeGateway ω} (hrun : runActions (Gateway.step token (nodeHandlers P spec) rpc) (Gateway.start s) as = some x) :
    x.shared.Intact :=
  runActions_along (P := fun _ a => RpcAction.Sound a) (I := fun x : NodeGateway ω => x.shared.Intact)
    (fun _ _ _ hx ha h => gateway_intact ha h hx) hs (along_of_mem has _) hrun

variable (P spec token rpc) in
/-- In the course of the run, the `CreateBackup` `b` took a snapshot with these entries. -/
def TakenIn (s : NodeState) (as : List (RpcAction NodeEnv ω)) (b : ω) (entries : List SnapshotEntry) : Prop :=
  ∃ before after x now, as = before ++ after ∧
    runActions (Gateway.step token (nodeHandlers P spec) rpc) (Gateway.start s) before = some x ∧
    (∃ t, x.phase b = .handling t) ∧ x.shared.engine.Snapshot now entries

theorem TakenIn.snoc {s : NodeState} {as : List (RpcAction NodeEnv ω)} {b : ω} {entries : List SnapshotEntry}
    (h : TakenIn P spec token rpc s as b entries) (a : RpcAction NodeEnv ω) :
    TakenIn P spec token rpc s (as ++ [a]) b entries := by
  obtain ⟨before, after, x, now, rfl, hrest⟩ := h
  exact ⟨before, after ++ [a], x, now, List.append_assoc before after [a], hrest⟩

variable (P) in
/-- The file at `path` is what a backup with these entries has written, in this process. -/
def Written (s : NodeState) (path : String) (info : BackupInfo) (entries : List SnapshotEntry) : Prop :=
  ∃ p m now fault written bs p' ts, Backup.write P.gob P.sha256 p m entries now fault = (.ok (written, bs), p') ∧
    info = backupInfo P.rfc3339 written ∧ s.files path = some bs ∧ s.process = p'.register ts

omit [DecidableEq ω] in
theorem Written.lasts {s s' : NodeState} {path : String} {info : BackupInfo} {entries : List SnapshotEntry}
    (h : Written P s path info entries) (hlasts : Lasts s s') : Written P s' path info entries := by
  obtain ⟨p, m, now, fault, written, bs, p', ts, hwrite, hinfo, hfile, hprocess⟩ := h
  obtain ⟨ts', hts'⟩ := hlasts.process
  refine ⟨p, m, now, fault, written, bs, p', ts ++ ts', hwrite, hinfo, hlasts.files path bs hfile, ?_⟩
  rw [hts', hprocess, register_append]

variable (P) in
/-- How far a `CreateBackup` has come; `Q` says where its entries come from. -/
def BackupOk (Q : List SnapshotEntry → Prop) (path : String) (s : NodeState) : RpcPhase NodeTask NodeAnswer → Prop
  | .idle | .arrived => True
  | .handling (.request req) => req = .createBackup path
  | .handling (.position p entries) => p = path ∧ Q entries
  | .handling (.write p entries _) => p = path ∧ Q entries
  | .handling _ => False
  | .returned r | .counted r | .answered r =>
      ∀ a, r = .ok a → ∃ info entries, a = .backup info ∧ Written P s path info entries ∧ Q entries

theorem BackupOk.lasts {Q Q' : List SnapshotEntry → Prop} {path : String} {s s' : NodeState}
    {p : RpcPhase NodeTask NodeAnswer} (h : BackupOk P Q path s p) (hQ : ∀ entries, Q entries → Q' entries)
    (hlasts : Lasts s s') : BackupOk P Q' path s' p := by
  have hresult : ∀ {r : Except RpcError NodeAnswer},
      (∀ a, r = .ok a → ∃ info entries, a = .backup info ∧ Written P s path info entries ∧ Q entries) →
      ∀ a, r = .ok a → ∃ info entries, a = .backup info ∧ Written P s' path info entries ∧ Q' entries := by
    intro r hr a ha
    obtain ⟨info, entries, hinfo, hwritten, hq⟩ := hr a ha
    exact ⟨info, entries, hinfo, hwritten.lasts hlasts, hQ entries hq⟩
  cases p with
  | idle => trivial
  | arrived => trivial
  | handling t =>
      cases t with
      | request req => exact h
      | position p entries => exact ⟨h.1, hQ _ h.2⟩
      | write p entries recoveryPoint => exact ⟨h.1, hQ _ h.2⟩
      | respond out => exact h.elim
      | reset m entries => exact h.elim
      | load m entries => exact h.elim
      | wipe before => exact h.elim
  | returned r => exact hresult h
  | counted r => exact hresult h
  | answered r => exact hresult h

theorem backup_work {Q : List SnapshotEntry → Prop} {path : String} {s s' : NodeState} {t : NodeTask} {c : NodeEnv}
    {out : NodeTask ⊕ Except Status NodeAnswer} (h : BackupOk P Q path s (.handling t))
    (hQ : ∀ entries, path ≠ "" → s.engine.Snapshot c.nowAt entries → Q entries)
    (hstep : t.step P spec s c = some (out, s')) :
    match out with
    | .inl t' => BackupOk P Q path s' (.handling t')
    | .inr r => BackupOk P Q path s' (.returned (r.mapError .status)) := by
  cases t with
  | request req =>
      cases h
      simp only [NodeTask.step, NodeRequest.step] at hstep
      split at hstep
      · cases hstep
        exact fun a ha => by cases ha
      · next hpath =>
        obtain ⟨entries, htaken, hk⟩ := snapshot_taken hstep
        cases hk
        exact ⟨rfl, hQ entries hpath htaken⟩
  | position p entries =>
      cases hstep
      exact h
  | write p entries recoveryPoint =>
      obtain ⟨rfl, hq⟩ := h
      simp only [NodeTask.step, NodeState.writeBackup] at hstep
      split at hstep
      · next info bs q hcreate =>
        cases hstep
        obtain ⟨-, m, written, hwrite, hinfo⟩ := createBackup_written hcreate
        intro a ha
        cases ha
        exact ⟨info, entries, rfl, ⟨_, m, _, _, written, bs, q, [], hwrite, hinfo, Function.update_self .., rfl⟩, hq⟩
      · split at hstep
        · cases hstep
          exact fun a ha => by cases ha
        · cases hstep
          exact fun a ha => by cases ha
  | respond out => exact h.elim
  | reset m entries => exact h.elim
  | load m entries => exact h.elim
  | wipe before => exact h.elim

theorem gateway_phase_of_ne {x y : NodeGateway ω} {a : RpcAction NodeEnv ω}
    (h : x.step token (nodeHandlers P spec) rpc a = some y) {b : ω} (hb : b ≠ a.op) : y.phase b = x.phase b := by
  cases a with
  | arrive o =>
      obtain ⟨-, rfl⟩ := gateway_arrive h
      exact x.goto_of_ne hb _
  | authenticate o =>
      obtain ⟨-, ⟨err, -, rfl⟩ | ⟨-, rfl⟩⟩ := gateway_authenticate h
      · exact x.goto_of_ne hb _
      · exact x.goto_of_ne hb _
  | work o c =>
      obtain ⟨t, s, -, ⟨t', -, rfl⟩ | ⟨r, -, rfl⟩⟩ := gateway_work h
      · exact Gateway.goto_of_ne _ hb _
      · exact Gateway.goto_of_ne _ hb _
  | count o =>
      obtain ⟨r, -, rfl⟩ := gateway_count h
      exact Gateway.goto_of_ne _ hb _
  | observe o =>
      obtain ⟨r, -, rfl⟩ := gateway_observe h
      exact Gateway.goto_of_ne _ hb _

theorem run_phase_of_ne {x y : NodeGateway ω} {as : List (RpcAction NodeEnv ω)} {b : ω} (has : ∀ a ∈ as, b ≠ a.op)
    (hrun : runActions (Gateway.step token (nodeHandlers P spec) rpc) x as = some y) : y.phase b = x.phase b :=
  runActions_along (P := fun _ a => b ≠ RpcAction.op a) (I := fun z : NodeGateway ω => z.phase b = x.phase b)
    (fun _ _ _ hz ha h => (gateway_phase_of_ne h ha).trans hz) rfl (along_of_mem has _) hrun

theorem backup_step {Q Q' : List SnapshotEntry → Prop} {path : String} {x y : NodeGateway ω} {a : RpcAction NodeEnv ω} {b : ω}
    (hb : (rpc b).req = .createBackup path) (h : BackupOk P Q path x.shared (x.phase b))
    (hQ : ∀ entries, Q entries → Q' entries)
    (htaken : ∀ t now entries, x.phase b = .handling t → path ≠ "" → x.shared.engine.Snapshot now entries → Q' entries)
    (hstep : x.step token (nodeHandlers P spec) rpc a = some y) : BackupOk P Q' path y.shared (y.phase b) := by
  have hmore := h.lasts hQ (gateway_lasts hstep)
  by_cases hop : b = a.op
  · cases a with
    | arrive o =>
        obtain rfl : b = o := hop
        obtain ⟨-, rfl⟩ := gateway_arrive hstep
        rw [Gateway.goto_self]
        trivial
    | authenticate o =>
        obtain rfl : b = o := hop
        obtain ⟨-, ⟨err, -, rfl⟩ | ⟨-, rfl⟩⟩ := gateway_authenticate hstep
        · rw [Gateway.goto_self]
          exact fun r hr => by cases hr
        · rw [Gateway.goto_self]
          exact hb
    | work o c =>
        obtain rfl : b = o := hop
        obtain ⟨t, s, hphase, hwork⟩ := gateway_work hstep
        have hself : BackupOk P Q' path x.shared (.handling t) := hphase ▸ h.lasts hQ (.refl _)
        obtain ⟨t', hcall, rfl⟩ | ⟨r, hcall, rfl⟩ := hwork
        · rw [Gateway.goto_self]
          exact backup_work hself (fun entries => htaken t c.nowAt entries hphase) hcall
        · rw [Gateway.goto_self]
          exact backup_work hself (fun entries => htaken t c.nowAt entries hphase) hcall
    | count o =>
        obtain rfl : b = o := hop
        obtain ⟨r, hphase, rfl⟩ := gateway_count hstep
        rw [hphase] at hmore
        rw [Gateway.goto_self]
        exact hmore
    | observe o =>
        obtain rfl : b = o := hop
        obtain ⟨r, hphase, rfl⟩ := gateway_observe hstep
        rw [hphase] at hmore
        rw [Gateway.goto_self]
        exact hmore
  · rw [gateway_phase_of_ne hstep hop]
    exact hmore

theorem backup_run {s : NodeState} {as : List (RpcAction NodeEnv ω)} {x : NodeGateway ω} {b : ω} {path : String}
    (hb : (rpc b).req = .createBackup path)
    (hrun : runActions (Gateway.step token (nodeHandlers P spec) rpc) (Gateway.start s) as = some x) :
    BackupOk P (fun entries => path ≠ "" ∧ TakenIn P spec token rpc s as b entries) path x.shared (x.phase b) := by
  induction as using List.reverseRecOn generalizing x with
  | nil =>
      cases hrun
      trivial
  | append_singleton as a ih =>
      obtain ⟨mid, hmid, hlast⟩ := (runActions_snoc _).mp hrun
      refine backup_step hb (ih hmid) (fun entries h => ⟨h.1, h.2.snoc a⟩) (fun t now entries hphase hpath htaken => ?_) hlast
      exact ⟨hpath, as, [a], mid, now, rfl, hmid, ⟨t, hphase⟩, htaken⟩

/-! ## A restore that nobody comes between -/

theorem step_continue {x : NodeGateway ω} {r : ω} {t t' : NodeTask} {c : NodeEnv} {s : NodeState}
    (hphase : x.phase r = .handling t) (hstep : t.step P spec x.shared c = some (.inl t', s)) :
    x.step token (nodeHandlers P spec) rpc (.work r c) =
      some (({ x with shared := s } : NodeGateway ω).goto r (.handling t')) := by
  simp only [Gateway.step, hphase, nodeHandlers, hstep]

theorem step_return {x : NodeGateway ω} {r : ω} {t : NodeTask} {c : NodeEnv} {s : NodeState} {a : NodeAnswer}
    (hphase : x.phase r = .handling t) (hstep : t.step P spec x.shared c = some (.inr (.ok a), s)) :
    x.step token (nodeHandlers P spec) rpc (.work r c) =
      some (({ x with shared := s } : NodeGateway ω).goto r (.returned (.ok a))) := by
  simp only [Gateway.step, hphase, nodeHandlers, hstep]
  rfl

section Alone
variable (P spec token rpc)

theorem load_alone {x : NodeGateway ω} {r : ω} {m : Backup.Meta} {entries : List SnapshotEntry} {rs : List Record}
    (hphase : x.phase r = .handling (.load m entries)) (hrs : Represents x.shared.engine rs) :
    ∃ y : NodeGateway ω, runActions (Gateway.step token (nodeHandlers P spec) rpc) x
        (List.replicate entries.length (.work r .quiet)) = some y ∧
      y.phase r = .handling (.load m []) ∧ Represents y.shared.engine (run answer rs (entries.map SnapshotEntry.call)).2 := by
  induction entries generalizing x rs with
  | nil => exact ⟨x, rfl, hphase, hrs⟩
  | cons ent entries ih =>
      obtain ⟨hout, hnext⟩ := step_represents hrs ent.call
      rw [answer_entry] at hout
      cases hput : step x.shared.engine ent.call with
      | mk result e =>
          rw [hput] at hout hnext
          cases hout
          have hstep : NodeTask.step P spec x.shared .quiet (.load m (ent :: entries)) =
              some (.inl (.load m entries), { x.shared with engine := e }) := by
            have happly : x.shared.engine.applyPut ent.key ent.value ent.expiresAtUnixNano [] AppendIO.ok = (_, e) := hput
            simp only [NodeTask.step, NodeEnv.quiet, happly, NodeState.continue]
          obtain ⟨y, hrun, hlast, hrs'⟩ := ih (x := ({ x with shared := { x.shared with engine := e } } :
            NodeGateway ω).goto r (.handling (.load m entries))) (Gateway.goto_self _ _ _) hnext
          refine ⟨y, ?_, hlast, hrs'⟩
          rw [List.length_cons, List.replicate_succ, runActions_cons _ (step_continue hphase hstep)]
          exact hrun

/-- A `RestoreBackup` of `n` entries from its arrival to its answer. -/
def restoreActions (r : ω) (n : Nat) : List (RpcAction NodeEnv ω) :=
  [.arrive r, .authenticate r] ++ [.work r .quiet, .work r .quiet] ++ (List.replicate (n + 1) (.work r .quiet) ++
    [.count r, .observe r])

theorem enter_alone {x : NodeGateway ω} {r : ω} (hidle : x.phase r = .idle) (hallowed : Allowed token rpc r) :
    ∃ y : NodeGateway ω, runActions (Gateway.step token (nodeHandlers P spec) rpc) x [.arrive r, .authenticate r] = some y ∧
      y.phase r = .handling (.request (rpc r).req) ∧ y.shared = x.shared := by
  have hnone := (refusal_none_iff_allowed P spec token rpc r).mpr hallowed
  have harrive : x.step token (nodeHandlers P spec) rpc (.arrive r) = some (x.goto r .arrived) := by
    simp only [Gateway.step, hidle]
  have hauth : (x.goto r .arrived).step token (nodeHandlers P spec) rpc (.authenticate r) =
      some ((x.goto r .arrived).goto r (.handling (.request (rpc r).req))) := by
    simp only [Gateway.step, Gateway.goto_self, hnone]
    rfl
  refine ⟨(x.goto r .arrived).goto r (.handling (.request (rpc r).req)), ?_, Gateway.goto_self _ _ _, rfl⟩
  rw [runActions_cons _ harrive, runActions_cons _ hauth]
  rfl

theorem leave_alone {x : NodeGateway ω} {r : ω} {a : Except RpcError NodeAnswer} (hphase : x.phase r = .returned a) :
    ∃ y : NodeGateway ω, runActions (Gateway.step token (nodeHandlers P spec) rpc) x [.count r, .observe r] = some y ∧
      y.phase r = .answered a ∧ y.shared = x.shared := by
  let mid := (x.inc ((nodeHandlers P spec).method rpc r) (codeOf a).text).goto r (.counted a)
  have hcount : x.step token (nodeHandlers P spec) rpc (.count r) = some mid := by
    simp only [Gateway.step, hphase, mid]
  have hobserve : mid.step token (nodeHandlers P spec) rpc (.observe r) =
      some ((mid.observed ((nodeHandlers P spec).method rpc r)).goto r (.answered a)) := by
    simp only [Gateway.step, mid, Gateway.goto_self]
  refine ⟨(mid.observed ((nodeHandlers P spec).method rpc r)).goto r (.answered a), ?_, Gateway.goto_self _ _ _, rfl⟩
  rw [runActions_cons _ hcount, runActions_cons _ hobserve]
  rfl

theorem reload_alone {x : NodeGateway ω} {r : ω} {path : String} {info : BackupInfo} {entries : List SnapshotEntry}
    (hphase : x.phase r = .handling (.request (.restoreBackup path))) (hpath : path ≠ "") (hintact : x.shared.Intact)
    (hwritten : Written P x.shared path info entries) :
    ∃ (y : NodeGateway ω) (written : Backup.Meta), runActions (Gateway.step token (nodeHandlers P spec) rpc) x
        [.work r .quiet, .work r .quiet] = some y ∧ info = backupInfo P.rfc3339 written ∧
      y.phase r = .handling (.load written entries) ∧ y.shared.engine = fresh := by
  obtain ⟨rs, hrs⟩ := hintact
  obtain ⟨p, m, now, fault, written, bs, p', ts, hwrite, hinfo, hfile, hprocess⟩ := hwritten
  have hread := Backup.read_later hwrite ts
  rw [← hprocess] at hread
  cases hfound : Backup.read P.gob P.sha256 x.shared.process bs with
  | mk result q =>
      rw [hfound] at hread
      cases hread
      have hcall : NodeTask.step P spec x.shared .quiet (.request (.restoreBackup path)) =
          some (.inl (.reset written entries), { x.shared with process := q }) := by
        simp only [NodeTask.step, NodeRequest.step, NodeState.restoreBackup, NodeState.readBackup, if_neg hpath,
          NodeEnv.quiet, hfile, hfound, NodeState.continue]
      have hreset : NodeTask.step P spec { x.shared with process := q } .quiet (.reset written entries) =
          some (.inl (.load written entries), { x.shared with process := q, engine := fresh }) := by
        simp only [NodeTask.step, NodeState.resetEngine, NodeEnv.quiet, reset_holds hrs.holds, NodeState.continue]
      let mid : NodeGateway ω := ({ x with shared := { x.shared with process := q } } : NodeGateway ω).goto r
        (.handling (.reset written entries))
      refine ⟨({ mid with shared := { x.shared with process := q, engine := fresh } } : NodeGateway ω).goto r
        (.handling (.load written entries)), written, ?_, hinfo, Gateway.goto_self _ _ _, rfl⟩
      have hmid : mid.phase r = .handling (.reset written entries) := Gateway.goto_self _ _ _
      rw [runActions_cons _ (step_continue hphase hcall), runActions_cons _ (step_continue hmid hreset)]
      rfl

/-- **A restore alone** puts the entries of the file into an empty engine and answers with what the backup answered. -/
theorem restore_alone {x : NodeGateway ω} {r : ω} {path : String} {info : BackupInfo} {entries : List SnapshotEntry}
    (hr : (rpc r).req = .restoreBackup path) (hallowed : Allowed token rpc r) (hidle : x.phase r = .idle) (hpath : path ≠ "")
    (hintact : x.shared.Intact) (hwritten : Written P x.shared path info entries) :
    ∃ y : NodeGateway ω, runActions (Gateway.step token (nodeHandlers P spec) rpc) x
        (restoreActions r entries.length) = some y ∧
      y.phase r = .answered (.ok (.backup info)) ∧ Represents y.shared.engine (loaded entries) := by
  obtain ⟨x₁, henter, hphase₁, hshared₁⟩ := enter_alone P spec token rpc hidle hallowed
  rw [hr] at hphase₁
  rw [← hshared₁] at hintact hwritten
  obtain ⟨x₂, written, hreload, rfl, hphase₂, hengine⟩ :=
    reload_alone P spec token rpc hphase₁ hpath hintact hwritten
  obtain ⟨x₃, hloop, hphase₃, hrs⟩ :=
    load_alone P spec token rpc hphase₂ (hengine ▸ represents_fresh)
  have hlast : x₃.step token (nodeHandlers P spec) rpc (.work r .quiet) =
      some (({ x₃ with shared := x₃.shared } : NodeGateway ω).goto r (.returned (.ok _))) := step_return hphase₃ rfl
  obtain ⟨y, hleave, hphase, hshared⟩ :=
    leave_alone P spec token rpc (Gateway.goto_self { x₃ with shared := x₃.shared } r _)
  refine ⟨y, ?_, hphase, ?_⟩
  · unfold restoreActions
    rw [List.append_assoc, runActions_append _ henter, runActions_append _ hreload, List.replicate_succ',
      List.append_assoc, runActions_append _ hloop, List.singleton_append, runActions_cons _ hlast]
    exact hleave
  · rw [hshared]
    exact hrs

end Alone

/-- **A backup restores.** A node without I/O errors on its log serves RPCs of all kinds, in any interleaving, and among them
a `CreateBackup` that has succeeded; whatever was written, deleted, wiped, restored or backed up since then, a `RestoreBackup`
of its path that nobody comes between succeeds with the same answer. The engine then holds what was live at a moment of the
`CreateBackup`, with its expiries, and nothing else, and from then on every `Get` finds what it would have found there. -/
theorem backup_restores {s : NodeState} (hs : s.Intact) {as : List (RpcAction NodeEnv ω)} (has : ∀ a ∈ as, a.Sound)
    {x : NodeGateway ω} (hrun : runActions (Gateway.step token (nodeHandlers P spec) rpc) (Gateway.start s) as = some x)
    {b r : ω} {path : String} {info : BackupInfo} (hb : (rpc b).req = .createBackup path)
    (hdone : x.phase b = .answered (.ok (.backup info))) (hr : (rpc r).req = .restoreBackup path)
    (hallowed : Allowed token rpc r) (hidle : x.phase r = .idle) :
    ∃ (before after : List (RpcAction NodeEnv ω)) (x₀ : NodeGateway ω) (now : Bytes → Time) (n : Nat) (y : NodeGateway ω),
      as = before ++ after ∧
      runActions (Gateway.step token (nodeHandlers P spec) rpc) (Gateway.start s) before = some x₀ ∧
      (∃ t, x₀.phase b = .handling t) ∧
      runActions (Gateway.step token (nodeHandlers P spec) rpc) x (restoreActions r n) = some y ∧
      y.phase r = .answered (.ok (.backup info)) ∧
      (∀ key, y.shared.engine.data key = x₀.shared.engine.liveData (now key) key) ∧
      ∀ key later, now key ≤ later →
        (y.shared.engine.get key later).map Prod.fst = (x₀.shared.engine.get key later).map Prod.fst := by
  have hbackup := backup_run hb hrun
  rw [hdone] at hbackup
  obtain ⟨info', entries, hinfo, hwritten, hpath, before, after, x₀, now, hsplit, hbefore, hphase, hsnapshot⟩ :=
    hbackup _ rfl
  cases hinfo
  obtain ⟨y, hy, hanswer, hloaded⟩ :=
    restore_alone P spec token rpc hr hallowed hidle hpath (run_intact hs has hrun) hwritten
  obtain ⟨rs, hrs⟩ := run_intact hs (fun a ha => has a (by rw [hsplit]; exact List.mem_append_left _ ha)) hbefore
  obtain ⟨listed, hlisted, rfl⟩ := hsnapshot
  rw [hrs.tables] at hlisted
  have hdata : ∀ key, y.shared.engine.data key = x₀.shared.engine.liveData (now key) key := by
    rw [hloaded.tables, hrs.tables]
    exact data_loaded hlisted
  exact ⟨before, after, x₀, now, _, y, hsplit, hbefore, hphase, hy, hanswer, hdata,
    fun key later hle => get_of_liveData hle (hdata key)⟩

end Runs

/-- A node with one key, and no token. -/
def oneKeyNode : NodeState := { NodeState.fresh with engine := oneKey }

/-- A backup, and its restore. -/
def backupAndRestore : Bool → Incoming NodeRequest
  | false => ⟨none, .createBackup "b"⟩
  | true => ⟨none, .restoreBackup "b"⟩

/-- The backup from its arrival to its answer. -/
def backupActions : List (RpcAction NodeEnv Bool) :=
  [.arrive false, .authenticate false] ++ [.work false { NodeEnv.quiet with listed := keyListed }, .work false .quiet,
    .work false .quiet] ++ [.count false, .observe false]

theorem backupActions_run : ∃ (x : NodeGateway Bool) (info : BackupInfo),
    runActions (Gateway.step [] (nodeHandlers plainPackages ⟨"n", "cache"⟩) backupAndRestore) (Gateway.start oneKeyNode)
      backupActions = some x ∧ x.phase false = .answered (.ok (.backup info)) := by
  obtain ⟨x, henter, hphase, hshared⟩ := enter_alone plainPackages ⟨"n", "cache"⟩ [] backupAndRestore
    (x := Gateway.start oneKeyNode) (r := false) rfl (Or.inl rfl)
  have hlisted : (keyListed : Multiset (Σ _ : Bytes, Entry)) = oneKeyNode.engine.index.entries := by decide +kernel
  have hsnapshot : NodeTask.step plainPackages ⟨"n", "cache"⟩ x.shared { NodeEnv.quiet with listed := keyListed }
      (.request (.createBackup "b")) = some (.inl (.position "b" [⟨[107], [118], 0⟩]), oneKeyNode) := by
    rw [hshared]
    simp only [NodeTask.step, NodeRequest.step]
    rw [if_neg (by decide)]
    exact if_pos (c := (keyListed : Multiset (Σ _ : Bytes, Entry)) = oneKeyNode.engine.index.entries) hlisted
  obtain ⟨info, bs, p, hbackup⟩ := plainGob_creates ⟨"n", "cache"⟩ oneKeyNode.process (by decide : "b" ≠ "")
    [⟨[107], [118], 0⟩] oneKeyNode.engine.log.lastCommitPosition 0
  let s : NodeState := { oneKeyNode with process := p, files := Function.update oneKeyNode.files "b" (some bs) }
  have hwrite : NodeTask.step plainPackages ⟨"n", "cache"⟩ oneKeyNode .quiet
      (.write "b" [⟨[107], [118], 0⟩] oneKeyNode.engine.log.lastCommitPosition) = some (.inr (.ok (.backup info)), s) := by
    have hcreate : AdminServer.createBackup plainPackages.gob plainPackages.sha256 plainPackages.rfc3339 ⟨"n", "cache"⟩
        oneKeyNode.process "b" [⟨[107], [118], 0⟩] oneKeyNode.engine.log.lastCommitPosition (NodeEnv.quiet.now 0)
        { NodeEnv.quiet.write with create := oneKeyNode.createFault .quiet "b" } = (.ok (info, bs), p) := hbackup
    simp only [NodeTask.step, NodeState.writeBackup, hcreate, NodeState.answer]
    rfl
  let x₁ : NodeGateway Bool := ({ x with shared := oneKeyNode } : NodeGateway Bool).goto false
    (.handling (.position "b" [⟨[107], [118], 0⟩]))
  let x₂ : NodeGateway Bool := ({ x₁ with shared := oneKeyNode } : NodeGateway Bool).goto false
    (.handling (.write "b" [⟨[107], [118], 0⟩] oneKeyNode.engine.log.lastCommitPosition))
  have hposition : NodeTask.step plainPackages ⟨"n", "cache"⟩ x₁.shared .quiet (.position "b" [⟨[107], [118], 0⟩]) =
      some (.inl (.write "b" [⟨[107], [118], 0⟩] oneKeyNode.engine.log.lastCommitPosition), oneKeyNode) := rfl
  have hphase₁ : x₁.phase false = .handling (.position "b" [⟨[107], [118], 0⟩]) := Gateway.goto_self _ _ _
  have hphase₂ : x₂.phase false = .handling (.write "b" [⟨[107], [118], 0⟩] oneKeyNode.engine.log.lastCommitPosition) :=
    Gateway.goto_self _ _ _
  obtain ⟨y, hleave, hanswer, -⟩ := leave_alone plainPackages ⟨"n", "cache"⟩ [] backupAndRestore
    (Gateway.goto_self ({ x₂ with shared := s } : NodeGateway Bool) false (.returned (.ok (.backup info))))
  refine ⟨y, info, ?_, hanswer⟩
  unfold backupActions
  rw [List.append_assoc, runActions_append _ henter, List.cons_append, runActions_cons _ (step_continue hphase hsnapshot),
    List.cons_append, runActions_cons _ (step_continue hphase₁ hposition), List.cons_append,
    runActions_cons _ (step_return hphase₂ hwrite)]
  exact hleave

theorem backup_restores_one : ∃ (x y : NodeGateway Bool) (info : BackupInfo) (n : Nat),
    runActions (Gateway.step [] (nodeHandlers plainPackages ⟨"n", "cache"⟩) backupAndRestore) (Gateway.start oneKeyNode)
      backupActions = some x ∧ x.phase false = .answered (.ok (.backup info)) ∧
    runActions (Gateway.step [] (nodeHandlers plainPackages ⟨"n", "cache"⟩) backupAndRestore) x (restoreActions true n) =
      some y ∧ y.phase true = .answered (.ok (.backup info)) := by
  obtain ⟨x, info, hrun, hdone⟩ := backupActions_run
  have hintact : oneKeyNode.Intact := ⟨_, (step_represents represents_fresh (.applyPut [107] [118] 0 [])).2⟩
  have hsound : ∀ a ∈ backupActions, a.Sound := by
    have hquiet : NodeEnv.quiet.Sound := ⟨rfl, rfl⟩
    have hlisted : ({ NodeEnv.quiet with listed := keyListed } : NodeEnv).Sound := ⟨rfl, rfl⟩
    simp [backupActions, RpcAction.Sound, hquiet, hlisted]
  have hother : ∀ a ∈ backupActions, true ≠ a.op := by simp [backupActions, RpcAction.op]
  have hidle : x.phase true = .idle := run_phase_of_ne hother hrun
  obtain ⟨-, -, -, -, n, y, -, -, -, hy, hanswer, -⟩ :=
    backup_restores hintact hsound hrun (b := false) (r := true) rfl hdone rfl (Or.inl rfl) hidle
  exact ⟨x, y, info, n, hrun, hdone, hy, hanswer⟩

end Uddp
