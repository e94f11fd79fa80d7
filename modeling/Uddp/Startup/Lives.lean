import Uddp.Backup.Cycle
import Uddp.Startup.Run

/-!
# One process after the other

The life of a node without replication: it starts on an empty directory, serves RPCs in any interleaving, is killed or loses
its power between two calls, starts again, and so on. Its log has no I/O errors while it serves.

* `OffsetsKept s os` : the offset store has the durable records `os`; `OffsetsKept.commit`, `OffsetsKept.crash`;
* `Lived s` : the states that a node can be in, after any number of lives; `lived_kept` : what holds of each of them;
* **`restarts_lose_nothing`** : whenever it stops, the next start finds everything.
-/

namespace Uddp
open Uddp.Lib Uddp.Wal

/-! ## The offset store -/

/-- The store has the records `os`, all of them durable. -/
structure OffsetsKept (s : Streaming.OffsetStore) (os : List Record) : Prop where
  holds : Holds s.log os
  values : ∀ r ∈ os, r.value.length = 8
  durable : s.log.out.file.synced = s.log.out.file.data.length
  offsets : ∀ g, s.fetch g = Streaming.offsetIn g os

theorem offsetsKept_fresh : OffsetsKept .fresh [] :=
  ⟨Streaming.stored_fresh.holds, Streaming.stored_fresh.written.values, Streaming.stored_fresh.durable,
    Streaming.stored_fresh.offsets⟩

section Offsets
variable {s : Streaming.OffsetStore} {os : List Record}

theorem OffsetsKept.commit (h : OffsetsKept s os) (g : Bytes) (o : UInt64) :
    ∃ os', OffsetsKept (s.commit g o AppendIO.ok).2 os' := by
  obtain ⟨w, happ, hholds, hdurable⟩ := append_ok h.holds (Streaming.offsetRecord g o)
  unfold Streaming.OffsetStore.commit
  split
  · exact ⟨os, h⟩
  · rw [happ]
    refine ⟨_, hholds, fun r hr => ?_, hdurable, fun g' => ?_⟩
    · rcases List.mem_append.mp hr with hr | hr
      · exact h.values r hr
      · rw [List.mem_singleton.mp hr]
        exact Streaming.length_encodeOffset o
    · rw [Streaming.offsetIn_snoc, Streaming.fetch_insert (s := s) rfl g', h.offsets]
      show _ = if g = g' then some (uint64 (putUint64 o)) else _
      rw [uint64_putUint64]

theorem OffsetsKept.crash (h : OffsetsKept s os) (hfit : ∀ r ∈ os, Wal.Fits r) {f : File}
    (hcrash : Crash s.log.out.file f) : ∃ s', (Streaming.openOffsets f).1 = .ok s' ∧ OffsetsKept s' os := by
  obtain ⟨q, hq, hf⟩ := crash_data hcrash (q := []) (by rw [List.append_nil, h.holds.data]) (by rw [h.durable, h.holds.data])
  rw [List.prefix_nil.mp hq, List.append_nil] at hf
  obtain ⟨s', hopen, hholds, hfile, hfetch⟩ :=
    Streaming.openOffsets_log ⟨hfit, h.values⟩ h.holds.stamped hf hcrash.reopened
  refine ⟨s', by rw [hopen], hholds, h.values, ?_, hfetch⟩
  have hsynced := hcrash.synced
  have hle := f.synced_le
  rw [h.durable, h.holds.data] at hsynced
  rw [hfile]
  rw [hf] at hle ⊢
  omega

end Offsets

/-! ## Lives -/

/-- The node of a process that has just started. -/
def Running.state (node : Running) (files : String → Option Bytes) : NodeState :=
  ⟨node.engine, node.offsets, .new, files, Registry.empty⟩

/-- The states of a node through any number of lives. A process stops between two calls; what is durable stays. -/
inductive Lived (quote : String → String) (join : String → String → String) (P : Packages) : NodeState → Prop
  | first {cfg : NodeConfig} {io : StartIO} {d : Disk} {node : Running} (files : String → Option Bytes)
      (hpeers : cfg.raftPeers = []) (hwal : io.wal = .ok) (hoffsets : io.offsets = .ok)
      (hstart : start quote join cfg io ⟨newFile, newFile⟩ = (.ok node, d)) : Lived quote join P (node.state files)
  | serves {ω : Type} [DecidableEq ω] {s : NodeState} {spec : NamespaceSpec} {token : Bytes} {rpc : ω → Incoming NodeRequest}
      {as : List (RpcAction NodeEnv ω)} {x : NodeGateway ω} (h : Lived quote join P s) (has : ∀ a ∈ as, a.Sound)
      (hrun : runActions (Gateway.step token (nodeHandlers P spec) rpc) (Gateway.start s) as = some x) :
      Lived quote join P x.shared
  | restarts {s : NodeState} {rs os : List Record} {f g : File} {cfg : NodeConfig} {io : StartIO} {d : Disk} {node : Running}
      (h : Lived quote join P s) (hrs : Represents s.engine rs) (hos : OffsetsKept s.offsets os)
      (hfit : ∀ r ∈ rs ++ os, Wal.Fits r) (hf : Crash s.engine.log.out.file f) (hg : Crash s.offsets.log.out.file g)
      (hpeers : cfg.raftPeers = []) (hwal : io.wal = .ok) (hoffsets : io.offsets = .ok)
      (hstart : start quote join cfg io ⟨f, g⟩ = (.ok node, d)) : Lived quote join P (node.state s.files)

/-- The engine and the offset store of a node have their histories. -/
def NodeState.Kept (s : NodeState) (rs os : List Record) : Prop := Represents s.engine rs ∧ OffsetsKept s.offsets os

theorem NodeEffect.offsetsKept {s s' : NodeState} {c : NodeEnv} (h : NodeEffect s c s') (hc : c.Sound)
    (hs : ∃ os, OffsetsKept s.offsets os) : ∃ os, OffsetsKept s'.offsets os := by
  cases h with
  | commit g o =>
      obtain ⟨os, hos⟩ := hs
      show ∃ os, OffsetsKept (s.offsets.commit g o c.append).2 os
      rw [hc.append]
      exact hos.commit g o
  | none | call | reset | metrics | encode | create => exact hs

section Lives
variable {quote : String → String} {join : String → String → String} {P : Packages} {s : NodeState}

theorem run_offsetsKept {ω : Type} [DecidableEq ω] {spec : NamespaceSpec} {token : Bytes} {rpc : ω → Incoming NodeRequest}
    (hs : ∃ os, OffsetsKept s.offsets os) {as : List (RpcAction NodeEnv ω)} (has : ∀ a ∈ as, a.Sound) {x : NodeGateway ω}
    (hrun : runActions (Gateway.step token (nodeHandlers P spec) rpc) (Gateway.start s) as = some x) :
    ∃ os, OffsetsKept x.shared.offsets os := by
  refine runActions_along (P := fun _ a => RpcAction.Sound a)
    (I := fun x : NodeGateway ω => ∃ os, OffsetsKept x.shared.offsets os) (fun x a y hx ha h => ?_) hs (along_of_mem has _) hrun
  rcases gateway_effect h with hsame | ⟨o, c, rfl, heffect⟩
  · rw [hsame]
    exact hx
  · exact heffect.offsetsKept ha hx

/-- What a crash leaves opens to the same histories. -/
theorem NodeState.Kept.crash {rs os : List Record} (h : s.Kept rs os) (hfit : ∀ r ∈ rs ++ os, Wal.Fits r) {f g : File}
    (hf : Crash s.engine.log.out.file f) (hg : Crash s.offsets.log.out.file g) :
    ∃ eng offsets, (openEngine f).1 = .ok eng ∧ (Streaming.openOffsets g).1 = .ok offsets ∧ Represents eng rs ∧
      OffsetsKept offsets os := by
  obtain ⟨eng, heng, hrs⟩ := represents_crash_idle h.1 (fun r hr => hfit r (List.mem_append_left _ hr)) hf
  obtain ⟨offsets, hoffsets, hos⟩ := h.2.crash (fun r hr => hfit r (List.mem_append_right _ hr)) hg
  exact ⟨eng, offsets, heng, hoffsets, hrs, hos⟩

theorem lived_kept (h : Lived quote join P s) : ∃ rs os, s.Kept rs os := by
  induction h with
  | first files hpeers hwal hoffsets hstart =>
      obtain ⟨heng, hoff⟩ := start_opened hpeers hwal hoffsets hstart
      rw [openEngine_newFile] at heng
      rw [openOffsets_newFile] at hoff
      have heng := Except.ok.inj heng
      have hoff := Except.ok.inj hoff
      refine ⟨[], [], ?_, ?_⟩
      · show Represents (Running.engine _) []
        rw [← heng]
        exact represents_fresh
      · show OffsetsKept (Running.offsets _) []
        rw [← hoff]
        exact offsetsKept_fresh
  | serves h has hrun ih =>
      obtain ⟨rs, os, hrs, hos⟩ := ih
      obtain ⟨rs', hrs'⟩ := run_intact ⟨rs, hrs⟩ has hrun
      obtain ⟨os', hos'⟩ := run_offsetsKept ⟨os, hos⟩ has hrun
      exact ⟨rs', os', hrs', hos'⟩
  | @restarts s rs os f g cfg io d node h hrs hos hfit hf hg hpeers hwal hoffsets hstart ih =>
      obtain ⟨eng, offsets, heng, hoff, hrs', hos'⟩ := NodeState.Kept.crash ⟨hrs, hos⟩ hfit hf hg
      obtain ⟨hnode, hnode'⟩ := start_opened hpeers hwal hoffsets hstart
      cases Except.ok.inj (heng.symm.trans hnode)
      cases Except.ok.inj (hoff.symm.trans hnode')
      exact ⟨rs, os, hrs', hos'⟩

/-- **Restarts.** A node without replication whose log has no I/O errors may be killed or lose its power between any two calls
of its handlers, in any of its lives. As long as no record is 4 GiB long, the next start with flags that it takes succeeds, and
the node then has the maps and the history of before, so that it goes on with the next commit position, and the offset of every
consumer group. -/
theorem restarts_lose_nothing (h : Lived quote join P s) : ∃ rs os, s.Kept rs os ∧
    ((∀ r ∈ rs ++ os, Wal.Fits r) → ∀ f g, Crash s.engine.log.out.file f → Crash s.offsets.log.out.file g →
      ∀ cfg io, Startable quote cfg io → ∃ node d, start quote join cfg io ⟨f, g⟩ = (.ok node, d) ∧
        node.engine.toTables = s.engine.toTables ∧ node.engine.log.out.file.data = s.engine.log.out.file.data ∧
        node.engine.log.lastCommitPosition = s.engine.log.lastCommitPosition ∧
        (∀ group, node.offsets.fetch group = s.offsets.fetch group) ∧ (node.state s.files).Kept rs os) := by
  obtain ⟨rs, os, hkept⟩ := lived_kept h
  refine ⟨rs, os, hkept, fun hfit f g hf hg cfg io hstartable => ?_⟩
  obtain ⟨eng, offsets, heng, hoff, hrs, hos⟩ := hkept.crash hfit hf hg
  refine ⟨_, _, start_succeeds hstartable heng hoff, hrs.tables.trans hkept.1.tables.symm,
    hrs.holds.data.trans hkept.1.holds.data.symm, ?_, fun group => (hos.offsets group).trans (hkept.2.offsets group).symm,
    hrs, hos⟩
  unfold WAL.lastCommitPosition
  rw [hrs.holds.next, hkept.1.holds.next]

end Lives

theorem fits_of_short {w : WAL} {rs : List Record} (h : Holds w rs) (hlen : w.out.file.data.length < 2 ^ 32) :
    ∀ r ∈ rs, Wal.Fits r := by
  intro r hr
  obtain ⟨before, after, rfl⟩ := List.append_of_mem hr
  rw [h.data, logBytes, frames_append, frames_cons] at hlen
  simp only [List.length_append] at hlen
  unfold Wal.Fits
  omega

theorem plain_startable : Startable id plainConfig quietStart := ⟨rfl, rfl, rfl, rfl, rfl, rfl⟩

/-- The first life ends behind the put of `wipedRun`. -/
theorem restarts_after_put : ∃ (x : NodeGateway Bool) (node : Running) (d : Disk),
    runActions (Gateway.step (utf8 "s") (nodeHandlers plainPackages ⟨"n", "cache"⟩) putAndWipe)
      (Gateway.start NodeState.fresh) wipedRun = some x ∧
    start id slashJoin plainConfig quietStart ⟨x.shared.engine.log.out.file, x.shared.offsets.log.out.file⟩ = (.ok node, d) ∧
    node.engine.toTables = x.shared.engine.toTables := by
  have hfirst : Lived id slashJoin plainPackages NodeState.fresh :=
    .first (fun _ => none) rfl rfl rfl
      (start_succeeds plain_startable (congrArg Prod.fst openEngine_newFile) (congrArg Prod.fst openOffsets_newFile))
  have hsound : ∀ a ∈ wipedRun, a.Sound := by
    have hquiet : NodeEnv.quiet.Sound := ⟨rfl, rfl⟩
    simp [wipedRun, RpcAction.Sound, hquiet]
  obtain ⟨x, hx⟩ := wipedRun_runs
  obtain ⟨rs, os, hkept, hrestart⟩ := restarts_lose_nothing (.serves hfirst hsound hx)
  have hshort : ((runActions (Gateway.step (utf8 "s") (nodeHandlers plainPackages ⟨"n", "cache"⟩) putAndWipe)
      (Gateway.start NodeState.fresh) wipedRun).all fun x => x.shared.engine.log.out.file.data.length < 2 ^ 32 ∧
        x.shared.offsets.log.out.file.data.length < 2 ^ 32) = true := by decide +kernel
  rw [hx] at hshort
  obtain ⟨hwal, hoff⟩ := of_decide_eq_true hshort
  have hfit : ∀ r ∈ rs ++ os, Wal.Fits r := by
    intro r hr
    rcases List.mem_append.mp hr with hr | hr
    · exact fits_of_short hkept.1.holds hwal r hr
    · exact fits_of_short hkept.2.holds hoff r hr
  have hcrash : ∀ {w : WAL} {rs : List Record}, Holds w rs → Crash w.out.file w.out.file := fun {w} _ h =>
    ⟨List.prefix_rfl, w.out.file.synced_le, le_rfl, h.opened⟩
  obtain ⟨node, d, hstart, htables, -⟩ :=
    hrestart hfit _ _ (hcrash hkept.1.holds) (hcrash hkept.2.holds) _ _ plain_startable
  exact ⟨x, node, d, hx, hstart, htables⟩

end Uddp
