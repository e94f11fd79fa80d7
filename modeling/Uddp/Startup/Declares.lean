import Uddp.Startup.Run

/-!
# What a node says of its durability

* `NodeRequest.Addressed spec req` : a mutation of the namespace of the node; `Plain` : what no mutation passes through;
* `request_plain`, `later_plain` : only a mutation that is addressed to the node comes to its response;
* `Declared`, `declared_step` : what the responses say, through any run;
* **`unreplicated_serves_cache`** : a node that was started without replication never claims more than `cache`.
-/

namespace Uddp
open Uddp.Lib Uddp.Wal

/-! ## Handlers -/

/-- A mutation of the namespace of the node, with a key. -/
def NodeRequest.Addressed (spec : NamespaceSpec) : NodeRequest → Prop
  | .put req => req.namespaceId = spec.id ∧ req.key ≠ []
  | .delete req => req.namespaceId = spec.id ∧ req.key ≠ []
  | .compareAndSet req => req.namespaceId = spec.id ∧ req.key ≠ []
  | _ => False

/-- Not on the way to the response of a mutation. -/
def Plain : NodeTask ⊕ Except Status NodeAnswer → Prop
  | .inl (.request _) | .inl (.respond _) | .inr (.ok (.mutation _)) => False
  | _ => True

section Handlers
variable {P : Packages} {spec : NamespaceSpec} {s s' : NodeState} {c : NodeEnv} {out : NodeTask ⊕ Except Status NodeAnswer}

theorem checkRequest_none {quote : String → String} {namespaceId : String} {key : Bytes}
    (h : checkRequest quote spec namespaceId key = none) : namespaceId = spec.id ∧ key ≠ [] := by
  unfold checkRequest checkNamespace at h
  by_cases hid : namespaceId = spec.id
  · refine ⟨hid, fun hkey => ?_⟩
    simp [hid, hkey] at h
  · simp [hid] at h

theorem mutate_plain {m : Mutation} (h : s.mutate P spec c m = some (out, s')) :
    Plain out ∨ (m.namespaceId = spec.id ∧ m.key ≠ []) ∧ ∃ o, out = .inl (.respond o) := by
  unfold NodeState.mutate at h
  split at h
  · cases h
    exact Or.inl trivial
  · next hcheck =>
    split at h
    · cases h
      exact Or.inl trivial
    · cases h
      exact Or.inr ⟨checkRequest_none hcheck, _, rfl⟩

theorem reply_plain {α : Type} {f : α → NodeAnswer} (hf : ∀ a, Plain (.inr (.ok (f a)))) {r : Reply α}
    (h : s.reply f r = some (out, s')) : Plain out := by
  cases r with
  | ok a =>
      cases h
      exact hf a
  | status status =>
      cases h
      trivial
  | panic => cases h

theorem snapshot_plain {k : List SnapshotEntry → NodeStep} (hk : ∀ entries, k entries = some (out, s') → Plain out)
    (h : s.snapshot c k = some (out, s')) : Plain out := by
  unfold NodeState.snapshot at h
  split at h
  · exact hk _ h
  · cases h

theorem resetEngine_plain {text : String} {k : NodeState → NodeStep} (hk : ∀ s₁, k s₁ = some (out, s') → Plain out)
    (h : s.resetEngine c text k = some (out, s')) : Plain out := by
  unfold NodeState.resetEngine at h
  split at h
  · cases h
    trivial
  · exact hk _ h

/-- Only a mutation that is addressed to the node comes to its response. -/
theorem request_plain {req : NodeRequest} (h : req.step P spec s c = some (out, s')) :
    Plain out ∨ req.Addressed spec ∧ ∃ o, out = .inl (.respond o) := by
  cases req with
  | put req => exact mutate_plain (m := .put req (c.now 0)) h
  | delete req => exact mutate_plain (m := .delete req) h
  | compareAndSet req => exact mutate_plain (m := .compareAndSet req (c.now 0) (c.now 1)) h
  | get req =>
      simp only [NodeRequest.step] at h
      split at h
      · cases h
        exact Or.inl trivial
      · cases h
        exact Or.inl trivial
  | fetch req => exact Or.inl (reply_plain (f := .page) (fun _ => trivial) h)
  | commitOffset req => exact Or.inl (reply_plain (f := .committed) (fun _ => trivial) h)
  | fetchOffset req => exact Or.inl (reply_plain (f := .offset) (fun _ => trivial) h)
  | addNode id raftAddr =>
      cases h
      exact Or.inl trivial
  | removeNode id =>
      cases h
      exact Or.inl trivial
  | listNodes =>
      cases h
      exact Or.inl trivial
  | createBackup path =>
      simp only [NodeRequest.step] at h
      split at h
      · cases h
        exact Or.inl trivial
      · refine Or.inl (snapshot_plain (fun entries hk => ?_) h)
        cases hk
        trivial
  | restoreBackup path =>
      simp only [NodeRequest.step, NodeState.restoreBackup] at h
      split at h
      · cases h
        exact Or.inl trivial
      · split at h
        · cases h
          exact Or.inl trivial
        · cases h
          exact Or.inl trivial
  | exportNamespace =>
      simp only [NodeRequest.step] at h
      refine Or.inl (snapshot_plain (fun entries hk => ?_) h)
      cases hk
      trivial
  | deleteNamespace confirm =>
      simp only [NodeRequest.step] at h
      split at h
      · cases h
        exact Or.inl trivial
      · refine Or.inl (snapshot_plain (fun entries hk => ?_) h)
        cases hk
        trivial
  | getUsage =>
      simp only [NodeRequest.step] at h
      refine Or.inl (snapshot_plain (fun entries hk => ?_) h)
      cases hk
      trivial
  | check =>
      cases h
      exact Or.inl trivial

theorem later_plain {t : NodeTask} (ht : Plain (.inl t)) (h : t.step P spec s c = some (out, s')) : Plain out := by
  cases t with
  | request req => exact ht.elim
  | respond o => exact ht.elim
  | position path entries =>
      cases h
      trivial
  | write path entries recoveryPoint =>
      simp only [NodeTask.step, NodeState.writeBackup] at h
      split at h
      · cases h
        trivial
      · split at h
        · cases h
          trivial
        · cases h
          trivial
  | reset m entries =>
      simp only [NodeTask.step] at h
      refine resetEngine_plain (fun s₁ hk => ?_) h
      cases hk
      trivial
  | load m entries =>
      cases entries with
      | nil =>
          cases h
          trivial
      | cons ent entries =>
          simp only [NodeTask.step] at h
          split at h
          · cases h
            trivial
          · cases h
            trivial
  | wipe before =>
      simp only [NodeTask.step] at h
      refine resetEngine_plain (fun s₁ hk => ?_) h
      cases hk
      trivial

end Handlers

/-- The RPC `req` on its way: a response to it says what the node was started with. -/
def Declared (spec : NamespaceSpec) (req : NodeRequest) : RpcPhase NodeTask NodeAnswer → Prop
  | .idle | .arrived => True
  | .handling (.request req') => req' = req
  | .handling (.respond _) => req.Addressed spec
  | .handling _ => True
  | .returned r | .counted r | .answered r => ∀ resp, r = .ok (.mutation resp) → req.Addressed spec ∧
      resp.namespaceId = spec.id ∧ resp.durabilityProfile = spec.profile ∧ resp.epoch = 0

section Served
variable {ω : Type} [DecidableEq ω] {P : Packages} {spec : NamespaceSpec} {token : Bytes} {rpc : ω → Incoming NodeRequest}
  {x y : NodeGateway ω}

theorem declared_work {req : NodeRequest} {t : NodeTask} {s s' : NodeState} {c : NodeEnv}
    {out : NodeTask ⊕ Except Status NodeAnswer} (h : Declared spec req (.handling t))
    (hstep : t.step P spec s c = some (out, s')) :
    match out with
    | .inl t' => Declared spec req (.handling t')
    | .inr r => Declared spec req (.returned (r.mapError .status)) := by
  have hplain : Plain out → match out with
      | .inl t' => Declared spec req (.handling t')
      | .inr r => Declared spec req (.returned (r.mapError .status)) := by
    intro hout
    cases out with
    | inl t' =>
        cases t' with
        | request req' => exact hout.elim
        | respond o => exact hout.elim
        | position | write | reset | load | wipe => trivial
    | inr r =>
        intro resp hresp
        cases r with
        | error status => cases hresp
        | ok a =>
            cases Except.ok.inj hresp
            exact hout.elim
  cases t with
  | request req' =>
      obtain rfl : req' = req := h
      rcases request_plain hstep with hout | ⟨haddressed, o, rfl⟩
      · exact hplain hout
      · exact haddressed
  | respond o =>
      cases hstep
      intro resp hresp
      cases Except.ok.inj hresp
      exact ⟨h, rfl, rfl, rfl⟩
  | position | write | reset | load | wipe =>
      refine hplain (later_plain ?_ hstep)
      trivial

theorem declared_step (h : ∀ o, Declared spec (rpc o).req (x.phase o)) {a : RpcAction NodeEnv ω}
    (hstep : x.step token (nodeHandlers P spec) rpc a = some y) : ∀ o, Declared spec (rpc o).req (y.phase o) := by
  have hgoto : ∀ {z : NodeGateway ω} {o : ω} {p : RpcPhase NodeTask NodeAnswer}, z.phase = x.phase →
      Declared spec (rpc o).req p → ∀ j, Declared spec (rpc j).req ((z.goto o p).phase j) := by
    intro z o p hz hp j
    by_cases hj : j = o
    · rw [hj, Gateway.goto_self]
      exact hp
    · rw [Gateway.goto_of_ne z hj, hz]
      exact h j
  cases a with
  | arrive o =>
      obtain ⟨-, rfl⟩ := gateway_arrive hstep
      exact hgoto rfl trivial
  | authenticate o =>
      obtain ⟨-, ⟨err, -, rfl⟩ | ⟨-, rfl⟩⟩ := gateway_authenticate hstep
      · exact hgoto rfl nofun
      · exact hgoto rfl rfl
  | work o c =>
      obtain ⟨t, s, hphase, hcall⟩ := gateway_work hstep
      have ht := h o
      rw [hphase] at ht
      obtain ⟨t', hnext, rfl⟩ | ⟨r, hnext, rfl⟩ := hcall
      · exact hgoto rfl (declared_work ht hnext)
      · exact hgoto rfl (declared_work ht hnext)
  | count o =>
      obtain ⟨r, hphase, rfl⟩ := gateway_count hstep
      have hr := h o
      rw [hphase] at hr
      exact hgoto rfl hr
  | observe o =>
      obtain ⟨r, hphase, rfl⟩ := gateway_observe hstep
      have hr := h o
      rw [hphase] at hr
      exact hgoto rfl hr

end Served

/-- **Durability that was not bought.** A node that runs without replication serves the profile `cache`, whatever its flags
say: in any run of its RPCs, the response to a mutation names the namespace and the profile `cache` with epoch zero, and the
mutation was addressed to that namespace and had a key. -/
theorem unreplicated_serves_cache {quote : String → String} {join : String → String → String} {cfg : NodeConfig} {io : StartIO}
    {d d' : Disk} {node : Running} (hstart : start quote join cfg io d = (.ok node, d')) (hreplicated : node.replicated = false)
    {ω : Type} [DecidableEq ω] {P : Packages} {rpc : ω → Incoming NodeRequest} {files : String → Option Bytes}
    {process : Backup.Process} {as : List (RpcAction NodeEnv ω)} {x : NodeGateway ω}
    (hrun : runActions (Gateway.step node.token (nodeHandlers P node.spec) rpc)
      (Gateway.start ⟨node.engine, node.offsets, .new, files, process⟩) as = some x) {o : ω} {resp : MutationResponse}
    (hanswer : x.phase o = .answered (.ok (.mutation resp))) :
    resp.durabilityProfile = "cache" ∧ resp.namespaceId = cfg.namespaceID ∧ resp.namespaceId ≠ "" ∧ resp.epoch = 0 ∧
      (rpc o).req.Addressed node.spec := by
  obtain ⟨-, hspec, -⟩ := start_ok hstart
  rw [hreplicated] at hspec
  obtain ⟨hid, hprofile, heq⟩ := newNamespaceSpec_ok_iff.mp hspec
  have hidle : ∀ s o, Declared node.spec (rpc o).req ((Gateway.start s : NodeGateway ω).phase o) := fun _ _ => trivial
  have hdeclared := runActions_invariant (I := fun x : NodeGateway ω => ∀ o, Declared node.spec (rpc o).req (x.phase o))
    (fun _ _ _ h hstep => declared_step h hstep) (hidle _) hrun o
  rw [hanswer] at hdeclared
  obtain ⟨haddressed, hnamespace, hdurability, hepoch⟩ := hdeclared resp rfl
  rw [heq] at hnamespace hdurability
  have hcache : cfg.profile = "cache" := hprofile.resolve_right fun h => Bool.false_ne_true h.2
  exact ⟨hdurability.trans hcache, hnamespace, hnamespace ▸ hid, hepoch, haddressed⟩

def responseOf : RpcPhase NodeTask NodeAnswer → Option MutationResponse
  | .answered (.ok (.mutation resp)) => some resp
  | _ => none

theorem answered_of_responseOf {p : RpcPhase NodeTask NodeAnswer} {resp : MutationResponse} (h : responseOf p = some resp) :
    p = .answered (.ok (.mutation resp)) := by
  unfold responseOf at h
  split at h
  · cases h
    rfl
  · cases h

/-- The put of `wipedRun`, on a node that starts on a new disk. -/
theorem unreplicated_put_cache : ∃ (node : Running) (d' : Disk) (x : NodeGateway Bool) (resp : MutationResponse),
    start id slashJoin { plainConfig with authToken := utf8 "s" } quietStart ⟨newFile, newFile⟩ = (.ok node, d') ∧
    x.phase true = .answered (.ok (.mutation resp)) ∧ resp.durabilityProfile = "cache" ∧ resp.namespaceId = "n" := by
  have hstart : start id slashJoin { plainConfig with authToken := utf8 "s" } quietStart ⟨newFile, newFile⟩ =
      (.ok ⟨⟨"n", "cache"⟩, fresh, .fresh, false, false, utf8 "s"⟩, ⟨freshWAL.out.file, freshWAL.out.file⟩) :=
    start_succeeds ⟨rfl, rfl, rfl, rfl, rfl, rfl⟩ (congrArg Prod.fst openEngine_newFile)
      (congrArg Prod.fst openOffsets_newFile)
  obtain ⟨x, hx⟩ := wipedRun_runs
  obtain ⟨resp, hresp⟩ : ∃ resp, responseOf (x.phase true) = some resp := by
    have hsome : ((runActions (Gateway.step (utf8 "s") (nodeHandlers plainPackages ⟨"n", "cache"⟩) putAndWipe)
      (Gateway.start NodeState.fresh) wipedRun).bind fun x => responseOf (x.phase true)).isSome = true := by decide +kernel
    rw [hx] at hsome
    exact Option.isSome_iff_exists.mp hsome
  have hanswer := answered_of_responseOf hresp
  obtain ⟨hcache, hid, -⟩ := unreplicated_serves_cache hstart rfl hx hanswer
  exact ⟨_, _, x, resp, hstart, hanswer, hcache, hid⟩

end Uddp
