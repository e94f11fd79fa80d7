import Uddp.Api.Servers
import Uddp.Lib.Machine
import Uddp.Lib.Tally
import Uddp.Lib.Text

/-!
# The interceptors of the gRPC server

Every RPC goes through the interceptor that counts it and, if the node has a token, through the one that asks for it. RPCs
overlap: each has a goroutine of its own, and the handlers behind the interceptors share the node.

* `constantTimeCompare`, `presentedToken`, `Auth.check` : the interceptor of `internal/auth`;
* `Admitted`, **`intercept_none_iff`** : the RPCs it lets through; `clientMetadata`, `admitted_client_iff` : those of `uddpctl` and
  `uddp-bench`;
* `Handlers` : what is behind the interceptors; `Gateway`, `RpcAction`, `Gateway.step` : the server, one step at a time;
* **`gateway_erases`** : the run without the RPCs that are not admitted;
* **`gateway_counts`** : what the counters show.
-/

namespace Uddp
open Uddp.Lib

/-! ## Status codes -/

/-- The codes that the interceptors see. -/
inductive RpcCode
  | ok
  | unauthenticated
  | handler (code : Code)
  deriving DecidableEq, Repr

/-- `codes.Code.String`, the label of the counter. -/
def RpcCode.text : RpcCode → String
  | .ok => "OK"
  | .unauthenticated => "Unauthenticated"
  | .handler .invalidArgument => "InvalidArgument"
  | .handler .notFound => "NotFound"
  | .handler .failedPrecondition => "FailedPrecondition"
  | .handler .internal => "Internal"
  | .handler .unavailable => "Unavailable"

theorem RpcCode.text_injective : Function.Injective RpcCode.text := by
  intro c c' h
  cases c with
  | ok => cases c' with
    | ok => rfl
    | unauthenticated => exact absurd h (by decide)
    | handler code => cases code <;> exact absurd h (by decide)
  | unauthenticated => cases c' with
    | ok => exact absurd h (by decide)
    | unauthenticated => rfl
    | handler code => cases code <;> exact absurd h (by decide)
  | handler code =>
      cases c' with
      | ok => cases code <;> exact absurd h (by decide)
      | unauthenticated => cases code <;> exact absurd h (by decide)
      | handler code' => cases code <;> cases code' <;> first | rfl | exact absurd h (by decide)

/-- How an RPC fails: at the interceptor, or in its handler. -/
inductive RpcError
  | unauthenticated (message : String)
  | status (s : Status)
  deriving DecidableEq, Repr

/-- `status.Code`, with `OK` for no error. -/
def codeOf {ρ : Type} : Except RpcError ρ → RpcCode
  | .ok _ => .ok
  | .error (.unauthenticated _) => .unauthenticated
  | .error (.status s) => .handler s.code

/-! ## The token -/

/-- `subtle.ConstantTimeByteEq`. -/
def constantTimeByteEq (x y : UInt8) : UInt32 := ((x ^^^ y).toUInt32 - 1) >>> 31

/-- `subtle.ConstantTimeCompare`: all bytes are looked at, whatever the first ones are. -/
def constantTimeCompare (x y : Bytes) : UInt32 :=
  if x.length ≠ y.length then 0
  else constantTimeByteEq ((x.zip y).foldl (fun v p => v ||| (p.1 ^^^ p.2)) 0) 0

theorem constantTimeByteEq_zero_iff (v : UInt8) : constantTimeByteEq v 0 = 1 ↔ v = 0 := by
  constructor
  · intro h
    by_contra hv
    have hpos : 1 ≤ v.toNat := Nat.one_le_iff_ne_zero.mpr fun h0 => hv (UInt8.toNat_inj.mp h0)
    have hlt : v.toNat < 256 := v.toNat_lt
    have hle : (1 : UInt32) ≤ v.toUInt32 := UInt32.le_iff_toNat_le.mpr (by rw [UInt8.toNat_toUInt32]; exact hpos)
    have hsub : (v.toUInt32 - 1).toNat = v.toNat - 1 := by
      rw [UInt32.toNat_sub_of_le _ _ hle, UInt8.toNat_toUInt32]
      rfl
    -- the difference has no bit in the sign's place
    have hshift : (constantTimeByteEq v 0).toNat = 0 := by
      unfold constantTimeByteEq
      rw [UInt8.xor_zero, UInt32.toNat_shiftRight, hsub, Nat.shiftRight_eq_div_pow]
      exact Nat.div_eq_of_lt (Nat.lt_of_lt_of_le (show v.toNat - 1 < 256 by omega) (by decide))
    rw [h] at hshift
    exact absurd hshift (by decide)
  · rintro rfl
    decide

theorem foldl_xor_eq_zero_iff (ps : List (UInt8 × UInt8)) (v : UInt8) :
    ps.foldl (fun v p => v ||| (p.1 ^^^ p.2)) v = 0 ↔ v = 0 ∧ ∀ p ∈ ps, p.1 = p.2 := by
  induction ps generalizing v with
  | nil => simp
  | cons p ps ih =>
      rw [List.foldl_cons, ih, UInt8.or_eq_zero_iff, UInt8.xor_eq_zero_iff, List.forall_mem_cons, and_assoc]

theorem constantTimeCompare_iff (x y : Bytes) : constantTimeCompare x y = 1 ↔ x = y := by
  unfold constantTimeCompare
  by_cases hlen : x.length = y.length
  · rw [if_neg (not_not_intro hlen), constantTimeByteEq_zero_iff, foldl_xor_eq_zero_iff]
    constructor
    · rintro ⟨-, h⟩
      refine List.ext_getElem hlen fun n hx hy => ?_
      have hzip : n < (x.zip y).length := by
        rw [List.length_zip]
        omega
      have hpair := h _ (List.getElem_mem hzip)
      rw [List.getElem_zip] at hpair
      exact hpair
    · rintro rfl
      refine ⟨rfl, fun p hp => ?_⟩
      obtain ⟨n, hn, rfl⟩ := List.mem_iff_getElem.mp hp
      rw [List.getElem_zip]
  · rw [if_pos hlen]
    constructor
    · intro h
      exact absurd h (by decide)
    · rintro rfl
      exact absurd rfl hlen

/-! ## The interceptor of `internal/auth` -/

def metadataKey : String := "authorization"

def bearerPrefix : Bytes := utf8 "Bearer "

/-- The incoming metadata, the values by their keys in lower case. -/
abbrev Metadata := String → List Bytes

/-- The value without `Bearer ` in front of it, unless nothing is behind that. -/
def presentedToken (presented : Bytes) : Bytes :=
  if bearerPrefix.length < presented.length ∧ presented.take bearerPrefix.length = bearerPrefix then
    presented.drop bearerPrefix.length
  else presented

/-- The methods that need no token. -/
def HealthMethod (fullMethod : String) : Prop :=
  fullMethod = "/grpc.health.v1.Health/Check" ∨ fullMethod = "/grpc.health.v1.Health/Watch"

instance (fullMethod : String) : Decidable (HealthMethod fullMethod) := inferInstanceAs (Decidable (_ ∨ _))

/-- The refusal, if the RPC gets one. -/
def Auth.check (token : Bytes) (fullMethod : String) (md : Option Metadata) : Option RpcError :=
  if HealthMethod fullMethod then none
  else
    match md with
    | none => some (.unauthenticated "missing authorization metadata")
    | some md =>
        match md metadataKey with
        | [] => some (.unauthenticated "missing authorization metadata")
        | presented :: _ =>
            if constantTimeCompare (presentedToken presented) token ≠ 1 then some (.unauthenticated "invalid token") else none

/-- The chain of interceptors has that one only on a node with a token. -/
def intercept (token : Bytes) (fullMethod : String) (md : Option Metadata) : Option RpcError :=
  if token = [] then none else Auth.check token fullMethod md

/-- The first value of the header is the token behind `Bearer `, or the bare token, if that does not look like such a
header itself. -/
def Credential (token : Bytes) (md : Option Metadata) : Prop :=
  ∃ values presented more, md = some values ∧ values metadataKey = presented :: more ∧
    (presented = bearerPrefix ++ token ∨ presented = token ∧ ¬∃ rest, rest ≠ [] ∧ token = bearerPrefix ++ rest)

/-- The RPC needs no token, or brings it. -/
def Admitted (token : Bytes) (fullMethod : String) (md : Option Metadata) : Prop :=
  token = [] ∨ HealthMethod fullMethod ∨ Credential token md

theorem strip_iff (v : Bytes) : bearerPrefix.length < v.length ∧ v.take bearerPrefix.length = bearerPrefix ↔
    ∃ rest, rest ≠ [] ∧ v = bearerPrefix ++ rest := by
  constructor
  · rintro ⟨hlen, htake⟩
    refine ⟨v.drop bearerPrefix.length, List.ne_nil_of_length_pos ?_, ?_⟩
    · rw [List.length_drop]
      omega
    · conv_lhs => rw [← List.take_append_drop bearerPrefix.length v, htake]
  · rintro ⟨rest, hne, rfl⟩
    refine ⟨?_, List.take_left⟩
    rw [List.length_append]
    exact Nat.lt_add_of_pos_right (List.length_pos_iff.mpr hne)

theorem presentedToken_iff {token : Bytes} (htoken : token ≠ []) (presented : Bytes) : presentedToken presented = token ↔
    presented = bearerPrefix ++ token ∨ presented = token ∧ ¬∃ rest, rest ≠ [] ∧ token = bearerPrefix ++ rest := by
  unfold presentedToken
  by_cases hstrip : ∃ rest, rest ≠ [] ∧ presented = bearerPrefix ++ rest
  · rw [if_pos ((strip_iff presented).mpr hstrip)]
    obtain ⟨rest, hne, rfl⟩ := hstrip
    rw [List.drop_left, List.append_cancel_left_eq]
    constructor
    · exact Or.inl
    · rintro (h | ⟨rfl, hno⟩)
      · exact h
      · exact absurd ⟨rest, hne, rfl⟩ hno
  · rw [if_neg fun h => hstrip ((strip_iff presented).mp h)]
    constructor
    · rintro rfl
      exact Or.inr ⟨rfl, hstrip⟩
    · rintro (rfl | ⟨rfl, -⟩)
      · exact absurd ⟨token, htoken, rfl⟩ hstrip
      · rfl

theorem refusal_none_iff (token presented : Bytes) (err : RpcError) :
    (if constantTimeCompare (presentedToken presented) token ≠ 1 then some err else none) = none ↔
      presentedToken presented = token := by
  rw [← constantTimeCompare_iff (presentedToken presented) token]
  by_cases h : constantTimeCompare (presentedToken presented) token = 1
  · rw [if_neg (not_not_intro h)]
    exact iff_of_true rfl h
  · rw [if_pos h]
    exact iff_of_false (Option.some_ne_none err) h

theorem intercept_none_iff (token : Bytes) (fullMethod : String) (md : Option Metadata) :
    intercept token fullMethod md = none ↔ Admitted token fullMethod md := by
  unfold intercept Admitted
  by_cases htoken : token = []
  · rw [if_pos htoken]
    exact iff_of_true rfl (Or.inl htoken)
  rw [if_neg htoken]
  unfold Auth.check
  by_cases hhealth : HealthMethod fullMethod
  · rw [if_pos hhealth]
    exact iff_of_true rfl (Or.inr (Or.inl hhealth))
  rw [if_neg hhealth]
  simp only [htoken, hhealth, false_or]
  unfold Credential
  cases md with
  | none => simp
  | some values =>
      dsimp only
      cases hvalues : values metadataKey with
      | nil => simp [hvalues]
      | cons presented more =>
          dsimp only
          rw [refusal_none_iff, presentedToken_iff htoken]
          constructor
          · intro h
            exact ⟨values, presented, more, rfl, hvalues, h⟩
          · rintro ⟨_, _, _, heq, hvalues', h⟩
            cases heq
            rw [hvalues] at hvalues'
            cases hvalues'
            exact h

/-- What is refused is told so, and the text depends on the request alone. -/
theorem intercept_some {token : Bytes} {fullMethod : String} {md : Option Metadata} {err : RpcError}
    (h : intercept token fullMethod md = some err) : ∃ message, err = .unauthenticated message := by
  unfold intercept Auth.check at h
  split at h
  · cases h
  · split at h
    · cases h
    · split at h
      · cases h
        exact ⟨_, rfl⟩
      · split at h
        · cases h
          exact ⟨_, rfl⟩
        · split at h
          · cases h
            exact ⟨_, rfl⟩
          · cases h

/-- The metadata of a client that has the token `sent`, as `uddpctl` and `uddp-bench` send it. -/
def clientMetadata (sent : Bytes) : Metadata := fun key =>
  if key = metadataKey then (if sent = [] then [] else [bearerPrefix ++ sent]) else []

/-- **A client is let in** exactly with the token of the node. -/
theorem admitted_client_iff (token sent : Bytes) {fullMethod : String} (hhealth : ¬HealthMethod fullMethod) :
    Admitted token fullMethod (some (clientMetadata sent)) ↔ token = [] ∨ sent = token := by
  unfold Admitted Credential
  constructor
  · rintro (h | h | ⟨_, presented, more, heq, hvalues, h⟩)
    · exact Or.inl h
    · exact absurd h hhealth
    · cases heq
      unfold clientMetadata at hvalues
      rw [if_pos rfl] at hvalues
      by_cases hsent : sent = []
      · rw [if_pos hsent] at hvalues
        cases hvalues
      · rw [if_neg hsent] at hvalues
        cases hvalues
        rcases h with h | ⟨rfl, hno⟩
        · exact Or.inr (List.append_cancel_left h)
        · exact absurd ⟨sent, hsent, rfl⟩ hno
  · rintro (h | rfl)
    · exact Or.inl h
    · by_cases hsent : sent = []
      · exact Or.inl hsent
      · refine Or.inr (Or.inr ⟨_, bearerPrefix ++ sent, [], rfl, ?_, Or.inl rfl⟩)
        unfold clientMetadata
        rw [if_pos rfl, if_neg hsent]

/-! ## The server -/

/-- An RPC as it comes in. -/
structure Incoming (α : Type) where
  metadata : Option Metadata
  req : α

/-- What is behind the interceptors: the handlers share `σ`; a handler on its way is a `τ`, and `χ` is what it meets, such as
the time and the errors of the disk. A handler that cannot go on has taken the process with it. -/
structure Handlers (α σ τ χ ρ : Type) where
  fullMethod : α → String
  start : α → τ
  step : τ → σ → χ → Option ((τ ⊕ Except Status ρ) × σ)

/-- How far an RPC has come. -/
inductive RpcPhase (τ ρ : Type)
  | idle
  | arrived
  | handling (t : τ)
  /-- The counting interceptor has got the result back. -/
  | returned (r : Except RpcError ρ)
  | counted (r : Except RpcError ρ)
  | answered (r : Except RpcError ρ)

structure Gateway (σ τ ρ ω : Type) where
  shared : σ
  phase : ω → RpcPhase τ ρ
  /-- By method and code. -/
  requestsTotal : String → String → Nat
  /-- The number of durations in the histogram of a method. -/
  requestDuration : String → Nat

inductive RpcAction (χ ω : Type)
  | arrive (o : ω)
  | authenticate (o : ω)
  | work (o : ω) (c : χ)
  | count (o : ω)
  | observe (o : ω)

def RpcAction.op {χ ω : Type} : RpcAction χ ω → ω
  | .arrive o | .authenticate o | .work o _ | .count o | .observe o => o

def Gateway.start {σ τ ρ ω : Type} (s : σ) : Gateway σ τ ρ ω := ⟨s, fun _ => .idle, fun _ _ => 0, fun _ => 0⟩

section Server
variable {α σ τ χ ρ ω : Type} [DecidableEq ω]

def Gateway.goto (x : Gateway σ τ ρ ω) (o : ω) (p : RpcPhase τ ρ) : Gateway σ τ ρ ω :=
  { x with phase := Function.update x.phase o p }

/-- `requestsTotal.WithLabelValues(method, code).Inc()`. -/
def Gateway.inc (x : Gateway σ τ ρ ω) (method code : String) : Gateway σ τ ρ ω :=
  { x with requestsTotal := fun m c => if m = method ∧ c = code then x.requestsTotal m c + 1 else x.requestsTotal m c }

/-- `requestDuration.WithLabelValues(method).Observe(..)`. -/
def Gateway.observed (x : Gateway σ τ ρ ω) (method : String) : Gateway σ τ ρ ω :=
  { x with requestDuration := fun m => if m = method then x.requestDuration m + 1 else x.requestDuration m }

-- the token of the node, its handlers, and what every client sends
variable (token : Bytes) (H : Handlers α σ τ χ ρ) (rpc : ω → Incoming α)

/-- The method of the RPC. -/
def Handlers.method (o : ω) : String := H.fullMethod (rpc o).req

def Handlers.refusal (o : ω) : Option RpcError := intercept token (H.method rpc o) (rpc o).metadata

def Gateway.step (x : Gateway σ τ ρ ω) : RpcAction χ ω → Option (Gateway σ τ ρ ω)
  | .arrive o =>
      match x.phase o with
      | .idle => some (x.goto o .arrived)
      | _ => none
  | .authenticate o =>
      match x.phase o with
      | .arrived =>
          match H.refusal token rpc o with
          | some err => some (x.goto o (.returned (.error err)))
          | none => some (x.goto o (.handling (H.start (rpc o).req)))
      | _ => none
  | .work o c =>
      match x.phase o with
      | .handling t =>
          match H.step t x.shared c with
          | none => none
          | some (.inl t', s) => some (({ x with shared := s } : Gateway σ τ ρ ω).goto o (.handling t'))
          | some (.inr r, s) => some (({ x with shared := s } : Gateway σ τ ρ ω).goto o (.returned (r.mapError .status)))
      | _ => none
  | .count o =>
      match x.phase o with
      | .returned r =>
          some ((x.inc (H.method rpc o) (codeOf r).text).goto o (.counted r))
      | _ => none
  | .observe o =>
      match x.phase o with
      | .counted r =>
          some ((x.observed (H.method rpc o)).goto o (.answered r))
      | _ => none

/-! ## What a step does -/

section Inversion
variable {token H rpc} {x y : Gateway σ τ ρ ω} {o : ω}

theorem gateway_arrive (h : x.step token H rpc (.arrive o) = some y) : x.phase o = .idle ∧ y = x.goto o .arrived := by
  simp only [Gateway.step] at h
  split at h
  · next hphase =>
    cases h
    exact ⟨hphase, rfl⟩
  · cases h

theorem gateway_authenticate (h : x.step token H rpc (.authenticate o) = some y) : x.phase o = .arrived ∧
    ((∃ err, H.refusal token rpc o = some err ∧ y = x.goto o (.returned (.error err))) ∨
      H.refusal token rpc o = none ∧ y = x.goto o (.handling (H.start (rpc o).req))) := by
  simp only [Gateway.step] at h
  split at h
  · next hphase =>
    refine ⟨hphase, ?_⟩
    split at h
    · next err herr =>
      cases h
      exact Or.inl ⟨err, herr, rfl⟩
    · next hnone =>
      cases h
      exact Or.inr ⟨hnone, rfl⟩
  · cases h

theorem gateway_work {c : χ} (h : x.step token H rpc (.work o c) = some y) : ∃ t s, x.phase o = .handling t ∧
    ((∃ t', H.step t x.shared c = some (.inl t', s) ∧
        y = ({ x with shared := s } : Gateway σ τ ρ ω).goto o (.handling t')) ∨
      ∃ r, H.step t x.shared c = some (.inr r, s) ∧
        y = ({ x with shared := s } : Gateway σ τ ρ ω).goto o (.returned (r.mapError .status))) := by
  simp only [Gateway.step] at h
  split at h
  · next t hphase =>
    split at h
    · cases h
    · next t' s hstep =>
      cases h
      exact ⟨t, s, hphase, Or.inl ⟨t', hstep, rfl⟩⟩
    · next r s hstep =>
      cases h
      exact ⟨t, s, hphase, Or.inr ⟨r, hstep, rfl⟩⟩
  · cases h

theorem gateway_count (h : x.step token H rpc (.count o) = some y) : ∃ r, x.phase o = .returned r ∧
    y = (x.inc (H.method rpc o) (codeOf r).text).goto o (.counted r) := by
  simp only [Gateway.step] at h
  split at h
  · next r hphase =>
    cases h
    exact ⟨r, hphase, rfl⟩
  · cases h

theorem gateway_observe (h : x.step token H rpc (.observe o) = some y) : ∃ r, x.phase o = .counted r ∧
    y = (x.observed (H.method rpc o)).goto o (.answered r) := by
  simp only [Gateway.step] at h
  split at h
  · next r hphase =>
    cases h
    exact ⟨r, hphase, rfl⟩
  · cases h

end Inversion

@[simp] theorem Gateway.goto_self (x : Gateway σ τ ρ ω) (o : ω) (p : RpcPhase τ ρ) : (x.goto o p).phase o = p := by
  simp only [Gateway.goto, Function.update_self]

theorem Gateway.goto_of_ne (x : Gateway σ τ ρ ω) {o j : ω} (h : j ≠ o) (p : RpcPhase τ ρ) :
    (x.goto o p).phase j = x.phase j := by
  simp only [Gateway.goto, Function.update_of_ne h]

/-! ## What the RPCs are told -/

/-- The refusal, or what the handler has returned. -/
def ResultOk (o : ω) (r : Except RpcError ρ) : Prop :=
  match H.refusal token rpc o with
  | some err => r = .error err
  | none => ∃ result : Except Status ρ, r = result.mapError .status

/-- Only an RPC that is not refused gets to its handler. -/
def RpcOk (o : ω) : RpcPhase τ ρ → Prop
  | .idle | .arrived => True
  | .handling _ => H.refusal token rpc o = none
  | .returned r | .counted r | .answered r => ResultOk token H rpc o r

section Results
variable {token H rpc} {x y : Gateway σ τ ρ ω}

omit [DecidableEq ω] in
theorem resultOk_refused {o : ω} {err : RpcError} (h : H.refusal token rpc o = some err) :
    ResultOk token H rpc o (.error err : Except RpcError ρ) := by
  unfold ResultOk
  rw [h]

omit [DecidableEq ω] in
theorem resultOk_handled {o : ω} (h : H.refusal token rpc o = none) (result : Except Status ρ) :
    ResultOk token H rpc o (result.mapError .status) := by
  unfold ResultOk
  rw [h]
  exact ⟨result, rfl⟩

theorem rpcOk_goto (h : ∀ j, RpcOk token H rpc j (x.phase j)) {o : ω} {p : RpcPhase τ ρ} (hp : RpcOk token H rpc o p) :
    ∀ j, RpcOk token H rpc j ((x.goto o p).phase j) := by
  intro j
  by_cases hj : j = o
  · subst hj
    rw [Gateway.goto_self]
    exact hp
  · rw [Gateway.goto_of_ne x hj]
    exact h j

theorem rpcOk_step (h : ∀ j, RpcOk token H rpc j (x.phase j)) {a : RpcAction χ ω} (hstep : x.step token H rpc a = some y) :
    ∀ j, RpcOk token H rpc j (y.phase j) := by
  cases a with
  | arrive o =>
      obtain ⟨-, rfl⟩ := gateway_arrive hstep
      exact rpcOk_goto h trivial
  | authenticate o =>
      obtain ⟨-, ⟨err, herr, rfl⟩ | ⟨hnone, rfl⟩⟩ := gateway_authenticate hstep
      · exact rpcOk_goto h (resultOk_refused herr)
      · exact rpcOk_goto h hnone
  | work o c =>
      obtain ⟨t, s, hphase, hwork⟩ := gateway_work hstep
      have hnone : H.refusal token rpc o = none := by
        have ho := h o
        rw [hphase] at ho
        exact ho
      obtain ⟨t', -, rfl⟩ | ⟨r, -, rfl⟩ := hwork
      · exact rpcOk_goto (x := { x with shared := s }) h hnone
      · exact rpcOk_goto (x := { x with shared := s }) h (resultOk_handled hnone r)
  | count o =>
      obtain ⟨r, hphase, rfl⟩ := gateway_count hstep
      have ho := h o
      rw [hphase] at ho
      exact rpcOk_goto (x := x.inc _ _) h ho
  | observe o =>
      obtain ⟨r, hphase, rfl⟩ := gateway_observe hstep
      have ho := h o
      rw [hphase] at ho
      exact rpcOk_goto (x := x.observed _) h ho

theorem rpcOk_run {s : σ} {as : List (RpcAction χ ω)}
    (hrun : runActions (Gateway.step token H rpc) (Gateway.start s) as = some x) : ∀ j, RpcOk token H rpc j (x.phase j) :=
  runActions_invariant (I := fun x : Gateway σ τ ρ ω => ∀ j, RpcOk token H rpc j (x.phase j))
    (fun _ _ _ h hstep => rpcOk_step h hstep) (fun j => show RpcOk token H rpc j .idle from trivial) hrun

end Results

/-! ## What the counters show -/

/-- The RPC is one of the method that was counted with the code. -/
def CountedAs (m : String) (c : RpcCode) (o : ω) (p : RpcPhase τ ρ) : Prop :=
  H.method rpc o = m ∧ ∃ r, codeOf r = c ∧ (p = .counted r ∨ p = .answered r)

/-- The RPC is one of the method whose duration was observed. -/
def TimedAs (m : String) (o : ω) (p : RpcPhase τ ρ) : Prop := H.method rpc o = m ∧ ∃ r, p = .answered r

structure Counts (x : Gateway σ τ ρ ω) : Prop where
  total : ∀ m c, Tally (CountedAs H rpc m c) x.phase (x.requestsTotal m c.text)
  duration : ∀ m, Tally (TimedAs H rpc m) x.phase (x.requestDuration m)

/-- The RPC has not been counted. -/
def RpcPhase.Early : RpcPhase τ ρ → Prop
  | .idle | .arrived | .handling _ | .returned _ => True
  | .counted _ | .answered _ => False

section Counters
variable {token H rpc} {x y : Gateway σ τ ρ ω}

omit [DecidableEq ω] in
theorem early_not_counted {p : RpcPhase τ ρ} (h : p.Early) (m : String) (c : RpcCode) (o : ω) : ¬CountedAs H rpc m c o p := by
  rintro ⟨-, r, -, rfl | rfl⟩
  · exact h
  · exact h

omit [DecidableEq ω] in
theorem not_timed {p : RpcPhase τ ρ} (h : ∀ r, p ≠ .answered r) (m : String) (o : ω) : ¬TimedAs H rpc m o p := by
  rintro ⟨-, r, hr⟩
  exact h r hr

omit [DecidableEq ω] in
theorem early_not_timed {p : RpcPhase τ ρ} (h : p.Early) (m : String) (o : ω) : ¬TimedAs H rpc m o p := by
  refine not_timed (fun r hr => ?_) m o
  rw [hr] at h
  exact h

theorem Counts.early (h : Counts H rpc x) {o : ω} {p : RpcPhase τ ρ} (hold : (x.phase o).Early) (hnew : p.Early) :
    Counts H rpc (x.goto o p) := by
  constructor
  · intro m c
    exact (h.total m c).stay (iff_of_false (early_not_counted hnew m c o) (early_not_counted hold m c o))
  · intro m
    exact (h.duration m).stay (iff_of_false (early_not_timed hnew m o) (early_not_timed hold m o))

theorem Counts.count (h : Counts H rpc x) {o : ω} {r : Except RpcError ρ} (hphase : x.phase o = .returned r) :
    Counts H rpc ((x.inc (H.method rpc o) (codeOf r).text).goto o (.counted r)) := by
  have hearly : (x.phase o).Early := by
    rw [hphase]
    trivial
  constructor
  · intro m c
    show Tally _ (Function.update x.phase o _)
      (if m = H.method rpc o ∧ c.text = (codeOf r).text then x.requestsTotal m c.text + 1 else x.requestsTotal m c.text)
    by_cases hlabel : m = H.method rpc o ∧ c = codeOf r
    · obtain ⟨rfl, rfl⟩ := hlabel
      rw [if_pos ⟨rfl, rfl⟩]
      exact (h.total _ _).enter (early_not_counted hearly _ _ o) ⟨rfl, r, rfl, Or.inl rfl⟩
    · rw [if_neg fun hsame => hlabel ⟨hsame.1, RpcCode.text_injective hsame.2⟩]
      refine (h.total m c).stay (iff_of_false ?_ (early_not_counted hearly m c o))
      rintro ⟨hm, r', hr', heq | heq⟩
      · cases heq
        exact hlabel ⟨hm.symm, hr'.symm⟩
      · cases heq
  · intro m
    exact (h.duration m).stay (iff_of_false (not_timed (fun _ hr => by cases hr) m o) (early_not_timed hearly m o))

theorem Counts.observe (h : Counts H rpc x) {o : ω} {r : Except RpcError ρ} (hphase : x.phase o = .counted r) :
    Counts H rpc ((x.observed (H.method rpc o)).goto o (.answered r)) := by
  constructor
  · intro m c
    refine (h.total m c).stay ?_
    rw [hphase]
    constructor
    · rintro ⟨hm, r', hr', heq | heq⟩
      · cases heq
      · cases heq
        exact ⟨hm, r, hr', Or.inl rfl⟩
    · rintro ⟨hm, r', hr', heq | heq⟩
      · cases heq
        exact ⟨hm, r, hr', Or.inr rfl⟩
      · cases heq
  · intro m
    have hold : ¬TimedAs H rpc m o (x.phase o) := by
      refine not_timed (fun r' hr' => ?_) m o
      rw [hphase] at hr'
      cases hr'
    show Tally _ (Function.update x.phase o _) (if m = H.method rpc o then x.requestDuration m + 1 else x.requestDuration m)
    by_cases hm : m = H.method rpc o
    · rw [if_pos hm]
      exact (h.duration m).enter hold ⟨hm.symm, r, rfl⟩
    · rw [if_neg hm]
      refine (h.duration m).stay (iff_of_false ?_ hold)
      rintro ⟨hm', -⟩
      exact hm hm'.symm

theorem counts_step (h : Counts H rpc x) {a : RpcAction χ ω} (hstep : x.step token H rpc a = some y) : Counts H rpc y := by
  cases a with
  | arrive o =>
      obtain ⟨hphase, rfl⟩ := gateway_arrive hstep
      exact h.early (by rw [hphase]; trivial) trivial
  | authenticate o =>
      obtain ⟨hphase, ⟨err, -, rfl⟩ | ⟨-, rfl⟩⟩ := gateway_authenticate hstep
      · exact h.early (by rw [hphase]; trivial) trivial
      · exact h.early (by rw [hphase]; trivial) trivial
  | work o c =>
      obtain ⟨t, s, hphase, ⟨t', -, rfl⟩ | ⟨r, -, rfl⟩⟩ := gateway_work hstep
      · exact Counts.early (x := { x with shared := s }) ⟨h.total, h.duration⟩ (by rw [hphase]; trivial) trivial
      · exact Counts.early (x := { x with shared := s }) ⟨h.total, h.duration⟩ (by rw [hphase]; trivial) trivial
  | count o =>
      obtain ⟨r, hphase, rfl⟩ := gateway_count hstep
      exact h.count hphase
  | observe o =>
      obtain ⟨r, hphase, rfl⟩ := gateway_observe hstep
      exact h.observe hphase

omit [DecidableEq ω] in
theorem counts_start (s : σ) : Counts H rpc (Gateway.start s : Gateway σ τ ρ ω) := by
  have hearly : (RpcPhase.idle : RpcPhase τ ρ).Early := trivial
  exact ⟨fun m c => .none fun o => early_not_counted hearly m c o, fun m => .none fun o => early_not_timed hearly m o⟩

omit [DecidableEq ω] in
/-- `Unauthenticated` comes from the interceptor only. -/
theorem ResultOk.unauthenticated_iff {o : ω} {r : Except RpcError ρ} (h : ResultOk token H rpc o r) :
    codeOf r = .unauthenticated ↔ ¬Admitted token (H.method rpc o) (rpc o).metadata := by
  rw [← intercept_none_iff]
  unfold ResultOk Handlers.refusal at h
  cases hint : intercept token (H.method rpc o) (rpc o).metadata with
  | some err =>
      rw [hint] at h
      obtain ⟨message, rfl⟩ := intercept_some hint
      rw [h]
      exact iff_of_true rfl (Option.some_ne_none _)
  | none =>
      rw [hint] at h
      obtain ⟨result, rfl⟩ := h
      refine iff_of_false ?_ (not_not_intro rfl)
      cases result with
      | ok resp => exact fun hcode => by cases hcode
      | error status => exact fun hcode => by cases hcode

end Counters

/-- **The counters.** In every state of the server, whatever its handlers do and however the RPCs overlap: the counter of a
method and a code is the number of RPCs of the method that have come back with the code and passed the counter, the
histogram of a method has one duration for each of its RPCs that is answered, and the RPCs that are answered
`Unauthenticated` are exactly those without the token. -/
theorem gateway_counts {s : σ} {as : List (RpcAction χ ω)} {x : Gateway σ τ ρ ω}
    (hrun : runActions (Gateway.step token H rpc) (Gateway.start s) as = some x) :
    (∀ m c, x.requestsTotal m c.text =
      {o | H.method rpc o = m ∧ ∃ r, codeOf r = c ∧ (x.phase o = .counted r ∨ x.phase o = .answered r)}.ncard) ∧
    (∀ m, x.requestDuration m = {o | H.method rpc o = m ∧ ∃ r, x.phase o = .answered r}.ncard) ∧
    ∀ o r, x.phase o = .answered r →
      (codeOf r = .unauthenticated ↔ ¬Admitted token (H.method rpc o) (rpc o).metadata) := by
  have hcounts := runActions_invariant (I := Counts H rpc) (fun _ _ _ h hstep => counts_step h hstep) (counts_start s) hrun
  refine ⟨fun m c => (hcounts.total m c).card.symm, fun m => (hcounts.duration m).card.symm, fun o r hphase => ?_⟩
  have hok := rpcOk_run hrun o
  rw [hphase] at hok
  exact hok.unauthenticated_iff

/-! ## Without the RPCs that are refused -/

/-- An RPC that is refused with `err` gets to know nothing else. -/
def Turned (err : RpcError) : RpcPhase τ ρ → Prop
  | .idle | .arrived => True
  | .handling _ => False
  | .returned r | .counted r | .answered r => r = .error err

/-- `y` is `x` without the RPCs that are refused. -/
structure Erased (x y : Gateway σ τ ρ ω) : Prop where
  shared : y.shared = x.shared
  admitted : ∀ o, H.refusal token rpc o = none → y.phase o = x.phase o
  refused : ∀ o err, H.refusal token rpc o = some err → y.phase o = .idle ∧ Turned err (x.phase o)
  totals : ∀ (m : String) (c : RpcCode), c ≠ .unauthenticated → y.requestsTotal m c.text = x.requestsTotal m c.text

section Erasure
variable {token H rpc} {x x' y : Gateway σ τ ρ ω}

theorem Erased.goto (h : Erased token H rpc x y) {o : ω} (ho : H.refusal token rpc o = none) (p : RpcPhase τ ρ) :
    Erased token H rpc (x.goto o p) (y.goto o p) := by
  refine ⟨h.shared, fun j hj => ?_, fun j err hj => ?_, h.totals⟩
  · by_cases hjo : j = o
    · subst hjo
      rw [Gateway.goto_self, Gateway.goto_self]
    · rw [Gateway.goto_of_ne x hjo, Gateway.goto_of_ne y hjo, h.admitted j hj]
  · have hjo : j ≠ o := by
      rintro rfl
      rw [ho] at hj
      cases hj
    rw [Gateway.goto_of_ne x hjo, Gateway.goto_of_ne y hjo]
    exact h.refused j err hj

theorem Erased.turned (h : Erased token H rpc x y) {o : ω} {err : RpcError} (ho : H.refusal token rpc o = some err)
    {p : RpcPhase τ ρ} (hp : Turned err p) : Erased token H rpc (x.goto o p) y := by
  refine ⟨h.shared, fun j hj => ?_, fun j err' hj => ?_, h.totals⟩
  · have hjo : j ≠ o := by
      rintro rfl
      rw [ho] at hj
      cases hj
    rw [Gateway.goto_of_ne x hjo, h.admitted j hj]
  · by_cases hjo : j = o
    · subst hjo
      rw [ho] at hj
      cases hj
      rw [Gateway.goto_self]
      exact ⟨(h.refused j err ho).1, hp⟩
    · rw [Gateway.goto_of_ne x hjo]
      exact h.refused j err' hj

omit [DecidableEq ω] in
theorem Erased.inc_both (h : Erased token H rpc x y) (m c : String) : Erased token H rpc (x.inc m c) (y.inc m c) := by
  refine ⟨h.shared, h.admitted, h.refused, fun m' c' hc' => ?_⟩
  show (if _ then _ else _) = if _ then _ else _
  rw [h.totals m' c' hc']

omit [DecidableEq ω] in
theorem Erased.inc_left (h : Erased token H rpc x y) (m : String) :
    Erased token H rpc (x.inc m RpcCode.unauthenticated.text) y := by
  refine ⟨h.shared, h.admitted, h.refused, fun m' c' hc' => ?_⟩
  show _ = if _ then _ else _
  rw [if_neg fun hsame => hc' (RpcCode.text_injective hsame.2), h.totals m' c' hc']

theorem erased_keep (h : Erased token H rpc x y) {a : RpcAction χ ω} (ho : H.refusal token rpc a.op = none)
    (hstep : x.step token H rpc a = some x') : ∃ y', y.step token H rpc a = some y' ∧ Erased token H rpc x' y' := by
  have hphase := h.admitted a.op ho
  cases a with
  | arrive o =>
      obtain ⟨hx, rfl⟩ := gateway_arrive hstep
      refine ⟨_, ?_, h.goto (o := o) ho _⟩
      simp only [Gateway.step, show y.phase o = _ from hphase.trans hx]
  | authenticate o =>
      obtain ⟨hx, ⟨err, herr, rfl⟩ | ⟨hnone, rfl⟩⟩ := gateway_authenticate hstep
      · exact absurd (herr.symm.trans ho) (Option.some_ne_none err)
      · refine ⟨_, ?_, h.goto (o := o) ho _⟩
        simp only [Gateway.step, show y.phase o = _ from hphase.trans hx, hnone]
  | work o c =>
      obtain ⟨t, s, hx, ⟨t', hwork, rfl⟩ | ⟨r, hwork, rfl⟩⟩ := gateway_work hstep
      · rw [← h.shared] at hwork
        refine ⟨_, ?_, Erased.goto (x := { x with shared := s }) (y := { y with shared := s })
          ⟨rfl, h.admitted, h.refused, h.totals⟩ (o := o) ho _⟩
        simp only [Gateway.step, show y.phase o = _ from hphase.trans hx, hwork]
      · rw [← h.shared] at hwork
        refine ⟨_, ?_, Erased.goto (x := { x with shared := s }) (y := { y with shared := s })
          ⟨rfl, h.admitted, h.refused, h.totals⟩ (o := o) ho _⟩
        simp only [Gateway.step, show y.phase o = _ from hphase.trans hx, hwork]
  | count o =>
      obtain ⟨r, hx, rfl⟩ := gateway_count hstep
      refine ⟨_, ?_, (h.inc_both (H.method rpc o) (codeOf r).text).goto (o := o) ho _⟩
      simp only [Gateway.step, show y.phase o = _ from hphase.trans hx]
  | observe o =>
      obtain ⟨r, hx, rfl⟩ := gateway_observe hstep
      refine ⟨_, ?_, Erased.goto (x := x.observed (H.method rpc o)) (y := y.observed (H.method rpc o))
        ⟨h.shared, h.admitted, h.refused, h.totals⟩ (o := o) ho _⟩
      simp only [Gateway.step, show y.phase o = _ from hphase.trans hx]

theorem erased_drop (h : Erased token H rpc x y) {a : RpcAction χ ω} {err : RpcError}
    (ho : H.refusal token rpc a.op = some err) (hstep : x.step token H rpc a = some x') : Erased token H rpc x' y := by
  have hturned := (h.refused a.op err ho).2
  cases a with
  | arrive o =>
      obtain ⟨-, rfl⟩ := gateway_arrive hstep
      exact h.turned ho trivial
  | authenticate o =>
      obtain ⟨-, ⟨err', herr, rfl⟩ | ⟨hnone, -⟩⟩ := gateway_authenticate hstep
      · cases herr.symm.trans ho
        exact h.turned ho rfl
      · exact absurd (ho.symm.trans hnone) (Option.some_ne_none err)
  | work o c =>
      -- it has no handler
      obtain ⟨t, s, hx, -⟩ := gateway_work hstep
      have hno : Turned err (.handling t : RpcPhase τ ρ) := hx ▸ hturned
      exact hno.elim
  | count o =>
      obtain ⟨r, hx, rfl⟩ := gateway_count hstep
      have hr : Turned err (.returned r : RpcPhase τ ρ) := hx ▸ hturned
      obtain ⟨message, rfl⟩ := intercept_some ho
      cases hr
      exact (h.inc_left (H.method rpc o)).turned ho rfl
  | observe o =>
      obtain ⟨r, hx, rfl⟩ := gateway_observe hstep
      have hr : Turned err (.counted r : RpcPhase τ ρ) := hx ▸ hturned
      exact Erased.turned (x := x.observed (H.method rpc o)) ⟨h.shared, h.admitted, h.refused, h.totals⟩ ho hr

/-- The actions of the RPCs that are not refused. -/
def RpcAction.kept (token : Bytes) (H : Handlers α σ τ χ ρ) (rpc : ω → Incoming α) (a : RpcAction χ ω) : Bool :=
  (H.refusal token rpc a.op).isNone

/-- **The run without the RPCs that are refused** is a run. -/
theorem gateway_erases {s : σ} {as : List (RpcAction χ ω)}
    (hrun : runActions (Gateway.step token H rpc) (Gateway.start s) as = some x) :
    ∃ y, runActions (Gateway.step token H rpc) (Gateway.start s) (as.filter (RpcAction.kept token H rpc)) = some y ∧
      Erased token H rpc x y := by
  have hstart : Erased token H rpc (Gateway.start s : Gateway σ τ ρ ω) (Gateway.start s) :=
    ⟨rfl, fun _ _ => rfl, fun _ _ _ => ⟨rfl, trivial⟩, fun _ _ _ => rfl⟩
  refine runActions_filter (R := Erased token H rpc) (RpcAction.kept token H rpc) ?_ ?_ hstart hrun
  · intro x y a x' hkeep h hstep
    exact erased_keep h (Option.isNone_iff_eq_none.mp hkeep) hstep
  · intro x y a x' hdrop h hstep
    cases herr : H.refusal token rpc a.op with
    | none =>
        rw [RpcAction.kept, herr] at hdrop
        cases hdrop
    | some err => exact erased_drop h herr hstep

end Erasure

end Server

end Uddp
