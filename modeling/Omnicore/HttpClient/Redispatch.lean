import Mathlib.Data.Nat.Notation
import Mathlib.Tactic.ByContra
import Mathlib.Tactic.SplitIfs

/-!
# Dispatching an outbound call again

Two layers of the client send one call more than once.  The retry layer repeats an attempt that
failed, with the body set back to the buffered one.  Above it the credential layer answers a 401 by
a new credential and a second pass through all the layers below: the idempotency layer runs again
and mints another key, and the first attempt of the pass sends what the first pass left of the body.

What the upstream does to each dispatch is given in advance, by the number of the dispatch.  A hit
in the response cache hands nothing to the transport and is left out.

## Main results

* `same_request_iff` : every request handed to the transport has the whole body and one key, exactly
  when a second pass finds the body unread and the key given by the caller, or none.
-/

namespace Omnicore.HttpClient

/-- The answer to a dispatch.  Of an error it matters whether it is a timeout, a failed lookup, and
an operation error or another error of the network; an open breaker rejects the dispatch before the
transport. -/
inductive Reply where
  | status (code : ℕ)
  | error (timeout dns network : Bool)
  | canceled
  | rejected
  deriving DecidableEq, Repr

/-- What happens to a dispatch: its answer, how much of the body has been read, and whether the wait
for the next attempt is not cancelled. -/
structure Outcome where
  reply : Reply
  read : ℕ
  waits : Bool := true
  deriving DecidableEq, Repr

structure RetryPolicy where
  maxAttempts : ℕ := 1
  retryOnStatus : List ℕ := []
  retryOnTimeout : Bool := false
  retryOnDNS : Bool := false
  retryOnNetwork : Bool := false
  deriving DecidableEq, Repr

def shouldRetry (policy : RetryPolicy) : Reply → Bool
  | .status code => code ∈ policy.retryOnStatus
  | .error timeout dns network =>
    policy.retryOnTimeout && timeout || policy.retryOnDNS && dns ||
      -- a failed lookup is a network error too, and a timeout may be one
      policy.retryOnNetwork && (dns || network)
  | .canceled | .rejected => false

/-- Where the key of a call comes from; `missing` is a key the caller has to give and has not. -/
inductive Idempotency where
  | disabled
  | explicit (key : String)
  | generated
  | missing
  deriving DecidableEq, Repr

/-- A request as the transport gets it. -/
structure Sent where
  body : List UInt8
  key : Option String
  deriving DecidableEq, Repr

/-- A call that is no stream.  `revokes` is a credential that may be revoked on a 401, `reapplies`
that the new one is issued, and `minted` the key each pass would generate. -/
structure Call where
  body : List UInt8
  policy : RetryPolicy := {}
  idempotency : Idempotency := .disabled
  revokes : Bool := false
  reapplies : Bool := true
  minted : ℕ → String
  minted_ne : minted 0 ≠ minted 1
  outcomes : ℕ → Outcome

namespace Call

variable (c : Call)

/-- The key of a pass. -/
def idempotencyKey (pass : ℕ) : Option String :=
  match c.idempotency with
  | .disabled | .missing => none
  | .explicit key => some key
  | .generated => some (c.minted pass)

/-- The outcome of a dispatch asks for another attempt. -/
def again (n : ℕ) : Bool := shouldRetry c.policy (c.outcomes n).reply && (c.outcomes n).waits

/-- The last dispatch of a pass that begins with `n`, with `left` more attempts after it. -/
def lastAttempt : ℕ → ℕ → ℕ
  | 0, n => n
  | left + 1, n => if c.again n then lastAttempt left (n + 1) else n

/-- The last dispatch of a pass under the policy. -/
def lastOf (n : ℕ) : ℕ := c.lastAttempt (c.policy.maxAttempts - 1) n

/-- What a pass that begins with `n` and finds `body` hands to the transport: the body is set back
to the buffered one on every attempt after the first. -/
def retryMiddleware (key : Option String) (n : ℕ) (body : List UInt8) : List Sent :=
  (List.range' n (c.lastOf n + 1 - n)).filterMap fun i =>
    if (c.outcomes i).reply = .rejected then none
    else some ⟨if i = n then body else c.body, key⟩

/-- All the requests of a call, through the credential and the idempotency layers.  The second pass
finds what the last dispatch of the first, which began with the whole body, has not read. -/
def authMiddleware : List Sent :=
  if c.idempotency = .missing then []
  else
    let last := c.lastOf 0
    c.retryMiddleware (c.idempotencyKey 0) 0 c.body ++
      if (c.outcomes last).reply = .status 401 ∧ c.revokes ∧ c.reapplies then
        c.retryMiddleware (c.idempotencyKey 1) (last + 1) (c.body.drop (c.outcomes last).read)
      else []

/-- Every request has the complete body, and all have one key. -/
def SameRequest : Prop :=
  ∀ s ∈ c.authMiddleware, s.body = c.body ∧ ∀ s' ∈ c.authMiddleware, s'.key = s.key

/-- The first pass ends with the dispatch `n`: those before it are repeated, it is not. -/
def EndsAt (n : ℕ) : Prop :=
  n ≤ c.policy.maxAttempts - 1 ∧ (∀ i < n, c.again i = true) ∧
    (n = c.policy.maxAttempts - 1 ∨ c.again n = false)

/-- The first pass ends with the dispatch `n`, and its 401 starts a second one that reaches the
transport. -/
def DispatchesAgain (n : ℕ) : Prop :=
  c.EndsAt n ∧ c.idempotency ≠ .missing ∧ (c.outcomes n).reply = .status 401 ∧
    c.revokes = true ∧ c.reapplies = true ∧ (c.outcomes (n + 1)).reply ≠ .rejected

variable {c}

theorem lastAttempt_eq_iff (left n m : ℕ) : c.lastAttempt left n = m ↔
    n ≤ m ∧ m ≤ n + left ∧ (∀ i, n ≤ i → i < m → c.again i = true) ∧
      (m = n + left ∨ c.again m = false) := by
  induction left generalizing n with
  | zero => grind [lastAttempt]
  | succ left ih =>
    rw [lastAttempt]
    split_ifs with hagain
    · -- the next dispatch is of the pass, and `n` is not its last
      grind
    · grind

theorem endsAt_iff {n : ℕ} : c.EndsAt n ↔ c.lastOf 0 = n := by
  simp [lastOf, lastAttempt_eq_iff, EndsAt]

theorem mem_retryMiddleware {key : Option String} {n : ℕ} {body : List UInt8} {s : Sent} :
    s ∈ c.retryMiddleware key n body ↔ ∃ i, n ≤ i ∧ i ≤ c.lastOf n ∧
      (c.outcomes i).reply ≠ .rejected ∧ s = ⟨if i = n then body else c.body, key⟩ := by
  have hle : n ≤ c.lastOf n := ((lastAttempt_eq_iff _ n _).1 rfl).1
  simp only [retryMiddleware, List.mem_filterMap, List.mem_range'_1]
  rw [show n + (c.lastOf n + 1 - n) = c.lastOf n + 1 by omega]
  refine exists_congr fun i => ?_
  by_cases hr : (c.outcomes i).reply = .rejected
  · simp [hr]
  · simp [hr, Nat.lt_succ_iff, and_assoc, eq_comm]

theorem retryMiddleware_of_rejected {n : ℕ} (h : (c.outcomes n).reply = .rejected)
    (key : Option String) (body : List UInt8) : c.retryMiddleware key n body = [] := by
  have hlast : c.lastOf n = n := (lastAttempt_eq_iff _ _ _).2
    ⟨Nat.le_refl _, by omega, by omega, .inr (by simp [again, h, shouldRetry])⟩
  simp [retryMiddleware, hlast, h]

/-- **One request.**  All requests a call hands to the transport have the complete body and one key,
exactly when the last dispatch of the first pass has read nothing of the body and no key is
generated, in case its 401 starts a second pass that reaches the transport. -/
theorem same_request_iff (c : Call) : c.SameRequest ↔ ∀ n, c.DispatchesAgain n →
    c.body.drop (c.outcomes n).read = c.body ∧ c.idempotency ≠ .generated := by
  by_cases hmiss : c.idempotency = .missing
  · simp [SameRequest, authMiddleware, DispatchesAgain, hmiss]
  have hfirst : ∀ s ∈ c.retryMiddleware (c.idempotencyKey 0) 0 c.body,
      s = ⟨c.body, c.idempotencyKey 0⟩ := by
    simp [mem_retryMiddleware]
  have hsame : (∀ s ∈ c.authMiddleware, s = ⟨c.body, c.idempotencyKey 0⟩) → c.SameRequest :=
    fun h s hs => ⟨by rw [h s hs], fun s' hs' => by rw [h s hs, h s' hs']⟩
  by_cases hd : c.DispatchesAgain (c.lastOf 0)
  · obtain ⟨-, -, h401, hrev, hre, hnext⟩ := id hd
    have hauth : c.authMiddleware = c.retryMiddleware (c.idempotencyKey 0) 0 c.body ++
        c.retryMiddleware (c.idempotencyKey 1) (c.lastOf 0 + 1)
          (c.body.drop (c.outcomes (c.lastOf 0)).read) := by
      simp [authMiddleware, hmiss, h401, hrev, hre]
    constructor
    · intro h n hn
      rw [SameRequest, hauth] at h
      obtain rfl := endsAt_iff.1 hn.1
      obtain ⟨hbody, hkey⟩ := h _ (List.mem_append_right _ (mem_retryMiddleware.2
        ⟨_, Nat.le_refl _, ((lastAttempt_eq_iff _ _ _).1 rfl).1, hnext, rfl⟩))
      refine ⟨by simpa using hbody, fun hgen => ?_⟩
      have hkey := hkey _ (List.mem_append_left _ (mem_retryMiddleware.2
        ⟨_, Nat.zero_le _, Nat.le_refl _, by simp [h401], rfl⟩))
      simp [idempotencyKey, hgen, c.minted_ne] at hkey
    · intro h
      obtain ⟨hbody, hgen⟩ := h _ hd
      have hkey : c.idempotencyKey 1 = c.idempotencyKey 0 := by
        cases hi : c.idempotency <;> simp_all [idempotencyKey]
      refine hsame fun s hs => ?_
      rcases List.mem_append.1 (hauth ▸ hs) with hs | hs
      · exact hfirst s hs
      · obtain ⟨i, -, -, -, rfl⟩ := mem_retryMiddleware.1 hs
        simp [hbody, hkey]
  · refine iff_of_true (hsame fun s hs => hfirst s ?_)
      fun n hn => absurd (endsAt_iff.1 hn.1 ▸ hn) hd
    rw [authMiddleware, if_neg hmiss, List.mem_append] at hs
    refine hs.resolve_right fun hs => ?_
    split_ifs at hs with hagain
    · rw [retryMiddleware_of_rejected] at hs
      · cases hs
      · by_contra hnext
        exact hd ⟨endsAt_iff.2 rfl, hmiss, hagain.1, hagain.2.1, hagain.2.2, hnext⟩
    · cases hs

/-- The first dispatch is read to its end and answered by a 401, so the second has no body. -/
theorem body_lost_on_unauthorized : ¬SameRequest
    { body := [1, 2], revokes := true, minted := toString, minted_ne := by decide,
      outcomes := fun n => if n = 0 then ⟨.status 401, 2, true⟩ else ⟨.status 200, 2, true⟩ } := by
  unfold SameRequest
  decide

end Call

end Omnicore.HttpClient
