import Omnicore.Lib.AssocMap
import Omnicore.Lib.Machine

/-!
# Rotation of refresh tokens

A refresh token is meant to be redeemed once: a redemption looks its record up, marks it used and
saves a successor of the same family.  Presenting a used value again revokes the family.  The store
is the service's own and offers four operations, each atomic; a redemption is a sequence of them,
and redemptions run concurrently.

## Main definitions

* `redeemMachine` : any number of calls of `RedeemRefreshToken`, one store operation at a time.
* `ChecksAlone`, `RevokesAlone` : no call reads a token another one is about to mark, and none
  revokes a family in which another one is about to save a successor.

## Main results

* `redeemed_once_of_checksAlone` : then a token value is redeemed at most once.
* `family_dead_of_revokesAlone` : then a detected reuse leaves no value of the family to redeem.
-/

namespace Omnicore.Authcore

open List AssocMap
open Option (map_eq_some_iff map_none)

/-- The persisted state of one refresh token. -/
structure RefreshTokenRecord where
  hash : String
  familyID : String
  subject : String
  audience : List String
  expiresAt : ℕ
  used : Bool := false
  revoked : Bool := false
  deriving DecidableEq, Repr

/-! ### The store -/

/-- The records of a store, by hash. -/
abbrev RefreshTokenStore := AssocMap String RefreshTokenRecord

namespace RefreshTokenStore

/-- Save a record under its hash. -/
def save (store : RefreshTokenStore) (rec : RefreshTokenRecord) : RefreshTokenStore :=
  set store rec.hash rec

/-- The record of a hash, absent where none matches. -/
def lookup (store : RefreshTokenStore) (hash : String) : Option RefreshTokenRecord := get store hash

/-- Mark the record of a hash used; there must be one. -/
def markUsed (store : RefreshTokenStore) (hash : String) : Option RefreshTokenStore :=
  (store.lookup hash).map fun rec => set store hash { rec with used := true }

/-- A record after the revocation of a family. -/
def revokeRecord (familyID : String) (rec : RefreshTokenRecord) : RefreshTokenRecord :=
  if rec.familyID = familyID then { rec with revoked := true } else rec

/-- Revoke every record of a family. -/
def revokeFamily (store : RefreshTokenStore) (familyID : String) : RefreshTokenStore :=
  store.map fun p => (p.1, revokeRecord familyID p.2)

end RefreshTokenStore

/-! ### Calls -/

/-- Why a redemption is refused. -/
inductive RedeemError where
  | notFound
  | reused
  | expired
  /-- A store operation, the signing of the access token or the random source failed. -/
  | failed
  deriving DecidableEq, Repr

/-- Where a call of `RedeemRefreshToken` stands, with the record it has read. -/
inductive Phase where
  | start
  /-- The record was used: the family is about to be revoked. -/
  | reuse (rec : RefreshTokenRecord)
  /-- The record passed every check and is about to be marked. -/
  | checked (rec : RefreshTokenRecord)
  /-- The record is marked and a successor is about to be saved. -/
  | marked (rec : RefreshTokenRecord)
  /-- The call returned the value of the successor, or an error. -/
  | returned (rec : Option RefreshTokenRecord) (result : Except RedeemError String)
  deriving DecidableEq, Repr

/-- One call, with the value presented. -/
structure Call where
  value : String
  phase : Phase := .start
  deriving DecidableEq, Repr

/-- The store, the calls made so far, the clock, and the number of values generated. -/
structure RedeemState where
  store : RefreshTokenStore := []
  calls : List Call := []
  now : ℕ := 0
  minted : ℕ := 0
  deriving DecidableEq, Repr

/-- What the issuer takes from its surroundings: the random values, their hash, and the lifetime of
a token. -/
structure IssuerEnv where
  newValue : ℕ → String
  hashRefreshValue : String → String
  refreshTokenTTL : ℕ

/-- One step of the system.  A store operation of the call at a position either takes effect or
fails. -/
inductive RedeemAction where
  | tick
  | call (value : String)
  | lookup (i : ℕ) (ok : Bool)
  | revokeFamily (i : ℕ) (ok : Bool)
  | markUsed (i : ℕ) (ok : Bool)
  | mintRefresh (i : ℕ) (ok : Bool)
  deriving DecidableEq, Repr

namespace RedeemState

/-- Move the call at a position to another phase. -/
def setPhase (s : RedeemState) (i : ℕ) (c : Call) (phase : Phase) : RedeemState :=
  { s with calls := s.calls.set i { c with phase } }

end RedeemState

/-- What a call does with the answer of its lookup. -/
def afterLookup (now : ℕ) : Option RefreshTokenRecord → Phase
  | none => .returned none (.error .notFound)
  | some rec =>
    if rec.revoked then .returned (some rec) (.error .reused)
    else if rec.used then .reuse rec
    else if rec.expiresAt < now then .returned (some rec) (.error .expired)
    else .checked rec

variable (env : IssuerEnv)

/-- The record of the successor of a token. -/
def successor (s : RedeemState) (rec : RefreshTokenRecord) : RefreshTokenRecord where
  hash := env.hashRefreshValue (env.newValue s.minted)
  familyID := rec.familyID
  subject := rec.subject
  audience := rec.audience
  expiresAt := s.now + env.refreshTokenTTL

/-- The step of the call `c` at position `i`. -/
def stepCall (s : RedeemState) (i : ℕ) (c : Call) : RedeemAction → Option RedeemState
  | .lookup _ ok =>
    match c.phase with
    | .start =>
      if ok then
        some (s.setPhase i c (afterLookup s.now (s.store.lookup (env.hashRefreshValue c.value))))
      else some (s.setPhase i c (.returned none (.error .failed)))
    | _ => none
  | .revokeFamily _ ok =>
    match c.phase with
    | .reuse rec =>
      if ok then
        some ({ s with store := s.store.revokeFamily rec.familyID }.setPhase i c
          (.returned (some rec) (.error .reused)))
      else some (s.setPhase i c (.returned (some rec) (.error .failed)))
    | _ => none
  | .markUsed _ ok =>
    match c.phase with
    | .checked rec =>
      match if ok then s.store.markUsed (env.hashRefreshValue c.value) else none with
      | some store => some ({ s with store }.setPhase i c (.marked rec))
      | none => some (s.setPhase i c (.returned (some rec) (.error .failed)))
    | _ => none
  | .mintRefresh _ ok =>
    match c.phase with
    | .marked rec =>
      if ok then
        some ({ s with store := s.store.save (successor env s rec),
                       minted := s.minted + 1 }.setPhase
          i c (.returned (some rec) (.ok (env.newValue s.minted))))
      else some (s.setPhase i c (.returned (some rec) (.error .failed)))
    | _ => none
  | .tick | .call _ => none

/-- Any number of concurrent redemptions. -/
def redeemMachine : Machine RedeemState RedeemAction where
  step s a :=
    match a with
    | .tick => some { s with now := s.now + 1 }
    | .call value => some { s with calls := s.calls ++ [{ value }] }
    | .lookup i _ | .revokeFamily i _ | .markUsed i _ | .mintRefresh i _ =>
      s.calls[i]?.bind fun c => stepCall env s i c a

/-! ### The two properties -/

/-- The call returned a new pair. -/
def Call.redeemed (c : Call) : Bool :=
  match c.phase with
  | .returned _ (.ok _) => true
  | _ => false

/-- At most one call returned a new pair for a value. -/
def RedeemedOnce (s : RedeemState) : Prop :=
  ∀ (i j : ℕ) (c d : Call), s.calls[i]? = some c → s.calls[j]? = some d → c.value = d.value →
    c.redeemed → d.redeemed → i = j

/-- The call is past its check and has not marked the token yet. -/
def Call.checking (c : Call) : Bool :=
  match c.phase with
  | .checked _ => true
  | _ => false

/-- No call looks a token up while another one of the same value is about to mark it. -/
def ChecksAlone (s : RedeemState) : RedeemAction → Prop
  | .lookup i _ => ∀ c ∈ s.calls[i]?, ∀ d ∈ s.calls,
      env.hashRefreshValue d.value = env.hashRefreshValue c.value → d.checking = false
  | _ => True

instance (s : RedeemState) (a : RedeemAction) : Decidable (ChecksAlone env s a) := by
  cases a <;> unfold ChecksAlone <;> infer_instance

/-- The family in which the call is about to save a successor. -/
def Call.rotating (c : Call) : Option String :=
  match c.phase with
  | .checked rec | .marked rec => some rec.familyID
  | _ => none

/-- The family the call is about to revoke. -/
def Call.revoking (c : Call) : Option String :=
  match c.phase with
  | .reuse rec => some rec.familyID
  | _ => none

/-- No call revokes a family while another one is about to save a successor in it. -/
def RevokesAlone (s : RedeemState) : RedeemAction → Prop
  | .revokeFamily i _ => ∀ c ∈ s.calls[i]?, ∀ d ∈ s.calls,
      d.rotating.isSome → d.rotating ≠ c.revoking
  | _ => True

instance (s : RedeemState) (a : RedeemAction) : Decidable (RevokesAlone s a) := by
  cases a <;> unfold RevokesAlone <;> infer_instance

/-- Some call answered a reuse of the family. -/
def ReportedReuse (s : RedeemState) (familyID : String) : Prop :=
  ∃ c ∈ s.calls, ∃ rec, c.phase = .returned (some rec) (.error .reused) ∧ rec.familyID = familyID

/-- The call has returned. -/
def Call.finished (c : Call) : Bool :=
  match c.phase with
  | .returned _ _ => true
  | _ => false

/-- A family with a detected reuse has no value left to redeem once every call has returned. -/
def ReuseKillsFamily (s : RedeemState) : Prop :=
  ∀ familyID, ReportedReuse s familyID → (∀ c ∈ s.calls, c.finished) →
    ∀ hash rec, s.store.lookup hash = some rec → rec.familyID = familyID →
      ∀ rec', afterLookup s.now (some rec) ≠ .checked rec'

/-! ### Steps -/

/-- What a step of the call `c` does: the store and the number of generated values it leaves, and
the phase it moves to. -/
inductive CallMove (s : RedeemState) (i : ℕ) (c : Call) :
    RedeemAction → RefreshTokenStore → ℕ → Phase → Prop
  | lookup (h : c.phase = .start) : CallMove s i c (.lookup i true) s.store s.minted
      (afterLookup s.now (s.store.lookup (env.hashRefreshValue c.value)))
  | revoke {rec : RefreshTokenRecord} (h : c.phase = .reuse rec) :
      CallMove s i c (.revokeFamily i true) (s.store.revokeFamily rec.familyID) s.minted
        (.returned (some rec) (.error .reused))
  | mark {rec : RefreshTokenRecord} {store : RefreshTokenStore} (h : c.phase = .checked rec)
      (hstore : s.store.markUsed (env.hashRefreshValue c.value) = some store) :
      CallMove s i c (.markUsed i true) store s.minted (.marked rec)
  | mint {rec : RefreshTokenRecord} (h : c.phase = .marked rec) :
      CallMove s i c (.mintRefresh i true) (s.store.save (successor env s rec)) (s.minted + 1)
        (.returned (some rec) (.ok (env.newValue s.minted)))
  | fail {a : RedeemAction} {rec : Option RefreshTokenRecord} :
      CallMove s i c a s.store s.minted (.returned rec (.error .failed))

variable {env}

variable {c : Call} {calls : List Call} {phase : Phase} {a : RedeemAction} {s s' : RedeemState}
  {store : RefreshTokenStore} {i minted : ℕ}

theorem step_ok (h : (redeemMachine env).step s a = some s') :
    (s'.store = s.store ∧ s'.minted = s.minted ∧
      (s'.calls = s.calls ∨ ∃ value, s'.calls = s.calls ++ [{ value := value }])) ∨
    ∃ i c phase, s.calls[i]? = some c ∧ CallMove env s i c a s'.store s'.minted phase ∧
      s'.calls = s.calls.set i { c with phase } := by
  cases a with
  | tick => cases h; exact .inl ⟨rfl, rfl, .inl rfl⟩
  | call value => cases h; exact .inl ⟨rfl, rfl, .inr ⟨value, rfl⟩⟩
  | lookup i ok | revokeFamily i ok | mintRefresh i ok | markUsed i ok =>
    obtain ⟨c, hc, h⟩ := Option.bind_eq_some_iff.1 h
    refine .inr ⟨i, c, ?_⟩
    cases hp : c.phase <;> simp [stepCall, hp] at h
    cases ok with
    | true =>
      first
      | cases h; exact ⟨_, hc, by constructor; exact hp, rfl⟩
      | cases hm : s.store.markUsed (env.hashRefreshValue c.value) with
        | some store => simp only [hm, if_true] at h; cases h; exact ⟨_, hc, .mark hp hm, rfl⟩
        | none => simp only [hm, if_true] at h; cases h; exact ⟨_, hc, .fail, rfl⟩
    | false => cases h; exact ⟨_, hc, .fail, rfl⟩

variable {d : Call} {hash : String} {rec : RefreshTokenRecord}

/-- A call of the state after a step stood there before, was just made, or is the one that
moved. -/
theorem getElem?_calls_of_move {j : ℕ} (hcalls : calls = s.calls.set i { c with phase })
    (hd : calls[j]? = some d) :
    (j ≠ i ∧ s.calls[j]? = some d) ∨ (j = i ∧ d = { c with phase }) := by
  rw [hcalls, getElem?_set] at hd
  by_cases hij : i = j
  · subst hij
    simp only [if_true] at hd
    split_ifs at hd
    exact .inr ⟨rfl, (Option.some.inj hd).symm⟩
  · simp only [hij, if_false] at hd
    exact .inl ⟨fun h => hij h.symm, hd⟩

theorem getElem?_append_call {value : String} {j : ℕ}
    (hd : (calls ++ [{ value := value }])[j]? = some d) :
    calls[j]? = some d ∨ d = { value := value } := by
  rcases Nat.lt_or_ge j calls.length with hj | hj
  · rw [getElem?_append_left hj] at hd
    exact .inl hd
  · rw [getElem?_append_right hj] at hd
    have := mem_of_getElem? hd
    exact .inr (by simpa using this)

/-! ### What the store operations do to a record -/

namespace RefreshTokenStore

theorem lookup_save (hash : String) :
    (store.save rec).lookup hash = if rec.hash = hash then some rec else store.lookup hash :=
  get_set store rec.hash hash rec

theorem lookup_revokeFamily (familyID hash : String) :
    (store.revokeFamily familyID).lookup hash = (store.lookup hash).map (revokeRecord familyID) :=
  get_map store (fun _ => revokeRecord familyID) hash

theorem lookup_markUsed {store store' : RefreshTokenStore} {hash : String}
    (h : store.markUsed hash = some store') (hash' : String) :
    store'.lookup hash' = (store.lookup hash').map fun rec =>
      if hash = hash' then { rec with used := true } else rec := by
  obtain ⟨rec, hrec, rfl⟩ := map_eq_some_iff.1 h
  simp only [lookup] at hrec ⊢
  rw [get_set]
  by_cases heq : hash = hash'
  · subst heq
    simp [hrec]
  · simp [heq]

end RefreshTokenStore

/-- The values still to be generated have no record. -/
def Unissued (env : IssuerEnv) (store : RefreshTokenStore) (minted : ℕ) : Prop :=
  ∀ k, minted ≤ k → store.lookup (env.hashRefreshValue (env.newValue k)) = none

/-- The values generated have different hashes. -/
def FreshValues (env : IssuerEnv) : Prop :=
  Function.Injective fun k => env.hashRefreshValue (env.newValue k)

theorem CallMove.unissued (hfresh : FreshValues env) (h : CallMove env s i c a store minted phase)
    (hs : Unissued env s.store s.minted) : Unissued env store minted := by
  cases h with
  | lookup | fail => exact hs
  | revoke hp =>
    intro k hk
    rw [RefreshTokenStore.lookup_revokeFamily, hs k hk, map_none]
  | mark hp hstore =>
    intro k hk
    rw [RefreshTokenStore.lookup_markUsed hstore, hs k hk, map_none]
  | mint hp =>
    intro k hk
    have hne : (env.hashRefreshValue (env.newValue s.minted)) ≠
        env.hashRefreshValue (env.newValue k) := by
      intro heq
      have := hfresh heq
      omega
    rw [RefreshTokenStore.lookup_save, if_neg (by exact hne)]
    exact hs k (Nat.le_of_succ_le hk)

theorem CallMove.lookup_some (h : CallMove env s i c a store minted phase)
    (hs : Unissued env s.store s.minted) (hrec : s.store.lookup hash = some rec) :
    ∃ rec', store.lookup hash = some rec' ∧ (rec.used = true → rec'.used = true) := by
  cases h with
  | lookup | fail => exact ⟨rec, hrec, id⟩
  | revoke hp =>
    rw [RefreshTokenStore.lookup_revokeFamily, hrec]
    refine ⟨_, rfl, ?_⟩
    unfold RefreshTokenStore.revokeRecord
    split_ifs <;> exact id
  | mark hp hstore =>
    rw [RefreshTokenStore.lookup_markUsed hstore, hrec]
    refine ⟨_, rfl, ?_⟩
    split_ifs
    · exact fun _ => rfl
    · exact id
  | mint hp =>
    have hne : env.hashRefreshValue (env.newValue s.minted) ≠ hash := by
      intro heq
      have hnone := hs s.minted (Nat.le_refl _)
      rw [heq, hrec] at hnone
      cases hnone
    rw [RefreshTokenStore.lookup_save, if_neg (by exact hne)]
    exact ⟨rec, hrec, id⟩

/-! ### A value is redeemed once -/

/-- The call holds the token: it passed the check, and has not failed since. -/
def Call.holds (c : Call) : Bool :=
  match c.phase with
  | .checked _ | .marked _ | .returned _ (.ok _) => true
  | _ => false

/-- The call has marked the token. -/
def Call.spent (c : Call) : Bool :=
  match c.phase with
  | .marked _ | .returned _ (.ok _) => true
  | _ => false

theorem Call.holds_of_redeemed (h : c.redeemed) : c.holds := by
  obtain ⟨value, phase⟩ := c
  cases phase with
  | returned rec result => cases result <;> simp_all [redeemed, holds]
  | _ => simp_all [redeemed]

theorem Call.holds_iff : c.holds ↔ c.checking ∨ c.spent := by
  obtain ⟨value, phase⟩ := c
  cases phase with
  | returned rec result => cases result <;> simp [holds, checking, spent]
  | _ => simp [holds, checking, spent]

/-- One call holds a token, and the record of a spent token is marked. -/
structure HeldOnce (env : IssuerEnv) (s : RedeemState) : Prop where
  once : ∀ (i j : ℕ) (c d : Call), s.calls[i]? = some c → s.calls[j]? = some d →
    env.hashRefreshValue c.value = env.hashRefreshValue d.value → c.holds → d.holds → i = j
  used : ∀ (j : ℕ) (d : Call), s.calls[j]? = some d → d.spent →
    ∃ rec, s.store.lookup (env.hashRefreshValue d.value) = some rec ∧ rec.used = true
  unissued : Unissued env s.store s.minted

/-- A lookup passes an unused record that is not revoked, answers a reuse for a revoked one, and
otherwise goes on to revoke or fails. -/
theorem afterLookup_cases (now : ℕ) (found : Option RefreshTokenRecord) :
    (∃ rec, found = some rec ∧ rec.used = false ∧ rec.revoked = false ∧
      afterLookup now found = .checked rec) ∨
    (∃ rec, found = some rec ∧ rec.revoked = true ∧
      afterLookup now found = .returned (some rec) (.error .reused)) ∨
    (∃ rec, afterLookup now found = .reuse rec) ∨
    (∃ o err, err ≠ .reused ∧ afterLookup now found = .returned o (.error err)) := by
  cases found with
  | none => exact .inr (.inr (.inr ⟨none, .notFound, nofun, rfl⟩))
  | some rec =>
    simp only [afterLookup]
    split_ifs with hrevoked hused hexpired
    · exact .inr (.inl ⟨rec, rfl, hrevoked, rfl⟩)
    · exact .inr (.inr (.inl ⟨rec, rfl⟩))
    · exact .inr (.inr (.inr ⟨some rec, .expired, nofun, rfl⟩))
    · exact .inl ⟨rec, rfl, by simpa using hused, by simpa using hrevoked, rfl⟩

theorem CallMove.holds (h : CallMove env s i c a store minted phase)
    (hh : ({ c with phase } : Call).holds) :
    c.holds ∨ (a = .lookup i true ∧ ∃ rec, phase = .checked rec ∧
      s.store.lookup (env.hashRefreshValue c.value) = some rec ∧ rec.used = false) := by
  cases h with
  | lookup hp =>
    rcases afterLookup_cases s.now (s.store.lookup (env.hashRefreshValue c.value)) with
      ⟨rec, hfound, hused, -, hphase⟩ | ⟨rec, -, -, hphase⟩ | ⟨rec, hphase⟩ | ⟨o, err, -, hphase⟩
    · exact .inr ⟨rfl, rec, hphase, hfound, hused⟩
    all_goals simp [hphase, Call.holds] at hh
  | mark hp | mint hp => left; simp [Call.holds, hp]
  | revoke | fail => simp [Call.holds] at hh

theorem CallMove.spent (h : CallMove env s i c a store minted phase)
    (hh : ({ c with phase } : Call).spent) :
    c.spent ∨ ∃ rec, store.lookup (env.hashRefreshValue c.value) = some rec ∧ rec.used = true := by
  cases h with
  | lookup hp =>
    rcases afterLookup_cases s.now (s.store.lookup (env.hashRefreshValue c.value)) with
      ⟨rec, -, -, -, hphase⟩ | ⟨rec, -, -, hphase⟩ | ⟨rec, hphase⟩ | ⟨o, err, -, hphase⟩ <;>
    simp [hphase, Call.spent] at hh
  | mark hp hstore =>
    obtain ⟨rec, hrec, -⟩ := map_eq_some_iff.1 hstore
    refine .inr ⟨{ rec with used := true }, ?_, rfl⟩
    rw [RefreshTokenStore.lookup_markUsed hstore, hrec]
    simp
  | mint hp => left; simp [Call.spent, hp]
  | revoke | fail => simp [Call.spent] at hh

/-- **Step.** -/
theorem HeldOnce.step (hfresh : FreshValues env) (hs : HeldOnce env s) (ha : ChecksAlone env s a)
    (hstep : (redeemMachine env).step s a = some s') : HeldOnce env s' := by
  rcases step_ok hstep with ⟨hstore, hminted, hcalls⟩ | ⟨i, c, phase, hc, hmove, hcalls⟩
  · -- a new call holds nothing
    have hold : ∀ (j : ℕ) (d : Call), s'.calls[j]? = some d → d.holds → s.calls[j]? = some d := by
      intro j d hd hh
      rcases hcalls with hcalls | ⟨value, hcalls⟩
      · rwa [hcalls] at hd
      · rw [hcalls] at hd
        rcases getElem?_append_call hd with hd | rfl
        · exact hd
        · simp [Call.holds] at hh
    refine ⟨?_, ?_, ?_⟩
    · intro i j c d hc hd heq hch hdh
      exact hs.once i j c d (hold i c hc hch) (hold j d hd hdh) heq hch hdh
    · intro j d hd hsp
      rw [hstore]
      exact hs.used j d (hold j d hd (d.holds_iff.2 (.inr hsp))) hsp
    · rw [hstore, hminted]
      exact hs.unissued
  · -- nobody else holds the token the moving call comes to hold
    have halone : ∀ (j : ℕ) (d : Call), j ≠ i → s.calls[j]? = some d →
        env.hashRefreshValue c.value = env.hashRefreshValue d.value →
        ({ c with phase } : Call).holds → ¬ d.holds := by
      intro j d hj hd heq hch hdh
      rcases hmove.holds hch with hch | ⟨rfl, rec, -, hrec, hunused⟩
      · exact hj (hs.once i j c d hc hd heq hch hdh).symm
      · rcases d.holds_iff.1 hdh with hcheck | hspent
        · have := ha c hc d (mem_of_getElem? hd) heq.symm
          rw [hcheck] at this
          cases this
        · obtain ⟨rec', hrec', hused⟩ := hs.used j d hd hspent
          rw [← heq, hrec] at hrec'
          cases hrec'
          rw [hunused] at hused
          cases hused
    refine ⟨?_, ?_, hmove.unissued hfresh hs.unissued⟩
    · intro j k d e hd he heq hdh heh
      rcases getElem?_calls_of_move hcalls hd with ⟨hj, hd⟩ | ⟨rfl, rfl⟩ <;>
      rcases getElem?_calls_of_move hcalls he with ⟨hk, he⟩ | ⟨rfl, rfl⟩
      · exact hs.once j k d e hd he heq hdh heh
      · exact absurd hdh (halone j d hj hd heq.symm heh)
      · exact absurd heh (halone k e hk he heq hdh)
      · rfl
    · have hkeep : ∀ (j : ℕ) (d : Call), s.calls[j]? = some d → d.spent →
          ∃ rec, s'.store.lookup (env.hashRefreshValue d.value) = some rec ∧ rec.used = true := by
        intro j d hd hsp
        obtain ⟨rec, hrec, hused⟩ := hs.used j d hd hsp
        obtain ⟨rec', hrec', hused'⟩ := hmove.lookup_some hs.unissued hrec
        exact ⟨rec', hrec', hused' hused⟩
      intro j d hd hsp
      rcases getElem?_calls_of_move hcalls hd with ⟨-, hd⟩ | ⟨rfl, rfl⟩
      · exact hkeep j d hd hsp
      · rcases hmove.spent hsp with hsp | hused
        · exact hkeep j c hc hsp
        · exact hused

/-- **A token value is redeemed at most once** in every run in which no call looks a token up while
another one is between its check and its mark. -/
theorem redeemed_once_of_checksAlone (hfresh : FreshValues env) {store : RefreshTokenStore}
    (hunissued : Unissued env store 0) {now : ℕ} {as : List RedeemAction} {s : RedeemState}
    (hC : (redeemMachine env).Along (ChecksAlone env) { store, now } as)
    (hrun : (redeemMachine env).run { store, now } as = some s) : RedeemedOnce s := by
  have hinit : HeldOnce env { store, now } :=
    ⟨fun i j c d hc => by simp at hc, fun j d hd => by simp at hd, hunissued⟩
  have hheld := Machine.run_invariant
    (fun s a s' hs ha hstep => HeldOnce.step hfresh hs ha hstep) hinit hC hrun
  intro i j c d hc hd heq hcr hdr
  exact hheld.once i j c d hc hd (by rw [heq]) (c.holds_of_redeemed hcr) (d.holds_of_redeemed hdr)

/-- Values of growing length, stored as they are. -/
def plainIssuer : IssuerEnv where
  newValue k := String.ofList (replicate k 'x')
  hashRefreshValue value := value
  refreshTokenTTL := 30

/-- A session with one token. -/
def oneSession : RefreshTokenStore :=
  [("a", { hash := "a", familyID := "f", subject := "u", audience := [], expiresAt := 9 })]

theorem freshValues_plainIssuer : FreshValues plainIssuer := by
  intro k l h
  have := congrArg (fun v : String => v.toList.length) h
  simpa [plainIssuer] using this

theorem unissued_oneSession : Unissued plainIssuer oneSession 0 := by
  intro k _
  have hne : "a" ≠ String.ofList (replicate k 'x') := by
    intro h
    have hmem : 'a' ∈ (String.ofList (replicate k 'x')).toList := h ▸ by decide
    rw [String.toList_ofList] at hmem
    exact absurd (eq_of_mem_replicate hmem) (by decide)
  simp [plainIssuer, oneSession, RefreshTokenStore.lookup, get_cons, hne]

/-- Two calls one after the other: the first is answered a pair, the second a reuse. -/
theorem redeemed_once_sequential :
    ∃ s, (redeemMachine plainIssuer).run { store := oneSession }
        [.call "a", .call "a", .lookup 0 true, .markUsed 0 true, .mintRefresh 0 true,
          .lookup 1 true, .revokeFamily 1 true] = some s ∧ RedeemedOnce s := by
  exact Machine.exists_run (fun _ => True) ⟨_, rfl, trivial⟩ fun s hs _ =>
    redeemed_once_of_checksAlone freshValues_plainIssuer unissued_oneSession (by decide +kernel) hs

/-- Two calls that both look the token up before either marks it are both answered a pair. -/
theorem redeemed_twice_of_concurrent_lookups :
    ∃ s, (redeemMachine plainIssuer).run { store := oneSession }
        [.call "a", .call "a", .lookup 0 true, .lookup 1 true, .markUsed 0 true,
          .markUsed 1 true, .mintRefresh 0 true, .mintRefresh 1 true] = some s ∧
      ¬ RedeemedOnce s := by
  refine ⟨_, rfl, fun h => ?_⟩
  exact absurd (h 0 1 _ _ rfl rfl rfl rfl rfl) (by decide)

/-! ### A detected reuse kills the family -/

/-- The family of a stored hash, and whether its record is revoked. -/
def familyOf (store : RefreshTokenStore) (hash : String) : Option (String × Bool) :=
  (store.lookup hash).map fun rec => (rec.familyID, rec.revoked)

theorem familyOf_of_lookup (h : store.lookup hash = some rec) :
    familyOf store hash = some (rec.familyID, rec.revoked) := by
  rw [familyOf, h, Option.map_some]

theorem familyOf_markUsed {store' : RefreshTokenStore} (h : store.markUsed hash = some store') :
    familyOf store' = familyOf store := by
  funext hash'
  rw [familyOf, familyOf, RefreshTokenStore.lookup_markUsed h, Option.map_map]
  congr 1
  funext rec
  split_ifs <;> rfl

theorem familyOf_revokeFamily (familyID hash : String) :
    familyOf (store.revokeFamily familyID) hash =
      (familyOf store hash).map fun p => (p.1, if p.1 = familyID then true else p.2) := by
  rw [familyOf, familyOf, RefreshTokenStore.lookup_revokeFamily, Option.map_map, Option.map_map]
  congr 1
  funext rec
  simp only [Function.comp_apply, RefreshTokenStore.revokeRecord]
  split_ifs <;> rfl

/-- A call about to save a successor does so in a family that is not revoked, and the family of a
reuse it answered is revoked. -/
structure Call.Sound (store : RefreshTokenStore) (c : Call) : Prop where
  rotating : ∀ familyID, c.rotating = some familyID → ∃ h, familyOf store h = some (familyID, false)
  reused : ∀ rec, c.phase = .returned (some rec) (.error .reused) →
    ∀ h b, familyOf store h = some (rec.familyID, b) → b = true

/-- The records of a family are revoked together. -/
def RevokedTogether (store : RefreshTokenStore) : Prop :=
  ∀ h₁ h₂ familyID b₁ b₂, familyOf store h₁ = some (familyID, b₁) →
    familyOf store h₂ = some (familyID, b₂) → b₁ = b₂

/-- The invariant of the families. -/
structure FamiliesSound (env : IssuerEnv) (s : RedeemState) : Prop where
  together : RevokedTogether s.store
  calls : ∀ c ∈ s.calls, c.Sound s.store
  unissued : Unissued env s.store s.minted

theorem Call.Sound.of_idle (hrot : c.rotating = none)
    (hreused : ∀ rec, c.phase ≠ .returned (some rec) (.error .reused)) : c.Sound store :=
  ⟨fun familyID h => by simp [hrot] at h, fun rec h => absurd h (hreused rec)⟩

theorem Call.Sound.afterLookup (htogether : RevokedTogether store) (c : Call) (now : ℕ)
    (hash : String) :
    ({ c with phase := Authcore.afterLookup now (store.lookup hash) } : Call).Sound store := by
  rcases afterLookup_cases now (store.lookup hash) with
    ⟨rec, hfound, -, hrevoked, hphase⟩ | ⟨rec, hfound, hrevoked, hphase⟩ | ⟨rec, hphase⟩ |
    ⟨o, err, herr, hphase⟩ <;> rw [hphase]
  · refine ⟨fun familyID h => ⟨hash, ?_⟩, nofun⟩
    cases h
    rw [familyOf_of_lookup hfound, hrevoked]
  · refine ⟨nofun, fun rec' h h' b hb => ?_⟩
    cases h
    rw [← hrevoked]
    exact htogether h' hash rec.familyID b rec.revoked hb (familyOf_of_lookup hfound)
  · exact .of_idle rfl nofun
  · refine .of_idle rfl fun rec h => ?_
    cases h
    exact herr rfl

theorem Call.Sound.revokeFamily (hd : d.Sound store) {familyID : String}
    (hne : d.rotating.isSome → d.rotating ≠ some familyID) :
    d.Sound (store.revokeFamily familyID) := by
  refine ⟨fun f hf => ?_, fun rec hphase h b hb => ?_⟩
  · obtain ⟨h, hh⟩ := hd.rotating f hf
    have hff : f ≠ familyID := by
      rintro rfl
      exact hne (by rw [hf]; rfl) hf
    exact ⟨h, by simp [familyOf_revokeFamily, hh, hff]⟩
  · rw [familyOf_revokeFamily, map_eq_some_iff] at hb
    obtain ⟨⟨f, b'⟩, hfam, heq⟩ := hb
    cases heq
    split_ifs
    · rfl
    · exact hd.reused rec hphase h b' hfam

theorem RevokedTogether.revokeFamily (h : RevokedTogether store) (familyID : String) :
    RevokedTogether (store.revokeFamily familyID) := by
  intro h1 h2 f b1 b2 hb1 hb2
  rw [familyOf_revokeFamily, map_eq_some_iff] at hb1 hb2
  obtain ⟨⟨f1, c1⟩, hc1, heq1⟩ := hb1
  obtain ⟨⟨f2, c2⟩, hc2, heq2⟩ := hb2
  cases heq1
  cases heq2
  split_ifs
  · rfl
  · exact h h1 h2 _ c1 c2 hc1 hc2

section Mint

variable {store : RefreshTokenStore} {rec : RefreshTokenRecord}

theorem familyOf_save (hash : String) :
    familyOf (store.save rec) hash =
      if rec.hash = hash then some (rec.familyID, rec.revoked) else familyOf store hash := by
  rw [familyOf, RefreshTokenStore.lookup_save]
  split_ifs <;> rfl

/-- A record saved in a family with a record that is not revoked, itself not revoked, keeps the
families together. -/
theorem RevokedTogether.save (h : RevokedTogether store) (hrec : rec.revoked = false)
    (hfam : familyOf store hash = some (rec.familyID, false)) :
    RevokedTogether (store.save rec) := by
  have hold : ∀ h1 b, familyOf (store.save rec) h1 = some (rec.familyID, b) → b = false := by
    intro h1 b hb
    rw [familyOf_save] at hb
    split_ifs at hb with hh
    · cases hb
      exact hrec
    · exact h h1 hash rec.familyID b false hb hfam
  intro h1 h2 f b1 b2 hb1 hb2
  by_cases hf : f = rec.familyID
  · subst hf
    rw [hold h1 b1 hb1, hold h2 b2 hb2]
  · rw [familyOf_save] at hb1 hb2
    split_ifs at hb1 with hh1
    · exact absurd (by cases hb1; rfl) hf
    · split_ifs at hb2 with hh2
      · exact absurd (by cases hb2; rfl) hf
      · exact h h1 h2 f b1 b2 hb1 hb2

theorem Call.Sound.save {d : Call} (hd : d.Sound store)
    (hfam : familyOf store hash = some (rec.familyID, false))
    (hfree : familyOf store rec.hash = none) : d.Sound (store.save rec) := by
  refine ⟨fun f hf => ?_, fun r hphase h b hb => ?_⟩
  · obtain ⟨h, hh⟩ := hd.rotating f hf
    refine ⟨h, ?_⟩
    rw [familyOf_save, if_neg, hh]
    rintro rfl
    rw [hfree] at hh
    cases hh
  · rw [familyOf_save] at hb
    split_ifs at hb with hh
    · -- the family of an answered reuse has no record that is not revoked
      obtain ⟨hf, -⟩ := Prod.mk.inj (Option.some.inj hb)
      exact absurd (hd.reused r hphase hash false (hf ▸ hfam)) (by decide)
    · exact hd.reused r hphase h b hb

end Mint

/-- **Step.** -/
theorem FamiliesSound.step (hfresh : FreshValues env) (hs : FamiliesSound env s)
    (ha : RevokesAlone s a) (hstep : (redeemMachine env).step s a = some s') :
    FamiliesSound env s' := by
  rcases step_ok hstep with ⟨hstore, hminted, hcalls⟩ | ⟨i, c, phase, hc, hmove, hcalls⟩
  · refine ⟨hstore ▸ hs.together, fun d hd => ?_, hstore ▸ hminted ▸ hs.unissued⟩
    rw [hstore]
    rcases hcalls with hcalls | ⟨value, hcalls⟩
    · exact hs.calls d (hcalls ▸ hd)
    · rcases mem_append.1 (hcalls ▸ hd) with hd | hd
      · exact hs.calls d hd
      · rw [mem_singleton.1 hd]
        exact .of_idle rfl nofun
  · have hunissued := hmove.unissued hfresh hs.unissued
    have hcm := hs.calls c (mem_of_getElem? hc)
    suffices h : RevokedTogether s'.store ∧ (∀ d ∈ s.calls, d.Sound s'.store) ∧
        ({ c with phase } : Call).Sound s'.store by
      obtain ⟨htogether, hothers, hmoved⟩ := h
      refine ⟨htogether, fun d hd => ?_, hunissued⟩
      rcases mem_or_eq_of_mem_set (hcalls ▸ hd) with hd | rfl
      · exact hothers d hd
      · exact hmoved
    generalize s'.store = store at hmove
    generalize s'.minted = minted at hmove
    cases hmove with
    | lookup hp => exact ⟨hs.together, hs.calls, .afterLookup hs.together c _ _⟩
    | @revoke rec hp =>
      refine ⟨hs.together.revokeFamily _, fun d hd => ?_, ⟨nofun, fun rec' h h' b hb => ?_⟩⟩
      · refine (hs.calls d hd).revokeFamily fun hsome => ?_
        have := ha c hc d hd hsome
        rwa [Call.revoking, hp] at this
      · cases h
        rw [familyOf_revokeFamily, map_eq_some_iff] at hb
        obtain ⟨⟨f, b'⟩, -, heq⟩ := hb
        cases heq
        simp
    | @mark rec _ hp hstore =>
      have hfam := familyOf_markUsed hstore
      have hsound : ∀ d : Call, d.Sound s.store → d.Sound store := by
        rintro d ⟨hrot, hreused⟩
        exact ⟨by rwa [hfam], by rwa [hfam]⟩
      refine ⟨by rw [RevokedTogether, hfam]; exact hs.together,
        fun d hd => hsound d (hs.calls d hd), hsound _ ⟨fun f hf => ?_, nofun⟩⟩
      exact hcm.rotating f (by rw [Call.rotating, hp]; exact hf)
    | @mint rec hp =>
      obtain ⟨hash, hhash⟩ := hcm.rotating rec.familyID (by rw [Call.rotating, hp])
      have hfree : familyOf s.store (successor env s rec).hash = none := by
        rw [familyOf, successor, hs.unissued s.minted (Nat.le_refl _), map_none]
      exact ⟨hs.together.save rfl hhash, fun d hd => (hs.calls d hd).save hhash hfree,
        .of_idle rfl nofun⟩
    | fail => exact ⟨hs.together, hs.calls, .of_idle rfl nofun⟩

/-- **A detected reuse leaves no value of the family to redeem** in every run that starts with
families revoked as a whole and in which no family is revoked while another call is between its
check and the save of the successor. -/
theorem family_dead_of_revokesAlone (hfresh : FreshValues env) {store : RefreshTokenStore}
    (hunissued : Unissued env store 0) (htogether : RevokedTogether store) {now : ℕ}
    {as : List RedeemAction} {s : RedeemState}
    (hC : (redeemMachine env).Along RevokesAlone { store, now } as)
    (hrun : (redeemMachine env).run { store, now } as = some s) : ReuseKillsFamily s := by
  have hinit : FamiliesSound env { store, now } := ⟨htogether, nofun, hunissued⟩
  have hsound := Machine.run_invariant
    (fun s a s' hs ha hstep => FamiliesSound.step hfresh hs ha hstep) hinit hC hrun
  rintro familyID ⟨c, hc, rec, hphase, rfl⟩ - hash rec' hlookup hfam rec'' hchecked
  have hrevoked := (hsound.calls c hc).reused rec hphase hash rec'.revoked
    (hfam ▸ familyOf_of_lookup hlookup)
  simp [afterLookup, hrevoked] at hchecked

/-- A session whose token was redeemed, presented again after the redemption has finished. -/
theorem family_dead_sequential :
    ∃ s, (redeemMachine plainIssuer).run { store := oneSession }
        [.call "a", .call "a", .lookup 0 true, .markUsed 0 true, .mintRefresh 0 true,
          .lookup 1 true, .revokeFamily 1 true] = some s ∧
      ReportedReuse s "f" ∧ ReuseKillsFamily s := by
  have htogether : RevokedTogether oneSession := by
    have hfalse : ∀ h f b, familyOf oneSession h = some (f, b) → b = false := by
      intro h f b hb
      simp only [familyOf, oneSession, RefreshTokenStore.lookup, get_cons, get_nil] at hb
      split_ifs at hb <;> cases hb
      rfl
    intro h1 h2 f b1 b2 hb1 hb2
    rw [hfalse h1 f b1 hb1, hfalse h2 f b2 hb2]
  exact Machine.exists_run (ReportedReuse · "f")
    ⟨_, rfl, _, mem_cons_of_mem _ mem_cons_self, _, rfl, rfl⟩ fun s hs hreused =>
    ⟨hreused, family_dead_of_revokesAlone freshValues_plainIssuer unissued_oneSession htogether
      (by decide +kernel) hs⟩

/-- A family revoked between the mark and the save of another call keeps the successor, which can
be redeemed after both calls returned. -/
theorem successor_survives_reuse :
    ∃ s, (redeemMachine plainIssuer).run { store := oneSession }
        [.call "a", .call "a", .lookup 0 true, .markUsed 0 true, .lookup 1 true,
          .revokeFamily 1 true, .mintRefresh 0 true] = some s ∧ ¬ ReuseKillsFamily s := by
  refine ⟨_, rfl, fun h => ?_⟩
  exact h "f" ⟨_, mem_cons_of_mem _ mem_cons_self, _, rfl, rfl⟩ (by decide +kernel) ""
    _ rfl rfl _ rfl

end Omnicore.Authcore
