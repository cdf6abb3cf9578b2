import Omnicore.Lib.AssocMap

/-!
# The cache of the external token validator

A bearer token is checked with the identity provider, and an accepted one may be remembered for a
while under a digest of it.  What is remembered should be a confirmation by the provider itself;
the validator remembers whatever its call let pass, and a fail-open call lets errors pass.

## Main definitions

* `ExternalValidator.callIdP`, `ExternalValidator.validate` : one check.
* `ExternalValidator.serve` : a sequence of checks, with a log of how each was answered.

## Main results

* `ExternalValidator.cache_confirmed_iff` : when an answer from the cache rests on a confirmation.
-/

namespace Omnicore.Web

/-- A response body, with what the checked path leads to in it.  `κ` are the values of answers. -/
inductive IdPBody (κ : Type) where
  | unreadable
  | malformed
  | value (got : Option κ)

/-- What asking the identity provider comes to. -/
inductive IdPOutcome (κ : Type) where
  | buildError
  | transportError
  | response (status : ℕ) (body : IdPBody κ)

/-- Why a token is rejected. -/
inductive ValidatorError where
  | buildRequest
  | http
  | non2xx (status : ℕ)
  | readBody
  | parseJSON
  | pathNotFound
  | notExpected

/-- A prepared validator; `ttl` is the lifetime of what it remembers, none without a cache. -/
structure ExternalValidator (κ : Type) where
  expectedValue : κ
  failOpen : Bool
  ttl : Option ℕ
  tokenCacheKey : String → String

/-- A check of a token.  The clock is read by the look into the cache, by its second look, and when
the answer is remembered. -/
structure ValidateCall (κ : Type) where
  token : String
  outcome : IdPOutcome κ
  now : ℕ
  recheck : ℕ
  remembered : ℕ

/-- A check that was made: its result, and the instant of the look that answered it. -/
structure Served (κ : Type) where
  call : ValidateCall κ
  result : Except ValidatorError Unit
  fromCache : Option ℕ

namespace ExternalValidator

variable {κ : Type} [DecidableEq κ]

/-- The fail mode: closed propagates an error, open swallows it. -/
def handleError (v : ExternalValidator κ) (e : ValidatorError) : Except ValidatorError Unit :=
  if v.failOpen then .ok () else .error e

/-- Ask the identity provider. -/
def callIdP (v : ExternalValidator κ) : IdPOutcome κ → Except ValidatorError Unit
  | .buildError => v.handleError .buildRequest
  | .transportError => v.handleError .http
  | .response status body =>
    if status < 200 ∨ 300 ≤ status then v.handleError (.non2xx status)
    else match body with
      | .unreadable => v.handleError .readBody
      | .malformed => v.handleError .parseJSON
      -- these two are the provider's answer that the token is not active, in either mode
      | .value none => .error .pathNotFound
      | .value (some got) => if got = v.expectedValue then .ok () else .error .notExpected

/-- A success response with a value to check. -/
def Answers : IdPOutcome κ → Prop
  | .response status (.value _) => 200 ≤ status ∧ status < 300
  | _ => False

/-- A success response with the expected value. -/
def Confirms (v : ExternalValidator κ) : IdPOutcome κ → Prop
  | .response status (.value got) => 200 ≤ status ∧ status < 300 ∧ got = some v.expectedValue
  | _ => False

/-- Look a key up: the instant at which its entry was found alive, and the entries that are left.
An entry seen expired is looked at once more before it is dropped. -/
def hit (cache : AssocMap String ℕ) (key : String) (now recheck : ℕ) :
    Option ℕ × AssocMap String ℕ :=
  match cache.get key with
  | none => (none, cache)
  | some exp =>
    if now ≤ exp then (some now, cache)
    else if recheck ≤ exp then (some recheck, cache)
    else (none, cache.erase key)

/-- Check a token: the cache, then the provider, whose acceptance is remembered. -/
def validate (v : ExternalValidator κ) (cache : AssocMap String ℕ) (c : ValidateCall κ) :
    Served κ × AssocMap String ℕ :=
  match v.ttl with
  | none => (⟨c, v.callIdP c.outcome, none⟩, cache)
  | some ttl =>
    match hit cache (v.tokenCacheKey c.token) c.now c.recheck with
    | (some t, cache) => (⟨c, .ok (), some t⟩, cache)
    | (none, cache) =>
      match v.callIdP c.outcome with
      | .error e => (⟨c, .error e, none⟩, cache)
      | .ok () => (⟨c, .ok (), none⟩, cache.set (v.tokenCacheKey c.token) (c.remembered + ttl))

/-- One more check of a sequence: the log grows by it. -/
def advance (v : ExternalValidator κ) (s : List (Served κ) × AssocMap String ℕ)
    (c : ValidateCall κ) : List (Served κ) × AssocMap String ℕ :=
  ((v.validate s.2 c).1 :: s.1, (v.validate s.2 c).2)

/-- The log and the cache after a sequence of checks. -/
def serve (v : ExternalValidator κ) (calls : List (ValidateCall κ)) :
    List (Served κ) × AssocMap String ℕ :=
  calls.foldl v.advance ([], [])

/-- The provider was asked about a token and confirmed it, at most a lifetime before `t`. -/
def ConfirmedAt (v : ExternalValidator κ) (log : List (Served κ)) (token : String) (t : ℕ) : Prop :=
  ∃ s ∈ log, s.call.token = token ∧ s.fromCache = none ∧ v.Confirms s.call.outcome ∧
    ∃ ttl, v.ttl = some ttl ∧ t ≤ s.call.remembered + ttl

/-- After some checks, one is answered from the cache only for a token that was confirmed. -/
def CacheConfirmed (v : ExternalValidator κ) (earlier : List (ValidateCall κ))
    (c : ValidateCall κ) : Prop :=
  ∀ t, (v.validate (v.serve earlier).2 c).1.fromCache = some t →
    v.ConfirmedAt (v.serve earlier).1 c.token t

/-- What is remembered of a token was confirmed: the invariant of the cache. -/
def Backed (v : ExternalValidator κ) (s : List (Served κ) × AssocMap String ℕ) : Prop :=
  ∀ token exp, s.2.get (v.tokenCacheKey token) = some exp → v.ConfirmedAt s.1 token exp

variable {v : ExternalValidator κ}

/-- An accepted outcome is a confirmation, unless it is an error that the fail mode swallows. -/
theorem confirms_of_callIdP {o : IdPOutcome κ} (hfine : v.failOpen = false ∨ Answers o)
    (h : v.callIdP o = .ok ()) : v.Confirms o := by
  cases o with
  | response status body =>
    simp only [callIdP] at h
    split_ifs at h with hs
    · simp_all [handleError, Answers]
      cases body <;> simp_all
      omega
    · cases body with
      | value got => cases got <;> simp_all [Confirms]
      | _ => simp_all [handleError, Answers]
  | _ => simp_all [callIdP, handleError, Answers]

theorem hit_spec {cache cache' : AssocMap String ℕ} {key : String} {now recheck : ℕ}
    {found : Option ℕ} (h : hit cache key now recheck = (found, cache')) :
    (∀ t, found = some t → ∃ exp, cache.get key = some exp ∧ t ≤ exp) ∧
      ∀ k exp, cache'.get k = some exp → cache.get k = some exp := by
  unfold hit at h
  split at h
  · cases h
    exact ⟨nofun, fun _ _ h => h⟩
  · rename_i exp hget
    split_ifs at h with hnow hre <;> cases h
    · exact ⟨fun t ht => ⟨exp, hget, by cases ht; exact hnow⟩, fun _ _ h => h⟩
    · exact ⟨fun t ht => ⟨exp, hget, by cases ht; exact hre⟩, fun _ _ h => h⟩
    · refine ⟨nofun, fun k e hk => ?_⟩
      rw [AssocMap.get_erase] at hk
      split_ifs at hk
      exact hk

variable {s : List (Served κ) × AssocMap String ℕ} {c : ValidateCall κ}

theorem Backed.confirmed (h : v.Backed s) {t : ℕ} (ht : (v.validate s.2 c).1.fromCache = some t) :
    v.ConfirmedAt s.1 c.token t := by
  unfold validate at ht
  split at ht
  · cases ht
  · split at ht
    · rename_i hhit
      cases ht
      obtain ⟨exp, hget, hle⟩ := (hit_spec hhit).1 _ rfl
      obtain ⟨s', hs', htok, hasked, hconf, ttl, httl, hexp⟩ := h c.token exp hget
      exact ⟨s', hs', htok, hasked, hconf, ttl, httl, Nat.le_trans hle hexp⟩
    · split at ht <;> cases ht

theorem Backed.advance (hinj : Function.Injective v.tokenCacheKey) (h : v.Backed s)
    (hfine : v.failOpen = false ∨ Answers c.outcome) : v.Backed (v.advance s c) := by
  intro token exp hget
  have hold : s.2.get (v.tokenCacheKey token) = some exp →
      v.ConfirmedAt (v.advance s c).1 token exp := by
    intro hs
    obtain ⟨s', hs', hrest⟩ := h token exp hs
    exact ⟨s', List.mem_cons_of_mem _ hs', hrest⟩
  simp only [ExternalValidator.advance, validate] at hget hold ⊢
  cases httl : v.ttl with
  | none => simp_all
  | some ttl =>
    rcases hhit : hit s.2 (v.tokenCacheKey c.token) c.now c.recheck with ⟨found, cache⟩
    have hkept := (hit_spec hhit).2 (v.tokenCacheKey token) exp
    simp only [httl, hhit] at hget hold ⊢
    cases found with
    | some t => exact hold (hkept hget)
    | none =>
      cases hcall : v.callIdP c.outcome with
      | error e =>
        simp only [hcall] at hget hold ⊢
        exact hold (hkept hget)
      | ok u =>
        simp only [hcall, AssocMap.get_set] at hget hold ⊢
        split_ifs at hget with hkey
        · cases hget
          exact ⟨_, List.mem_cons_self, hinj hkey, rfl, confirms_of_callIdP hfine hcall, ttl,
            httl, Nat.le_refl _⟩
        · exact hold (hkept hget)

theorem Backed.serve (hinj : Function.Injective v.tokenCacheKey) (calls : List (ValidateCall κ)) :
    ∀ s, v.Backed s → (∀ c ∈ calls, v.failOpen = false ∨ Answers c.outcome) →
      v.Backed (calls.foldl v.advance s) := by
  induction calls with
  | nil => exact fun s h _ => h
  | cons c calls ih =>
    intro s h hfine
    exact ih _ (h.advance hinj (hfine c List.mem_cons_self))
      fun c' hc' => hfine c' (List.mem_cons_of_mem _ hc')

/-- A check of a token whose provider cannot be reached. -/
def unreachable (token : String) : ValidateCall κ := ⟨token, .transportError, 0, 0, 0⟩

theorem not_cacheConfirmed_unreachable (hopen : v.failOpen = true) {ttl : ℕ}
    (httl : v.ttl = some ttl) (token : String) :
    ¬ v.CacheConfirmed [unreachable token] (unreachable token) := by
  intro h
  obtain ⟨s, hs, -, -, hconf, -⟩ := h 0 (by
    simp [ExternalValidator.serve, ExternalValidator.advance, validate, httl, hit, unreachable,
      callIdP, handleError, hopen])
  simp only [ExternalValidator.serve, ExternalValidator.advance, validate, httl, hit, unreachable,
    callIdP, handleError, hopen, List.foldl_cons, List.foldl_nil, List.mem_singleton] at hs
  simp [hs, Confirms] at hconf

/-- **What an answer from the cache rests on.**  After checks that met no error the fail mode
swallows, it rests on the provider's confirmation of that token within the lifetime.  It does so
after every sequence of checks exactly when errors fail closed or there is no cache. -/
theorem cache_confirmed_iff (v : ExternalValidator κ) (hinj : Function.Injective v.tokenCacheKey) :
    (∀ earlier c, (∀ c' ∈ earlier, v.failOpen = false ∨ Answers c'.outcome) →
      v.CacheConfirmed earlier c) ∧
    ((∀ earlier c, v.CacheConfirmed earlier c) ↔ v.failOpen = false ∨ v.ttl = none) := by
  have henough : ∀ earlier c, (∀ c' ∈ earlier, v.failOpen = false ∨ Answers c'.outcome) →
      v.CacheConfirmed earlier c := by
    intro earlier c hfine t ht
    have hback : v.Backed (v.serve earlier) := Backed.serve hinj earlier ([], []) nofun hfine
    exact hback.confirmed ht
  refine ⟨henough, fun hall => ?_, ?_⟩
  · by_contra hnot
    obtain ⟨hopen, hcache⟩ := not_or.mp hnot
    obtain ⟨ttl, httl⟩ := Option.ne_none_iff_exists'.mp hcache
    exact not_cacheConfirmed_unreachable (by simpa using hopen) httl "" (hall _ _)
  · rintro (hclosed | hnone) earlier c
    · exact henough earlier c fun _ _ => .inl hclosed
    · intro t ht
      simp [validate, hnone] at ht

/-- A validator that remembers for a minute. -/
def remembering (failOpen : Bool) : ExternalValidator Bool := ⟨true, failOpen, some 60, id⟩

theorem confirmed_token_is_remembered :
    ((remembering false).validate ((remembering false).serve
      [⟨"t", .response 200 (.value (some true)), 0, 0, 1⟩]).2 (unreachable "t")).1.fromCache
        = some 0 ∧
    (remembering false).CacheConfirmed [⟨"t", .response 200 (.value (some true)), 0, 0, 1⟩]
      (unreachable "t") :=
  ⟨by decide, (cache_confirmed_iff _ Function.injective_id).2.mpr (.inl rfl) _ _⟩

/-- The provider is down while a token is checked.  The check passes for want of an answer, and the
next one is answered from the cache although none was ever given. -/
theorem swallowed_error_is_remembered :
    ((remembering true).validate ((remembering true).serve [unreachable "t"]).2
      (unreachable "t")).1.fromCache = some 0 ∧
    ¬ (remembering true).CacheConfirmed [unreachable "t"] (unreachable "t") :=
  ⟨by decide, not_cacheConfirmed_unreachable rfl rfl "t"⟩

end ExternalValidator

end Omnicore.Web
