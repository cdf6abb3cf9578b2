import Omnicore.Web.QueryCriteria

/-!
# The client address behind trusted proxies

Every proxy appends the address it was called from to the forwarded header, so the entries are
walked from the right: the first one that is no trusted proxy is the caller, and what stands left of
it is the caller's own writing.  The header may come on several lines, a proxy being free to add one
of its own; the middleware reads the first.

## Main definitions

* `TrustedSet` : the compiled allowlist.
* `resolveClientIP`, `clientIPMiddleware` : the walk, and the header it is made on.
* `Shows` : the last entry of a line that is no trusted proxy reads as an address.

## Main results

* `client_address_iff` : the caller's own address is resolved exactly if the first line shows it,
  which it does where the entry of that address stands on the first line.
* `forged_on_first_line` : a caller that sends a line of its own chooses its address.
-/

namespace Omnicore.Bootstrap

open List Queryschema

/-- The functions of the standard library on addresses, whose text is never empty. -/
structure Net (ι : Type) where
  parseIP : List Char → Option ι
  parseCIDR : List Char → Option (ι → Bool)
  splitHostPort : List Char → Option (List Char)
  isLoopback : ι → Bool
  isPrivate : ι → Bool
  isLinkLocal : ι → Bool
  text : ι → String
  text_ne : ∀ ip, text ip ≠ ""

/-- The trusted peers, as they are configured. -/
structure TrustProxyConfig where
  proxies : List String := []
  trustPrivate : Bool := false
  loopback : Bool := false
  linkLocal : Bool := false

/-- The compiled allowlist. -/
structure TrustedSet (ι : Type) where
  ips : List String
  ranges : List (ι → Bool)
  trustPrivate : Bool
  loopback : Bool
  linkLocal : Bool

variable {ι : Type} (net : Net ι)

/-- Compile the allowlist: an entry with a slash is a range. -/
def TrustProxyConfig.compile (t : TrustProxyConfig) : TrustedSet ι where
  ips := (t.proxies.filter ('/' ∉ ·.toList)).filterMap fun p => (net.parseIP p.toList).map net.text
  ranges := (t.proxies.filter ('/' ∈ ·.toList)).filterMap fun p => net.parseCIDR p.toList
  trustPrivate := t.trustPrivate
  loopback := t.loopback
  linkLocal := t.linkLocal

/-- The allowlist has an address. -/
def TrustedSet.contains (s : TrustedSet ι) (ip : ι) : Bool :=
  net.text ip ∈ s.ips || s.loopback && net.isLoopback ip || s.trustPrivate && net.isPrivate ip ||
    s.linkLocal && net.isLinkLocal ip || s.ranges.any (· ip)

/-- Drop brackets at both ends. -/
def trimBrackets (cs : List Char) : List Char :=
  ((cs.dropWhile (· ∈ ['[', ']'])).reverse.dropWhile (· ∈ ['[', ']'])).reverse

/-- Read one entry: an address, or a host and a port. -/
def parseForwardedEntry (raw : List Char) : Option ι :=
  let e := trimSpace raw
  if e = [] then none
  else
    match net.parseIP e with
    | some ip => some ip
    | none => (net.splitHostPort e).bind fun host => net.parseIP (trimBrackets host)

/-- The walk over the entries from the right; an entry that cannot be read ends it. -/
def walk (s : TrustedSet ι) : List (List Char) → String
  | [] => ""
  | e :: es =>
    match parseForwardedEntry net e with
    | none => ""
    | some ip => if s.contains net ip then walk s es else net.text ip

/-- The entries of a line. -/
def entries (line : String) : List (List Char) := line.toList.splitOn ','

/-- The address a chain of entries vouches for. -/
def resolveClientIP (s : TrustedSet ι) (chain : String) : String :=
  if chain = "" then "" else walk net s (entries chain).reverse

/-- The address the middleware deposits.  Of a header on several lines it sees the first. -/
def clientIPMiddleware (s : TrustedSet ι) (isProxyTrusted : Bool) (lines : List String) :
    Option String :=
  let ip := resolveClientIP net s (lines.head?.getD "")
  if isProxyTrusted ∧ ip ≠ "" then some ip else none

/-! ### The walk -/

/-- An entry reads as the address of a trusted proxy. -/
def TrustedEntry (s : TrustedSet ι) (e : List Char) : Prop :=
  ∃ ip, parseForwardedEntry net e = some ip ∧ s.contains net ip = true

/-- An entry reads as an address outside the allowlist. -/
def UntrustedEntry (s : TrustedSet ι) (text : String) (e : List Char) : Prop :=
  ∃ ip, parseForwardedEntry net e = some ip ∧ s.contains net ip = false ∧ net.text ip = text

/-- The last entry of a line that is no trusted proxy reads as the address. -/
def Shows (s : TrustedSet ι) (text line : String) : Prop :=
  ∃ before e after, entries line = before ++ e :: after ∧ UntrustedEntry net s text e ∧
    ∀ e' ∈ after, TrustedEntry net s e'

variable {net} {s : TrustedSet ι} {text : String}

theorem walk_eq_iff (htext : text ≠ "") {es : List (List Char)} :
    walk net s es = text ↔ ∃ after e before, es = after ++ e :: before ∧
      UntrustedEntry net s text e ∧ ∀ e' ∈ after, TrustedEntry net s e' := by
  induction es with
  | nil => simp [walk, htext.symm]
  | cons e es ih =>
    rw [walk]
    constructor
    · intro h
      split at h
      · exact absurd h.symm htext
      · rename_i ip hip
        split_ifs at h with hc
        · obtain ⟨after, e', before, rfl, hun, htr⟩ := ih.1 h
          exact ⟨e :: after, e', before, rfl, hun, forall_mem_cons.2 ⟨⟨ip, hip, hc⟩, htr⟩⟩
        · exact ⟨[], e, es, rfl, ⟨ip, hip, by simpa using hc, h⟩, nofun⟩
    · rintro ⟨_ | ⟨e', after⟩, e1, before, he, hun, htr⟩ <;> obtain ⟨rfl, rfl⟩ := cons.inj he
      · obtain ⟨ip, hip, hc, rfl⟩ := hun
        simp [hip, hc]
      · obtain ⟨⟨ip, hip, hc⟩, htr⟩ := forall_mem_cons.1 htr
        simpa [hip, hc] using ih.2 ⟨after, e1, before, rfl, hun, htr⟩

theorem resolveClientIP_eq_iff (htext : text ≠ "") (line : String) :
    resolveClientIP net s line = text ↔ Shows net s text line := by
  have hwalk : resolveClientIP net s line = walk net s (entries line).reverse := by
    rw [resolveClientIP]
    split_ifs with hline
    · subst hline
      rfl
    · rfl
  rw [hwalk, walk_eq_iff htext, Shows]
  constructor
  · rintro ⟨after, e, before, he, hun, htr⟩
    refine ⟨before.reverse, e, after.reverse, ?_, hun, fun e' h => htr e' (mem_reverse.1 h)⟩
    rw [← reverse_reverse (entries line), he]
    simp
  · rintro ⟨before, e, after, he, hun, htr⟩
    exact ⟨after.reverse, e, before.reverse, by simp [he], hun,
      fun e' h => htr e' (mem_reverse.1 h)⟩

/-- **The client address.**  A trusted peer hands over a header whose lines hold what the caller
wrote, the caller's own address and the addresses of trusted proxies.  The address resolved is the
caller's exactly if the first line shows it, and it does where the entry of the address stands on
that line. -/
theorem client_address_iff (net : Net ι) (t : TrustProxyConfig) (line : String)
    (lines : List String) (content proxies : List (List Char)) (own : List Char) (ip : ι)
    (hform : (line :: lines).flatMap entries = content ++ own :: proxies)
    (hown : parseForwardedEntry net own = some ip)
    (huntrusted : (t.compile net).contains net ip = false)
    (htrusted : ∀ e ∈ proxies, TrustedEntry net (t.compile net) e) :
    (clientIPMiddleware net (t.compile net) true (line :: lines) = some (net.text ip) ↔
      Shows net (t.compile net) (net.text ip) line) ∧
    (content.length < (entries line).length → Shows net (t.compile net) (net.text ip) line) := by
  constructor
  · rw [← resolveClientIP_eq_iff (net.text_ne ip), clientIPMiddleware]
    constructor
    · intro h
      split_ifs at h
      exact Option.some.inj h
    · intro h
      rw [if_pos ⟨rfl, h.trans_ne (net.text_ne ip)⟩]
      exact congrArg some h
  · intro hlen
    -- the first line ends past the caller's entry, among the proxies
    obtain ⟨rest, hline, hrest⟩ | ⟨rest, hcontent, -⟩ := append_eq_append_iff.1 hform.symm
    · cases rest with
      | nil => simp [hline] at hlen
      | cons e rest =>
        obtain ⟨rfl, hproxies⟩ := cons.inj hrest
        refine ⟨content, own, rest, hline, ⟨ip, hown, huntrusted, rfl⟩, fun e he => htrusted e ?_⟩
        rw [hproxies]
        exact mem_append_left _ he
    · rw [hcontent, length_append] at hlen
      omega

/-- Addresses of four numbers. -/
def ipv4 : Net (ℕ × ℕ × ℕ × ℕ) where
  parseIP cs :=
    match (cs.splitOn '.').map Decimal.parseDigits with
    | [some a, some b, some c, some d] =>
      if [a, b, c, d].all (· < 256) then some (a, b, c, d) else none
    | _ => none
  parseCIDR _ := none
  splitHostPort cs := if ':' ∈ cs then some (cs.takeWhile (· ≠ ':')) else none
  isLoopback ip := ip.1 = 127
  isPrivate ip := ip.1 = 10 || ip.1 = 172 && 16 ≤ ip.2.1 && ip.2.1 < 32 ||
    ip.1 = 192 && ip.2.1 = 168
  isLinkLocal ip := ip.1 = 169 && ip.2.1 = 254
  text ip := toString ip.1 ++ "." ++ toString ip.2.1 ++ "." ++ toString ip.2.2.1 ++ "." ++
    toString ip.2.2.2
  text_ne ip h := by simpa using congrArg (·.toList.length) h

/-- A caller that writes an address in front of its own is still seen. -/
theorem caller_seen_on_one_line :
    clientIPMiddleware ipv4 (TrustProxyConfig.compile ipv4 { trustPrivate := true }) true
      ["6.6.6.6,203.0.113.9, 10.0.0.1"] = some "203.0.113.9" := by
  have h := client_address_iff ipv4 { trustPrivate := true } "6.6.6.6,203.0.113.9, 10.0.0.1" []
    ["6.6.6.6".toList] [" 10.0.0.1".toList] "203.0.113.9".toList (203, 0, 113, 9) (by decide)
    (by decide) (by decide) (by
      simp only [forall_mem_singleton]
      exact ⟨(10, 0, 0, 1), by decide, by decide⟩)
  exact h.1.2 (h.2 (by decide))

/-- **Forged on a line of its own.**  The caller at 203.0.113.9 sends the header with an address it
likes, and the proxy at 10.0.0.1 in front of the peer adds a line. -/
theorem forged_on_first_line :
    ["6.6.6.6", "203.0.113.9, 10.0.0.1"].flatMap entries =
      ["6.6.6.6".toList] ++ "203.0.113.9".toList :: [" 10.0.0.1".toList] ∧
    ["203.0.113.9", " 10.0.0.1"].map (fun e => (parseForwardedEntry ipv4 e.toList).map
      ((TrustProxyConfig.compile ipv4 { trustPrivate := true }).contains ipv4)) =
      [some false, some true] ∧
    clientIPMiddleware ipv4 (TrustProxyConfig.compile ipv4 { trustPrivate := true }) true
      ["6.6.6.6", "203.0.113.9, 10.0.0.1"] = some "6.6.6.6" := by
  decide +kernel

end Omnicore.Bootstrap
