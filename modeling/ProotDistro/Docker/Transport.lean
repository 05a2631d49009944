import ProotDistro.Download.Redirect
import ProotDistro.Lib.Result

/-!
# `docker/transport`: where a credential goes

The redirect handler of the registry drops the Authorization header on the way off the origin it was
addressed to. What a chain of redirects keeps is proved for one hop and carried along the chain.

* **`followRegistry_step`** — one redirect keeps the origin with the header, and stays on HTTPS.
* **`openChain_rules`** — so does a chain of any length, whatever the answers say.
-/

namespace ProotDistro

open Posix Download Url

namespace Docker

/-! ## Origins -/

/-- `_DEFAULT_PORTS` -/
def defaultPort (scheme : Str) : Option Nat :=
  if scheme = http then some 80 else if scheme = https then some 443 else none

/-- `port or default`: an absent port and port 0 are the same. -/
def orPort (port default : Option Nat) : Option Nat :=
  if port = none ∨ port = some 0 then default else port

/-- `same_auth_origin` -/
def sameAuthOrigin (t : Tables) (fromUrl toUrl : Str) : Bool :=
  match urlsplit t fromUrl [], urlsplit t toUrl [] with
  | some src, some dst =>
    match Url.port src.netloc, Url.port dst.netloc with
    | some srcPort, some dstPort =>
      if hostname t src.netloc = [] ∨ hostname t src.netloc ≠ hostname t dst.netloc then false
      else if src.scheme = dst.scheme then
        orPort srcPort (defaultPort src.scheme) = orPort dstPort (defaultPort src.scheme)
      else
        src.scheme = http && dst.scheme = https && srcPort ∈ [none, some 80] &&
          dstPort ∈ [none, some 443]
    | _, _ => false
  | _, _ => false

/-- `AuthStrippingRedirectHandler.redirect_request` -/
def stripAuthorization (t : Tables) (insecure : Bool) (req : Request) (code : Nat) (newurl : Str) :
    Except Refusal Request := do
  let new ← redirectRequest t insecure req code newurl
  if sameAuthOrigin t req.fullUrl newurl then .ok new else .ok { new with authorization := none }

/-- What `opener(insecure)` does with a redirect. -/
def followRegistry (t : Tables) (insecure : Bool) :
    Request → Nat → Option Str → Except Refusal Request :=
  httpError302 t insecure (stripAuthorization t insecure)

/-! ## The two rules -/

/-- The port a network location leads to over a scheme. -/
def portOf (scheme netloc : Str) : Option Nat :=
  match Url.port netloc with
  | none => none
  | some none => defaultPort scheme
  | some (some port) => some port

/-- An origin is kept: the same scheme, host and port, or the same host on the default ports and
HTTPS in the place of HTTP. -/
def KeepsOrigin (t : Tables) (a b : Address) : Prop :=
  hostname t a.netloc = hostname t b.netloc ∧
    (a.type = b.type ∧ portOf a.type a.netloc = portOf b.type b.netloc ∨
      a.type = http ∧ b.type = https ∧ portOf a.type a.netloc = some 80 ∧
        portOf b.type b.netloc = some 443)

/-- The Authorization header reaches a request only where every step on the way kept the origin. -/
def CredentialRule (t : Tables) (hops : List Request) : Prop :=
  ∀ k r, hops[k]? = some r → r.authorization ≠ none →
    (hops.take (k + 1)).IsChain fun a b => KeepsOrigin t a.address b.address

/-- Nothing is sent over HTTP after something was sent over HTTPS. -/
def TlsRule (hops : List Request) : Prop :=
  hops.Pairwise fun a b => a.address.type = https → b.address.type = https

/-- The ports that are written are those there are. -/
def PortsFromOne (hops : List Request) : Prop :=
  ∀ r ∈ hops, Url.port r.address.netloc ≠ some (some 0)

section Rules

variable {t : Tables} {insecure : Bool} {r r' : Request} {code : Nat} {location : Option Str}
  {scheme netloc core tail scheme' netloc' core' tail' fromUrl toUrl : Str}

/-- A port that is not written as 0 is read as the one it leads to. -/
theorem portOf_eq_orPort (scheme : Str) {port : Option Nat} (h : Url.port netloc = some port)
    (hzero : Url.port netloc ≠ some (some 0)) :
    portOf scheme netloc = orPort port (defaultPort scheme) := by
  unfold portOf orPort
  rw [h] at hzero ⊢
  cases port with
  | none => exact (if_pos (.inl rfl)).symm
  | some n =>
    refine (if_neg ?_).symm
    rintro (hnone | hsome)
    · cases hnone
    · exact hzero (congrArg some hsome)

/-- **What `same_auth_origin` lets through** keeps the origin. -/
theorem keepsOrigin_of_sameAuthOrigin (selector selector' : Str)
    (hfrom : Addressed fromUrl scheme netloc core tail)
    (hto : Addressed toUrl scheme' netloc' core' tail')
    (hport : Url.port netloc ≠ some (some 0)) (hport' : Url.port netloc' ≠ some (some 0))
    (h : sameAuthOrigin t fromUrl toUrl = true) :
    KeepsOrigin t ⟨scheme, netloc, selector⟩ ⟨scheme', netloc', selector'⟩ := by
  unfold sameAuthOrigin at h
  split at h
  · rename_i src dst hsrc hdst
    obtain ⟨hsrc₁, hsrc₂, -⟩ := hfrom.urlsplit hsrc
    obtain ⟨hdst₁, hdst₂, -⟩ := hto.urlsplit hdst
    rw [hsrc₁, hsrc₂, hdst₁, hdst₂] at h
    split at h
    · rename_i srcPort dstPort hsrcPort hdstPort
      have hsrcOf := portOf_eq_orPort scheme hsrcPort hport
      have hdstOf := portOf_eq_orPort scheme' hdstPort hport'
      split at h
      · cases h
      · rename_i hhost
        rw [not_or, not_not] at hhost
        refine ⟨hhost.2, ?_⟩
        split at h
        · rename_i hsame
          refine .inl ⟨hsame, ?_⟩
          show portOf scheme netloc = portOf scheme' netloc'
          rw [hsrcOf, hdstOf, ← hsame]
          exact decide_eq_true_eq.mp h
        · simp only [Bool.and_eq_true, decide_eq_true_eq] at h
          obtain ⟨⟨⟨hhttp, hhttps⟩, hsrc80⟩, hdst443⟩ := h
          refine .inr ⟨hhttp, hhttps, ?_, ?_⟩
          · show portOf scheme netloc = some 80
            rw [hsrcOf, hhttp]
            simp only [List.mem_cons, List.not_mem_nil, or_false] at hsrc80
            rcases hsrc80 with rfl | rfl <;> rfl
          · show portOf scheme' netloc' = some 443
            rw [hdstOf, hhttps]
            simp only [List.mem_cons, List.not_mem_nil, or_false] at hdst443
            rcases hdst443 with rfl | rfl
            · decide +kernel
            · rfl
    · cases h
  · cases h

/-- What one redirect keeps. -/
def Step (t : Tables) (insecure : Bool) (a b : Request) : Prop :=
  (b.authorization ≠ none → a.authorization ≠ none ∧ KeepsOrigin t a.address b.address) ∧
    (insecure = false → a.address.type = https → b.address.type = https)

/-- **One redirect** carries the header on only where it keeps the origin, and stays on HTTPS. -/
theorem followRegistry_step (hr : r.sendable = true)
    (hport : Url.port r.address.netloc ≠ some (some 0))
    (hport' : Url.port r'.address.netloc ≠ some (some 0))
    (h : followRegistry t insecure r code location = .ok r') : Step t insecure r r' := by
  unfold followRegistry httpError302 at h
  split at h
  · cases h
  · obtain ⟨-, -, h⟩ := Result.bind_ok h
    obtain ⟨newurl, htarget, h⟩ := Result.bind_ok h
    obtain ⟨new, hnew, h⟩ := Result.bind_ok h
    obtain ⟨quoted, hplain, hjoin⟩ := redirectTarget_ok htarget
    obtain ⟨made, hmade, hstrip⟩ := Result.bind_ok hnew
    obtain ⟨_, hcheck, hmake⟩ := Result.bind_ok hmade
    obtain ⟨scheme, netloc, core, tail, hto, hscheme, htls⟩ :=
      redirect_addressed hr hplain hjoin hcheck
    obtain ⟨core', tail', hfrom⟩ := r.addressed hr
    -- the request that urllib makes keeps the header and takes the address of the target
    have hsent : made.authorization = r.authorization ∧ made.address.type = scheme ∧
        made.address.netloc = netloc := by
      split at hmake
      · cases hmake
      · split at hmake
        · cases hmake
        · rename_i method _ _ hrequest
          cases hmake
          refine ⟨?_, newRequest_address hto hscheme hrequest⟩
          unfold newRequest at hrequest
          simp only at hrequest
          split at hrequest
          · cases hrequest
          · cases hrequest
            rfl
    obtain ⟨hauth, htype, hnetloc⟩ := hsent
    -- what is opened next is the request, checked once more
    have hresult : r'.address = new.address ∧ r'.authorization = new.authorization := by
      simp only at h
      split at h
      · cases h
      · cases h
        exact ⟨rfl, rfl⟩
    have hsame : new.address = made.address := by
      split at hstrip <;> cases hstrip <;> rfl
    rw [hresult.1, hsame] at hport'
    constructor
    -- the header is left where the origin is the same, and stripped elsewhere
    · intro hsome
      rw [hresult.2] at hsome
      rw [hresult.1, hsame]
      split at hstrip
      · rename_i horigin
        cases hstrip
        refine ⟨hauth ▸ hsome, ?_⟩
        have hkeeps := keepsOrigin_of_sameAuthOrigin r.address.selector
          new.address.selector hfrom hto hport (hnetloc ▸ hport') horigin
        rw [← htype, ← hnetloc] at hkeeps
        exact hkeeps
      · cases hstrip
        exact absurd rfl hsome
    -- a step down from HTTPS is refused before the request is made
    · intro hinsecure hhttps
      rw [hresult.1, hsame, htype]
      exact htls hinsecure hhttps

/-- The first request of a chain is the one given, and may be sent. -/
theorem openChain_head {follow : Request → Nat → Option Str → Except Refusal Request}
    {answers : List (Nat × Option Str)} :
    ∀ y ∈ (openChain follow r answers).head?, y = r ∧ r.sendable = true := by
  intro y hy
  unfold openChain at hy
  split at hy
  · split at hy
    · rename_i hsend
      cases hy
      exact ⟨rfl, hsend⟩
    · cases hy
  · split at hy
    · rename_i hsend
      refine ⟨?_, hsend⟩
      split at hy
      · split at hy <;> exact (Option.some.inj hy).symm
      · exact (Option.some.inj hy).symm
    · cases hy

/-- Every request of a chain is a redirect of the one before it. -/
theorem openChain_isChain (answers : List (Nat × Option Str)) :
    ∀ r : Request, PortsFromOne (openChain (followRegistry t insecure) r answers) →
      (openChain (followRegistry t insecure) r answers).IsChain (Step t insecure) := by
  induction answers with
  | nil =>
    intro r _
    unfold openChain
    split
    · exact .singleton r
    · exact .nil
  | cons answer answers ih =>
    intro r hports
    obtain ⟨code, location⟩ := answer
    unfold openChain at hports ⊢
    by_cases hsend : r.sendable = true
    · simp only [if_pos hsend] at hports ⊢
      by_cases hcode : code ∈ redirectCodes
      · simp only [if_pos hcode] at hports ⊢
        rcases hfollow : followRegistry t insecure r code location with e | r'
        · exact .singleton r
        · rw [hfollow] at hports
          have hrest : PortsFromOne (openChain (followRegistry t insecure) r' answers) :=
            fun x hx => hports x (List.mem_cons_of_mem r hx)
          refine List.IsChain.cons (ih r' hrest) fun y hy => ?_
          have hmem : y ∈ openChain (followRegistry t insecure) r' answers := List.mem_of_head? hy
          obtain ⟨rfl, -⟩ := openChain_head y hy
          exact followRegistry_step hsend (hports r List.mem_cons_self) (hrest y hmem) hfollow
      · simp only [if_neg hcode]
        exact .singleton r
    · simp only [if_neg hsend]
      exact .nil

/-- What every step of a chain keeps makes the two rules hold of the chain. -/
theorem rules_of_isChain {hops : List Request} (h : hops.IsChain (Step t insecure)) :
    CredentialRule t hops ∧ (insecure = false → TlsRule hops) := by
  constructor
  · intro k
    induction k with
    | zero =>
      intro r hr _
      rw [List.take_add_one, hr, List.take_zero]
      exact .singleton r
    | succ k ih =>
      intro r hr hauth
      have hlt : k < hops.length := by
        have := (List.getElem?_eq_some_iff.mp hr).1
        omega
      obtain ⟨hbefore, hstep⟩ : ∃ before, hops[k]? = some before ∧ Step t insecure before r := by
        obtain ⟨hlen, hget⟩ := List.getElem?_eq_some_iff.mp hr
        refine ⟨hops[k], List.getElem?_eq_getElem hlt, ?_⟩
        rw [← hget]
        exact h.getElem k hlen
      obtain ⟨hget, hstep⟩ := hstep
      obtain ⟨hauth', hkeeps⟩ := hstep.1 hauth
      rw [List.take_add_one, hr]
      refine List.IsChain.append (ih _ hget hauth') (.singleton r) fun x hx y hy => ?_
      cases hy
      rw [List.take_add_one, hget, Option.toList_some, List.getLast?_concat] at hx
      cases hx
      exact hkeeps
  · intro hinsecure
    have : Trans (fun a b : Request => a.address.type = https → b.address.type = https)
        (fun a b : Request => a.address.type = https → b.address.type = https)
        (fun a b : Request => a.address.type = https → b.address.type = https) :=
      ⟨fun hab hbc ha => hbc (hab ha)⟩
    exact List.isChain_iff_pairwise.mp (h.imp fun a b hstep => hstep.2 hinsecure)

/-- **A chain of redirects** of any length: the header reaches a request only where every step kept
the origin, and without `--allow-insecure` a chain that was on HTTPS stays there. -/
theorem openChain_rules (answers : List (Nat × Option Str))
    (hports : PortsFromOne (openChain (followRegistry t insecure) r answers)) :
    CredentialRule t (openChain (followRegistry t insecure) r answers) ∧
      (insecure = false → TlsRule (openChain (followRegistry t insecure) r answers)) :=
  rules_of_isChain (openChain_isChain answers r hports)

end Rules

end Docker

end ProotDistro
