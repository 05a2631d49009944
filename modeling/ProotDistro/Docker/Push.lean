import ProotDistro.Docker.Refs
import ProotDistro.Docker.Transport

/-!
# `docker/push`: the upload of a blob

A POST opens the session, and a PUT to the URL of its Location header sends the bytes. The PUT is a
request of its own: the header the registry answered with is resolved here, and what `opener` knows
of redirects does not see it.

* **`upload_rules_iff`** — the PUT keeps the two rules of a chain of redirects, but for a Location
  that is a plain `http://` URL.
-/

namespace ProotDistro

open Posix Download Url

namespace Docker

/-- The base URL `get_auth_token` settled on: a scheme, and a registry as a reference names it. -/
structure Base where
  scheme : Str
  registry : Str
  followed : scheme ∈ followedSchemes
  named : registry ≠ []
  spelled : ∀ c ∈ registry, isDomainChar c = true

/-- `REGISTRY_URL` without its scheme. -/
def hubRegistry : Str := "registry-1.docker.io".toList

/-- The base of the registry a reference names, over the scheme its probe settled on; Docker Hub is
always on HTTPS. -/
def Base.ofReference {imageRef : Str} {ref : Reference} (h : parseReference imageRef = some ref)
    (plaintext : Bool) : Base :=
  if hhub : ref.registry = [] then
    ⟨https, hubRegistry, by decide +kernel, by decide +kernel, List.all_eq_true.mp (by decide +kernel)⟩
  else
    ⟨if plaintext then http else https, ref.registry,
      by cases plaintext <;> decide +kernel, hhub,
      domain_chars ((parseReference_wellFormed h).registry hhub).1⟩

def Base.url (base : Base) : Str := base.scheme ++ ':' :: '/' :: '/' :: base.registry

/-- `_resolve_upload_url`; `none` is its RuntimeError. -/
def resolveUploadUrl (base location : Str) : Option Str :=
  if location = [] then none
  else if "http://".toList.isPrefixOf location || "https://".toList.isPrefixOf location then
    some location
  else if location.head? = some '/' then some (base ++ location)
  else some (base.rdropWhile (· = '/') ++ '/' :: location)

/-- `_headers_for`: the credential, where the URL is on the registry. -/
def headersFor (t : Tables) (authorization : Option Str) (base url : Str) : Option Str :=
  if sameAuthOrigin t base url then authorization else none

/-- The request that opens an upload session. -/
def postRequest (authorization : Option Str) (base : Base) (repo : Str) : Option Request :=
  newRequest (base.url ++ "/v2/".toList ++ repo ++ "/blobs/uploads/".toList) .post authorization

/-- The URL of the PUT. -/
def putUrl (base digest location : Str) : Option Str :=
  (resolveUploadUrl base location).map fun url =>
    url ++ (if '?' ∈ url then '&' else '?') ::
      ("digest=".toList ++ quote isUnreserved (digest.flatMap String.utf8EncodeChar))

/-- The request that completes the upload. -/
def putRequest (t : Tables) (authorization : Option Str) (base : Base) (digest location : Str) :
    Option Request :=
  (putUrl base.url digest location).bind fun url =>
    newRequest url .put (headersFor t authorization base.url url)

/-- The requests of one upload that reach the wire, when the POST is answered with that Location in
the end and the PUT is answered like that. -/
def uploadBlob (t : Tables) (insecure : Bool) (authorization : Option Str) (base : Base)
    (repo digest location : Str) (answers : List (Nat × Option Str)) : List Request :=
  match postRequest authorization base repo with
  | none => []
  | some post =>
    if post.sendable then
      match putRequest t authorization base digest location with
      | none => [post]
      | some put => post :: openChain (followRegistry t insecure) put answers
    else []

/-- The session was opened over HTTPS, and the PUT goes to the `http://` URL its Location is. -/
def StepsDown (t : Tables) (authorization : Option Str) (base : Base)
    (repo digest location : Str) : Prop :=
  base.scheme = https ∧ "http://".toList.isPrefixOf location = true ∧
    (postRequest authorization base repo).any Request.sendable = true ∧
    (putRequest t authorization base digest location).any Request.sendable = true

section Upload

variable {t : Tables} {insecure : Bool} {authorization : Option Str} {base : Base}
  {repo digest location url : Str} {answers : List (Nat × Option Str)} {r post put : Request}
  {m : Method}

/-- The characters of a domain are plain, and none ends a host. -/
theorem plain_of_spelled {s : Str} (h : ∀ c ∈ s, isDomainChar c = true) :
    Plain s ∧ s.all (!isDelimiter ·) = true := by
  have hlt : ∀ c, isDomainChar c = true → c.toNat < 128 := by
    intro c hc
    simp only [isDomainChar, isAsciiAlnum, Bool.or_eq_true, Bool.and_eq_true, decide_eq_true_eq,
      Char.le_def, UInt32.le_iff_toNat_le, List.mem_cons, List.not_mem_nil, or_false] at hc
    rcases hc with ((hc | hc) | hc) | hc
    · exact lt_of_le_of_lt hc.2 (by decide)
    · exact lt_of_le_of_lt hc.2 (by decide)
    · exact lt_of_le_of_lt hc.2 (by decide)
    · rcases hc with rfl | rfl | rfl | rfl | rfl <;> decide
  have hall : ∀ n < 128, isDomainChar (Char.ofNat n) = true →
      isBlank (Char.ofNat n) = false ∧ isDelimiter (Char.ofNat n) = false := by
    decide +kernel
  have hchar : ∀ c ∈ s, isBlank c = false ∧ isDelimiter c = false := by
    intro c hc
    have hspelled := h c hc
    have hresult := hall c.toNat (hlt c hspelled)
    rw [Char.ofNat_toNat] at hresult
    exact hresult hspelled
  refine ⟨fun c hc => (hchar c hc).1, List.all_eq_true.mpr fun c hc => ?_⟩
  rw [(hchar c hc).2]
  rfl

/-- The scheme of a base is spelled as a scheme in lower case. -/
theorem Base.scheme_spelled (base : Base) :
    base.scheme.map Char.toLower = base.scheme ∧ base.scheme.all isSchemeChar = true ∧
      base.scheme.head?.any Char.isAlpha = true := by
  rcases List.mem_cons.mp base.followed with h | h
  · rw [h]
    decide +kernel
  · rw [List.mem_singleton.mp h]
    decide +kernel

/-- The URL of a base is addressed at its registry. -/
theorem Base.addressed (base : Base) : Addressed base.url base.scheme base.registry [] [] := by
  obtain ⟨hlower, hall, halpha⟩ := base.scheme_spelled
  obtain ⟨hplain, hopen⟩ := plain_of_spelled base.spelled
  have haddressed := addressed_of_written [] halpha hall hplain hopen
    (List.forall_mem_nil _) (fun c hc => nomatch hc)
  rw [hlower, List.append_nil] at haddressed
  exact haddressed

/-- The upload is asked for at the registry. -/
theorem postRequest_address (h : postRequest authorization base repo = some post) :
    post.address.type = base.scheme ∧ post.address.netloc = base.registry := by
  obtain ⟨hlower, hall, -⟩ := base.scheme_spelled
  obtain ⟨hplain, hopen⟩ := plain_of_spelled base.spelled
  unfold postRequest at h
  rw [show base.url ++ "/v2/".toList ++ repo ++ "/blobs/uploads/".toList = base.scheme ++ ':' :: '/' ::
    '/' :: (base.registry ++ ("/v2/".toList ++ repo ++ "/blobs/uploads/".toList)) by
      unfold Base.url
      simp only [List.append_assoc, List.cons_append]] at h
  have haddress := newRequest_written hall (hlower.symm ▸ base.followed) hplain hopen
    (fun c hc => by cases hc; decide) h
  rw [hlower] at haddress
  exact haddress

/-- It carries the authorization it was given. -/
theorem postRequest_authorization (h : postRequest authorization base repo = some post) :
    post.authorization = authorization := by
  unfold postRequest newRequest at h
  simp only at h
  split at h
  · cases h
  · cases h
    rfl

/-- A URL that does not end in its own separator is the URL without its fragment, and that. -/
theorem splitTag_fullUrl (front : Str) {c : Char} (hc : c ≠ '#') :
    (if (splitTag (front ++ [c])).2 = [] then (splitTag (front ++ [c])).1
      else (splitTag (front ++ [c])).1 ++ '#' :: (splitTag (front ++ [c])).2) = front ++ [c] := by
  by_cases hmem : '#' ∈ front ++ [c]
  · have htag : (front ++ [c]).rtakeWhile (· ≠ '#') ≠ [] := by
      rw [List.rtakeWhile_concat_pos _ _ _ (by simpa using hc)]
      simp
    have hne : (front ++ [c]).rdropWhile (· ≠ '#') ≠ [] := by
      intro hnil
      have hall := List.rdropWhile_eq_nil_iff.mp hnil '#' hmem
      simp at hall
    have hlast : ((front ++ [c]).rdropWhile (· ≠ '#')).getLast hne = '#' := by
      simpa using List.rdropWhile_last_not _ _ hne
    have hkeep := List.dropLast_append_getLast hne
    rw [hlast] at hkeep
    unfold splitTag
    rw [if_pos hmem]
    simp only [if_neg htag]
    calc ((front ++ [c]).rdropWhile (· ≠ '#')).dropLast ++ '#' :: (front ++ [c]).rtakeWhile (· ≠ '#')
        = (((front ++ [c]).rdropWhile (· ≠ '#')).dropLast ++ ['#']) ++
            (front ++ [c]).rtakeWhile (· ≠ '#') := by simp
      _ = (front ++ [c]).rdropWhile (· ≠ '#') ++ (front ++ [c]).rtakeWhile (· ≠ '#') := by
          rw [hkeep]
      _ = front ++ [c] := List.rdropWhile_append_rtakeWhile
  · unfold splitTag
    rw [if_neg hmem, if_pos rfl]

/-- A request whose URL ends in something printable is for that URL. -/
theorem fullUrl_newRequest {name x : Str} {c : Char} (hname : name.all isSchemeChar = true)
    (hscheme : name.map Char.toLower ∈ followedSchemes) (hblank : isBlank c = false) (hhash : c ≠ '#')
    (hurl : url = name ++ ':' :: '/' :: '/' :: (x ++ [c]))
    (h : newRequest url m authorization = some r) : r.fullUrl = url := by
  have hplain : Plain (name ++ ':' :: ['/', '/']) := by
    refine plain_append.mpr
      ⟨fun c hc => isBlank_of_isSchemeChar (List.all_eq_true.mp hname c hc), ?_⟩
    exact plain_cons.mpr ⟨by decide, plain_cons.mpr ⟨by decide, plain_cons.mpr ⟨by decide,
      List.forall_mem_nil _⟩⟩⟩
  have hkeep : (x ++ [c]).rdropWhile Text.isSpace = x ++ [c] :=
    List.rdropWhile_concat_neg _ _ _ (by rw [(Bool.or_eq_false_iff.mp hblank).2]; decide)
  have hunwrap : unwrap url = url := by
    have hfront := unwrap_front (x := x ++ [c]) rfl hplain (schemeName hscheme).1 hname hscheme
    rw [hkeep] at hfront
    rw [hurl]
    simpa using hfront
  have hshape : url = (name ++ ':' :: '/' :: '/' :: x) ++ [c] := by rw [hurl]; simp
  have hfull := splitTag_fullUrl (name ++ ':' :: '/' :: '/' :: x) hhash
  rw [← hshape] at hfull
  unfold newRequest at h
  rw [hunwrap] at h
  simp only at h
  split at h
  · cases h
  · cases h
    exact hfull

/-- Quoted for a query, a string holds nothing that could end one. -/
theorem quote_unreserved {bytes : List UInt8} {c : Char} (h : c ∈ quote isUnreserved bytes) :
    isBlank c = false ∧ c ≠ '#' := by
  have hkept : ∀ n < 128, isUnreserved (Char.ofNat n) = true →
      isBlank (Char.ofNat n) = false ∧ Char.ofNat n ≠ '#' := by
    decide +kernel
  have hhex : ∀ n < 16, isBlank (hexDigit n) = false ∧ hexDigit n ≠ '#' := by decide +kernel
  have hdigit : ∀ n, isBlank (hexDigit n) = false ∧ hexDigit n ≠ '#' := by
    intro n
    have hmod := hhex (n % 16) (Nat.mod_lt n (by omega))
    unfold hexDigit at hmod ⊢
    rwa [Nat.mod_mod] at hmod
  obtain ⟨b, -, hmem⟩ := List.mem_flatMap.mp h
  simp only at hmem
  split at hmem
  · rename_i hkeep
    rw [List.mem_singleton.mp hmem]
    exact hkept b.toNat (UInt8.lt_iff_toNat_lt.mp hkeep.1) hkeep.2
  · simp only [List.mem_cons, List.not_mem_nil, or_false] at hmem
    rcases hmem with rfl | rfl | rfl
    · decide
    · exact hdigit _
    · exact hdigit _

/-- A string that is not empty has a last character. -/
theorem exists_concat {s : Str} (h : s ≠ []) : ∃ x c, s = x ++ [c] ∧ c ∈ s :=
  ⟨s.dropLast, s.getLast h, (List.dropLast_append_getLast h).symm, List.getLast_mem h⟩

/-- What a PUT's URL starts with, and that it ends in something printable. -/
theorem putUrl_eq_some (h : putUrl base.url digest location = some url) :
    ∃ name x c, url = name ++ ':' :: '/' :: '/' :: (x ++ [c]) ∧ isBlank c = false ∧ c ≠ '#' ∧
      name.all isSchemeChar = true ∧
      name = if "http://".toList.isPrefixOf location then http
        else if "https://".toList.isPrefixOf location then https else base.scheme := by
  obtain ⟨resolved, hresolved, rfl⟩ := Option.map_eq_some_iff.mp h
  obtain ⟨y, c, hlast, hc⟩ := exists_concat (s := "digest=".toList ++
    quote isUnreserved (digest.flatMap String.utf8EncodeChar)) (by simp)
  -- the last character is the digest's, quoted
  have hprintable : isBlank c = false ∧ c ≠ '#' := by
    rcases List.mem_append.mp hc with hc | hc
    · have hdigest : "digest=".toList.all (fun c => !isBlank c && c ≠ '#') = true := by decide +kernel
      have hchar := List.all_eq_true.mp hdigest c hc
      rw [Bool.and_eq_true, Bool.not_eq_true', decide_eq_true_iff] at hchar
      exact hchar
    · exact quote_unreserved hc
  rw [hlast]
  -- whatever stands before the query, the URL ends in that character
  have hshape : ∀ name rest : Str, resolved = name ++ ':' :: '/' :: '/' :: rest →
      resolved ++ (if '?' ∈ resolved then '&' else '?') :: (y ++ [c]) = name ++ ':' :: '/' :: '/' ::
        ((rest ++ (if '?' ∈ resolved then '&' else '?') :: y) ++ [c]) := by
    intro name rest hsplit
    conv_lhs => rw [hsplit]
    simp [hsplit]
  obtain ⟨-, hall, -⟩ := base.scheme_spelled
  unfold resolveUploadUrl at hresolved
  -- an absolute Location brings its scheme
  split at hresolved
  · cases hresolved
  · split at hresolved
    · rename_i habsolute
      cases hresolved
      by_cases hhttp : "http://".toList.isPrefixOf location = true
      · obtain ⟨rest, hrest⟩ := List.isPrefixOf_iff_prefix.mp hhttp
        refine ⟨http, _, c, hshape http rest hrest.symm, hprintable.1, hprintable.2,
          by decide +kernel, ?_⟩
        rw [if_pos hhttp]
      · have hhttps : "https://".toList.isPrefixOf location = true := by
          rw [Bool.or_eq_true] at habsolute
          exact habsolute.resolve_left hhttp
        obtain ⟨rest, hrest⟩ := List.isPrefixOf_iff_prefix.mp hhttps
        refine ⟨https, _, c, hshape https rest hrest.symm, hprintable.1, hprintable.2,
          by decide +kernel, ?_⟩
        rw [if_neg hhttp, if_pos hhttps]
    -- a relative one takes that of the registry
    · rename_i hrelative
      rw [Bool.or_eq_true, not_or] at hrelative
      have hscheme : base.scheme = if "http://".toList.isPrefixOf location then http
          else if "https://".toList.isPrefixOf location then https else base.scheme := by
        rw [if_neg hrelative.1, if_neg hrelative.2]
      have hbase : ∃ tail, resolved = base.url ++ tail := by
        split at hresolved
        · cases hresolved
          exact ⟨location, rfl⟩
        · cases hresolved
          refine ⟨'/' :: location, ?_⟩
          have hstrip : base.url.rdropWhile (· = '/') = base.url := by
            obtain ⟨x, c, hregistry, hc⟩ := exists_concat base.named
            unfold Base.url
            rw [hregistry, show base.scheme ++ ':' :: '/' :: '/' :: (x ++ [c]) =
              (base.scheme ++ ':' :: '/' :: '/' :: x) ++ [c] by simp]
            refine List.rdropWhile_concat_neg _ _ _ fun hslash => ?_
            rw [decide_eq_true_eq] at hslash
            subst hslash
            exact absurd (base.spelled _ hc) (by decide)
          rw [hstrip]
      obtain ⟨tail, hbase⟩ := hbase
      refine ⟨base.scheme, _, c, hshape base.scheme (base.registry ++ tail) ?_, hprintable.1,
        hprintable.2, hall, hscheme⟩
      rw [hbase]
      unfold Base.url
      simp

/-- A PUT is not redirected. -/
theorem openChain_put (hput : put.method = .put) :
    openChain (followRegistry t insecure) put answers = if put.sendable then [put] else [] := by
  have hrefused : ∀ code location, ∀ r', followRegistry t insecure put code location ≠ .ok r' := by
    intro code location r' h
    unfold followRegistry httpError302 at h
    split at h
    · cases h
    · obtain ⟨-, -, h⟩ := Result.bind_ok h
      obtain ⟨newurl, -, h⟩ := Result.bind_ok h
      obtain ⟨new, hnew, -⟩ := Result.bind_ok h
      obtain ⟨made, hmade, -⟩ := Result.bind_ok hnew
      obtain ⟨-, -, hmake⟩ := Result.bind_ok hmade
      rw [hput] at hmake
      cases hmake
  cases answers with
  | nil => rfl
  | cons answer answers =>
    obtain ⟨code, location⟩ := answer
    unfold openChain
    split
    · split
      · split
        · rename_i r' hfollow
          exact absurd hfollow (hrefused code location r')
        · rfl
      · rfl
    · rfl

/-- The scheme of a location is one that is followed. -/
theorem followed_of_name {name : Str} (hname : name = if "http://".toList.isPrefixOf location then
    http else if "https://".toList.isPrefixOf location then https else base.scheme) :
    name.map Char.toLower = name ∧ name ∈ followedSchemes := by
  have hboth : ∀ scheme ∈ followedSchemes, scheme.map Char.toLower = scheme := by decide +kernel
  have hmem : name ∈ followedSchemes := by
    rw [hname]
    split
    · exact List.mem_cons_self
    · split
      · exact List.mem_cons_of_mem _ List.mem_cons_self
      · exact base.followed
  exact ⟨hboth name hmem, hmem⟩

/-- **The PUT of an upload** goes where its URL leads, which its Location or the base decides, and
carries the credential there only where that is the registry. -/
theorem putRequest_spec (h : putRequest t authorization base digest location = some put)
    (hsend : put.sendable = true) :
    put.method = .put ∧
      (put.address.type = if "http://".toList.isPrefixOf location then http
        else if "https://".toList.isPrefixOf location then https else base.scheme) ∧
      (put.authorization ≠ none → Url.port base.registry ≠ some (some 0) →
        Url.port put.address.netloc ≠ some (some 0) →
        authorization ≠ none ∧ ∀ selector,
          KeepsOrigin t ⟨base.scheme, base.registry, selector⟩ put.address) := by
  obtain ⟨url, hurl, hrequest⟩ := Option.bind_eq_some_iff.mp h
  obtain ⟨name, x, c, hshape, hblank, hhash, hall, hname⟩ := putUrl_eq_some hurl
  obtain ⟨hlower, hfollowed⟩ := followed_of_name hname
  have hfull := fullUrl_newRequest hall (hlower.symm ▸ hfollowed) hblank hhash hshape hrequest
  obtain ⟨core, tail, haddressed⟩ := put.addressed hsend
  rw [hfull] at haddressed
  have hmade : put.method = .put ∧ put.authorization = headersFor t authorization base.url url := by
    unfold newRequest at hrequest
    simp only at hrequest
    split at hrequest
    · cases hrequest
    · cases hrequest
      exact ⟨rfl, rfl⟩
  refine ⟨hmade.1, ?_, fun hauth hport hport' => ?_⟩
  · obtain ⟨name', hwritten, hlower', -, hname'⟩ := haddressed.written
    have hsame : name' = name := by
      have hparts := Text.partition_append (v := '/' :: '/' :: (put.address.netloc ++ (core ++ tail)))
        (notMem_colon_of_isSchemeChar hname')
      rw [← hwritten, hshape, Text.partition_append (notMem_colon_of_isSchemeChar hall)] at hparts
      exact (Prod.mk.inj hparts).1.symm
    rw [← hlower', hsame, hlower, hname]
  · rw [hmade.2] at hauth
    unfold headersFor at hauth
    split at hauth
    · rename_i horigin
      exact ⟨hauth, fun selector => keepsOrigin_of_sameAuthOrigin selector
        put.address.selector base.addressed haddressed hport hport' horigin⟩
    · exact absurd rfl hauth

/-- The rules of a chain of requests, without `--allow-insecure` or with it. -/
def KeepsRules (t : Tables) (insecure : Bool) (hops : List Request) : Prop :=
  CredentialRule t hops ∧ (insecure = false → TlsRule hops)

/-- No request breaks no rule. -/
theorem keepsRules_nil : KeepsRules t insecure [] :=
  ⟨fun k r hr => by simp at hr, fun _ => List.Pairwise.nil⟩

theorem keepsRules_singleton : KeepsRules t insecure [r] := by
  exact rules_of_isChain (.singleton r)

/-- **Redirects keep the two rules**, whatever the first request and whatever the answers; and an
upload does, but where it steps down from HTTPS. -/
theorem redirects_and_uploads {first : Request} {redirects : List (Nat × Option Str)}
    (hports : PortsFromOne (openChain (followRegistry t insecure) first redirects))
    (hports' : PortsFromOne (uploadBlob t insecure authorization base repo digest location answers)) :
    KeepsRules t insecure (openChain (followRegistry t insecure) first redirects) ∧
      (KeepsRules t insecure (uploadBlob t insecure authorization base repo digest location answers) ↔
        ¬ (insecure = false ∧ StepsDown t authorization base repo digest location)) := by
  refine ⟨openChain_rules redirects hports, ?_⟩
  unfold uploadBlob at hports' ⊢
  cases hpost : postRequest authorization base repo with
  | none =>
    -- no request is made, or none that can be sent
    refine iff_of_true keepsRules_nil fun h => ?_
    obtain ⟨-, -, -, hsend, -⟩ := h
    rw [hpost] at hsend
    cases hsend
  | some post =>
    rw [hpost] at hports'
    simp only at hports' ⊢
    by_cases hsend : post.sendable = true
    swap
    · rw [if_neg hsend]
      refine iff_of_true keepsRules_nil fun h => ?_
      obtain ⟨-, -, -, hsend', -⟩ := h
      rw [hpost] at hsend'
      exact hsend hsend'
    simp only [if_pos hsend] at hports' ⊢
    cases hput : putRequest t authorization base digest location with
    | none =>
      -- the PUT has no URL
      refine iff_of_true keepsRules_singleton fun h => ?_
      obtain ⟨-, -, -, -, hsend'⟩ := h
      rw [hput] at hsend'
      cases hsend'
    | some put =>
      rw [hput] at hports'
      simp only at hports' ⊢
      -- both requests are sent: the header is kept to the origin, and the scheme is the
      -- Location's
      by_cases hsend' : put.sendable = true
      · obtain ⟨hmethod, htype, hkeeps⟩ := putRequest_spec hput hsend'
        obtain ⟨hpostType, hpostNetloc⟩ := postRequest_address hpost
        rw [openChain_put hmethod, if_pos hsend'] at hports' ⊢
        constructor
        · rintro ⟨-, htls⟩ ⟨hinsecure, hhttps, hhttp, -, -⟩
          have hpair := (List.pairwise_cons.mp (htls hinsecure)).1 put (List.mem_singleton.mpr rfl)
          rw [if_pos hhttp] at htype
          rw [hpostType, htype] at hpair
          exact absurd (hpair hhttps) (by decide +kernel)
        · intro hcond
          refine rules_of_isChain (List.isChain_pair.mpr ⟨fun hauth => ?_, fun hinsecure hhttps => ?_⟩)
          · have hport : Url.port base.registry ≠ some (some 0) := by
              rw [← hpostNetloc]
              exact hports' post List.mem_cons_self
            obtain ⟨hsome, horigin⟩ := hkeeps hauth hport
              (hports' put (List.mem_cons_of_mem _ (List.mem_singleton.mpr rfl)))
            have hkept := horigin post.address.selector
            rw [← hpostType, ← hpostNetloc] at hkept
            exact ⟨by rw [postRequest_authorization hpost]; exact hsome, hkept⟩
          · rw [hpostType] at hhttps
            have hplain : ¬ "http://".toList.isPrefixOf location = true := fun hhttp =>
              hcond ⟨hinsecure, hhttps, hhttp, by rw [hpost]; exact hsend, by rw [hput]; exact hsend'⟩
            rw [htype, if_neg hplain]
            split
            · rfl
            · exact hhttps
      -- the PUT cannot be sent
      · have hnone : openChain (followRegistry t insecure) put answers = [] := by
          cases answers <;> exact if_neg hsend'
        rw [hnone]
        refine iff_of_true keepsRules_singleton fun h => ?_
        obtain ⟨-, -, -, -, hsome⟩ := h
        rw [hput] at hsome
        exact hsend' hsome

end Upload

/-! A registry on HTTPS that hands out a plain URL for the upload, and one that does not. -/

/-- Tables that know the ASCII letters. -/
def asciiTables : Tables := ⟨fun s => s.map Char.toLower, fun _ => true⟩

def regExample : Base :=
  ⟨https, "reg.example".toList, by decide +kernel, by decide +kernel,
    List.all_eq_true.mp (by decide +kernel)⟩

/-- The `http://` URL of an upload is sent to, though the session was opened over HTTPS. -/
theorem upload_steps_down :
    let hops := uploadBlob asciiTables false (some "Bearer TKN".toList) regExample "me/app".toList
      "sha256:cc".toList "http://reg.example/upload/1".toList []
    PortsFromOne hops ∧ ¬ KeepsRules asciiTables false hops := by
  intro hops
  have hports : hops.all (fun r => Url.port r.address.netloc ≠ some (some 0)) = true := by
    decide +kernel
  have htypes : hops.map (fun r => r.address.type) = [https, http] := by decide +kernel
  refine ⟨fun r hr => by simpa using List.all_eq_true.mp hports r hr, fun hrules => ?_⟩
  have htls : (hops.map fun r => r.address.type).Pairwise fun a b => a = https → b = https :=
    List.pairwise_map.mpr (hrules.2 rfl)
  rw [htypes] at htls
  exact absurd htls (by decide +kernel)

/-- A blob is redirected to a store of its own and back without the credential, and an upload keeps
it on the registry. -/
theorem redirects_and_uploads_storeAndBack :
    let redirects := [(307, some "https://store.example:8443/cc?sig=1".toList),
      (302, some "https://reg.example/cc".toList)]
    let upload := uploadBlob asciiTables false (some "Bearer TKN".toList) regExample "me/app".toList
      "sha256:cc".toList "/v2/me/app/blobs/uploads/1".toList []
    ∃ first, newRequest "https://reg.example/v2/me/app/blobs/sha256:cc".toList .get
        (some "Bearer TKN".toList) = some first ∧
      (openChain (followRegistry asciiTables false) first redirects).map (·.authorization) =
        [some "Bearer TKN".toList, none, none] ∧
      KeepsRules asciiTables false (openChain (followRegistry asciiTables false) first redirects) ∧
      upload.map (·.authorization) = [some "Bearer TKN".toList, some "Bearer TKN".toList] ∧
      KeepsRules asciiTables false upload := by
  intro redirects upload
  have hrun : ((newRequest "https://reg.example/v2/me/app/blobs/sha256:cc".toList .get
      (some "Bearer TKN".toList)).any fun first =>
        let hops := openChain (followRegistry asciiTables false) first redirects
        hops.all (fun r => Url.port r.address.netloc ≠ some (some 0)) &&
          hops.map (·.authorization) = [some "Bearer TKN".toList, none, none]) = true := by
    decide +kernel
  have hports : upload.all (fun r => Url.port r.address.netloc ≠ some (some 0)) = true := by
    decide +kernel
  cases hfirst : newRequest "https://reg.example/v2/me/app/blobs/sha256:cc".toList .get
      (some "Bearer TKN".toList) with
  | none =>
    rw [hfirst] at hrun
    cases hrun
  | some first =>
    rw [hfirst, Option.any_some, Bool.and_eq_true, decide_eq_true_eq] at hrun
    obtain ⟨hredirects, hupload⟩ := @redirects_and_uploads asciiTables false
      (some "Bearer TKN".toList) regExample "me/app".toList "sha256:cc".toList
      "/v2/me/app/blobs/uploads/1".toList [] first redirects
      (fun r hr => by simpa using List.all_eq_true.mp hrun.1 r hr)
      (fun r hr => by simpa using List.all_eq_true.mp hports r hr)
    refine ⟨first, rfl, hrun.2, hredirects, by decide +kernel, hupload.mpr ?_⟩
    rintro ⟨-, -, hhttp, -⟩
    exact absurd hhttp (by decide +kernel)

end Docker

end ProotDistro
