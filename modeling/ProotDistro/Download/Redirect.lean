import ProotDistro.Lib.Url
import ProotDistro.Lib.Dict
import ProotDistro.Download

/-!
# `download`: requests and the redirect policy

A request as `urllib.request` holds it, and what becomes of it when it is answered with a redirect.
The target is checked twice, on the header as it came and on the URL the next request is made for.
A request reaches the wire when its parts can be put on it; what the HTTP client refuses beyond
blanks (percent-encoded ones in a host, characters beyond ASCII) is left out, so that the model
sends no less than the program.
-/

namespace ProotDistro

open Posix

namespace Download

open Url

/-! ## Requests -/

inductive Method where
  | get
  | head
  | post
  | put
  deriving DecidableEq

/-- Where a request is sent: the type, the host with its port, and what is asked for. -/
structure Address where
  type : Str
  netloc : Str
  selector : Str
  deriving DecidableEq

/-- `unwrap` -/
def unwrap (url : Str) : Str :=
  let bare := Text.strip url
  let inner :=
    if bare.head? = some '<' ∧ bare.getLast? = some '>' then Text.strip (bare.drop 1).dropLast
    else bare
  if "URL:".toList.isPrefixOf inner then Text.strip (inner.drop 4) else inner

/-- `_splittag`: the fragment stands behind the last separator. -/
def splitTag (url : Str) : Str × Str :=
  if '#' ∈ url then ((url.rdropWhile (· ≠ '#')).dropLast, url.rtakeWhile (· ≠ '#')) else (url, [])

/-- `_splittype` -/
def splitType (url : Str) : Option (Str × Str) :=
  let name := url.takeWhile fun c => c ∉ ['/', ':']
  match url.dropWhile fun c => c ∉ ['/', ':'] with
  | ':' :: rest => if name = [] then none else some (name.map Char.toLower, rest)
  | _ => none

/-- `_splithost`; the host of a URL without one is empty. -/
def splitHost : Str → Str × Str
  | '/' :: '/' :: rest =>
    let path := rest.dropWhile (!isDelimiter ·)
    (rest.takeWhile (!isDelimiter ·), if path ≠ [] ∧ path.head? ≠ some '/' then '/' :: path else path)
  | rest => ([], rest)

/-- `Request._parse` -/
def parseAddress (url : Str) : Option Address :=
  (splitType url).map fun typed =>
    let host := splitHost typed.2
    ⟨typed.1, host.1, host.2⟩

/-- `urllib.request.Request`, with the one header that is followed here. -/
structure Request where
  /-- the URL without its fragment -/
  url : Str
  fragment : Str
  method : Method
  authorization : Option Str
  /-- `redirect_dict` -/
  visited : Dict Str Nat
  address : Address
  parsed : parseAddress url = some address

/-- `new_request`; `none` is its InvalidRequest. -/
def newRequest (url : Str) (method : Method) (authorization : Option Str) : Option Request :=
  let parts := splitTag (unwrap url)
  match h : parseAddress parts.1 with
  | none => none
  | some address =>
    some { url := parts.1, fragment := parts.2, method, authorization, visited := [], address, parsed := h }

/-- `Request.full_url` -/
def Request.fullUrl (r : Request) : Str :=
  if r.fragment = [] then r.url else r.url ++ '#' :: r.fragment

def http : Str := "http".toList

def https : Str := "https".toList

/-- A request that reaches the wire: there is a handler for its type, it has a host, and its parts
can be put into a request line and a header. -/
def Request.sendable (r : Request) : Bool :=
  (r.address.type = http || r.address.type = https) && r.address.netloc ≠ [] &&
    r.address.netloc.all (!isBlank ·) && r.address.selector.all (!isBlank ·)

/-! ## Redirects -/

/-- Why a redirect is not followed. -/
inductive Refusal where
  /-- RedirectRefused, and whether it is a step down from HTTPS -/
  | redirect (plaintext : Bool)
  /-- HTTPError -/
  | http
  /-- InvalidRequest -/
  | invalid
  deriving DecidableEq

/-- `_FOLLOWED_SCHEMES` -/
def followedSchemes : List Str := [http, https]

/-- `check_redirect` -/
def checkRedirect (t : Tables) (allowPlaintext : Bool) (fromUrl location : Str) :
    Except Refusal Unit :=
  match urljoin t fromUrl location with
  | none => .error (.redirect false)
  | some target =>
    match urlsplit t fromUrl [], urlsplit t target [] with
    | some src, some dst =>
      if dst.scheme ∉ followedSchemes ∨ hostname t dst.netloc = [] then .error (.redirect false)
      else if src.scheme = https ∧ dst.scheme = http ∧ !allowPlaintext then .error (.redirect true)
      else .ok ()
    | _, _ => .error (.redirect false)

/-- `newurl.replace(" ", "%20")` -/
def withoutSpaces (url : Str) : Str := url.flatMap fun c => if c = ' ' then "%20".toList else [c]

/-- The methods a redirect is followed with, and the method of the request that follows it. -/
def redirectMethod (code : Nat) : Method → Option Method
  | .get => some .get
  | .head => some .head
  | .post => if code ∈ [301, 302, 303] then some .get else none
  | .put => none

/-- `RedirectPolicyHandler.redirect_request` -/
def redirectRequest (t : Tables) (allowPlaintext : Bool) (req : Request) (code : Nat)
    (newurl : Str) : Except Refusal Request := do
  checkRedirect t allowPlaintext req.fullUrl newurl
  match redirectMethod code req.method with
  | none => .error .http
  | some method =>
    match newRequest (withoutSpaces newurl) method req.authorization with
    | none => .error .invalid
    | some new => .ok new

/-- The URL urllib makes of a Location header: a path is filled in, what is not printable is
quoted, and the whole is resolved. -/
def redirectTarget (t : Tables) (fullUrl location : Str) : Except Refusal Str :=
  match urlparse t location [] with
  | none => .error .invalid
  | some parts =>
    if parts.scheme ∉ ["http".toList, "https".toList, "ftp".toList, []] then .error .http
    else
      let parts := if parts.path = [] ∧ parts.netloc ≠ [] then
        ⟨⟨parts.scheme, parts.netloc, ['/'], parts.query, parts.fragment⟩, parts.params⟩ else parts
      match latin1 (urlunparse parts) with
      | none => .error .invalid
      | some bytes =>
        match urljoin t fullUrl (quote isPrintable bytes) with
        | none => .error .invalid
        | some newurl => .ok newurl

def maxRepeats : Nat := 4

def maxRedirections : Nat := 10

/-- `http_error_302`: the request a redirect leads to, where it is followed. -/
def httpError302 (t : Tables) (allowPlaintext : Bool)
    (redirect : Request → Nat → Str → Except Refusal Request) (req : Request) (code : Nat)
    (location : Option Str) : Except Refusal Request := do
  match location with
  | none => .error .http
  | some location =>
    checkRedirect t allowPlaintext req.fullUrl location
    let newurl ← redirectTarget t req.fullUrl location
    let new ← redirect req code newurl
    let count := (Dict.get req.visited newurl).getD 0
    if maxRepeats ≤ count ∨ maxRedirections ≤ req.visited.length then .error .http
    else .ok { new with visited := Dict.set req.visited newurl (count + 1) }

def redirectCodes : List Nat := [301, 302, 303, 307, 308]

/-- The requests that reach the wire when the answers to them are these, each a status and what its
Location header says. -/
def openChain (follow : Request → Nat → Option Str → Except Refusal Request) :
    Request → List (Nat × Option Str) → List Request
  | r, [] => if r.sendable then [r] else []
  | r, (code, location) :: answers =>
    if r.sendable then
      if code ∈ redirectCodes then
        match follow r code location with
        | .ok r' => r :: openChain follow r' answers
        | .error _ => [r]
      else [r]
    else []

/-! ## Requests that name where they lead -/

section Addresses

variable {t : Tables} {url scheme netloc core tail front x : Str} {r : Request} {c : Char}

/-- The letters of the schemes are letters in either case. -/
theorem isAlpha_of_toLower (h : c.toLower ∈ ['h', 't', 'p', 's']) : c.isAlpha = true := by
  by_cases hupper : c.isUpper = true
  · show (c.isUpper || c.isLower) = true
    rw [hupper]
    rfl
  · have hsame : c.toLower = c := by
      unfold Char.toLower
      split
      · rename_i hrange
        exact absurd (decide_eq_true hrange) hupper
      · rfl
    rw [hsame] at h
    simp only [List.mem_cons, List.not_mem_nil, or_false] at h
    rcases h with rfl | rfl | rfl | rfl <;> decide

/-- A name in any case of one of the two schemes. -/
theorem schemeName {name : Str} (h : name.map Char.toLower ∈ followedSchemes) :
    name.head?.any Char.isAlpha = true ∧ name.all isSchemeChar = true := by
  have hletters : ∀ scheme ∈ followedSchemes, scheme ≠ [] ∧
      scheme.all (fun c => decide (c ∈ ['h', 't', 'p', 's'])) = true := by
    decide +kernel
  obtain ⟨hne, hall⟩ := hletters _ h
  have hmem : ∀ c ∈ name.map Char.toLower, c ∈ ['h', 't', 'p', 's'] :=
    fun c hc => of_decide_eq_true (List.all_eq_true.mp hall c hc)
  have halpha : ∀ c ∈ name, c.isAlpha = true := fun c hc =>
    isAlpha_of_toLower (hmem _ (List.mem_map_of_mem hc))
  constructor
  · cases name with
    | nil => exact absurd rfl hne
    | cons c rest => exact halpha c List.mem_cons_self
  · refine List.all_eq_true.mpr fun c hc => ?_
    unfold isSchemeChar Char.isAlphanum
    rw [halpha c hc]
    rfl

/-- The type that is split off was written before the colon. -/
theorem splitType_eq_some {typed : Str × Str} (h : splitType url = some typed) :
    ∃ name, url = name ++ ':' :: typed.2 ∧ name.map Char.toLower = typed.1 := by
  unfold splitType at h
  simp only at h
  split at h
  · rename_i rest hrest
    split at h
    · cases h
    · cases h
      refine ⟨url.takeWhile fun c => c ∉ ['/', ':'], ?_, rfl⟩
      rw [← hrest, List.takeWhile_append_dropWhile]
  · cases h

/-- The host that is split off was written after the slashes. -/
theorem splitHost_ne_nil (h : (splitHost url).1 ≠ []) :
    ∃ path, url = '/' :: '/' :: ((splitHost url).1 ++ path) ∧
      (splitHost url).1.all (!isDelimiter ·) = true ∧
      (∀ c, path.head? = some c → isDelimiter c = true) ∧ path.Sublist (splitHost url).2 := by
  unfold splitHost at h ⊢
  split at h
  · rename_i rest
    refine ⟨rest.dropWhile (!isDelimiter ·), by rw [List.takeWhile_append_dropWhile],
      List.all_takeWhile, fun c hc => ?_, ?_⟩
    · have hstop := List.head?_dropWhile_not (!isDelimiter ·) rest
      rw [hc] at hstop
      simpa using hstop
    · show List.Sublist _ (if _ then _ else _)
      split
      · exact List.sublist_cons_self _ _
      · exact List.Sublist.refl _
  · exact absurd rfl h

/-- Up to the fragment, what follows the fragment does not matter. -/
theorem takeWhile_append_hash (a b : Str) :
    (a ++ '#' :: b).takeWhile (· ≠ '#') = a.takeWhile (· ≠ '#') := by
  induction a with
  | nil => rfl
  | cons c a ih =>
    rw [List.cons_append, List.takeWhile_cons, List.takeWhile_cons, ih]

/-- **A request that reaches the wire** names where it leads. -/
theorem Request.addressed (h : r.sendable = true) :
    ∃ core tail, Addressed r.fullUrl r.address.type r.address.netloc core tail := by
  simp only [Request.sendable, Bool.and_eq_true, Bool.or_eq_true, decide_eq_true_eq] at h
  obtain ⟨⟨⟨htype, hnetloc⟩, hplain⟩, hselector⟩ := h
  obtain ⟨typed, htyped, haddress⟩ := Option.map_eq_some_iff.mp r.parsed
  rw [← haddress] at htype hnetloc hplain hselector ⊢
  obtain ⟨name, hurl, hname⟩ := splitType_eq_some htyped
  obtain ⟨path, hrest, hopen, hhead, hpath⟩ := splitHost_ne_nil hnetloc
  have hscheme : name.map Char.toLower ∈ followedSchemes := by
    rw [hname]
    exact List.mem_cons.mpr (htype.imp_right List.mem_singleton.mpr)
  obtain ⟨halpha, hall⟩ := schemeName hscheme
  have hplainNetloc : Plain (splitHost typed.2).1 := fun c hc => by
    simpa using List.all_eq_true.mp hplain c hc
  have hplainPath : Plain path := Plain.sublist (fun c hc => by
    simpa using List.all_eq_true.mp hselector c hc) hpath
  rw [hrest] at hurl
  unfold Request.fullUrl
  split
  · have haddressed := addressed_of_written _ halpha hall hplainNetloc hopen
      (hplainPath.sublist (List.takeWhile_sublist _)) hhead
    rw [← hurl, hname] at haddressed
    exact ⟨_, _, haddressed⟩
  · have haddressed := addressed_of_written (path ++ '#' :: r.fragment) halpha hall
      hplainNetloc hopen
      (by rw [takeWhile_append_hash]; exact hplainPath.sublist (List.takeWhile_sublist _))
      (fun c hc => by
        rw [List.head?_append, Option.or_eq_some_iff] at hc
        rcases hc with hc | ⟨-, hc⟩
        · exact hhead c hc
        · cases hc
          rfl)
    have hfull : r.url ++ '#' :: r.fragment = name ++ ':' :: '/' :: '/' ::
        ((splitHost typed.2).1 ++ (path ++ '#' :: r.fragment)) := by
      rw [hurl]
      simp
    rw [← hfull, hname] at haddressed
    exact ⟨_, _, haddressed⟩

/-- What is cut off at the end of a string leaves what stands before a part that stays. -/
theorem rdropWhile_append {p : Char → Bool} (h : front.all (!p ·) = true) :
    (front ++ x).rdropWhile p = front ++ x.rdropWhile p := by
  unfold List.rdropWhile
  rw [List.reverse_append, List.dropWhile_append]
  split
  · rename_i hempty
    have hfront : front.reverse.dropWhile p = front.reverse := by
      cases hlast : front.reverse with
      | nil => rfl
      | cons c rest =>
        have hc : c ∈ front := List.mem_reverse.mp (hlast ▸ List.mem_cons_self)
        have := List.all_eq_true.mp h c hc
        exact List.dropWhile_cons_of_neg (by simpa using this)
    rw [hfront, List.isEmpty_iff.mp hempty, List.reverse_reverse, List.reverse_nil, List.append_nil]
  · rw [List.reverse_append, List.reverse_reverse]

/-- What holds of a text's first character holds of a prefix's. -/
theorem prefix_head {P : Char → Prop} (h : front <+: x) (hx : ∀ c, x.head? = some c → P c) :
    ∀ c, front.head? = some c → P c := by
  intro c hc
  obtain ⟨rest, rfl⟩ := h
  exact hx c (by rw [List.head?_append, hc]; rfl)

/-- Spaces are taken out of two texts apart. -/
theorem withoutSpaces_append (a b : Str) :
    withoutSpaces (a ++ b) = withoutSpaces a ++ withoutSpaces b := List.flatMap_append

/-- There are none in a plain text. -/
theorem withoutSpaces_of_plain (h : Plain front) : withoutSpaces front = front := by
  unfold withoutSpaces
  have hsame : ∀ c ∈ front, (if c = ' ' then "%20".toList else [c]) = [c] := by
    intro c hc
    refine if_neg ?_
    rintro rfl
    exact absurd (h _ hc) (by decide)
  rw [List.flatMap_congr hsame]
  exact List.flatMap_singleton' front

/-- The brackets and the mark that `unwrap` looks for are not there, and the tail is trimmed. -/
theorem unwrap_front {name rest : Str} (hfront : front = name ++ ':' :: rest) (hplain : Plain front)
    (halpha : name.head?.any Char.isAlpha = true) (hname : name.all isSchemeChar = true)
    (hscheme : name.map Char.toLower ∈ followedSchemes) :
    unwrap (front ++ x) = front ++ x.rdropWhile Text.isSpace := by
  have hspace : front.all (!Text.isSpace ·) = true := List.all_eq_true.mpr fun c hc => by
    rw [(Bool.or_eq_false_iff.mp (hplain c hc)).2]
    rfl
  have hhead : ∀ y, (front ++ y).head? ≠ some '<' ∧ (front ++ y).dropWhile Text.isSpace = front ++ y := by
    intro y
    rw [hfront]
    cases name with
    | nil => cases halpha
    | cons c name =>
      refine ⟨fun hc => ?_, ?_⟩
      · cases hc
        exact absurd halpha (show ¬ '<'.isAlpha = true by decide)
      · have hc : c ∈ front := hfront ▸ List.mem_append_left _ List.mem_cons_self
        have hspace := (Bool.or_eq_false_iff.mp (hplain c hc)).2
        exact List.dropWhile_cons_of_neg (by rw [hspace]; decide)
  have hstrip : Text.strip (front ++ x) = front ++ x.rdropWhile Text.isSpace := by
    unfold Text.strip
    rw [(hhead x).2, rdropWhile_append hspace]
  have hmark : ¬ "URL:".toList.isPrefixOf (front ++ x.rdropWhile Text.isSpace) = true := by
    intro hurl
    obtain ⟨z, hz⟩ := List.isPrefixOf_iff_prefix.mp hurl
    have hsame : name = "URL".toList := by
      have hparts := Text.partition_append (v := rest ++ x.rdropWhile Text.isSpace)
        (notMem_colon_of_isSchemeChar hname)
      have hparts' := Text.partition_append (c := ':') (k := "URL".toList) (v := z) (by decide)
      rw [show name ++ ':' :: (rest ++ x.rdropWhile Text.isSpace) =
        "URL".toList ++ ':' :: z by rw [hfront] at hz; simpa using hz.symm, hparts'] at hparts
      exact (Prod.mk.inj hparts).1.symm
    rw [hsame] at hscheme
    exact absurd hscheme (by decide +kernel)
  have hbare : ¬ ((front ++ x.rdropWhile Text.isSpace).head? = some '<' ∧
      (front ++ x.rdropWhile Text.isSpace).getLast? = some '>') := fun h => (hhead _).1 h.1
  simp only [unwrap, hstrip, if_neg hbare, if_neg hmark]

/-- A URL is parsed up to what stands behind its network location. -/
theorem parseAddress_written {name rest : Str} (hname : name.all isSchemeChar = true)
    (hne : name ≠ []) (hopen : netloc.all (!isDelimiter ·) = true)
    (hhead : ∀ c, rest.head? = some c → isDelimiter c = true) {address : Address}
    (h : parseAddress (name ++ ':' :: '/' :: '/' :: (netloc ++ rest)) = some address) :
    address.type = name.map Char.toLower ∧ address.netloc = netloc := by
  have hstop : name.all (fun c => c ∉ ['/', ':']) = true := List.all_eq_true.mpr fun c hc => by
    rw [decide_eq_true_eq]
    intro hmem
    have hscheme := List.all_eq_true.mp hname c hc
    simp only [List.mem_cons, List.not_mem_nil, or_false] at hmem
    rcases hmem with rfl | rfl <;> exact absurd hscheme (by decide)
  obtain ⟨htake, hdrop⟩ := takeWhile_append_stop (b := ':' :: '/' :: '/' :: (netloc ++ rest)) hstop
    fun c hc => by
      cases hc
      decide
  have hnetloc := (takeWhile_append_stop hopen fun c hc => by rw [hhead c hc]; rfl).1
  unfold parseAddress splitType at h
  simp only [htake, hdrop, if_neg hne, Option.map_some, Option.some.injEq] at h
  rw [← h]
  refine ⟨rfl, ?_⟩
  unfold splitHost
  exact hnetloc

/-- What is left of a string without its fragment, where none starts in the first part. -/
theorem splitTag_front (hfront : '#' ∉ front) :
    ∃ y, (splitTag (front ++ x)).1 = front ++ y ∧ y <+: x := by
  unfold splitTag
  split
  · rename_i hmem
    have hne : x.rdropWhile (· ≠ '#') ≠ [] := by
      intro hnil
      have hx' : '#' ∈ x := (List.mem_append.mp hmem).resolve_left hfront
      have hall := List.rdropWhile_eq_nil_iff.mp hnil '#' hx'
      simp at hall
    have hkeep : (front ++ x).rdropWhile (· ≠ '#') = front ++ x.rdropWhile (· ≠ '#') := by
      unfold List.rdropWhile at hne ⊢
      rw [List.reverse_append, List.dropWhile_append, if_neg, List.reverse_append,
        List.reverse_reverse]
      rw [List.isEmpty_iff]
      exact fun hnil => hne (by rw [hnil]; rfl)
    refine ⟨(x.rdropWhile (· ≠ '#')).dropLast, ?_, ?_⟩
    · rw [hkeep, List.dropLast_append_of_ne_nil hne]
    · exact (List.dropLast_prefix _).trans (List.rdropWhile_prefix _ _)
  · exact ⟨x, rfl, List.prefix_rfl⟩

/-- The request for a URL that is written with its scheme and its network location. -/
theorem newRequest_written {name rest : Str} {m : Method} {a : Option Str}
    (hname : name.all isSchemeChar = true) (hscheme : name.map Char.toLower ∈ followedSchemes)
    (hplain : Plain netloc) (hopen : netloc.all (!isDelimiter ·) = true)
    (hhead : ∀ c, rest.head? = some c → isDelimiter c = true)
    (hr : newRequest (name ++ ':' :: '/' :: '/' :: (netloc ++ rest)) m a = some r) :
    r.address.type = name.map Char.toLower ∧ r.address.netloc = netloc := by
  have halpha := (schemeName hscheme).1
  have hne : name ≠ [] := by
    rintro rfl
    cases halpha
  have hfront : Plain (name ++ ':' :: '/' :: '/' :: netloc) := by
    refine plain_append.mpr
      ⟨fun c hc => isBlank_of_isSchemeChar (List.all_eq_true.mp hname c hc), ?_⟩
    exact plain_cons.mpr ⟨by decide, plain_cons.mpr ⟨by decide, plain_cons.mpr ⟨by decide, hplain⟩⟩⟩
  have hhash : '#' ∉ name ++ ':' :: '/' :: '/' :: netloc := by
    intro hmem
    rcases List.mem_append.mp hmem with hmem | hmem
    · exact absurd (List.all_eq_true.mp hname _ hmem) (by decide)
    · simp only [List.mem_cons] at hmem
      rcases hmem with hc | hc | hc | hmem
      · exact absurd hc (by decide)
      · exact absurd hc (by decide)
      · exact absurd hc (by decide)
      · exact absurd (List.all_eq_true.mp hopen _ hmem) (by decide)
  have hunwrap := unwrap_front (x := rest) rfl hfront halpha hname hscheme
  obtain ⟨y, hparts, hy⟩ := splitTag_front (x := rest.rdropWhile Text.isSpace) hhash
  unfold newRequest at hr
  rw [show name ++ ':' :: '/' :: '/' :: (netloc ++ rest) =
    name ++ ':' :: '/' :: '/' :: netloc ++ rest by simp, hunwrap] at hr
  simp only at hr
  split at hr
  · cases hr
  · rename_i address hparse
    cases hr
    rw [hparts, show name ++ ':' :: '/' :: '/' :: netloc ++ y =
      name ++ ':' :: '/' :: '/' :: (netloc ++ y) by simp] at hparse
    exact parseAddress_written hname hne hopen
      (prefix_head (hy.trans (List.rdropWhile_prefix _ _)) hhead) hparse

/-- **The request for a URL that names where it leads** goes there. -/
theorem newRequest_address {m : Method} {a : Option Str}
    (h : Addressed url scheme netloc core tail) (hscheme : scheme ∈ followedSchemes)
    (hr : newRequest (withoutSpaces url) m a = some r) :
    r.address.type = scheme ∧ r.address.netloc = netloc := by
  obtain ⟨name, hurl, hplain, hlower, -, hname⟩ := h.plain_front
  have hhead : ∀ c, (core ++ withoutSpaces tail).head? = some c → isDelimiter c = true := by
    intro c hc
    rw [List.head?_append, Option.or_eq_some_iff] at hc
    rcases hc with hc | ⟨-, hc⟩
    · exact h.core_head c hc
    · cases htail : tail with
      | nil =>
        rw [htail] at hc
        cases hc
      | cons c' rest =>
        have hhash := h.tail_head c' (by rw [htail]; rfl)
        rw [htail, hhash] at hc
        cases hc
        rfl
  rw [hurl, withoutSpaces_append, withoutSpaces_of_plain hplain,
    show name ++ ':' :: '/' :: '/' :: (netloc ++ core) ++ withoutSpaces tail =
      name ++ ':' :: '/' :: '/' :: (netloc ++ (core ++ withoutSpaces tail)) by simp] at hr
  rw [← hlower]
  exact newRequest_written hname (hlower ▸ hscheme) h.plain_netloc h.netloc_open hhead hr

/-- A quoted text is plain. -/
theorem plain_quote (bytes : List UInt8) : Plain (quote isPrintable bytes) := by
  have hbyte : ∀ n < 256, isBlank (Char.ofNat n) = false ∨ isPrintable (Char.ofNat n) = false := by
    decide +kernel
  have hhex : ∀ n < 16, isBlank (hexDigit n) = false := by decide +kernel
  have hdigit : ∀ n, isBlank (hexDigit n) = false := by
    intro n
    have hmod := hhex (n % 16) (Nat.mod_lt n (by omega))
    unfold hexDigit at hmod ⊢
    rwa [Nat.mod_mod] at hmod
  intro c hc
  obtain ⟨b, -, hmem⟩ := List.mem_flatMap.mp hc
  simp only at hmem
  split at hmem
  · rename_i hkeep
    rw [List.mem_singleton.mp hmem]
    refine (hbyte b.toNat b.toNat_lt).resolve_right ?_
    rw [hkeep.2]
    decide
  · simp only [List.mem_cons, List.not_mem_nil, or_false] at hmem
    rcases hmem with rfl | rfl | rfl
    · decide
    · exact hdigit _
    · exact hdigit _

/-- The target of a redirection is the URL joined with a plain location. -/
theorem redirectTarget_ok {fullUrl location newurl : Str}
    (h : redirectTarget t fullUrl location = .ok newurl) :
    ∃ quoted, Plain quoted ∧ urljoin t fullUrl quoted = some newurl := by
  unfold redirectTarget at h
  simp only at h
  split at h
  · cases h
  · split at h
    · cases h
    · split at h
      · cases h
      · rename_i bytes _
        split at h
        · cases h
        · rename_i hjoin
          cases h
          exact ⟨_, plain_quote bytes, hjoin⟩

/-- What the check lets pass has a scheme that is followed and a host, and does not leave `https` for
`http`. -/
theorem checkRedirect_ok {allowPlaintext : Bool} {fromUrl location : Str}
    (h : checkRedirect t allowPlaintext fromUrl location = .ok ()) :
    ∃ target src dst, urljoin t fromUrl location = some target ∧
      urlsplit t fromUrl [] = some src ∧ urlsplit t target [] = some dst ∧
      dst.scheme ∈ followedSchemes ∧ hostname t dst.netloc ≠ [] ∧
      (allowPlaintext = false → src.scheme = https → dst.scheme ≠ http) := by
  unfold checkRedirect at h
  split at h
  · cases h
  · rename_i target hjoin
    split at h
    · rename_i src dst hsrc hdst
      split at h
      · cases h
      · rename_i hhost
        split at h
        · cases h
        · rename_i htls
          rw [not_or, not_not] at hhost
          refine ⟨target, src, dst, hjoin, hsrc, hdst, hhost.1, hhost.2, fun hallow hs hd => ?_⟩
          exact htls ⟨hs, hd, by rw [hallow]; rfl⟩
    · cases h

/-- A host name needs a host. -/
theorem netloc_of_hostname {netloc : Str} (h : hostname t netloc ≠ []) : netloc ≠ [] := by
  rintro rfl
  exact h rfl

/-- **A redirect that is followed** leads to a URL that names where it leads, and never off HTTPS
unless that is allowed. -/
theorem redirect_addressed {allowPlaintext : Bool} {quoted newurl : Str} (hr : r.sendable = true)
    (hplain : Plain quoted) (hjoin : urljoin t r.fullUrl quoted = some newurl)
    (hcheck : checkRedirect t allowPlaintext r.fullUrl newurl = .ok ()) :
    ∃ scheme netloc core tail, Addressed newurl scheme netloc core tail ∧
      scheme ∈ followedSchemes ∧
      (allowPlaintext = false → r.address.type = https → scheme = https) := by
  obtain ⟨core, tail, hfrom⟩ := r.addressed hr
  have hsend := hr
  simp only [Request.sendable, Bool.and_eq_true, Bool.or_eq_true, decide_eq_true_eq] at hsend
  have htype : r.address.type ∈ followedSchemes :=
    List.mem_cons.mpr (hsend.1.1.1.imp_right List.mem_singleton.mpr)
  rcases urljoin_cases hfrom htype hsend.1.1.2 hplain hjoin with rfl | rfl | hsame
  · exact ⟨_, _, _, _, hfrom, htype, fun _ h => h⟩
  · obtain ⟨target, src, dst, htarget, hsrc, hdst, hfollowed, hhost, htls⟩ := checkRedirect_ok hcheck
    rw [hjoin] at htarget
    cases htarget
    have hscheme : dst.scheme ≠ [] := by
      intro hnil
      rw [hnil] at hfollowed
      exact absurd hfollowed (by decide +kernel)
    obtain ⟨core', tail', haddressed⟩ :=
      addressed_of_urlsplit hplain hdst hscheme (netloc_of_hostname hhost)
    refine ⟨_, _, _, _, haddressed, hfollowed, fun hallow hhttps => ?_⟩
    have hnot := htls hallow ((hfrom.urlsplit hsrc).1.trans hhttps)
    exact (List.mem_cons.mp hfollowed).resolve_left hnot |> List.mem_singleton.mp
  · obtain ⟨netloc', core', tail', haddressed⟩ := hsame
    exact ⟨_, _, _, _, haddressed, htype, fun _ h => h⟩

end Addresses

end Download

end ProotDistro
