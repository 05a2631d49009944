import ProotDistro.Lib.Text

/-!
# URLs as `urllib.parse` reads them

A URL is cut into a scheme, a network location, a path, a query and a fragment, put together again,
and resolved against another. What the parser has to know about Unicode and about IP addresses is
in `Tables`; a `ValueError` is `none`.

* **`Addressed`** — a URL that spells out its scheme and its network location.
* **`Addressed.urlsplit`**, **`addressed_of_urlsplit`** — that is what `urlsplit` finds.
* **`urljoin_cases`** — what resolving against such a URL can give.
-/

namespace Url

open Text

/-- What the parser asks of Unicode and of IP addresses. -/
structure Tables where
  /-- `str.lower` -/
  lower : List Char → List Char
  /-- brackets stand around an address, and nothing normalises to a delimiter -/
  netlocOk : List Char → Bool

/-! ## Taking apart -/

structure Split where
  scheme : List Char
  netloc : List Char
  path : List Char
  query : List Char
  fragment : List Char
  deriving DecidableEq

/-- What is removed wherever it stands. -/
def isUnsafe (c : Char) : Bool := c ∈ ['\t', '\r', '\n']

/-- What `urlsplit` does to a URL before it reads it. -/
def clean (url : List Char) : List Char := (url.dropWhile (· ≤ ' ')).filter fun c => !isUnsafe c

def isSchemeChar (c : Char) : Bool := c.isAlphanum || c ∈ ['+', '-', '.']

/-- The scheme a URL starts with, or the default, and what follows. -/
def splitScheme (url scheme : List Char) : List Char × List Char :=
  let parts := partition ':' url
  if ':' ∈ url ∧ url.head?.any Char.isAlpha ∧ parts.1.all isSchemeChar then
    (parts.1.map Char.toLower, parts.2)
  else (scheme, url)

/-- What ends a network location. -/
def isDelimiter (c : Char) : Bool := c ∈ ['/', '?', '#']

/-- `_splitnetloc`, where two slashes announce one. -/
def splitNetloc : List Char → List Char × List Char
  | '/' :: '/' :: url => (url.takeWhile (!isDelimiter ·), url.dropWhile (!isDelimiter ·))
  | url => ([], url)

/-- `urlsplit` -/
def urlsplit (t : Tables) (url scheme : List Char) : Option Split :=
  let atScheme := splitScheme (clean url) scheme
  let atNetloc := splitNetloc atScheme.2
  let atFragment := partition '#' atNetloc.2
  let atQuery := partition '?' atFragment.1
  if atNetloc.1 = [] ∨ t.netlocOk atNetloc.1 then
    some ⟨atScheme.1, atNetloc.1, atQuery.1, atQuery.2, atFragment.2⟩
  else none

/-- `_hostinfo`: the host and the port of a network location, as they are written. -/
def hostinfo (netloc : List Char) : List Char × List Char :=
  let info := netloc.rtakeWhile (· ≠ '@')
  if '[' ∈ info then
    let parts := partition ']' (partition '[' info).2
    (parts.1, (partition ':' parts.2).2)
  else partition ':' info

/-- `SplitResult.hostname`, empty for None; a zone keeps its case. -/
def hostname (t : Tables) (netloc : List Char) : List Char :=
  let host := (hostinfo netloc).1
  if host = [] then []
  else if '%' ∈ host then t.lower (partition '%' host).1 ++ '%' :: (partition '%' host).2
  else t.lower host

def readNat (digits : List Char) : Nat := digits.foldl (fun n c => n * 10 + (c.toNat - '0'.toNat)) 0

def portMax : Nat := 65535

/-- `SplitResult.port`: no port is `some none`, and `none` is its ValueError. -/
def port (netloc : List Char) : Option (Option Nat) :=
  let digits := (hostinfo netloc).2
  if digits = [] then some none
  else if digits.all Char.isDigit ∧ readNat digits ≤ portMax then some (some (readNat digits))
  else none

/-- The schemes with parameters. -/
def usesParams : List (List Char) :=
  ["", "ftp", "hdl", "prospero", "http", "https", "shttp", "rtsp", "rtsps", "sip", "sips", "mms",
    "sftp", "tel"].map String.toList

/-- `_splitparams`: the parameters stand in the last segment. -/
def splitParams (path : List Char) : List Char × List Char :=
  let parts := partition ';' (path.rtakeWhile (· ≠ '/'))
  (path.rdropWhile (· ≠ '/') ++ parts.1, parts.2)

structure Parsed extends Split where
  params : List Char

/-- `urlparse` -/
def urlparse (t : Tables) (url scheme : List Char) : Option Parsed :=
  (urlsplit t url scheme).map fun s =>
    if s.scheme ∈ usesParams ∧ ';' ∈ s.path then
      let parts := splitParams s.path
      ⟨{ s with path := parts.1 }, parts.2⟩
    else ⟨s, []⟩

/-! ## Putting together -/

/-- The schemes with a network location. -/
def usesNetloc : List (List Char) :=
  ["", "ftp", "http", "gopher", "nntp", "telnet", "imap", "wais", "file", "mms", "https", "shttp",
    "snews", "prospero", "rtsp", "rtsps", "rtspu", "rsync", "svn", "svn+ssh", "sftp", "nfs", "git",
    "git+ssh", "ws", "wss", "itms-services"].map String.toList

/-- The schemes of relative URLs. -/
def usesRelative : List (List Char) :=
  ["", "ftp", "http", "gopher", "nntp", "imap", "wais", "file", "https", "shttp", "mms", "prospero",
    "rtsp", "rtsps", "rtspu", "sftp", "svn", "svn+ssh", "ws", "wss"].map String.toList

/-- `s`, with a separator before it where it is not empty. -/
def withSeparator (c : Char) (s : List Char) : List Char := if s = [] then [] else c :: s

/-- A path behind a network location. -/
def rooted (path : List Char) : List Char :=
  if path ≠ [] ∧ path.head? ≠ some '/' then '/' :: path else path

/-- `urlunsplit` -/
def urlunsplit (s : Split) : List Char :=
  let located :=
    if s.netloc ≠ [] then '/' :: '/' :: s.netloc ++ rooted s.path
    else if ['/', '/'].isPrefixOf s.path ∨
        (s.scheme ≠ [] ∧ s.scheme ∈ usesNetloc ∧ (s.path = [] ∨ s.path.head? = some '/')) then
      '/' :: '/' :: s.path
    else s.path
  (if s.scheme = [] then located else s.scheme ++ ':' :: located) ++ withSeparator '?' s.query ++
    withSeparator '#' s.fragment

/-- `urlunparse` -/
def urlunparse (p : Parsed) : List Char :=
  urlunsplit ⟨p.scheme, p.netloc, p.path ++ withSeparator ';' p.params, p.query, p.fragment⟩

/-! ## Resolving -/

/-- One segment on the path that is being resolved. -/
def resolveSegment (resolved : List (List Char)) (segment : List Char) : List (List Char) :=
  if segment = ['.', '.'] then resolved.dropLast
  else if segment = ['.'] then resolved
  else resolved ++ [segment]

/-- The segments of a path, seen from the directory of the base; slashes that would double are left
out. -/
def segmentsFrom (base path : List Char) : List (List Char) :=
  if path.head? = some '/' then path.splitOn '/'
  else
    let parts := base.splitOn '/'
    let parts := if parts.getLast? = some [] then parts else parts.dropLast
    match parts ++ path.splitOn '/' with
    | [] => []
    | first :: rest => first :: (rest.dropLast.filter (· ≠ []) ++ rest.getLast?.toList)

/-- The segments of the result; a directory keeps its last slash. -/
def resolveSegments (segments : List (List Char)) : List (List Char) :=
  let resolved := segments.foldl resolveSegment []
  if segments.getLast? = some ['.'] ∨ segments.getLast? = some ['.', '.'] then resolved ++ [[]]
  else resolved

/-- The path of a relative URL. -/
def resolvePath (base path : List Char) : List Char :=
  let joined := ['/'].intercalate (resolveSegments (segmentsFrom base path))
  if joined = [] then ['/'] else joined

/-- A relative URL, in the place of what it leaves out. -/
def inPlaceOf (b p : Parsed) (netloc : List Char) : Parsed :=
  if p.path = [] ∧ p.params = [] then
    ⟨⟨p.scheme, netloc, b.path, if p.query = [] then b.query else p.query, p.fragment⟩, b.params⟩
  else ⟨⟨p.scheme, netloc, resolvePath b.path p.path, p.query, p.fragment⟩, p.params⟩

/-- `urljoin` -/
def urljoin (t : Tables) (base url : List Char) : Option (List Char) :=
  if base = [] then some url
  else if url = [] then some base
  else do
    let b ← urlparse t base []
    let p ← urlparse t url b.scheme
    if p.scheme ≠ b.scheme ∨ p.scheme ∉ usesRelative then some url
    else if p.scheme ∈ usesNetloc then
      if p.netloc ≠ [] then some (urlunparse p) else some (urlunparse (inPlaceOf b p b.netloc))
    else some (urlunparse (inPlaceOf b p p.netloc))

/-! ## Quoting -/

def hexDigit (n : Nat) : Char := "0123456789ABCDEF".toList.getD (n % 16) '0'

/-- `quote` of bytes: those that are kept, and the others by their value. -/
def quote (keep : Char → Bool) (bytes : List UInt8) : List Char :=
  bytes.flatMap fun b =>
    let c := Char.ofNat b.toNat
    if b < 128 ∧ keep c then [c] else ['%', hexDigit (b.toNat / 16), hexDigit b.toNat]

/-- `s.encode("iso-8859-1")` -/
def latin1 (s : List Char) : Option (List UInt8) :=
  if s.all fun c => c.toNat < 256 then some (s.map fun c => c.toNat.toUInt8) else none

/-- Letters, digits and `string.punctuation`: every printable character but the space. -/
def isPrintable (c : Char) : Bool := '!' ≤ c && c ≤ '~'

/-- What `quote` always keeps. -/
def isUnreserved (c : Char) : Bool := c.isAlphanum || c ∈ ['_', '.', '-', '~']

/-! ## URLs that name where they lead -/

/-- A character no part of a URL that is sent can hold. -/
def isBlank (c : Char) : Bool := c ≤ ' ' || isSpace c

def Plain (s : List Char) : Prop := ∀ c ∈ s, isBlank c = false

/-- A URL that spells out its scheme and its network location; `core` is what follows up to the
fragment, which is the rest with its separator and may hold anything. -/
structure Addressed (url scheme netloc core tail : List Char) : Prop where
  written : ∃ name, url = name ++ ':' :: '/' :: '/' :: (netloc ++ (core ++ tail)) ∧
    name.map Char.toLower = scheme ∧ name.head?.any Char.isAlpha = true ∧ name.all isSchemeChar = true
  plain_netloc : Plain netloc
  netloc_open : netloc.all (!isDelimiter ·) = true
  plain_core : Plain core
  core_closed : '#' ∉ core
  core_head : ∀ c, core.head? = some c → isDelimiter c = true
  tail_head : ∀ c, tail.head? = some c → c = '#'

section Lemmas

variable {t : Tables} {url scheme netloc core tail d : List Char} {s : Split} {c : Char}
  {a b : List Char}

/-- Two texts are plain when both are. -/
theorem plain_append : Plain (a ++ b) ↔ Plain a ∧ Plain b := by
  unfold Plain
  rw [List.forall_mem_append]

/-- A text is plain when its first character is no blank and the rest is plain. -/
theorem plain_cons : Plain (c :: a) ↔ isBlank c = false ∧ Plain a := by
  unfold Plain
  rw [List.forall_mem_cons]

/-- What is left of a plain text is plain. -/
theorem Plain.sublist (h : Plain b) (hab : a.Sublist b) : Plain a := fun c hc => h c (hab.subset hc)

theorem Plain.partition (h : Plain a) (c : Char) :
    Plain (partition c a).1 ∧ Plain (Text.partition c a).2 :=
  ⟨h.sublist (List.takeWhile_sublist _), h.sublist ((List.tail_sublist _).trans (List.dropWhile_sublist _))⟩

/-- No character of a scheme is blank. -/
theorem isBlank_of_isSchemeChar (h : isSchemeChar c = true) : isBlank c = false := by
  have hrange : c.isAlphanum = true ∨ c = '+' ∨ c = '-' ∨ c = '.' := by
    simpa [isSchemeChar] using h
  rcases hrange with halnum | rfl | rfl | rfl
  · have hlt : c.toNat < 128 := by
      have hranges : ((decide (c.val ≥ 65 ∧ c.val ≤ 90) ||
          decide (c.val ≥ 97) && decide (c.val ≤ 122)) ||
          decide (c.val ≥ 48) && decide (c.val ≤ 57)) = true := halnum
      simp only [Bool.or_eq_true, Bool.and_eq_true, decide_eq_true_eq, ge_iff_le,
        UInt32.le_iff_toNat_le] at hranges
      have hval : c.toNat = c.val.toNat := rfl
      simp at hranges
      omega
    have hall : ∀ n < 128, (Char.ofNat n).isAlphanum = true → isBlank (Char.ofNat n) = false := by
      decide +kernel
    have := hall c.toNat hlt
    rw [Char.ofNat_toNat] at this
    exact this halnum
  · decide
  · decide
  · decide

/-- No blank is stripped in front of a plain text. -/
theorem Plain.dropWhile (h : Plain a) (hne : a ≠ []) :
    (a ++ b).dropWhile (· ≤ ' ') = a ++ b := by
  cases a with
  | nil => exact absurd rfl hne
  | cons c rest =>
    have hc := (Bool.or_eq_false_iff.mp (h c List.mem_cons_self)).1
    exact List.dropWhile_cons_of_neg (by rw [hc]; decide)

/-- No unsafe character is taken out of one. -/
theorem Plain.filter (h : Plain a) : a.filter (fun c => !isUnsafe c) = a := by
  apply List.filter_eq_self.mpr
  intro c hc
  have hspace := (Bool.or_eq_false_iff.mp (h c hc)).2
  rw [Bool.not_eq_true']
  apply decide_eq_false
  intro hmem
  simp only [List.mem_cons, List.not_mem_nil, or_false] at hmem
  rcases hmem with rfl | rfl | rfl <;> exact absurd hspace (by decide)

/-- What comes first and is plain is kept, and what comes after is only thinned out. -/
theorem clean_append (h : Plain a) (hne : a ≠ []) :
    clean (a ++ b) = a ++ b.filter fun c => !isUnsafe c := by
  unfold clean
  rw [h.dropWhile hne, List.filter_append, h.filter]

theorem Plain.clean (h : Plain url) : clean url = url := by
  by_cases hne : url = []
  · rw [hne]
    rfl
  · have happend := clean_append (b := []) h hne
    rwa [List.append_nil, List.filter_nil, List.append_nil] at happend

/-- A prefix is read up to where it ends. -/
theorem takeWhile_append_stop {p : Char → Bool} (ha : a.all p = true)
    (hb : ∀ c, b.head? = some c → p c = false) :
    (a ++ b).takeWhile p = a ∧ (a ++ b).dropWhile p = b := by
  have hall : ∀ c ∈ a, p c = true := List.all_eq_true.mp ha
  rw [List.takeWhile_append_of_pos hall, List.dropWhile_append_of_pos hall]
  cases b with
  | nil => exact ⟨by simp, rfl⟩
  | cons c rest =>
    have hc := hb c rfl
    rw [List.takeWhile_cons_of_neg (by rw [hc]; decide), List.dropWhile_cons_of_neg (by rw [hc]; decide)]
    exact ⟨List.append_nil _, rfl⟩

/-- A scheme has no colon. -/
theorem notMem_colon_of_isSchemeChar {name : List Char} (h : name.all isSchemeChar = true) :
    ':' ∉ name := by
  intro hmem
  exact absurd (List.all_eq_true.mp h ':' hmem) (by decide)

/-- An addressed text is plain up to its tail. -/
theorem Addressed.plain_front (h : Addressed url scheme netloc core tail) :
    ∃ name, url = (name ++ ':' :: '/' :: '/' :: (netloc ++ core)) ++ tail ∧
      Plain (name ++ ':' :: '/' :: '/' :: (netloc ++ core)) ∧ name.map Char.toLower = scheme ∧
      name.head?.any Char.isAlpha = true ∧ name.all isSchemeChar = true := by
  obtain ⟨name, hurl, hscheme, halpha, hname⟩ := h.written
  refine ⟨name, by rw [hurl]; simp, ?_, hscheme, halpha, hname⟩
  refine plain_append.mpr ⟨fun c hc => isBlank_of_isSchemeChar (List.all_eq_true.mp hname c hc), ?_⟩
  refine plain_cons.mpr ⟨by decide, plain_cons.mpr ⟨by decide, plain_cons.mpr ⟨by decide, ?_⟩⟩⟩
  exact plain_append.mpr ⟨h.plain_netloc, h.plain_core⟩

/-- The tail, cleaned, starts with the fragment's mark if with anything. -/
theorem Addressed.tail_head_filter (h : Addressed url scheme netloc core tail) (c : Char)
    (hc : (tail.filter fun c => !isUnsafe c).head? = some c) : c = '#' := by
  cases htail : tail with
  | nil =>
    rw [htail] at hc
    cases hc
  | cons c' rest =>
    have hhash : c' = '#' := h.tail_head c' (by rw [htail]; rfl)
    rw [htail, hhash] at hc
    cases hc
    rfl

/-- A scheme that is written in front of a colon is the one split off. -/
theorem splitScheme_written {name rest : List Char} (halpha : name.head?.any Char.isAlpha = true)
    (hname : name.all isSchemeChar = true) :
    splitScheme (name ++ ':' :: rest) d = (name.map Char.toLower, rest) := by
  have hparts : partition ':' (name ++ ':' :: rest) = (name, rest) :=
    partition_append (notMem_colon_of_isSchemeChar hname)
  have hhead : (name ++ ':' :: rest).head?.any Char.isAlpha = true := by
    cases name with
    | nil => cases halpha
    | cons c name => exact halpha
  unfold splitScheme
  rw [hparts, if_pos ⟨by simp, hhead, hname⟩]

/-- **What `urlsplit` finds** in a URL that names where it leads. -/
theorem Addressed.urlsplit (h : Addressed url scheme netloc core tail)
    (hs : urlsplit t url d = some s) :
    s.scheme = scheme ∧ s.netloc = netloc ∧ Plain s.path ∧ Plain s.query := by
  obtain ⟨name, hurl, hplain, hscheme, halpha, hname⟩ := h.plain_front
  have hclean : clean url = name ++ ':' :: '/' :: '/' ::
      (netloc ++ (core ++ tail.filter fun c => !isUnsafe c)) := by
    rw [hurl, clean_append hplain (by simp)]
    simp
  have hstop : ∀ c, (core ++ tail.filter fun c => !isUnsafe c).head? = some c →
      (!isDelimiter c) = false := by
    intro c hc
    rw [List.head?_append, Option.or_eq_some_iff] at hc
    rcases hc with hc | ⟨-, hc⟩
    · rw [h.core_head c hc]
      rfl
    · rw [h.tail_head_filter c hc]
      rfl
  obtain ⟨hnetloc, hrest⟩ := takeWhile_append_stop h.netloc_open hstop
  have hfragment : (partition '#' (core ++ tail.filter fun c => !isUnsafe c)).1 = core := by
    refine (takeWhile_append_stop (List.all_eq_true.mpr fun c hc => ?_) fun c hc => ?_).1
    · rw [decide_eq_true_eq]
      rintro rfl
      exact h.core_closed hc
    · rw [h.tail_head_filter c hc]
      rfl
  unfold Url.urlsplit at hs
  rw [hclean, splitScheme_written halpha hname] at hs
  simp only [splitNetloc, hnetloc, hrest, hfragment] at hs
  split at hs
  · cases hs
    exact ⟨hscheme, rfl, h.plain_core.partition '?'⟩
  · cases hs

/-- A URL that is written with a scheme and a network location names where it leads. -/
theorem addressed_of_written (rest : List Char) {name : List Char}
    (halpha : name.head?.any Char.isAlpha = true) (hname : name.all isSchemeChar = true)
    (hnetloc : Plain netloc) (hopen : netloc.all (!isDelimiter ·) = true)
    (hrest : Plain (rest.takeWhile (· ≠ '#'))) (hhead : ∀ c, rest.head? = some c → isDelimiter c = true) :
    Addressed (name ++ ':' :: '/' :: '/' :: (netloc ++ rest)) (name.map Char.toLower) netloc
      (rest.takeWhile (· ≠ '#')) (rest.dropWhile (· ≠ '#')) where
  written := ⟨name, by rw [List.takeWhile_append_dropWhile], rfl, halpha, hname⟩
  plain_netloc := hnetloc
  netloc_open := hopen
  plain_core := hrest
  core_closed h := by
    have hne := List.mem_takeWhile_imp h
    simp at hne
  core_head c hc := by
    cases rest with
    | nil => cases hc
    | cons c' rest =>
      by_cases hhash : c' = '#'
      · rw [hhash, List.takeWhile_cons_of_neg (by simp)] at hc
        cases hc
      · rw [List.takeWhile_cons_of_pos (by simpa using hhash)] at hc
        cases hc
        exact hhead c rfl
  tail_head c hc := by
    have hstop := List.head?_dropWhile_not (· ≠ '#') rest
    rw [hc] at hstop
    simpa using hstop

/-- The parts `urlsplit` answers. -/
theorem urlsplit_eq_some (hs : urlsplit t url d = some s) :
    s.scheme = (splitScheme (clean url) d).1 ∧
      s.netloc = (splitNetloc (splitScheme (clean url) d).2).1 ∧
      s.path = (partition '?' (partition '#' (splitNetloc (splitScheme (clean url) d).2).2).1).1 ∧
      s.query = (partition '?' (partition '#' (splitNetloc (splitScheme (clean url) d).2).2).1).2 ∧
      s.fragment = (partition '#' (splitNetloc (splitScheme (clean url) d).2).2).2 := by
  simp only [Url.urlsplit, Option.ite_none_right_eq_some] at hs
  rw [← Option.some.inj hs.2]
  exact ⟨rfl, rfl, rfl, rfl, rfl⟩

/-- What is split off as a scheme was written there. -/
theorem splitScheme_ne_nil (h : (splitScheme url []).1 ≠ []) :
    ∃ name, url = name ++ ':' :: (splitScheme url []).2 ∧
      name.map Char.toLower = (splitScheme url []).1 ∧ name.head?.any Char.isAlpha = true ∧
      name.all isSchemeChar = true := by
  unfold splitScheme at h ⊢
  simp only at h ⊢
  split at h
  · rename_i hcond
    obtain ⟨hcolon, halpha, hname⟩ := hcond
    rw [if_pos ⟨hcolon, halpha, hname⟩]
    refine ⟨(partition ':' url).1, eq_partition hcolon, rfl, ?_, hname⟩
    rw [eq_partition hcolon] at halpha
    cases hfirst : (partition ':' url).1 with
    | nil =>
      rw [hfirst] at halpha
      cases halpha
    | cons c name =>
      rw [hfirst] at halpha
      exact halpha
  · exact absurd rfl h

/-- What is split off as the host was written after two slashes. -/
theorem splitNetloc_ne_nil (h : (splitNetloc url).1 ≠ []) :
    url = '/' :: '/' :: ((splitNetloc url).1 ++ (splitNetloc url).2) ∧
      (splitNetloc url).1.all (!isDelimiter ·) = true ∧
      ∀ c, (splitNetloc url).2.head? = some c → isDelimiter c = true := by
  unfold splitNetloc at h ⊢
  split at h
  · rename_i rest
    refine ⟨by rw [List.takeWhile_append_dropWhile], List.all_takeWhile, fun c hc => ?_⟩
    have hstop := List.head?_dropWhile_not (!isDelimiter ·) rest
    simp only at hc
    rw [hc] at hstop
    simpa using hstop
  · exact absurd rfl h

/-- **Where a plain URL with a scheme and a network location leads.** -/
theorem addressed_of_urlsplit (h : Plain url) (hs : urlsplit t url [] = some s)
    (hscheme : s.scheme ≠ []) (hnetloc : s.netloc ≠ []) :
    ∃ core tail, Addressed url s.scheme s.netloc core tail := by
  obtain ⟨hscheme', hnetloc', -⟩ := urlsplit_eq_some hs
  rw [h.clean] at hscheme' hnetloc'
  rw [hscheme'] at hscheme
  rw [hnetloc'] at hnetloc
  obtain ⟨name, hurl, hlower, halpha, hname⟩ := splitScheme_ne_nil hscheme
  obtain ⟨hafter, hopen, hhead⟩ := splitNetloc_ne_nil hnetloc
  rw [hafter] at hurl
  have hplain : Plain (splitNetloc (splitScheme url []).2).1 ∧
      Plain (splitNetloc (splitScheme url []).2).2 := by
    rw [hurl, plain_append, plain_cons, plain_cons, plain_cons, plain_append] at h
    exact h.2.2.2.2
  have haddressed := addressed_of_written _ halpha hname hplain.1 hopen
    (hplain.2.sublist (List.takeWhile_sublist _)) hhead
  rw [← hurl, hlower, ← hscheme', ← hnetloc'] at haddressed
  exact ⟨_, _, haddressed⟩

/-! ### Putting together -/

/-- A part with its separator is plain when the part is. -/
theorem plain_withSeparator (hc : isBlank c = false) (h : Plain a) : Plain (withSeparator c a) := by
  unfold withSeparator
  split
  · exact fun _ hmem => nomatch hmem
  · exact plain_cons.mpr ⟨hc, h⟩

theorem plain_rooted (h : Plain a) : Plain (rooted a) := by
  unfold rooted
  split
  · exact plain_cons.mpr ⟨by decide, h⟩
  · exact h

/-- It starts with its slash. -/
theorem rooted_head (h : (rooted a).head? = some c) : c = '/' := by
  unfold rooted at h
  split at h
  · cases h
    rfl
  · rename_i hcond
    cases a with
    | nil => cases h
    | cons c' rest =>
      by_contra hne
      cases h
      exact hcond ⟨by simp, by simpa using hne⟩

theorem withSeparator_head {x : Char} (h : (withSeparator c a).head? = some x) : x = c := by
  unfold withSeparator at h
  split at h
  · cases h
  · exact (Option.some.inj h).symm

/-- What is put together with a scheme and a network location leads there. -/
theorem addressed_urlunparse {p : Parsed} (hscheme : p.scheme ∈ ["http".toList, "https".toList])
    (hne : p.netloc ≠ []) (hnetloc : Plain p.netloc) (hopen : p.netloc.all (!isDelimiter ·) = true)
    (hpath : Plain p.path) (hparams : Plain p.params) (hquery : Plain p.query)
    (hfragment : Plain p.fragment) :
    ∃ core tail, Addressed (urlunparse p) p.scheme p.netloc core tail := by
  have hname : p.scheme ≠ [] ∧ p.scheme.map Char.toLower = p.scheme ∧
      p.scheme.head?.any Char.isAlpha = true ∧ p.scheme.all isSchemeChar = true := by
    rcases List.mem_cons.mp hscheme with h | h
    · rw [h]
      decide
    · rw [List.mem_singleton.mp h]
      decide
  obtain ⟨hsome, hlower, halpha, hall⟩ := hname
  have hrest : Plain (rooted (p.path ++ withSeparator ';' p.params) ++ (withSeparator '?' p.query ++
      withSeparator '#' p.fragment)) := by
    refine plain_append.mpr ⟨plain_rooted (plain_append.mpr ⟨hpath, ?_⟩), plain_append.mpr ⟨?_, ?_⟩⟩
    · exact plain_withSeparator (by decide) hparams
    · exact plain_withSeparator (by decide) hquery
    · exact plain_withSeparator (by decide) hfragment
  have hhead : ∀ c, (rooted (p.path ++ withSeparator ';' p.params) ++ (withSeparator '?' p.query ++
      withSeparator '#' p.fragment)).head? = some c → isDelimiter c = true := by
    intro c hc
    rw [List.head?_append, Option.or_eq_some_iff, List.head?_append, Option.or_eq_some_iff] at hc
    rcases hc with hc | ⟨-, hc | ⟨-, hc⟩⟩
    · rw [rooted_head hc]
      rfl
    · rw [withSeparator_head hc]
      rfl
    · rw [withSeparator_head hc]
      rfl
  have hurl : urlunparse p = p.scheme ++ ':' :: '/' :: '/' :: (p.netloc ++
      (rooted (p.path ++ withSeparator ';' p.params) ++ (withSeparator '?' p.query ++
        withSeparator '#' p.fragment))) := by
    simp only [urlunparse, urlunsplit, if_pos hne, if_neg hsome]
    simp
  have haddressed := addressed_of_written _ halpha hall hnetloc hopen
    (hrest.sublist (List.takeWhile_sublist _)) hhead
  rw [hlower, ← hurl] at haddressed
  exact ⟨_, _, haddressed⟩

/-! ### Resolving -/

/-- The segments of two plain paths are plain. -/
theorem plain_segmentsFrom (ha : Plain a) (hb : Plain b) :
    ∀ part ∈ segmentsFrom a b, Plain part := by
  have hsplit : ∀ {s : List Char}, Plain s → ∀ part ∈ s.splitOn '/', Plain part :=
    fun hs part hpart c hc => hs c (mem_of_mem_splitOn hpart hc)
  intro part hpart
  unfold segmentsFrom at hpart
  split at hpart
  · exact hsplit hb part hpart
  · have hparts : ∀ x ∈ (if (a.splitOn '/').getLast? = some [] then a.splitOn '/'
        else (a.splitOn '/').dropLast) ++ b.splitOn '/', Plain x := by
      intro x hx
      rcases List.mem_append.mp hx with hx | hx
      · split at hx
        · exact hsplit ha x hx
        · exact hsplit ha x ((List.dropLast_sublist _).subset hx)
      · exact hsplit hb x hx
    simp only at hpart
    split at hpart
    · cases hpart
    · rename_i first rest hall
      rw [hall] at hparts
      refine hparts part ?_
      rcases List.mem_cons.mp hpart with rfl | hpart
      · exact List.mem_cons_self
      · refine List.mem_cons_of_mem _ ?_
        rcases List.mem_append.mp hpart with hpart | hpart
        · exact (List.dropLast_sublist _).subset (List.mem_filter.mp hpart).1
        · exact List.mem_of_getLast? (Option.mem_toList.mp hpart)

/-- So are those left when the dots are resolved. -/
theorem plain_resolveSegments {segments : List (List Char)} (h : ∀ part ∈ segments, Plain part) :
    ∀ part ∈ resolveSegments segments, Plain part := by
  have hfold : ∀ (segments resolved : List (List Char)), (∀ part ∈ segments, Plain part) →
      (∀ part ∈ resolved, Plain part) →
      ∀ part ∈ segments.foldl resolveSegment resolved, Plain part := by
    intro segments
    induction segments with
    | nil => exact fun resolved _ h => h
    | cons segment segments ih =>
      intro resolved hall hresolved
      rw [List.forall_mem_cons] at hall
      refine ih _ hall.2 fun part hpart => ?_
      unfold resolveSegment at hpart
      split at hpart
      · exact hresolved part ((List.dropLast_sublist _).subset hpart)
      · split at hpart
        · exact hresolved part hpart
        · rcases List.mem_append.mp hpart with hpart | hpart
          · exact hresolved part hpart
          · rw [List.mem_singleton.mp hpart]
            exact hall.1
  have hresolved := hfold segments [] h (List.forall_mem_nil _)
  intro part hpart
  unfold resolveSegments at hpart
  simp only at hpart
  split at hpart
  · rcases List.mem_append.mp hpart with hpart | hpart
    · exact hresolved part hpart
    · rw [List.mem_singleton.mp hpart]
      exact List.forall_mem_nil _
  · exact hresolved part hpart

theorem plain_resolvePath (ha : Plain a) (hb : Plain b) : Plain (resolvePath a b) := by
  have hresolved := plain_resolveSegments (plain_segmentsFrom ha hb)
  unfold resolvePath
  simp only
  split
  · exact plain_cons.mpr ⟨by decide, List.forall_mem_nil _⟩
  · intro c hc
    rcases mem_of_mem_intercalate hc with rfl | ⟨part, hpart, hmem⟩
    · decide
    · exact hresolved part hpart c hmem

/-- The parts of a URL are those of its split, the parameters cut from the path. -/
theorem urlparse_eq_some {p : Parsed} (hp : urlparse t url d = some p) :
    ∃ s, urlsplit t url d = some s ∧ p.scheme = s.scheme ∧ p.netloc = s.netloc ∧
      p.query = s.query ∧ p.fragment = s.fragment ∧
      (Plain s.path → Plain p.path ∧ Plain p.params) := by
  obtain ⟨s, hs, hparsed⟩ := Option.map_eq_some_iff.mp hp
  refine ⟨s, hs, ?_⟩
  split at hparsed
  · cases hparsed
    refine ⟨rfl, rfl, rfl, rfl, fun hpath => ?_⟩
    have hlast : Plain (s.path.rtakeWhile (· ≠ '/')) := hpath.sublist (List.rtakeWhile_suffix _ _).sublist
    refine ⟨plain_append.mpr ⟨hpath.sublist (List.rdropWhile_prefix _ _).sublist, ?_⟩, ?_⟩
    · exact (hlast.partition ';').1
    · exact (hlast.partition ';').2
  · cases hparsed
    exact ⟨rfl, rfl, rfl, rfl, fun hpath => ⟨hpath, fun _ h => nomatch h⟩⟩

/-- The parts of a plain URL are plain. -/
theorem plain_urlsplit (h : Plain url) (hs : urlsplit t url d = some s) :
    Plain s.netloc ∧ s.netloc.all (!isDelimiter ·) = true ∧ Plain s.path ∧ Plain s.query ∧
      Plain s.fragment := by
  obtain ⟨-, hnetloc, hpath, hquery, hfragment⟩ := urlsplit_eq_some hs
  have hafter : Plain (splitScheme (clean url) d).2 := by
    rw [h.clean]
    unfold splitScheme
    simp only
    split
    · exact (h.partition ':').2
    · exact h
  have hparts : Plain (splitNetloc (splitScheme (clean url) d).2).1 ∧
      (splitNetloc (splitScheme (clean url) d).2).1.all (!isDelimiter ·) = true ∧
      Plain (splitNetloc (splitScheme (clean url) d).2).2 := by
    generalize (splitScheme (clean url) d).2 = rest at hafter
    unfold splitNetloc
    split
    · have hrest := (plain_cons.mp (plain_cons.mp hafter).2).2
      exact ⟨hrest.sublist (List.takeWhile_sublist _), List.all_takeWhile,
        hrest.sublist (List.dropWhile_sublist _)⟩
    · exact ⟨List.forall_mem_nil _, rfl, hafter⟩
  rw [hnetloc, hpath, hquery, hfragment]
  have hfront := (hparts.2.2.partition '#').1.partition '?'
  exact ⟨hparts.1, hparts.2.1, hfront.1, hfront.2, (hparts.2.2.partition '#').2⟩

/-- What stands in place of a URL's path keeps the host given, and is plain. -/
theorem plain_inPlaceOf {b p : Parsed} (hpath : Plain b.path) (hparams : Plain b.params)
    (hquery : Plain b.query) (hpath' : Plain p.path) (hparams' : Plain p.params)
    (hquery' : Plain p.query) (hfragment' : Plain p.fragment) (netloc : List Char) :
    (inPlaceOf b p netloc).scheme = p.scheme ∧ (inPlaceOf b p netloc).netloc = netloc ∧
      Plain (inPlaceOf b p netloc).path ∧ Plain (inPlaceOf b p netloc).params ∧
      Plain (inPlaceOf b p netloc).query ∧ Plain (inPlaceOf b p netloc).fragment := by
  unfold inPlaceOf
  split
  · refine ⟨rfl, rfl, hpath, hparams, ?_, hfragment'⟩
    show Plain (if p.query = [] then b.query else p.query)
    split
    · exact hquery
    · exact hquery'
  · exact ⟨rfl, rfl, plain_resolvePath hpath hpath', hparams', hquery', hfragment'⟩

/-- **What resolving against a URL can give** that leads over `http` or `https`: the URL itself, one
that leads over the same scheme, or what was resolved, as it is. -/
theorem urljoin_cases {base joined : List Char} (hbase : Addressed base scheme netloc core tail)
    (hscheme : scheme ∈ ["http".toList, "https".toList]) (hopen : netloc ≠ []) (hurl : Plain url)
    (h : urljoin t base url = some joined) :
    joined = base ∨ joined = url ∨
      ∃ netloc' core' tail', Addressed joined scheme netloc' core' tail' := by
  unfold urljoin at h
  split at h
  · exact .inr (.inl (Option.some.inj h).symm)
  · split at h
    · exact .inl (Option.some.inj h).symm
    · obtain ⟨b, hb, h⟩ := Option.bind_eq_some_iff.mp h
      obtain ⟨p, hp, h⟩ := Option.bind_eq_some_iff.mp h
      obtain ⟨bs, hbs, hbscheme, hbnetloc, hbquery, hbfragment, hbpath⟩ := urlparse_eq_some hb
      obtain ⟨ps, hps, hpscheme, hpnetloc, hpquery, hpfragment, hppath⟩ := urlparse_eq_some hp
      obtain ⟨hbs₁, hbs₂, hbs₃, hbs₄⟩ := hbase.urlsplit hbs
      obtain ⟨hps₁, hps₂, hps₃, hps₄, hps₅⟩ := plain_urlsplit hurl hps
      split at h
      · exact .inr (.inl (Option.some.inj h).symm)
      · rename_i hsame
        rw [not_or, not_not, not_not] at hsame
        have hsame' : p.scheme = scheme := by rw [hsame.1, hbscheme, hbs₁]
        have hlisted : ∀ x ∈ ["http".toList, "https".toList], x ∈ usesNetloc := by decide +kernel
        have hplace : ∃ netloc' core' tail',
            Addressed (urlunparse (inPlaceOf b p b.netloc)) scheme netloc' core' tail' := by
          obtain ⟨hpath, hparams⟩ := hbpath hbs₃
          obtain ⟨hpath', hparams'⟩ := hppath hps₃
          rw [← hbquery] at hbs₄
          rw [← hpquery] at hps₄
          rw [← hpfragment] at hps₅
          have hparts := plain_inPlaceOf hpath hparams hbs₄ hpath' hparams' hps₄ hps₅ b.netloc
          obtain ⟨core', tail', haddressed⟩ := addressed_urlunparse
            (by rw [hparts.1, hsame']; exact hscheme)
            (by rw [hparts.2.1, hbnetloc, hbs₂]; exact hopen)
            (by rw [hparts.2.1, hbnetloc, hbs₂]; exact hbase.plain_netloc)
            (by rw [hparts.2.1, hbnetloc, hbs₂]; exact hbase.netloc_open)
            hparts.2.2.1 hparts.2.2.2.1 hparts.2.2.2.2.1 hparts.2.2.2.2.2
          rw [hparts.1, hsame'] at haddressed
          exact ⟨_, _, _, haddressed⟩
        split at h
        · split at h
          · rename_i hne
            cases h
            obtain ⟨hpath', hparams'⟩ := hppath hps₃
            obtain ⟨core', tail', haddressed⟩ := addressed_urlunparse (hsame'.symm ▸ hscheme) hne
              (hpnetloc ▸ hps₁) (hpnetloc ▸ hps₂) hpath' hparams' (hpquery ▸ hps₄)
              (hpfragment ▸ hps₅)
            rw [hsame'] at haddressed
            exact .inr (.inr ⟨_, _, _, haddressed⟩)
          · cases h
            exact .inr (.inr hplace)
        · rename_i hlist
          exact absurd (hlisted _ (hsame'.symm ▸ hscheme)) hlist

end Lemmas

end Url
