import ProotDistro.Download
import ProotDistro.Lib.Text

/-!
# `retry_http`: when a request is tried again, and how long that waits

Each try of a request comes out one way or another, and after a failure the clock may be read twice:
for the decision whether to try again, and for the pause before that. A server that is too busy may
say when to come back, as a number of seconds or as a date; a date is a wait counted from the reading
of the clock. Waits are in microseconds, pauses in whole seconds. The outcomes, the readings of the
clock and the reader of dates are arbitrary. Log lines are left out.

* **`retryHttp_disciplined`** — for every sequence of outcomes: how many tries, which outcome is
  answered, where the pauses are and how long each is.
* **`retryHttp_answers`** — the loop of `Download.retryHttp`, which knows of no pauses, is this one.
-/

namespace ProotDistro

namespace Download

namespace Retry

/-! ## Failures -/

/-- What a header holds: a text, or an object that is not a `str`. -/
inductive HeaderValue where
  | text (value : Str)
  | other

/-- The headers of an answer, in the order they came. -/
abbrev Headers := List (Str × HeaderValue)

/-- `headers.get`: the first one of the name, whatever its case. -/
def Headers.get (headers : Headers) (name : Str) : Option HeaderValue :=
  (headers.find? fun h => h.1.map Char.toLower = name.map Char.toLower).map Prod.snd

/-- `urllib.error.HTTPError` -/
structure HTTPError where
  code : Nat
  headers : Option Headers

/-- The `reason` of a `URLError`. -/
inductive Reason where
  /-- an `ssl.SSLError` with its own reason; whether it is an `SSLCertVerificationError` -/
  | ssl (verification : Bool) (reason : Option Str)
  | other

/-- What a request may fail with. -/
inductive Exc where
  | http (e : HTTPError)
  | url (reason : Reason)
  | invalidURL
  | redirectRefused
  | invalidRequest
  /-- any other of NETWORK_ERRORS: a reset, a timeout, a body cut short -/
  | network
  /-- none of NETWORK_ERRORS -/
  | foreign

/-- NETWORK_ERRORS -/
def Exc.isNetworkError : Exc → Bool
  | .foreign => false
  | _ => true

/-- `is_cert_verification_error` -/
def isCertVerificationError : Reason → Bool
  | .ssl verification reason => verification || reason = some "CERTIFICATE_VERIFY_FAILED".toList
  | .other => false

/-- `_PLAINTEXT_HTTP_TLS_REASONS` -/
def plaintextHttpTlsReasons : List Str :=
  ["WRONG_VERSION_NUMBER".toList, "UNKNOWN_PROTOCOL".toList, "HTTP_REQUEST".toList]

/-- `is_plaintext_http_tls_error` -/
def isPlaintextHttpTlsError : Reason → Bool
  | .ssl _ reason => reason.getD [] ∈ plaintextHttpTlsReasons
  | .other => false

/-! ## How long the server asks to wait -/

/-- MAX_RETRY_AFTER, in seconds. -/
def maxRetryAfter : Nat := 60

/-- Microseconds in a second. -/
def perSecond : Nat := 1000000

/-- `_RETRY_LATER_CODES` -/
def retryLaterCodes : List Nat := [429, 503]

/-- `_DELTA_SECONDS_RE` -/
def isDeltaSeconds (value : Str) : Bool := !value.isEmpty && value.all Char.isDigit

/-- The number its decimal digits spell. A float is as large wherever the cap matters. -/
def deltaSeconds (value : Str) : Nat := value.foldl (fun n c => 10 * n + (c.toNat - '0'.toNat)) 0

/-- `retry_after`, read at the time `now`; `parsedate` is the moment a date names. -/
def retryAfter (parsedate : Str → Option Int) (now : Int) : Exc → Option Nat
  | .http e =>
    match e.headers with
    | none => none
    | some headers =>
      match headers.get "Retry-After".toList with
      | some (.text value) =>
        if isDeltaSeconds (Text.strip value) then
          some (deltaSeconds (Text.strip value) * perSecond)
        else (parsedate (Text.strip value)).map fun moment => (moment - now).toNat
      | _ => none
  | _ => none

/-- `_QUOTA_REMAINING_HEADERS` -/
def quotaRemainingHeaders : List Str :=
  ["RateLimit-Remaining".toList, "X-RateLimit-Remaining".toList]

/-- `_QUOTA_SPENT_RE`: zeros, blanks, and then the end or a semicolon. -/
def isQuotaSpent (value : Str) : Bool :=
  value.head? = some '0' &&
    match (value.dropWhile (· = '0')).dropWhile (· ∈ [' ', '\t']) with
    | [] => true
    | c :: _ => c = ';'

/-- `_quota_spent` -/
def quotaSpent (e : HTTPError) : Bool :=
  match e.headers with
  | none => false
  | some headers => quotaRemainingHeaders.any fun name =>
      match headers.get name with
      | some (.text value) => isQuotaSpent (Text.strip value)
      | _ => false

/-- `is_retryable_http_error` -/
def isRetryableHttpError (parsedate : Str → Option Int) (now : Int) : Exc → Bool
  | .http e =>
    if e.code ∈ retryLaterCodes then
      match retryAfter parsedate now (.http e) with
      | some wait => wait ≤ maxRetryAfter * perSecond
      | none => !(e.code = 429 && quotaSpent e)
    else !(400 ≤ e.code && e.code < 500 && e.code ≠ 408)
  | .url reason => !(isCertVerificationError reason || isPlaintextHttpTlsError reason)
  | .invalidURL | .redirectRefused | .invalidRequest => false
  | .network | .foreign => true

/-- The failure is the server's word to come back later. -/
def saysLater : Exc → Bool
  | .http e => e.code ∈ retryLaterCodes
  | _ => false

/-- The pause after a failure, in seconds. -/
def delayOf (parsedate : Str → Option Int) (now : Int) (retryDelay : Nat) (exc : Exc) : Nat :=
  match if saysLater exc then retryAfter parsedate now exc else none with
  | none => retryDelay
  | some wait =>
    -- `math.ceil` of a number of seconds
    max retryDelay ((min wait (maxRetryAfter * perSecond) + (perSecond - 1)) / perSecond)

/-! ## The loop -/

/-- One try: how it comes out, and what the clock shows when a failure is judged and when its pause
is worked out. -/
structure Trial (α : Type) where
  outcome : Except Exc α
  judgedAt : Int
  pausedAt : Int

/-- What a run does, one after the other. -/
inductive Event where
  | attempt (n : Nat)
  | pause (seconds : Nat)
  deriving DecidableEq

section Loop

variable {α : Type} (parsedate : Str → Option Int) (maxRetries retryDelay : Nat)
  (trials : Nat → Trial α)

/-- A failure of this try may be followed by another try. -/
def retries (trial : Trial α) (exc : Exc) : Bool :=
  exc.isNetworkError && isRetryableHttpError parsedate trial.judgedAt exc

/-- The loop of `retry_http` over the attempts that remain; `none` where they run out. -/
def retryLoop : List Nat → List Event × Option (Except Exc α)
  | [] => ([], none)
  | n :: rest =>
    match (trials n).outcome with
    | .ok value => ([.attempt n], some (.ok value))
    | .error exc =>
      if exc.isNetworkError = false then ([.attempt n], some (.error exc))
      else if isRetryableHttpError parsedate (trials n).judgedAt exc = false ∨ maxRetries - 1 ≤ n then
        ([.attempt n], some (.error exc))
      else
        let after := retryLoop rest
        (.attempt n :: .pause (delayOf parsedate (trials n).pausedAt retryDelay exc) :: after.1, after.2)

/-- `retry_http` -/
def retryHttp : List Event × Option (Except Exc α) :=
  retryLoop parsedate maxRetries retryDelay trials (List.range maxRetries)

end Loop

/-! ## How long a pause is -/

section Pauses

variable {parsedate : Str → Option Int} {retryDelay first later : Nat} {exc : Exc}
  {judgedAt pausedAt : Int}

/-- The pause is no shorter than the plain one. -/
theorem retryDelay_le_delayOf : retryDelay ≤ delayOf parsedate pausedAt retryDelay exc := by
  unfold delayOf
  split
  · exact le_refl _
  · exact le_max_left _ _

/-- It is no longer than the longer of that and the bound. -/
theorem delayOf_le : delayOf parsedate pausedAt retryDelay exc ≤ max retryDelay maxRetryAfter := by
  unfold delayOf
  split
  · exact le_max_left _ _
  · rename_i wait _
    have hcap : (min wait (maxRetryAfter * perSecond) + (perSecond - 1)) / perSecond ≤
        maxRetryAfter := by
      show (min wait (60 * 1000000) + (1000000 - 1)) / 1000000 ≤ 60
      omega
    omega

/-- The pause lasts as long as the server asks for, up to the cap. -/
theorem min_le_delayOf (hlater : saysLater exc = true)
    (hwait : retryAfter parsedate pausedAt exc = some later) :
    min later (maxRetryAfter * perSecond) ≤
      delayOf parsedate pausedAt retryDelay exc * perSecond := by
  unfold delayOf
  rw [if_pos hlater, hwait]
  show min later (60 * 1000000) ≤
    max retryDelay ((min later (60 * 1000000) + (1000000 - 1)) / 1000000) * 1000000
  omega

/-- A failure that is worth another try asks for no more than the cap. -/
theorem wait_le_of_retryable (hlater : saysLater exc = true)
    (hretry : isRetryableHttpError parsedate judgedAt exc = true)
    (hwait : retryAfter parsedate judgedAt exc = some first) :
    first ≤ maxRetryAfter * perSecond := by
  cases exc with
  | http e =>
    have hcode : e.code ∈ retryLaterCodes := by
      simpa [saysLater] using hlater
    unfold isRetryableHttpError at hretry
    dsimp only at hretry
    rw [if_pos hcode, hwait] at hretry
    simpa using hretry
  | _ => cases hlater

/-- A wait asked for is no longer at a later reading of the clock. -/
theorem retryAfter_anti (hfirst : retryAfter parsedate judgedAt exc = some first)
    (hlater : retryAfter parsedate pausedAt exc = some later) (hclock : judgedAt ≤ pausedAt) :
    later ≤ first := by
  cases exc with
  | http e =>
    unfold retryAfter at hfirst hlater
    dsimp only at hfirst hlater
    split at hfirst
    · cases hfirst
    · rename_i headers hheaders
      rw [hheaders] at hlater
      dsimp only at hlater
      split at hfirst
      · rename_i value hvalue
        rw [hvalue] at hlater
        dsimp only at hlater
        split at hfirst
        · rename_i hdelta
          rw [if_pos hdelta] at hlater
          rw [← Option.some.inj hfirst, ← Option.some.inj hlater]
        · rename_i hdelta
          rw [if_neg hdelta] at hlater
          cases hmoment : parsedate (Text.strip value) with
          | none =>
            rw [hmoment] at hfirst
            cases hfirst
          | some moment =>
            rw [hmoment] at hfirst hlater
            have hf := Option.some.inj hfirst
            have hl := Option.some.inj hlater
            dsimp only at hf hl
            omega
      · cases hfirst
  | _ => cases hfirst

/-- Whether a server is heard to ask for a wait does not hang on the time. -/
theorem retryAfter_isSome (now : Int) :
    (retryAfter parsedate now exc).isSome = (retryAfter parsedate 0 exc).isSome := by
  cases exc with
  | http e =>
    unfold retryAfter
    dsimp only
    split
    · rfl
    · split
      · split
        · rfl
        · rw [Option.isSome_map, Option.isSome_map]
      · rfl
  | _ => rfl

end Pauses

/-! ## The discipline -/

section Discipline

variable {α : Type}

/-- The pause after a try is within its bounds: at least the base delay, at most the larger of that
and the cap, and as long as the server asked for, by the shorter of the two readings of the clock,
and by the second where the clock has not gone back in between. -/
def InBounds (parsedate : Str → Option Int) (retryDelay : Nat) (trial : Trial α) (seconds : Nat) :
    Prop :=
  retryDelay ≤ seconds ∧ seconds ≤ max retryDelay maxRetryAfter ∧
    ∀ exc first, trial.outcome = .error exc → saysLater exc = true →
      retryAfter parsedate trial.judgedAt exc = some first →
      ∃ later, retryAfter parsedate trial.pausedAt exc = some later ∧
        min first later ≤ seconds * perSecond ∧
        (trial.judgedAt ≤ trial.pausedAt → later ≤ seconds * perSecond)

/-- A run from the try `start` on: it ends with the try `last`, which answers, fails for good or is
the last one allowed; every try before it fails in a way that may pass, and is followed by one pause
within its bounds. -/
def Disciplined (parsedate : Str → Option Int) (maxRetries retryDelay : Nat) (trials : Nat → Trial α)
    (start : Nat) (run : List Event × Option (Except Exc α)) : Prop :=
  ∃ (last : Nat) (pauses : Nat → Nat), start ≤ last ∧ last < maxRetries ∧
    run.1 = (List.range' start (last - start)).flatMap (fun n => [.attempt n, .pause (pauses n)]) ++
      [.attempt last] ∧
    run.2 = some (trials last).outcome ∧
    ((∀ exc, (trials last).outcome = .error exc → retries parsedate (trials last) exc = false) ∨
      last + 1 = maxRetries) ∧
    ∀ n, start ≤ n → n < last →
      (∃ exc, (trials n).outcome = .error exc ∧ retries parsedate (trials n) exc = true) ∧
      InBounds parsedate retryDelay (trials n) (pauses n)

variable {parsedate : Str → Option Int} {maxRetries retryDelay start : Nat}
  {trials : Nat → Trial α}

theorem inBounds_delayOf {trial : Trial α} {exc : Exc} (hfails : trial.outcome = .error exc)
    (hretry : isRetryableHttpError parsedate trial.judgedAt exc = true) :
    InBounds parsedate retryDelay trial (delayOf parsedate trial.pausedAt retryDelay exc) := by
  refine ⟨retryDelay_le_delayOf, delayOf_le, ?_⟩
  intro exc' first hexc hlater hfirst
  rw [hfails] at hexc
  obtain rfl := Except.error.inj hexc
  have hsome : (retryAfter parsedate trial.pausedAt exc).isSome = true := by
    rw [retryAfter_isSome, ← retryAfter_isSome trial.judgedAt, hfirst]
    rfl
  obtain ⟨later, hwait⟩ := Option.isSome_iff_exists.mp hsome
  have hcap := wait_le_of_retryable hlater hretry hfirst
  have hpause : min later (maxRetryAfter * perSecond) ≤
      delayOf parsedate trial.pausedAt retryDelay exc * perSecond := min_le_delayOf hlater hwait
  refine ⟨later, hwait, ?_, ?_⟩
  · omega
  · intro hclock
    have hshorter := retryAfter_anti hfirst hwait hclock
    omega

/-- A run that ends with its first try. -/
theorem disciplined_stop (hstart : start < maxRetries)
    (hstop : (∀ exc, (trials start).outcome = .error exc →
      retries parsedate (trials start) exc = false) ∨ start + 1 = maxRetries) :
    Disciplined parsedate maxRetries retryDelay trials start
      ([.attempt start], some (trials start).outcome) := by
  refine ⟨start, fun _ => 0, le_refl _, hstart, ?_, rfl, hstop, ?_⟩
  · rw [Nat.sub_self]
    rfl
  · intro n hle hlt
    omega

/-- One more try in front, with its pause. -/
theorem disciplined_retry {exc : Exc} {seconds : Nat} {run : List Event × Option (Except Exc α)}
    (hfails : (trials start).outcome = .error exc)
    (hretry : retries parsedate (trials start) exc = true)
    (hbounds : InBounds parsedate retryDelay (trials start) seconds)
    (h : Disciplined parsedate maxRetries retryDelay trials (start + 1) run) :
    Disciplined parsedate maxRetries retryDelay trials start
      (.attempt start :: .pause seconds :: run.1, run.2) := by
  obtain ⟨last, pauses, hle, hlast, hevents, hresult, hstop, hbefore⟩ := h
  refine ⟨last, fun n => if n = start then seconds else pauses n, by omega, hlast, ?_, hresult,
    hstop, ?_⟩
  · have hmore : last - start = (last - (start + 1)) + 1 := by omega
    have hrest : (List.range' (start + 1) (last - (start + 1))).flatMap
          (fun n => [Event.attempt n, Event.pause (pauses n)]) =
        (List.range' (start + 1) (last - (start + 1))).flatMap
          (fun n => [Event.attempt n, Event.pause (if n = start then seconds else pauses n)]) := by
      apply List.flatMap_congr
      intro n hn
      have hrange := List.mem_range'_1.mp hn
      rw [if_neg (by omega)]
    show Event.attempt start :: Event.pause seconds :: run.1 = _
    rw [hmore, List.range'_succ, List.flatMap_cons]
    dsimp only
    rw [if_pos rfl, hevents, hrest]
    rfl
  · intro n hn hlt
    dsimp only
    by_cases heq : n = start
    · rw [if_pos heq, heq]
      exact ⟨⟨exc, hfails, hretry⟩, hbounds⟩
    · rw [if_neg heq]
      apply hbefore n _ hlt
      omega

/-- The loop ends with a try that answers, fails for good or is the last. -/
theorem retryLoop_stop {rest : List Nat}
    (h : ∀ exc, (trials start).outcome = .error exc →
      retries parsedate (trials start) exc = false ∨ maxRetries - 1 ≤ start) :
    retryLoop parsedate maxRetries retryDelay trials (start :: rest) =
      ([.attempt start], some (trials start).outcome) := by
  rw [retryLoop]
  split
  · rename_i value hvalue
    rw [hvalue]
  · rename_i exc hexc
    rw [hexc]
    split
    · rfl
    · rename_i hnetwork
      rw [Bool.not_eq_false] at hnetwork
      have hstop := h exc hexc
      unfold retries at hstop
      rw [hnetwork, Bool.true_and] at hstop
      rw [if_pos hstop]

/-- The loop goes on after a failure that may pass. -/
theorem retryLoop_retry {rest : List Nat} {exc : Exc} (hfails : (trials start).outcome = .error exc)
    (hretry : retries parsedate (trials start) exc = true) (hmore : start < maxRetries - 1) :
    retryLoop parsedate maxRetries retryDelay trials (start :: rest) =
      (.attempt start :: .pause (delayOf parsedate (trials start).pausedAt retryDelay exc) ::
          (retryLoop parsedate maxRetries retryDelay trials rest).1,
        (retryLoop parsedate maxRetries retryDelay trials rest).2) := by
  unfold retries at hretry
  rw [Bool.and_eq_true] at hretry
  rw [retryLoop, hfails]
  dsimp only
  rw [if_neg (by rw [hretry.1]; simp), if_neg]
  rw [hretry.2]
  simp only [Bool.true_eq_false, false_or]
  omega

/-- The loop, by induction on the tries that remain. -/
theorem retryLoop_disciplined (count : Nat) :
    ∀ start, start + (count + 1) = maxRetries →
      Disciplined parsedate maxRetries retryDelay trials start
        (retryLoop parsedate maxRetries retryDelay trials (List.range' start (count + 1))) := by
  induction count with
  | zero =>
    intro start hcount
    rw [List.range'_succ, retryLoop_stop fun _ _ => .inr (by omega)]
    apply disciplined_stop
    · omega
    · right
      omega
  | succ count ih =>
    intro start hcount
    rw [List.range'_succ]
    by_cases hpasses : ∃ exc, (trials start).outcome = .error exc ∧
        retries parsedate (trials start) exc = true
    · obtain ⟨exc, hfails, hretry⟩ := hpasses
      have hjudged := hretry
      unfold retries at hjudged
      rw [Bool.and_eq_true] at hjudged
      rw [retryLoop_retry hfails hretry (by omega)]
      apply disciplined_retry hfails hretry (inBounds_delayOf hfails hjudged.2)
      apply ih
      omega
    · have hstop : ∀ exc, (trials start).outcome = .error exc →
          retries parsedate (trials start) exc = false := by
        intro exc hexc
        by_contra hretry
        exact hpasses ⟨exc, hexc, by simpa using hretry⟩
      rw [retryLoop_stop fun exc hexc => .inl (hstop exc hexc)]
      apply disciplined_stop
      · omega
      · left
        exact hstop

/-- **The retry discipline**, for every sequence of outcomes and every clock. -/
theorem retryHttp_disciplined (h : 1 ≤ maxRetries) :
    Disciplined parsedate maxRetries retryDelay trials 0
      (retryHttp parsedate maxRetries retryDelay trials) := by
  obtain ⟨count, rfl⟩ := Nat.exists_eq_add_of_le' h
  unfold retryHttp
  rw [List.range_eq_range']
  apply retryLoop_disciplined
  omega

/-- A server that answers at the third try, and asks for a pause of twenty seconds before that. -/
def thirdTime : Nat → Trial Nat
  | 0 => ⟨.error .network, 0, 0⟩
  | 1 => ⟨.error (.http ⟨429, some [("retry-after".toList, .text "20".toList)]⟩), 0, 0⟩
  | n + 2 => ⟨.ok n, 0, 0⟩

/-- Two failures, two pauses, and the answer. -/
theorem retryHttp_disciplined_thirdTime :
    (retryHttp (fun _ => none) 5 5 thirdTime).1 =
        [.attempt 0, .pause 5, .attempt 1, .pause 20, .attempt 2] ∧
      Disciplined (fun _ => none) 5 5 thirdTime 0 (retryHttp (fun _ => none) 5 5 thirdTime) :=
  ⟨by decide +kernel, retryHttp_disciplined (by decide)⟩

/-! ## The same loop without its pauses -/

/-- What a caller of `Download.retryHttp` sees of a failure. -/
def faultOf (parsedate : Str → Option Int) (trial : Trial α) (exc : Exc) : Fault :=
  if exc.isNetworkError then .network (isRetryableHttpError parsedate trial.judgedAt exc) else .raised

/-- The request whose tries come out as given, one after the other. -/
def scripted (parsedate : Str → Option Int) (trials : Nat → Trial α) : Proc Nat Fault α := fun n =>
  ((trials n).outcome.mapError (faultOf parsedate (trials n)), n + 1)

/-- A fault is tried again when the source says so. -/
theorem retryable_faultOf {trial : Trial α} {exc : Exc} :
    (faultOf parsedate trial exc).retryable = retries parsedate trial exc := by
  unfold faultOf retries
  cases exc.isNetworkError <;> rfl

/-- The loop of `Download.retryHttp` ends with the try that ends this one. -/
theorem retryLoop_scripted {last : Nat} (left : Nat) :
    ∀ start, start ≤ last → last ≤ start + left →
      ((∀ exc, (trials last).outcome = .error exc → retries parsedate (trials last) exc = false) ∨
        last = start + left) →
      (∀ n, start ≤ n → n < last → ∃ exc, (trials n).outcome = .error exc ∧
        retries parsedate (trials n) exc = true) →
      Download.retryLoop (scripted parsedate trials) left start =
        ((trials last).outcome.mapError (faultOf parsedate (trials last)), last + 1) := by
  -- by induction on the tries left
  induction left with
  | zero =>
    intro start hle hge _ _
    have heq : last = start := by omega
    rw [heq]
    rfl
  | succ left ih =>
    intro start hle hge hstop hbefore
    unfold Download.retryLoop
    -- the last try: its outcome is the loop's
    by_cases heq : start = last
    · rw [heq]
      cases hout : (trials last).outcome with
      | ok value =>
        have hrun : scripted parsedate trials last = (.ok value, last + 1) := by
          unfold scripted
          rw [hout]
          rfl
        rw [Proc.handle_of_ok hrun]
        rfl
      | error exc =>
        have hrun : scripted parsedate trials last =
            (.error (faultOf parsedate (trials last) exc), last + 1) := by
          unfold scripted
          rw [hout]
          rfl
        have hfinal : retries parsedate (trials last) exc = false := by
          rcases hstop with hstop | hlast
          · exact hstop exc hout
          · omega
        rw [Proc.handle_of_error hrun, retryable_faultOf, hfinal, if_neg (by simp)]
        rfl
    -- an earlier one fails with an error that is tried again
    · obtain ⟨exc, hout, hretry⟩ := hbefore start (le_refl _) (by omega)
      have hrun : scripted parsedate trials start =
          (.error (faultOf parsedate (trials start) exc), start + 1) := by
        unfold scripted
        rw [hout]
        rfl
      rw [Proc.handle_of_error hrun]
      rw [retryable_faultOf, hretry, if_pos rfl]
      apply ih
      · omega
      · omega
      · rcases hstop with hstop | hlast
        · exact .inl hstop
        · right
          omega
      · intro n hn hlt
        apply hbefore n _ hlt
        omega

/-- The procedure the rest of the program uses answers what this run answers. -/
theorem retryHttp_answers :
    ∃ last, (retryHttp parsedate Download.maxRetries retryDelay trials).2 =
        some (trials last).outcome ∧
      Download.retryHttp (scripted parsedate trials) 0 =
        ((trials last).outcome.mapError (faultOf parsedate (trials last)), last + 1) := by
  have hfive : 1 ≤ Download.maxRetries := by decide
  have hrun : Disciplined parsedate Download.maxRetries retryDelay trials 0
      (retryHttp parsedate Download.maxRetries retryDelay trials) := by
    obtain ⟨count, hcount⟩ := Nat.exists_eq_add_of_le' hfive
    unfold retryHttp
    rw [List.range_eq_range', hcount]
    apply retryLoop_disciplined
    omega
  obtain ⟨last, pauses, -, hlast, -, hresult, hstop, hbefore⟩ := hrun
  refine ⟨last, hresult, ?_⟩
  unfold Download.retryHttp
  apply retryLoop_scripted
  · exact Nat.zero_le _
  · omega
  · rcases hstop with hstop | hfinal
    · exact .inl hstop
    · right
      omega
  · intro n hn hlt
    exact (hbefore n hn hlt).1

end Discipline

end Retry

end Download

end ProotDistro
