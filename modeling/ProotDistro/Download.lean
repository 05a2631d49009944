import ProotDistro.Posix.Fs
import ProotDistro.Execenv
import ProotDistro.Lib.Proc

/-!
# `download`: requests and retries

What one request is answered with is the other side's to choose; a failure is worth another try or
it is not. `retryHttp` runs an operation again while its failures are transient, and at most five
times in all. The waits between the tries and their messages are left out.

* **`retryHttp_keeps`** — the tries together keep what each of them keeps.
-/

namespace ProotDistro

open Posix

namespace Download

/-- What one request is answered with. -/
inductive Answer where
  /-- one of NETWORK_ERRORS, and `is_retryable_http_error` of it -/
  | fails (retryable : Bool)
  /-- the bytes that arrived, the length declared for them (0 for none) and the Content-Type -/
  | body (bytes : Bytes) (declared : Nat) (contentType : Str)

/-- How a step of a download ends that does not end well. -/
inductive Fault where
  /-- one of NETWORK_ERRORS -/
  | network (retryable : Bool)
  /-- RuntimeError -/
  | runtime
  /-- an exception nothing catches -/
  | raised
  deriving DecidableEq

def Fault.retryable : Fault → Bool
  | .network retryable => retryable
  | .runtime | .raised => false

/-- `require_complete_body`: fewer bytes than were declared are an incomplete response. -/
def requireCompleteBody (received declared : Nat) : Except Fault Unit :=
  if declared ≠ 0 ∧ received < declared then .error (.network true) else .ok ()

/-- The tries of `retry_http`. -/
def maxRetries : Nat := 5

variable {σ α : Type}

/-- The loop of `retry_http`, with so many tries left after this one. -/
def retryLoop (operation : Proc σ Fault α) : Nat → Proc σ Fault α
  | 0 => operation
  | left + 1 => operation.handle fun e =>
      if e.retryable then retryLoop operation left else Proc.fail e

/-- `retry_http` -/
def retryHttp (operation : Proc σ Fault α) : Proc σ Fault α := retryLoop operation (maxRetries - 1)

section Retry

variable {operation : Proc σ Fault α} {I : σ → Prop} {Q : α → Prop}

/-- Trying again keeps what one try keeps. -/
theorem retryLoop_keeps (h : Proc.Keeps I operation Q) (left : Nat) :
    Proc.Keeps I (retryLoop operation left) Q := by
  induction left with
  | zero => exact h
  | succ left ih =>
    refine Proc.Keeps.handle h fun e => ?_
    cases e.retryable with
    | true => exact ih
    | false => exact Proc.Keeps.fail

/-- What every try keeps, the tries together keep, and what is answered some try answered. -/
theorem retryHttp_keeps (h : Proc.Keeps I operation Q) : Proc.Keeps I (retryHttp operation) Q :=
  retryLoop_keeps h _

end Retry

end Download

end ProotDistro
