import Bindery.Backoff
import Bindery.Repository.Failure
import Bindery.Text.Decimal

/-!
# Trying again

An operation is tried until it succeeds, fails for good, is cancelled while waiting, or has failed as
often as the policy allows.
-/

namespace Bindery.Repository

open Text (bytes)

/-- A delay times a factor, by way of binary fractions, which have 53 significant bits. What a word
cannot hold becomes the least word. -/
def stretch (factor : Nat) (delay : Int64) : Int64 :=
  let magnitude := Double.roundNat (factor * Double.roundNat delay.toInt.natAbs)
  let stretched : Int := if delay < 0 then -magnitude else magnitude
  if Int64.minValue.toInt ≤ stretched ∧ stretched ≤ Int64.maxValue.toInt then Int64.ofInt stretched
  else Int64.minValue

/-- The pause after a failed attempt; the first attempt is number 1. A rate limit makes it three times
as long. -/
def pauseAfter (p : Backoff) (attempt : Nat) (f : Fault) : Int64 :=
  let delay := p.delay (Int64.ofNat attempt)
  if f.isClone .rateLimit then stretch 3 delay
  -- The factor of a timeout is one, but the delay is rounded all the same.
  else if f.isClone .timeout then stretch 1 delay
  else delay

/-- What happens while trying: the operation is called, or a pause is made. -/
inductive Event where
  | call
  | pause (delay : Int64)
  deriving DecidableEq, Repr

/-- What came of trying: the calls and the pauses in their order, and the end. -/
structure Trial (α : Type) where
  events : List Event
  result : Except Fault α

def Trial.calls {α : Type} (t : Trial α) : Nat := t.events.count .call

/-- Waits, unless the work is cancelled. -/
def sleep (cancelled : Bool) : Except Fault Unit := if cancelled then .error .cancelled else .ok ()

/-- The fault of an operation that was cancelled between two calls. -/
def cancellation (operation url : Bytes) (cause : Fault) : Fault :=
  .passOn cause .network "git operation cancelled" [("op", .str operation), ("url", .str url)]

/-- The fault of an operation that failed as often as a policy allows. `last` is what it failed with the
last time. The attempts are counted in a word. -/
def exhaustion (p : Backoff) (operation url : Bytes) (last : Option Fault) : Fault :=
  let context : Context :=
    [("op", .str operation), ("url", .str url), ("attempts", .int (p.retries + 1).toInt)]
  .classified (.passing .git "git operation failed after retries" context) last

/-- Makes the `n`-th attempt, and tries again `left` times at most. -/
def tryFrom {α : Type} (p : Backoff) (operation url : Bytes) (attempt : Nat → Except Fault α)
    (cancelled : Nat → Bool) (left n : Nat) : Trial α :=
  match attempt n with
  | .ok a => { events := [.call], result := .ok a }
  | .error f =>
    if isPermanent f then { events := [.call], result := .error f }
    else
      match left with
      | 0 => { events := [.call], result := .error (exhaustion p operation url (some f)) }
      | left + 1 =>
        let begun := [.call, .pause (pauseAfter p n f)]
        match sleep (cancelled n) with
        | .error cause => { events := begun, result := .error (cancellation operation url cause) }
        | .ok () =>
          let rest := tryFrom p operation url attempt cancelled left (n + 1)
          { rest with events := begun ++ rest.events }

/-- Runs an operation as often as a policy allows. `attempt` is the outcome of each call, counted from
1, and `cancelled` tells whether the work is cancelled before the pause after a call is over. -/
def withRetries {α : Type} (p : Backoff) (operation url : Bytes) (attempt : Nat → Except Fault α)
    (cancelled : Nat → Bool) : Trial α :=
  match (p.retries.toInt + 1).toNat with
  | 0 => { events := [], result := .error (exhaustion p operation url none) }
  | left + 1 => tryFrom p operation url attempt cancelled left 1

end Bindery.Repository
