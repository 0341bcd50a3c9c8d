import Bindery.Text.Basic

/-!
# Waiting between attempts

How long to wait before an operation is tried again. Durations are signed 64-bit counts of
nanoseconds, and their arithmetic wraps.
-/

namespace Bindery

open Text (bytes)

/-- How the delay grows. -/
inductive BackoffMode where
  | fixed
  | linear
  | exponential
  | other (name : Bytes)
  deriving DecidableEq, Repr

namespace BackoffMode

/-- The name of a mode. -/
def name : BackoffMode → Bytes
  | .fixed => "fixed"
  | .linear => "linear"
  | .exponential => "exponential"
  | .other name => name

def ofName (s : Bytes) : BackoffMode :=
  ([.fixed, .linear, .exponential].find? fun m : BackoffMode => m.name == s).getD (.other s)

def isKnown : BackoffMode → Bool
  | .other _ => false
  | _ => true

end BackoffMode

/-- How often to try again and how long to wait. -/
structure Backoff where
  mode : BackoffMode
  /-- The first delay. -/
  initial : Int64
  /-- The longest delay. -/
  max : Int64
  /-- How many attempts follow the first. -/
  retries : Int64
  deriving DecidableEq, Repr

namespace Backoff

def second : Int64 := 1000000000

/-- The policy that fills in for what is not given. -/
def standard : Backoff := { mode := .linear, initial := second, max := 30 * second, retries := 2 }

/-- A policy from raw settings. What makes no sense is replaced by the standard, and the first delay
is at most the longest. -/
def ofSettings (mode : BackoffMode) (initial max retries : Int64) : Backoff :=
  let retries := if retries ≥ 0 then retries else standard.retries
  let initial := if initial > 0 then initial else standard.initial
  let max := if max > 0 then max else standard.max
  let mode := if mode.isKnown then mode else standard.mode
  { mode, initial := if initial > max then max else initial, max, retries }

/-- A power of two in a 64-bit word. -/
def doubling (n : Int64) : Int64 :=
  if n.toInt < 64 then Int64.ofNat (Nat.pow 2 n.toInt.toNat) else 0

/-- The delay before a retry; the first is number 1. -/
def delay (p : Backoff) (n : Int64) : Int64 :=
  if n ≤ 0 then 0
  else
    match p.mode with
    | .fixed => p.initial
    | .exponential =>
      let d := p.initial * doubling (n - 1)
      -- A product that wrapped to a negative number or to zero counts as too long.
      if d > p.max || d ≤ 0 then p.max else d
    | .linear | .other _ =>
      let d := n * p.initial
      -- A negative delay is let through here.
      if d > p.max then p.max else d

/-- What makes a policy impossible to apply. -/
def problem? (p : Backoff) : Option Bytes :=
  if p.initial ≤ 0 then some "initial must be >0"
  else if p.max ≤ 0 then some "max must be >0"
  else if p.retries < 0 then some "max retries cannot be negative"
  else none

end Backoff

end Bindery
