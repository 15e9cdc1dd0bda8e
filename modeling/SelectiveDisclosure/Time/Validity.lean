import SelectiveDisclosure.Time.Instant

/-!
# Validity periods

A period runs from its first instant up to, and without, its last one. The tolerated clock skew
widens it at both ends.
-/

set_option autoImplicit false

namespace SelectiveDisclosure

inductive InvalidPeriod where
  | premature (now validFrom : Instant)
  | expired (now validUntil : Instant)
  | noSuchInstant

namespace InvalidPeriod

def message : InvalidPeriod → String
  | .premature .. => "premature claim"
  | .expired .. => "expired claim"
  | .noSuchInstant => "date out of range"

end InvalidPeriod

structure Clock where
  now : Instant
  skew : Duration := .ofSeconds 60

namespace Clock

def checkStart (c : Clock) : Option Instant → Except InvalidPeriod Unit
  | none => .ok ()
  | some validFrom =>
    match c.now.add? c.skew with
    | none => .error .noSuchInstant
    | some latest => if latest < validFrom then .error (.premature c.now validFrom) else .ok ()

def checkEnd (c : Clock) : Option Instant → Except InvalidPeriod Unit
  | none => .ok ()
  | some validUntil =>
    match c.now.sub? c.skew with
    | none => .error .noSuchInstant
    | some earliest =>
      if validUntil ≤ earliest then .error (.expired c.now validUntil) else .ok ()

def checkPeriod (c : Clock) (validFrom validUntil : Option Instant) :
    Except InvalidPeriod Unit := do
  c.checkStart validFrom
  c.checkEnd validUntil

def isRecent? (c : Clock) (maxAge : Duration) (t : Instant) : Option Bool := do
  let earliest ← (← c.now.sub? maxAge).sub? c.skew
  if t < earliest then return false
  let latest ← c.now.add? c.skew
  return t ≤ latest

end Clock
end SelectiveDisclosure
