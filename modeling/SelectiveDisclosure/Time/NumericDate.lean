import SelectiveDisclosure.Time.Instant
import SelectiveDisclosure.Json.Value

/-!
# Numeric dates

A numeric date is a signed 64-bit number of seconds. JSON numbers become binary numbers first and
are then rounded down.
-/

set_option autoImplicit false

namespace SelectiveDisclosure

structure NumericDate where
  seconds : Int
  fits : -0x8000000000000000 ≤ seconds ∧ seconds < 0x8000000000000000
  deriving DecidableEq

namespace NumericDate

def ofSeconds? (s : Int) : Option NumericDate :=
  if h : -0x8000000000000000 ≤ s ∧ s < 0x8000000000000000 then some ⟨s, h⟩ else none

/-- Takes numbers of magnitude below `2^63`. -/
def ofBinary? (x : Binary64) : Option NumericDate :=
  if x.numerator < 0x8000000000000000 * x.denominator then ofSeconds? x.floor else none

def ofInstant (t : Instant) : NumericDate :=
  ⟨t.seconds, by
    have h := t.inRange
    simp only [Instant.InRange, Instant.leastSecond, Instant.greatestSecond] at h
    omega⟩

def toInstant? (d : NumericDate) : Option Instant :=
  Instant.ofSeconds? d.seconds

def toNumber (d : NumericDate) : Json.Number :=
  .integer d.seconds ⟨d.fits.1, by have := d.fits.2; omega⟩

def toJson (d : NumericDate) : Json.Value :=
  .number d.toNumber

def ofJson? : Json.Value → Option NumericDate
  | .number n => n.toBinary?.bind ofBinary?
  | _ => none

def invalidMessage : String := "invalid numeric date"

end NumericDate
end SelectiveDisclosure
