/-!
# Instants and durations

An instant is a second, counted from the start of 1970, and the nanoseconds passed in it. The
seconds are those of the years for which a calendar date exists: -262143 to 262142. A leap second
has no number of its own: the last second of a minute runs on for another second.
-/

set_option autoImplicit false

namespace SelectiveDisclosure

structure Duration where
  nanoseconds : Int
  deriving DecidableEq, Repr

def Duration.ofSeconds (s : Int) : Duration :=
  ⟨s * 1000000000⟩

def Duration.opposite (d : Duration) : Duration :=
  ⟨-d.nanoseconds⟩

namespace Instant

def leastSecond : Int := -8334601228800

def greatestSecond : Int := 8210266876799

def InRange (second : Int) : Prop :=
  leastSecond ≤ second ∧ second ≤ greatestSecond

instance (second : Int) : Decidable (InRange second) :=
  inferInstanceAs (Decidable (_ ∧ _))

/-- Nanoseconds in a second and the leap second that may follow it. -/
def nanosecondsIn (second : Int) : Nat :=
  if second % 60 = 59 then 2000000000 else 1000000000

end Instant

structure Instant where
  seconds : Int
  nanoseconds : Nat
  inRange : Instant.InRange seconds
  inSecond : nanoseconds < Instant.nanosecondsIn seconds
  deriving DecidableEq

namespace Instant

def ofParts? (s : Int) (n : Nat) : Option Instant :=
  if h : InRange s ∧ n < nanosecondsIn s then some ⟨s, n, h.1, h.2⟩ else none

def ofSeconds? (s : Int) : Option Instant :=
  ofParts? s 0

/-- The instant, outside the leap seconds, at a distance from the start of 1970 that counts no leap
seconds. -/
def ofNanoseconds? (n : Int) : Option Instant :=
  ofParts? (n / 1000000000) (n % 1000000000).toNat

def IsLeap (t : Instant) : Prop :=
  1000000000 ≤ t.nanoseconds

instance (t : Instant) : Decidable t.IsLeap :=
  inferInstanceAs (Decidable (_ ≤ _))

/-- Only the leap second in which the instant lies is counted. -/
def add? (t : Instant) (d : Duration) : Option Instant :=
  let passed := t.nanoseconds + d.nanoseconds
  let sum := t.seconds * 1000000000 + passed
  if t.IsLeap ∧ 1000000000 ≤ passed then
    if passed < 2000000000 then ofParts? t.seconds passed.toNat
    else ofNanoseconds? (sum - 1000000000)
  else ofNanoseconds? sum

def sub? (t : Instant) (d : Duration) : Option Instant :=
  t.add? d.opposite

instance : LT Instant :=
  ⟨fun a b => a.seconds < b.seconds ∨ a.seconds = b.seconds ∧ a.nanoseconds < b.nanoseconds⟩

instance : LE Instant :=
  ⟨fun a b => a.seconds < b.seconds ∨ a.seconds = b.seconds ∧ a.nanoseconds ≤ b.nanoseconds⟩

instance (a b : Instant) : Decidable (a < b) :=
  inferInstanceAs (Decidable (_ ∨ _))

instance (a b : Instant) : Decidable (a ≤ b) :=
  inferInstanceAs (Decidable (_ ∨ _))

end Instant
end SelectiveDisclosure
