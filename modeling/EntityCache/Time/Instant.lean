import EntityCache.Number.Binary64
import EntityCache.Time.Calendar

/-! Points in time: whole seconds since 1970-01-01T00:00:00Z and nanoseconds after them.
A leap second is the second before it with a thousand million nanoseconds or more. -/
namespace EntityCache

structure Instant where
  seconds : Int
  nanos : Nat
  deriving DecidableEq, Repr

namespace Instant

/-- Milliseconds since the epoch; those of a leap second run into the next minute. -/
def epochMillis (t : Instant) : Int := t.seconds * 1000 + t.nanos / 1000000

def ofMillis (ms : Int) : Instant := ⟨ms / 1000, (ms % 1000).toNat * 1000000⟩

def firstMillis : Int := -8334601228800000
def lastMillis : Int := 8210266876799999

def ofMillis? (ms : Int) : Option Instant :=
  if firstMillis ≤ ms ∧ ms ≤ lastMillis then some (ofMillis ms) else none

def le (a b : Instant) : Bool :=
  a.seconds < b.seconds || (a.seconds == b.seconds && a.nanos ≤ b.nanos)

def epochNanos (t : Instant) : Int := t.seconds * 1000000000 + t.nanos

/-- Cut to the millisecond, if the nanoseconds since the epoch fit 64 bits; an instant
further away is left as it is. -/
def truncateToMillis (t : Instant) : Instant :=
  if Number.FitsInt64 t.epochNanos then ofMillis t.epochMillis else t

def nextMillis (t : Instant) : Instant :=
  let n := t.nanos + 1000000
  if n < 1000000000 then ⟨t.seconds, n⟩ else ⟨t.seconds + 1, n - 1000000000⟩

def year1900 : Instant := ⟨(Date.mk 1900 1 1).toDays * 86400, 0⟩

end Instant

end EntityCache
