/-!
# Durations and instants

Both are counted in nanoseconds, an instant from the moment the clock was started. The clock can
show only the seconds below `2 ^ 63`; a deadline beyond them is no deadline.
-/
namespace FairLocks

namespace Duration

def ofMillis (ms : Nat) : Nat := ms * 1000000

/-- The longest duration there is. -/
def longest : Nat := (Nat.pow 2 64 - 1) * 1000000000 + 999999999

/-- The value in a unit of `unit` nanoseconds, as a decimal without trailing zeros. -/
def inUnit (d unit : Nat) : String :=
  let digits := (Nat.toDigits 10 (unit + d % unit)).drop 1
  let shown := (digits.reverse.dropWhile (· = '0')).reverse
  toString (d / unit) ++ (if shown = [] then "" else "." ++ String.ofList shown)

/-- A duration in the largest unit it reaches. -/
def text (d : Nat) : String :=
  if 1000000000 ≤ d then inUnit d 1000000000 ++ "s"
  else if 1000000 ≤ d then inUnit d 1000000 ++ "ms"
  else if 1000 ≤ d then inUnit d 1000 ++ "µs"
  else inUnit d 1 ++ "ns"

end Duration

namespace Instant

/-- The first instant the clock cannot show. -/
def horizon : Nat := Nat.pow 2 63 * 1000000000

/-- The instant `d` after `t`, if the clock can show it. -/
def after? (t d : Nat) : Option Nat := if t + d < horizon then some (t + d) else none

end Instant

end FairLocks
