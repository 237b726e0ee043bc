/-!
# Clocks

A clock is a row of readings in milliseconds, taken one after another. Nothing is assumed of the
readings: they may stand still, run backwards or wrap around.

* `Clock.now` — the next reading.
* `Clock.advance` — the clock behind it.
* `Clock.ticking` — equally spaced readings.
-/

namespace PathLedger

/-- A row of readings, and how many of them have been taken. -/
structure Clock where
  readings : Nat → UInt64
  taken : Nat

namespace Clock

/-- The next reading. -/
def now (c : Clock) : UInt64 := c.readings c.taken

/-- The clock after the next reading has been taken. -/
def advance (c : Clock) : Clock := { c with taken := c.taken + 1 }

/-- Readings from a start, each a step behind the one before; they wrap around. -/
def ticking (start step : UInt64) : Clock := ⟨fun n => start + step * UInt64.ofNat n, 0⟩

instance : Inhabited Clock := ⟨ticking 0 0⟩

end Clock

end PathLedger
