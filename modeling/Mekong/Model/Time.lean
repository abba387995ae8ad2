import Mekong.Model.Word
import Mekong.Computation.SignedInt

/-!
# Clock readings and durations

`time_t` and `tv_nsec_t` are signed integers of 32 or 64 bits, whichever the target has. A
`Duration` and a reading of a clock carry the bound on their nanoseconds; what either
denotes is its number of nanoseconds.
-/

set_option autoImplicit false

namespace Mekong.Model

open Mekong.Computation

/-- The width of a C integer type. -/
inductive IntWidth
  | bits32
  | bits64
  deriving DecidableEq

def IntWidth.bits : IntWidth → ℕ
  | .bits32 => 32
  | .bits64 => 64

instance (w : IntWidth) : NeZero w.bits := ⟨by cases w <;> decide⟩

def nanosPerSec : ℤ := 1000000000

/-- `std::time::Duration`. -/
structure Duration where
  secs : U64
  subsecNanos : U32
  subsecNanos_lt : subsecNanos.toNat < 1000000000

def Duration.nanos (d : Duration) : ℤ := d.secs.toNat * nanosPerSec + d.subsecNanos.toNat

/-- `libc::timespec`, by the widths of `time_t` and `tv_nsec_t`. -/
structure Timespec (time nsec : IntWidth) where
  tvSec : SignedInt time.bits
  tvNsec : SignedInt nsec.bits
  deriving DecidableEq

namespace Timespec

variable {time nsec : IntWidth}

def nanos (ts : Timespec time nsec) : ℤ := ts.tvSec.val * nanosPerSec + ts.tvNsec.val

/-- The nanoseconds are less than a second. -/
structure Valid (ts : Timespec time nsec) : Prop where
  sec_nonneg : 0 ≤ ts.tvSec.val
  nsec_nonneg : 0 ≤ ts.tvNsec.val
  nsec_lt : ts.tvNsec.val < nanosPerSec

/-- A valid timespec is known by what it denotes. -/
theorem Valid.eq_of_nanos {a b : Timespec time nsec} (ha : a.Valid) (hb : b.Valid)
    (h : a.nanos = b.nanos) : a = b := by
  obtain ⟨_, ha₀, ha₁⟩ := ha
  obtain ⟨_, hb₀, hb₁⟩ := hb
  unfold nanos at h
  unfold nanosPerSec at h ha₁ hb₁
  have hsec : a.tvSec = b.tvSec := Subtype.ext (by omega)
  have hnsec : a.tvNsec = b.tvNsec := Subtype.ext (by omega)
  cases a
  cases b
  exact congrArg₂ Timespec.mk hsec hnsec

end Timespec

/-- What `clock_gettime` fills in. -/
abbrev Reading (time nsec : IntWidth) := { now : Timespec time nsec // now.Valid }

inductive Clock
  | realtime
  | monotonic
  deriving DecidableEq

/-- What the clocks show at one moment. -/
structure Clocks (time nsec : IntWidth) where
  realtime : Reading time nsec
  monotonic : Reading time nsec

/-- `clock_gettime`. -/
def Clocks.read {time nsec : IntWidth} (clocks : Clocks time nsec) : Clock → Reading time nsec
  | .realtime => clocks.realtime
  | .monotonic => clocks.monotonic

end Mekong.Model
