import Mekong.Analysis.TimeoutToTimespec

/-!
# Which clock a deadline is on

The deadline of a timed wait is a reading of a clock plus the duration, and the kernel
compares it with the clock that the flags of the call name. On Linux the reading is of the
monotonic clock, and the flags name the realtime clock. Besides, the kernel reads the
deadline from the storage of a temporary that is gone: only where it still holds the
temporary do the clocks decide.
-/

set_option autoImplicit false

namespace Mekong.Analysis.FutexDeadline

open Mekong.Computation Mekong.Model Mekong.Program.FutexWait Mekong.Analysis.TimeoutToTimespec

variable {time nsec : IntWidth}

/-- `wait_until` makes one call. Its deadline is what the storage of the timespec holds that
is the duration after the clock that `timespec_now` reads. -/
theorem waitUntil_call (os : Os) (clocks : Clocks time nsec) (slot : Slot time nsec)
    (kernel : FutexCall time nsec → FutexReply) (expected : U32) (duration : Duration)
    (hfits : exactSecs duration (timespecNow os clocks) ≤ SignedInt.maxValue time.bits) :
    ∃ run call temporary, waitUntil os clocks slot kernel expected duration = .ok run ∧
      run.found FutexEvent.call? = [call] ∧ call.clock = .realtime ∧
      call.timeout = some (slot.read temporary) ∧
      temporary.nanos = (timespecNow os clocks).nanos + duration.nanos := by
  obtain ⟨temporary, heq, hvalid, hnanos⟩ :=
    timeoutToTimespec_eq_some (clocks.read os.clock).property hfits
  have hflag : (futexWaitBitset ||| futexPrivateFlag ||| futexClockRealtime) &&&
      futexClockRealtime ≠ 0 := by decide
  unfold waitUntil
  rw [show timeoutToTimespec duration (timespecNow os clocks) = .ok (some temporary) from heq]
  refine ⟨_, ⟨futexWaitBitset ||| futexPrivateFlag ||| futexClockRealtime, expected,
    some (slot.read temporary), futexBitsetMatchAny⟩, temporary, rfl, ?_, if_neg hflag, rfl,
    hnanos⟩
  simp [FutexEvent.call?, Traced.found_ite]

/-- When the wait is as long as its duration: the storage still holds the temporary and the
clocks agree, or what it was used for since is by chance the right instant. -/
def SleepsFor (clocks : Clocks time nsec) (duration : Duration) : Slot time nsec → Prop
  | .kept => clocks.realtime = clocks.monotonic
  | .reused content => content.nanos = clocks.realtime.val.nanos + duration.nanos

/-- The sum of the monotonic reading and the duration is right for equal readings only. -/
theorem nanos_eq_iff {clocks : Clocks time nsec} {duration : Duration}
    {temporary : Timespec time nsec}
    (hnanos : temporary.nanos = clocks.monotonic.val.nanos + duration.nanos) :
    temporary.nanos = clocks.realtime.val.nanos + duration.nanos ↔
      clocks.realtime = clocks.monotonic := by
  rw [hnanos]
  constructor
  · intro h
    have hreading : clocks.realtime.val.nanos = clocks.monotonic.val.nanos := by omega
    exact Subtype.ext
      (clocks.realtime.property.eq_of_nanos clocks.monotonic.property hreading)
  · intro h
    rw [h]

/-- **When a timed wait is as long as its duration.** The deadline that the kernel reads, on
the clock that it compares it with. -/
theorem futex_sleeps_for_duration (clocks : Clocks time nsec) (slot : Slot time nsec)
    (kernel : FutexCall time nsec → FutexReply) (expected : U32) (duration : Duration)
    (hfits : exactSecs duration clocks.monotonic.val ≤ SignedInt.maxValue time.bits) :
    ∃ run call deadline, waitUntil .linux clocks slot kernel expected duration = .ok run ∧
      run.found FutexEvent.call? = [call] ∧ call.timeout = some deadline ∧
      (deadline.nanos = (clocks.read call.clock).val.nanos + duration.nanos ↔
        SleepsFor clocks duration slot) := by
  obtain ⟨run, call, temporary, hrun, hcall, hclock, htimeout, hnanos⟩ :=
    waitUntil_call .linux clocks slot kernel expected duration hfits
  refine ⟨run, call, slot.read temporary, hrun, hcall, htimeout, ?_⟩
  have hread : clocks.read .realtime = clocks.realtime := rfl
  rw [hclock, hread]
  cases slot with
  | kept => exact nanos_eq_iff hnanos
  | reused content => exact Iff.rfl

/-! ## A machine that has been up for a thousand seconds -/

/-- A reading of whole seconds. -/
def wholeSeconds (sec : SignedInt 64) (h : 0 ≤ sec.val) : Reading .bits64 .bits64 :=
  ⟨⟨sec, ⟨0, by decide⟩⟩, h, le_rfl, show 0 < nanosPerSec by decide⟩

def upSince : Clocks .bits64 .bits64 where
  realtime := wholeSeconds ⟨1767225600, by decide⟩ (by decide)
  monotonic := wholeSeconds ⟨1000, by decide⟩ (by decide)

/-- A machine whose clocks agree. -/
def upSinceEpoch : Clocks .bits64 .bits64 where
  realtime := wholeSeconds ⟨1000, by decide⟩ (by decide)
  monotonic := wholeSeconds ⟨1000, by decide⟩ (by decide)

/-- Storage that was cleared. -/
def cleared : Slot .bits64 .bits64 := .reused ⟨⟨0, by decide⟩, ⟨0, by decide⟩⟩

/-- One second. -/
def oneSecond : Duration := ⟨1, 0, by decide⟩

/-- A wait of one second where the clocks agree: right in the one storage, and not in the
other. -/
theorem futex_sleeps_for_duration_second :
    (∃ run call deadline, waitUntil .linux upSinceEpoch .kept (fun _ => ⟨-1, .etimedout⟩)
        0xffffffff oneSecond = .ok run ∧
      run.found FutexEvent.call? = [call] ∧ call.timeout = some deadline ∧
      deadline.nanos = (upSinceEpoch.read call.clock).val.nanos + oneSecond.nanos) ∧
    ∃ run call deadline, waitUntil .linux upSinceEpoch cleared (fun _ => ⟨-1, .etimedout⟩)
        0xffffffff oneSecond = .ok run ∧
      run.found FutexEvent.call? = [call] ∧ call.timeout = some deadline ∧
      deadline.nanos ≠ (upSinceEpoch.read call.clock).val.nanos + oneSecond.nanos := by
  constructor
  · obtain ⟨run, call, deadline, hrun, hcall, htimeout, hiff⟩ :=
      futex_sleeps_for_duration upSinceEpoch .kept (fun _ => ⟨-1, .etimedout⟩) 0xffffffff
        oneSecond (by decide +kernel)
    exact ⟨run, call, deadline, hrun, hcall, htimeout, hiff.mpr rfl⟩
  · obtain ⟨run, call, deadline, hrun, hcall, htimeout, hiff⟩ :=
      futex_sleeps_for_duration upSinceEpoch cleared (fun _ => ⟨-1, .etimedout⟩) 0xffffffff
        oneSecond (by decide +kernel)
    refine ⟨run, call, deadline, hrun, hcall, htimeout, fun h => ?_⟩
    have hzero : (0 : ℤ) = upSinceEpoch.realtime.val.nanos + oneSecond.nanos := hiff.mp h
    exact absurd hzero (by decide +kernel)

/-- A wait of one second on the first machine, with the storage untouched: the deadline is in
1970, and the kernel returns at once. -/
theorem futex_sleeps_for_duration_fails :
    ¬ ∀ (time nsec : IntWidth) (clocks : Clocks time nsec) (slot : Slot time nsec)
      (kernel : FutexCall time nsec → FutexReply) (expected : U32) (duration : Duration),
      exactSecs duration clocks.monotonic.val ≤ SignedInt.maxValue time.bits →
      exactSecs duration clocks.realtime.val ≤ SignedInt.maxValue time.bits →
        ∃ run call deadline, waitUntil .linux clocks slot kernel expected duration = .ok run ∧
          run.found FutexEvent.call? = [call] ∧ call.timeout = some deadline ∧
          deadline.nanos = (clocks.read call.clock).val.nanos + duration.nanos := by
  intro hall
  obtain ⟨run, call, deadline, hrun, hcall, htimeout, hnanos⟩ :=
    hall .bits64 .bits64 upSince .kept (fun _ => ⟨-1, .etimedout⟩) 0xffffffff oneSecond
      (by decide +kernel) (by decide +kernel)
  obtain ⟨run', call', temporary, hrun', hcall', hclock, htimeout', hnanos'⟩ :=
    waitUntil_call .linux upSince .kept (fun _ => ⟨-1, .etimedout⟩) 0xffffffff oneSecond
      (by decide +kernel)
  obtain rfl := Except.ok.inj (hrun.symm.trans hrun')
  obtain rfl : call = call' := (List.cons.inj (hcall.symm.trans hcall')).1
  obtain rfl : deadline = temporary := Option.some.inj (htimeout.symm.trans htimeout')
  rw [hnanos, hclock] at hnanos'
  exact absurd hnanos' (by decide +kernel)

end Mekong.Analysis.FutexDeadline
