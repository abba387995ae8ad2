import Mekong.Model.Time
import Mekong.Computation.Traced

/-!
# `auxiliary.rs` and `futex.rs` of the parker: the timed wait

`timeout_to_timespec` adds a duration to a reading of a clock, and `wait_until` hands the
sum to the kernel as the deadline of a `FUTEX_WAIT_BITSET`, through a pointer to a temporary
that is gone by then. The kernel's answer and what it reads there are parameters; the call
and the assertions on its answer are reported.
-/

set_option autoImplicit false

namespace Mekong.Program.FutexWait

open Mekong.Computation Mekong.Model

/-- `target_os`. -/
inductive Os
  | linux
  | android
  deriving DecidableEq

/-- SOURCE: mekong9-parker/src/auxiliary.rs:67-82 -/
def Os.clock : Os → Clock
  | .android => .realtime
  | .linux => .monotonic

section Calls

variable {time nsec : IntWidth}

/-- SOURCE: mekong9-parker/src/auxiliary.rs:67-82 -/
def timespecNow (os : Os) (clocks : Clocks time nsec) : Timespec time nsec :=
  (clocks.read os.clock).val

/-- `now` is what `timespec_now` returns.
SOURCE: mekong9-parker/src/auxiliary.rs:44-64 -/
def timeoutToTimespec (timeout : Duration) (now : Timespec time nsec) :
    Except Overflow (Option (Timespec time nsec)) := do
  if (timeout.secs.toNat : ℤ) > SignedInt.maxValue time.bits then
    return none
  let tvNsec ← now.tvNsec.add (.cast _ timeout.subsecNanos.toNat)
  let sec := now.tvSec.checkedAdd (.cast _ timeout.secs.toNat)
  if tvNsec.val ≥ 1000000000 then
    let tvNsec ← tvNsec.sub (.cast _ 1000000000)
    let sec := sec.bind fun sec => sec.checkedAdd (.cast _ 1)
    return sec.map fun sec => ⟨sec, tvNsec⟩
  return sec.map fun sec => ⟨sec, tvNsec⟩

/-- `FUTEX_WAIT_BITSET`. -/
def futexWaitBitset : ℕ := 9

/-- `FUTEX_PRIVATE_FLAG`. -/
def futexPrivateFlag : ℕ := 128

/-- `FUTEX_CLOCK_REALTIME`. -/
def futexClockRealtime : ℕ := 256

/-- `FUTEX_BITSET_MATCH_ANY`. -/
def futexBitsetMatchAny : U32 := BitVec.allOnes 32

/-- The arguments of `SYS_futex`, but for the address of the word; `timeout` is what the kernel
reads through the pointer, if that is not null. -/
structure FutexCall (time nsec : IntWidth) where
  op : ℕ
  expected : U32
  timeout : Option (Timespec time nsec)
  bitset : U32
  deriving DecidableEq

/-- The clock that the kernel compares the deadline of a call with. -/
def FutexCall.clock (call : FutexCall time nsec) : Clock :=
  if call.op &&& futexClockRealtime = 0 then .monotonic else .realtime

inductive Errno
  | eintr
  | eagain
  | etimedout
  | other (code : ℕ)
  deriving DecidableEq

/-- What `SYS_futex` returns, and `errno` after it. -/
structure FutexReply where
  code : ℤ
  errno : Errno

/-- What `wait_until` reports. -/
inductive FutexEvent (time nsec : IntWidth)
  | syscall (call : FutexCall time nsec)
  | assert (holds : Bool)

/-- The system call of an event. -/
def FutexEvent.call? : FutexEvent time nsec → Option (FutexCall time nsec)
  | .syscall call => some call
  | .assert _ => none

/-- The storage of a temporary after the statement that made it: nothing keeps the compiler
from using it for something else. -/
inductive Slot (time nsec : IntWidth)
  | kept
  | reused (content : Timespec time nsec)
  deriving DecidableEq

/-- What is read through a pointer to the storage of `temporary`. -/
def Slot.read (slot : Slot time nsec) (temporary : Timespec time nsec) : Timespec time nsec :=
  match slot with
  | .kept => temporary
  | .reused content => content

/-- `abs_timespec_ptr` is taken from the `Option` that `timeout_to_timespec` returns, which is
dropped at the end of the `let` statement. The kernel reads what its storage then holds.
SOURCE: futex.rs:151-181 -/
def waitUntil (os : Os) (clocks : Clocks time nsec) (slot : Slot time nsec)
    (kernel : FutexCall time nsec → FutexReply) (expected : U32) (duration : Duration) :
    Except Overflow (Traced (FutexEvent time nsec) Bool) := do
  let absTimespec ← timeoutToTimespec duration (timespecNow os clocks)
  let call : FutexCall time nsec :=
    { op := futexWaitBitset ||| futexPrivateFlag ||| futexClockRealtime
      expected := expected
      timeout := absTimespec.map slot.read
      bitset := futexBitsetMatchAny }
  let reply := kernel call
  return do
    Traced.emit (.syscall call)
    Traced.emit (.assert (reply.code = 0 ∨ reply.code = -1))
    if reply.code = -1 then
      Traced.emit (.assert (reply.errno = .eintr ∨ reply.errno = .eagain ∨
        (absTimespec.isSome ∧ reply.errno = .etimedout)))
      return absTimespec.isSome && reply.errno = .etimedout
    return false

end Calls

end Mekong.Program.FutexWait
