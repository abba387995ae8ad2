import Mekong.Program.FutexWait

/-!
# The deadline is exact

`timeout_to_timespec` adds seconds and nanoseconds apart and carries at most one second.
Its three guards are the comparison of the duration with the largest `time_t`, the checked
sum of the seconds and the checked carry; together they turn away exactly the sums whose
seconds do not fit, and every other result is the sum.
-/

set_option autoImplicit false

namespace Mekong.Analysis.TimeoutToTimespec

open Mekong.Computation Mekong.Model Mekong.Program.FutexWait

/-! ## What fits -/

section Fits

/-- A count up to the greatest one fits. -/
theorem fits_of_le {w : IntWidth} {v : ℤ} (hlo : 0 ≤ v) (hhi : v ≤ SignedInt.maxValue w.bits) :
    Fits w.bits v := by
  unfold SignedInt.maxValue at hhi
  cases w <;> simp only [Fits, IntWidth.bits] at hhi ⊢ <;> omega

/-- A count beyond the greatest one does not fit. -/
theorem not_fits_of_gt {w : IntWidth} {v : ℤ} (h : SignedInt.maxValue w.bits < v) :
    ¬ Fits w.bits v := by
  unfold SignedInt.maxValue at h
  intro hfits
  have hhi := hfits.2
  omega

/-- Twice a second, in nanoseconds, fits both widths. -/
theorem fits_nanos (w : IntWidth) {v : ℤ} (hlo : 0 ≤ v) (hhi : v < 2 * nanosPerSec) :
    Fits w.bits v := by
  apply fits_of_le hlo
  unfold nanosPerSec at hhi
  cases w <;> simp only [SignedInt.maxValue, IntWidth.bits] <;> omega

/-- Carrying one into a checked sum. -/
theorem ofInt?_bind_carry {w : IntWidth} {v : ℤ} (hlo : 0 ≤ v) :
    (SignedInt.ofInt? w.bits v).bind (fun a => a.checkedAdd (.cast _ 1)) =
      SignedInt.ofInt? w.bits (v + 1) := by
  have hone : (SignedInt.cast w.bits 1).val = 1 := by cases w <;> decide
  by_cases hhi : v ≤ SignedInt.maxValue w.bits
  · rw [SignedInt.ofInt?_of_fits (fits_of_le hlo hhi), Option.bind_some, SignedInt.checkedAdd, hone]
  · rw [SignedInt.ofInt?_eq_none_iff.mpr (not_fits_of_gt (by omega)),
      SignedInt.ofInt?_eq_none_iff.mpr (not_fits_of_gt (by omega)), Option.bind_none]

end Fits

/-! ## The sum -/

section Sum

variable {time nsec : IntWidth} {timeout : Duration} {now : Timespec time nsec}

/-- The seconds of `now + timeout`. -/
def exactSecs (timeout : Duration) (now : Timespec time nsec) : ℤ :=
  (now.nanos + timeout.nanos) / nanosPerSec

variable (timeout) in
/-- The seconds are added, with one more where the nanoseconds make a second. -/
theorem exactSecs_eq (hnow : now.Valid) : exactSecs timeout now =
    now.tvSec.val + timeout.secs.toNat +
      if now.tvNsec.val + timeout.subsecNanos.toNat ≥ nanosPerSec then 1 else 0 := by
  have hsub := timeout.subsecNanos_lt
  obtain ⟨_, hlo, hhi⟩ := hnow
  unfold exactSecs Timespec.nanos Duration.nanos
  by_cases hcarry : now.tvNsec.val + timeout.subsecNanos.toNat ≥ nanosPerSec
  · rw [if_pos hcarry]
    unfold nanosPerSec at *
    omega
  · rw [if_neg hcarry]
    unfold nanosPerSec at *
    omega

variable (timeout) in
/-- The nanoseconds are added within their type. -/
theorem tvNsec_add (hnow : now.Valid) :
    ∃ tvNsec : SignedInt nsec.bits,
      now.tvNsec.add (.cast nsec.bits timeout.subsecNanos.toNat) = .ok tvNsec ∧
        tvNsec.val = now.tvNsec.val + timeout.subsecNanos.toNat := by
  have hsub := timeout.subsecNanos_lt
  have hlo := hnow.nsec_nonneg
  have hhi := hnow.nsec_lt
  unfold nanosPerSec at hhi
  have hcast : (SignedInt.cast nsec.bits timeout.subsecNanos.toNat).val =
      timeout.subsecNanos.toNat :=
    SignedInt.cast_val (fits_nanos nsec (by omega) (by unfold nanosPerSec; omega))
  have hfits : Fits nsec.bits
      (now.tvNsec.val + (SignedInt.cast nsec.bits timeout.subsecNanos.toNat).val) := by
    rw [hcast]
    exact fits_nanos nsec (by omega) (by unfold nanosPerSec; omega)
  exact ⟨_, SignedInt.add_of_fits hfits, congrArg (now.tvNsec.val + ·) hcast⟩

/-- A whole second is taken off within their type. -/
theorem tvNsec_sub {tvNsec : SignedInt nsec.bits} (hlo : nanosPerSec ≤ tvNsec.val)
    (hhi : tvNsec.val < 2 * nanosPerSec) :
    ∃ rest : SignedInt nsec.bits, tvNsec.sub (.cast nsec.bits 1000000000) = .ok rest ∧
      rest.val = tvNsec.val - nanosPerSec := by
  have hcast : (SignedInt.cast nsec.bits 1000000000).val = nanosPerSec :=
    SignedInt.cast_val (fits_nanos nsec (by decide) (by decide))
  have hfits : Fits nsec.bits (tvNsec.val - (SignedInt.cast nsec.bits 1000000000).val) := by
    rw [hcast]
    unfold nanosPerSec at *
    exact fits_nanos nsec (by omega) (by unfold nanosPerSec; omega)
  exact ⟨_, SignedInt.sub_of_fits hfits, congrArg (tvNsec.val - ·) hcast⟩

variable (now) in
/-- The seconds of a duration that passes the first guard. -/
theorem tvSec_checkedAdd (h : (timeout.secs.toNat : ℤ) ≤ SignedInt.maxValue time.bits) :
    now.tvSec.checkedAdd (.cast _ timeout.secs.toNat) =
      SignedInt.ofInt? time.bits (now.tvSec.val + timeout.secs.toNat) := by
  rw [SignedInt.checkedAdd, SignedInt.cast_val (fits_of_le (by omega) h)]

variable (timeout) in
/-- The result has the seconds of the exact sum, if they fit, and its nanoseconds. -/
theorem timeoutToTimespec_eq (hnow : now.Valid) :
    ∃ rest : SignedInt nsec.bits, rest.val = (now.nanos + timeout.nanos) % nanosPerSec ∧
      timeoutToTimespec timeout now =
        .ok ((SignedInt.ofInt? time.bits (exactSecs timeout now)).map fun sec => ⟨sec, rest⟩) := by
  have hsecs := exactSecs_eq timeout hnow
  have hsub := timeout.subsecNanos_lt
  obtain ⟨tvNsec, hadd, hval⟩ := tvNsec_add timeout hnow
  obtain ⟨hsec, hlo, hhi⟩ := hnow
  have hmod : (now.nanos + timeout.nanos) % nanosPerSec =
      (now.tvNsec.val + timeout.subsecNanos.toNat) % nanosPerSec := by
    unfold Timespec.nanos Duration.nanos nanosPerSec
    omega
  by_cases hguard : (timeout.secs.toNat : ℤ) > SignedInt.maxValue time.bits
  · have hrest : Fits nsec.bits ((now.nanos + timeout.nanos) % nanosPerSec) :=
      fits_nanos nsec (by unfold nanosPerSec; omega) (by unfold nanosPerSec; omega)
    have hover : SignedInt.maxValue time.bits < exactSecs timeout now := by
      rw [hsecs]
      split <;> omega
    refine ⟨⟨_, hrest⟩, rfl, ?_⟩
    rw [timeoutToTimespec, if_pos hguard, SignedInt.ofInt?_eq_none_iff.mpr (not_fits_of_gt hover)]
    rfl
  have hsum := tvSec_checkedAdd now (not_lt.mp hguard)
  by_cases hcarry : tvNsec.val ≥ nanosPerSec
  · obtain ⟨rest, hrest, hrestval⟩ :=
      tvNsec_sub hcarry (by unfold nanosPerSec at *; omega)
    refine ⟨rest, ?_, ?_⟩
    · unfold nanosPerSec at *
      omega
    · rw [← hval, if_pos hcarry] at hsecs
      rw [timeoutToTimespec, if_neg hguard, hadd, hsecs, ← ofInt?_bind_carry (by omega), ← hsum]
      show (if tvNsec.val ≥ nanosPerSec then _ else _) = _
      rw [if_pos hcarry, hrest]
      rfl
  · refine ⟨tvNsec, ?_, ?_⟩
    · unfold nanosPerSec at *
      omega
    · rw [← hval, if_neg hcarry, add_zero] at hsecs
      rw [timeoutToTimespec, if_neg hguard, hadd, hsecs, ← hsum]
      show (if tvNsec.val ≥ nanosPerSec then _ else _) = _
      rw [if_neg hcarry]
      rfl

/-- A sum that does not fit. -/
theorem timeoutToTimespec_eq_none (hnow : now.Valid)
    (h : SignedInt.maxValue time.bits < exactSecs timeout now) :
    timeoutToTimespec timeout now = .ok none := by
  obtain ⟨rest, _, heq⟩ := timeoutToTimespec_eq timeout hnow
  rw [heq, SignedInt.ofInt?_eq_none_iff.mpr (not_fits_of_gt h)]
  rfl

/-- A sum that fits. -/
theorem timeoutToTimespec_eq_some (hnow : now.Valid)
    (h : exactSecs timeout now ≤ SignedInt.maxValue time.bits) :
    ∃ ts : Timespec time nsec, timeoutToTimespec timeout now = .ok (some ts) ∧ ts.Valid ∧
      ts.nanos = now.nanos + timeout.nanos := by
  obtain ⟨rest, hrest, heq⟩ := timeoutToTimespec_eq timeout hnow
  have hpos : 0 ≤ exactSecs timeout now := by
    rw [exactSecs_eq timeout hnow]
    have hsec := hnow.sec_nonneg
    split <;> omega
  rw [SignedInt.ofInt?_of_fits (fits_of_le hpos h)] at heq
  refine ⟨_, heq, ⟨hpos, ?_, ?_⟩, ?_⟩
  · show 0 ≤ rest.val
    unfold nanosPerSec at hrest
    omega
  · show rest.val < nanosPerSec
    unfold nanosPerSec at hrest ⊢
    omega
  · show exactSecs timeout now * nanosPerSec + rest.val = _
    rw [hrest]
    exact Int.ediv_mul_add_emod _ _

end Sum

/-- **`timeout_to_timespec` is exact.** It never overflows, answers `None` exactly where the
seconds of the sum do not fit, and otherwise answers the sum; a later clock and a longer
duration give no earlier deadline, `None` being the latest. -/
theorem timeout_to_timespec_exact (time nsec : IntWidth) :
    (∀ (timeout : Duration) (now : Reading time nsec),
      ∃ result, timeoutToTimespec timeout now.val = .ok result ∧
        (result = none ↔ SignedInt.maxValue time.bits < exactSecs timeout now.val) ∧
        ∀ ts, result = some ts → 0 ≤ ts.tvNsec.val ∧ ts.tvNsec.val < nanosPerSec ∧
          ts.nanos = now.val.nanos + timeout.nanos) ∧
      ∀ (timeout timeout' : Duration) (now now' : Reading time nsec) (ts' : Timespec time nsec),
        timeout.nanos ≤ timeout'.nanos → now.val.nanos ≤ now'.val.nanos →
          timeoutToTimespec timeout' now'.val = .ok (some ts') →
            ∃ ts, timeoutToTimespec timeout now.val = .ok (some ts) ∧ ts.nanos ≤ ts'.nanos := by
  constructor
  · intro timeout now
    by_cases h : SignedInt.maxValue time.bits < exactSecs timeout now.val
    · refine ⟨none, timeoutToTimespec_eq_none now.property h, iff_of_true rfl h, ?_⟩
      intro ts hts
      cases hts
    · obtain ⟨ts, heq, hvalid, hnanos⟩ :=
        timeoutToTimespec_eq_some now.property (not_lt.mp h)
      refine ⟨some ts, heq, iff_of_false (Option.some_ne_none ts) h, ?_⟩
      intro ts' hts'
      obtain rfl := Option.some.inj hts'
      exact ⟨hvalid.nsec_nonneg, hvalid.nsec_lt, hnanos⟩
  · intro timeout timeout' now now' ts' htimeout hnow hts'
    -- the later sum fits, and so does the earlier one
    have hfits' : exactSecs timeout' now'.val ≤ SignedInt.maxValue time.bits := by
      by_contra hover
      rw [timeoutToTimespec_eq_none now'.property (not_le.mp hover)] at hts'
      cases hts'
    have hfits : exactSecs timeout now.val ≤ SignedInt.maxValue time.bits := by
      refine le_trans ?_ hfits'
      unfold exactSecs nanosPerSec
      omega
    obtain ⟨ts, heq, _, hnanos⟩ := timeoutToTimespec_eq_some now.property hfits
    obtain ⟨ts'', heq', _, hnanos'⟩ := timeoutToTimespec_eq_some now'.property hfits'
    obtain rfl : ts' = ts'' := Option.some.inj (Except.ok.inj (hts'.symm.trans heq'))
    refine ⟨ts, heq, ?_⟩
    rw [hnanos, hnanos']
    exact add_le_add hnow htimeout

/-- The last nanosecond before a carry, and the one after it. -/
theorem timeout_to_timespec_exact_carry :
    ∃ ts : Timespec .bits32 .bits32,
      timeoutToTimespec ⟨0, 0, by decide⟩ ⟨⟨5, by decide⟩, ⟨999999999, by decide⟩⟩ = .ok (some ts) ∧
        ts.nanos ≤ 6000000000 :=
  (timeout_to_timespec_exact .bits32 .bits32).2 ⟨0, 0, by decide⟩ ⟨0, 1, by decide⟩
    ⟨⟨⟨5, by decide⟩, ⟨999999999, by decide⟩⟩, by decide, by decide, by decide⟩
    ⟨⟨⟨5, by decide⟩, ⟨999999999, by decide⟩⟩, by decide, by decide, by decide⟩
    ⟨⟨6, by decide⟩, ⟨0, by decide⟩⟩ (by decide) (by decide) (by decide +kernel)

end Mekong.Analysis.TimeoutToTimespec
