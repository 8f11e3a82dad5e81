import Fuxi.Lib.Word

/-!
# `Time`: durations and `timespec`

The conversions between a number of nanoseconds and the `timespec` of the system calls.
-/

namespace Fuxi.Common

open Lib

/-- A `struct timespec` that the kernel accepts as a timeout. -/
structure Timespec where
  sec : Nat
  nsec : Nat
  sec_lt : sec < 9223372036854775808
  nsec_lt : nsec < 1000000000
  deriving DecidableEq

/-- The time that the kernel waits. -/
def Timespec.nanoseconds (spec : Timespec) : Nat := spec.sec * 1000000000 + spec.nsec

/-- A `timespec` is determined by the time. -/
theorem Timespec.nanoseconds_inj {s t : Timespec} (h : s.nanoseconds = t.nanoseconds) : s = t := by
  obtain ⟨sec, nsec, _, lt⟩ := s
  obtain ⟨sec', nsec', _, lt'⟩ := t
  simp only [Timespec.nanoseconds, Timespec.mk.injEq] at h ⊢
  omega

/-- `Time::DurationFromTimespec`. -/
def durationFromTimespec (spec : Timespec) : Nat :=
  u64 (u64 (u64 spec.sec * 1000000000) + spec.nsec)

/-- `Time::ToTimespec`. -/
def toTimespec (ns : Nat) : Timespec where
  sec := u64 ns / 1000000000
  nsec := u64 ns - u64 ns / 1000000000 * 1000000000
  sec_lt := by unfold u64; omega
  nsec_lt := by omega

theorem durationFromTimespec_eq (spec : Timespec) :
    durationFromTimespec spec = u64 spec.nanoseconds := by
  simp only [durationFromTimespec, Timespec.nanoseconds, u64]
  omega

/-- A duration of 64 bits survives the round trip. -/
theorem nanoseconds_toTimespec {ns : Nat} (word : ns < 18446744073709551616) :
    (toTimespec ns).nanoseconds = ns := by
  simp only [toTimespec, Timespec.nanoseconds, u64_of_lt word]
  omega

end Fuxi.Common
