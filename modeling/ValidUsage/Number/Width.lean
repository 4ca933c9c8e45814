/-!
# Widths of numbers

The whole numbers that take part in exchanges and positions have 32 or 64 bits. They are natural
numbers here; where a sum may be too large for its width, what becomes of it is said. The program is
built for one of two ways: such a sum wraps around, or the process breaks off at it.
-/

namespace ValidUsage

/-- The numbers of 32 bits are those below this one. -/
def limit32 : Nat := 0x100000000

/-- The numbers of 64 bits are those below this one. -/
def limit64 : Nat := 0x10000000000000000

/-- A sum of 64 bits at which the process breaks off. -/
inductive Overrun where
  | sum64
  deriving DecidableEq, Repr

/-- What becomes of a sum that is too large for its width. -/
inductive Overflow where
  /-- It wraps around. -/
  | wraps
  /-- The process breaks off. -/
  | breaks
  deriving DecidableEq, Repr

namespace Overflow

/-- The sum of two numbers of 64 bits. -/
def add (o : Overflow) (m n : Nat) : Except Overrun Nat :=
  if m + n < limit64 then .ok (m + n)
  else match o with
    | .wraps => .ok ((m + n) % limit64)
    | .breaks => .error .sum64

variable {o : Overflow} {m n : Nat}

/-- A sum that has 64 bits is the same in every build. -/
theorem add_of_lt (h : m + n < limit64) : o.add m n = .ok (m + n) := if_pos h

/-- No process that lets sums wrap around breaks off. -/
theorem wraps_add : wraps.add m n = .ok ((m + n) % limit64) := by
  unfold add
  split
  next h => rw [Nat.mod_eq_of_lt h]
  next => rfl

/-- The process breaks off just at the sums that do not have 64 bits, if it does at all. -/
theorem isOk_add_iff : (o.add m n).isOk = true ↔ (o = .breaks → m + n < limit64) := by
  unfold add
  split
  next h => exact iff_of_true rfl fun _ => h
  next h =>
    cases o with
    | wraps => exact iff_of_true rfl nofun
    | breaks => exact iff_of_false Bool.false_ne_true fun hlt => h (hlt rfl)

end Overflow
end ValidUsage
