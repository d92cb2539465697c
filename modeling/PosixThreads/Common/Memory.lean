import Mathlib.Data.Nat.Notation

/-!
# Allocation

Whether an allocation succeeds is not up to the program. A modelled function that
allocates takes the answers of the allocator as a parameter and uses them one
after the other, so a statement about every `Alloc` is a statement about every
pattern of failing allocations. A growing string asks for memory only now and
then; asking each time covers that, because an answer may always be yes.
-/

namespace PosixThreads

/-- Whether the `n`-th allocation of a call succeeds. -/
abbrev Alloc := ℕ → Bool

/-- `PTRDIFF_MAX`. An allocation of more bytes fails, whatever the allocator. -/
def ptrdiffMax : ℕ := 0x7fffffffffffffff

def intMax : ℕ := 0x7fffffff

/-- The allocator that never fails. -/
def allocAll : Alloc := fun _ => true

end PosixThreads
