import Micron.Tlsf.Tombstones
import Micron.Buddy.Tombstones

/-!
# The counters of both allocators

A tombstone leaves the count of what is in use when it is made, and leaves it again when
it is freed.
-/

set_option autoImplicit false

namespace Micron.Accounts

open Micron.Lib

/-- As long as no tombstone is freed, and what is passed that is no chunk is turned away, the
counters of both allocators are exact. -/
theorem counters_exact (cfg : Buddy.Config) (ptr len : Nat) (extTags : Bool) :
    (∀ y, Tlsf.allocator.Reached (Tlsf.Pool.init ptr len) y → Tlsf.allocator.Balanced y) ∧
      (len < 2 ^ 64 → ∀ y, (Buddy.allocator cfg).Reached (Buddy.Pool.init cfg ptr len extTags) y →
        (Buddy.allocator cfg).Balanced y) := by
  refine ⟨fun y reached => ?_, fun word y reached => ?_⟩
  · exact (reached.invariant (Tlsf.init_accounted ptr len) Tlsf.step_accounted).balanced
  · exact (reached.invariant (Buddy.init_accounted cfg ptr word extTags) Buddy.step_accounted).balanced

/-- Two blocks of which the first becomes a tombstone, for a pool of a kilobyte. -/
def tlsfPair : Tlsf.Pool × Ledger :=
  let start : Tlsf.Pool × Ledger := (Tlsf.Pool.init 0 1024, ⟨[], []⟩)
  let y := Tlsf.allocator.step (Tlsf.allocator.step start (.allocate 10)) (.allocate 100)
  Tlsf.allocator.step y (.tombstone 64)

def buddyPair : Buddy.Pool × Ledger :=
  let a := Buddy.allocator Buddy.config64
  let start : Buddy.Pool × Ledger := (Buddy.Pool.init Buddy.config64 0 1024 true, ⟨[], []⟩)
  a.step (a.step (a.step start (.allocate 10)) (.allocate 100)) (.tombstone 0)

/-- The second block is freed. -/
theorem counters_exact_pair :
    (Tlsf.allocator.step tlsfPair (.deallocate 160)).2.dead = [(64, 64)] ∧
      Tlsf.allocator.Balanced (Tlsf.allocator.step tlsfPair (.deallocate 160)) ∧
      ((Buddy.allocator Buddy.config64).step buddyPair (.deallocate 256)).2.dead = [(0, 32)] ∧
      (Buddy.allocator Buddy.config64).Balanced
        ((Buddy.allocator Buddy.config64).step buddyPair (.deallocate 256)) := by
  obtain ⟨tlsf, buddy⟩ := counters_exact Buddy.config64 0 1024 true
  refine ⟨by decide +kernel, tlsf _ ?_, by decide +kernel, buddy (by decide) _ ?_⟩
  · refine .step (.deallocate 160) (.step (.tombstone 64) (.step (.allocate 100)
      (.step (.allocate 10) .init (.inl ?_)) (.inl ?_)) (.inl ?_)) (.inl ?_)
    · decide +kernel
    · decide +kernel
    · exact ⟨(64, 64), by decide +kernel, rfl⟩
    · exact ⟨(160, 160), by decide +kernel, rfl⟩
  · refine .step (.deallocate 256) (.step (.tombstone 0) (.step (.allocate 100)
      (.step (.allocate 10) .init trivial) trivial) (.inl ?_)) (.inl ?_)
    · exact ⟨(0, 32), by decide +kernel, rfl⟩
    · exact ⟨(256, 224), by decide +kernel, rfl⟩

/-- The tombstone is freed as well: what is in use falls by its bytes once more. -/
theorem freed_tombstone_counted_twice :
    (Tlsf.allocator.step tlsfPair (.deallocate 64)).2.live = [(160, 160)] ∧
      (Tlsf.allocator.step tlsfPair (.deallocate 64)).1.used = 96 ∧
      ¬ Tlsf.allocator.Balanced (Tlsf.allocator.step tlsfPair (.deallocate 64)) ∧
      ((Buddy.allocator Buddy.config64).step buddyPair (.deallocate 0)).2.live = [(256, 224)] ∧
      ((Buddy.allocator Buddy.config64).step buddyPair (.deallocate 0)).1.used = 192 ∧
      ¬ (Buddy.allocator Buddy.config64).Balanced
        ((Buddy.allocator Buddy.config64).step buddyPair (.deallocate 0)) := by
  refine ⟨by decide +kernel, by decide +kernel, fun balanced => ?_, by decide +kernel, by decide +kernel,
    fun balanced => ?_⟩
  · exact absurd balanced.used (by decide +kernel)
  · exact absurd balanced.used (by decide +kernel)

end Micron.Accounts
