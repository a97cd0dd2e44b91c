import Mathlib.Logic.Function.Basic

/-!
# Things that are in one place

A set of keyed things, each with a value, spread over places: `At place thing` says that
a place has a thing, and `known` gives the value of each key that is anywhere.  No key
is in two places, nor in one with two values.
-/

set_option autoImplicit false

namespace Micron.Lib

open Function

variable {P K V : Type}

structure Whereabouts (At : P → K × V → Prop) (known : K → Option V) : Prop where
  valued : ∀ place thing, At place thing → known thing.1 = some thing.2
  unique : ∀ place place' thing thing', At place thing → At place' thing' →
    thing.1 = thing'.1 → place = place'
  found : ∀ key value, known key = some value → ∃ place, At place (key, value)

namespace Whereabouts

variable {At At' : P → K × V → Prop} {known : K → Option V}

theorem congr (whole : Whereabouts At known)
    (same : ∀ place thing, At' place thing ↔ At place thing) : Whereabouts At' known := by
  have equal : At' = At := funext₂ fun place thing => propext (same place thing)
  rw [equal]
  exact whole

/-- A thing that is nowhere has another key than one that is somewhere. -/
theorem ne_of_unknown (whole : Whereabouts At known) {key : K} (unknown : known key = none)
    {place : P} {thing : K × V} (at_ : At place thing) : thing.1 ≠ key := by
  intro same
  have isKnown := whole.valued place thing at_
  rw [same, unknown] at isKnown
  exact nomatch isKnown

/-- Things in different places have different keys. -/
theorem ne_of_place_ne (whole : Whereabouts At known) (place place' : P) {thing thing' : K × V}
    (at_ : At place thing) (at' : At place' thing') (differ : place ≠ place') :
    thing.1 ≠ thing'.1 :=
  fun same => differ (whole.unique place place' thing thing' at_ at' same)

/-- A thing is taken away. -/
theorem remove [DecidableEq K] (whole : Whereabouts At known) (key : K)
    (left : ∀ place thing, At' place thing ↔ At place thing ∧ thing.1 ≠ key) :
    Whereabouts At' (update known key none) := by
  refine ⟨?_, ?_, ?_⟩
  · intro place thing at_
    obtain ⟨old, differ⟩ := (left place thing).mp at_
    rw [update_of_ne differ]
    exact whole.valued place thing old
  · intro place place' thing thing' at_ at'
    exact whole.unique place place' thing thing' ((left _ _).mp at_).1 ((left _ _).mp at').1
  · intro other value isKnown
    by_cases same : other = key
    · rw [same, update_self] at isKnown
      exact nomatch isKnown
    · rw [update_of_ne same] at isKnown
      obtain ⟨place, at_⟩ := whole.found other value isKnown
      exact ⟨place, (left _ _).mpr ⟨at_, same⟩⟩

/-- A thing is put in a place, and is then nowhere else. -/
theorem put [DecidableEq K] (whole : Whereabouts At known) (target : P) (new : K × V)
    (now : ∀ place thing, At' place thing ↔
      At place thing ∧ thing.1 ≠ new.1 ∨ place = target ∧ thing = new) :
    Whereabouts At' (update known new.1 (some new.2)) := by
  refine ⟨?_, ?_, ?_⟩
  · intro place thing at_
    rcases (now place thing).mp at_ with ⟨old, differ⟩ | ⟨_, rfl⟩
    · rw [update_of_ne differ]
      exact whole.valued place thing old
    · exact update_self ..
  · intro place place' thing thing' at_ at' same
    rcases (now place thing).mp at_ with ⟨old, differ⟩ | ⟨here, rfl⟩
    · rcases (now place' thing').mp at' with ⟨old', _⟩ | ⟨_, rfl⟩
      · exact whole.unique place place' thing thing' old old' same
      · exact absurd same differ
    · rcases (now place' thing').mp at' with ⟨_, differ'⟩ | ⟨here', _⟩
      · exact absurd same.symm differ'
      · rw [here, here']
  · intro other value isKnown
    by_cases same : other = new.1
    · rw [same, update_self] at isKnown
      refine ⟨target, (now _ _).mpr (.inr ⟨rfl, ?_⟩)⟩
      rw [same, ← Option.some.inj isKnown]
    · rw [update_of_ne same] at isKnown
      obtain ⟨place, at_⟩ := whole.found other value isKnown
      exact ⟨place, (now _ _).mpr (.inl ⟨at_, same⟩)⟩

/-- A thing goes from one place to another. -/
theorem move [DecidableEq K] (whole : Whereabouts At known) (source target : P) (new : K × V)
    (here : At source new)
    (now : ∀ place thing, At' place thing ↔
      At place thing ∧ thing.1 ≠ new.1 ∨ place = target ∧ thing = new) :
    Whereabouts At' known := by
  have moved := whole.put target new now
  rwa [← whole.valued source new here, update_eq_self] at moved

end Whereabouts

end Micron.Lib
