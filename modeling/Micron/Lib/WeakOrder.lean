import Mathlib.Order.RelClasses

/-!
# Strict weak orders

Keys that are not ordered either way are tied, and being tied is transitive.
-/

set_option autoImplicit false

namespace Micron.Lib

open Bool

section Order
variable {K : Type} (r : K → K → Prop) [IsStrictWeakOrder K r] {a b c : K}

def Tied (a b : K) : Prop := ¬r a b ∧ ¬r b a

variable {r}

theorem weak_irrefl (a : K) : ¬r a a := Std.Irrefl.irrefl a

theorem weak_trans (less : r a b) (less' : r b c) : r a c := IsTrans.trans a b c less less'

theorem weak_asymm (less : r a b) : ¬r b a := fun greater => weak_irrefl a (weak_trans less greater)

theorem Tied.trans (equal : Tied r a b) (equal' : Tied r b c) : Tied r a c :=
  IsStrictWeakOrder.incomp_trans a b c equal equal'

/-- Not coming before is transitive. -/
theorem not_weak_trans (notLess : ¬r a b) (notLess' : ¬r b c) : ¬r a c := by
  intro less
  have first : ¬r b a := fun before => notLess' (weak_trans before less)
  have second : ¬r c b := fun before => notLess (weak_trans less before)
  exact (Tied.trans ⟨notLess, first⟩ ⟨notLess', second⟩).1 less

theorem weak_of_lt_of_not_lt (less : r a b) (notLess : ¬r c b) : r a c := by
  by_contra notBefore
  exact not_weak_trans notBefore notLess less

theorem weak_of_not_lt_of_lt (notLess : ¬r b a) (less : r b c) : r a c := by
  by_contra notBefore
  exact not_weak_trans notLess notBefore less

end Order

def Lesser {K : Type} (lt : K → K → Bool) (a b : K) : Prop := lt a b = true

instance : IsStrictWeakOrder Nat (Lesser fun a b => decide (a < b)) where
  irrefl a less := Nat.lt_irrefl a (of_decide_eq_true less)
  trans _ _ _ less less' :=
    decide_eq_true (Nat.lt_trans (of_decide_eq_true less) (of_decide_eq_true less'))
  incomp_trans a b c equal equal' := by
    simp only [Lesser, decide_eq_true_eq] at equal equal' ⊢
    omega

section Comparison
variable {K : Type} {lt : K → K → Bool} [IsStrictWeakOrder K (Lesser lt)] {a b c : K}

theorem comp_asymm (less : lt a b = true) : lt b a = false :=
  eq_false_iff.mpr (weak_asymm (r := Lesser lt) less)

theorem comp_irrefl (a : K) : lt a a = false :=
  eq_false_iff.mpr (weak_irrefl (r := Lesser lt) a)

theorem comp_trans_false (notLess : lt a b = false) (notLess' : lt b c = false) : lt a c = false :=
  eq_false_iff.mpr (not_weak_trans (r := Lesser lt) (eq_false_iff.mp notLess)
    (eq_false_iff.mp notLess'))

end Comparison

end Micron.Lib
