import Mathlib.Data.Nat.Bitwise

/-!
# The checks of Unicode texts

A text is read unit by unit; the unit in front tells how many follow in its sequence.  What is
left of the text stands for the pointer of the source, and no result for a null pointer.
-/

set_option autoImplicit false

namespace Micron.Unicode

open List Nat

/-- The loop over the bytes that follow, with their number. -/
def contLoop : Nat → List Nat → Nat → Option (Nat × List Nat)
  | 0, str, cp => some (cp, str)
  | _ + 1, [], _ => none
  | left + 1, cont :: str, cp =>
    if cont &&& 0xC0 ≠ 0x80 then none
    else contLoop left str ((cp <<< 6) ||| (cont &&& 0x3F))

def longSequence (seq cp : Nat) (str : List Nat) : Option (List Nat) :=
  match contLoop (seq - 1) str cp with
  | none => none
  | some (cp, str) =>
    if seq = 2 ∧ cp < 0x80 then none
    else if seq = 3 ∧ cp < 0x800 then none
    else if seq = 4 ∧ cp < 0x10000 then none
    else if 0xD800 ≤ cp ∧ cp ≤ 0xDFFF then none
    else if cp > 0x10FFFF then none
    else some str

def u8Step (c : Nat) (str : List Nat) : Option (List Nat) :=
  if c < 0x80 then some str
  else if c &&& 0xE0 = 0xC0 then longSequence 2 (c &&& 0x1F) str
  else if c &&& 0xF0 = 0xE0 then longSequence 3 (c &&& 0x0F) str
  else if c &&& 0xF8 = 0xF0 then longSequence 4 (c &&& 0x07) str
  else none

theorem contLoop_length : ∀ (left cp : Nat) (str : List Nat) {out : Nat × List Nat},
    contLoop left str cp = some out → out.2.length ≤ str.length := by
  intro left
  induction left with
  | zero =>
    intro cp str out done
    cases done
    exact le_refl _
  | succ left ih =>
    intro cp str out done
    cases str with
    | nil => cases done
    | cons cont str =>
      rw [contLoop] at done
      split at done
      · cases done
      · exact le_succ_of_le (ih _ _ done)

theorem longSequence_length {seq cp : Nat} {str rest : List Nat}
    (done : longSequence seq cp str = some rest) : rest.length ≤ str.length := by
  unfold longSequence at done
  split at done
  · cases done
  · rename_i read
    have short := contLoop_length _ _ _ read
    repeat' split at done
    all_goals cases done
    exact short

theorem u8Step_length {c : Nat} {str rest : List Nat} (done : u8Step c str = some rest) :
    rest.length ≤ str.length := by
  unfold u8Step at done
  repeat' split at done
  all_goals first
    | cases done; exact le_refl _
    | exact longSequence_length done
    | cases done

def u8Check : List Nat → Option (List Nat)
  | [] => some []
  | c :: str =>
    match _found : u8Step c str with
    | none => none
    | some rest => u8Check rest
termination_by str => str.length
decreasing_by exact lt_succ_of_le (u8Step_length _found)

def u16Check : List Nat → Option (List Nat)
  | [] => some []
  | c :: str =>
    if c < 0xD800 ∨ c > 0xDFFF then u16Check str
    else if 0xD800 ≤ c ∧ c ≤ 0xDBFF then
      match str with
      | [] => none
      | low :: str => if low < 0xDC00 ∨ low > 0xDFFF then none else u16Check str
    else none

def u32Check : List Nat → Option (List Nat)
  | [] => some []
  | c :: str =>
    if 0xD800 ≤ c ∧ c ≤ 0xDFFF then none else if c > 0x10FFFF then none else u32Check str

def Tail (b : Nat) : Prop := 0x80 ≤ b ∧ b ≤ 0xBF

instance (b : Nat) : Decidable (Tail b) := inferInstanceAs (Decidable (_ ∧ _))

/-- `UTF8-char`: one sequence of RFC 3629. -/
inductive Utf8Char : List Nat → Prop where
  | one {a : Nat} : a ≤ 0x7F → Utf8Char [a]
  | two {a b : Nat} : 0xC2 ≤ a → a ≤ 0xDF → Tail b → Utf8Char [a, b]
  | e0 {b c : Nat} : 0xA0 ≤ b → b ≤ 0xBF → Tail c → Utf8Char [0xE0, b, c]
  | e1ec {a b c : Nat} : 0xE1 ≤ a → a ≤ 0xEC → Tail b → Tail c → Utf8Char [a, b, c]
  | ed {b c : Nat} : 0x80 ≤ b → b ≤ 0x9F → Tail c → Utf8Char [0xED, b, c]
  | eeef {a b c : Nat} : 0xEE ≤ a → a ≤ 0xEF → Tail b → Tail c → Utf8Char [a, b, c]
  | f0 {b c d : Nat} : 0x90 ≤ b → b ≤ 0xBF → Tail c → Tail d → Utf8Char [0xF0, b, c, d]
  | f1f3 {a b c d : Nat} : 0xF1 ≤ a → a ≤ 0xF3 → Tail b → Tail c → Tail d →
      Utf8Char [a, b, c, d]
  | f4 {b c d : Nat} : 0x80 ≤ b → b ≤ 0x8F → Tail c → Tail d → Utf8Char [0xF4, b, c, d]

inductive Utf8 : List Nat → Prop where
  | nil : Utf8 []
  | append {char rest : List Nat} : Utf8Char char → Utf8 rest → Utf8 (char ++ rest)

def High (u : Nat) : Prop := 0xD800 ≤ u ∧ u ≤ 0xDBFF

def Low (u : Nat) : Prop := 0xDC00 ≤ u ∧ u ≤ 0xDFFF

/-- Every high surrogate has a low one right behind it, and every low one a high one right in
front of it. -/
structure Utf16 (units : List Nat) : Prop where
  high : ∀ i u, units[i]? = some u → High u → ∃ v, units[i + 1]? = some v ∧ Low v
  low : ∀ i u, units[i]? = some u → Low u → ∃ j v, i = j + 1 ∧ units[j]? = some v ∧ High v

def Scalar (u : Nat) : Prop := u ≤ 0x10FFFF ∧ ¬ (0xD800 ≤ u ∧ u ≤ 0xDFFF)

/-- The masks of a byte, by its value. -/
theorem byte_masks : ∀ c < 256, (c &&& 0xC0 = 0x80 ↔ Tail c) ∧
    (c &&& 0xE0 = 0xC0 ↔ 0xC0 ≤ c ∧ c ≤ 0xDF) ∧ (c &&& 0xF0 = 0xE0 ↔ 0xE0 ≤ c ∧ c ≤ 0xEF) ∧
    (c &&& 0xF8 = 0xF0 ↔ 0xF0 ≤ c ∧ c ≤ 0xF7) := by
  decide +kernel

theorem contLoop_cons {left cp cont : Nat} {str : List Nat} (byte : cont < 256) :
    contLoop (left + 1) (cont :: str) cp =
      if Tail cont then contLoop left str (cp * 64 + cont % 64) else none := by
  have low : cont % 64 < 2 ^ 6 := mod_lt _ (by decide)
  have mask : cont &&& 0x3F = cont % 64 := and_two_pow_sub_one_eq_mod cont 6
  rw [contLoop, mask, ← shiftLeft_add_eq_or_of_lt low, shiftLeft_eq]
  by_cases tail : Tail cont
  · rw [if_neg (not_not_intro ((byte_masks cont byte).1.mpr tail)), if_pos tail]
  · rw [if_pos (fun eq => tail ((byte_masks cont byte).1.mp eq)), if_neg tail]

/-- The loop ends behind as many bytes as it was to read. -/
theorem contLoop_iff : ∀ (left cp : Nat) (str : List Nat) (v : Nat) (rest : List Nat),
    (∀ b ∈ str, b < 256) → (contLoop left str cp = some (v, rest) ↔
      ∃ conts : List Nat, conts.length = left ∧ (∀ b ∈ conts, Tail b) ∧ str = conts ++ rest ∧
        v = conts.foldl (fun cp b => cp * 64 + b % 64) cp) := by
  intro left
  induction left with
  | zero =>
    intro cp str v rest _
    constructor
    · intro done
      cases done
      exact ⟨[], rfl, fun _ inside => absurd inside not_mem_nil, rfl, rfl⟩
    · rintro ⟨conts, none, _, rfl, rfl⟩
      rw [eq_nil_of_length_eq_zero none]
      rfl
  | succ left ih =>
    intro cp str v rest bytes
    cases str with
    | nil =>
      refine ⟨(fun done => nomatch done), ?_⟩
      rintro ⟨conts, long, _, same, _⟩
      have := congrArg List.length same
      rw [length_append, long, length_nil] at this
      omega
    | cons cont str =>
      rw [contLoop_cons (bytes cont mem_cons_self)]
      have inner := ih (cp * 64 + cont % 64) str v rest
        fun b inside => bytes b (mem_cons_of_mem _ inside)
      constructor
      · intro done
        split at done
        · rename_i tail
          obtain ⟨conts, long, all, rfl, rfl⟩ := inner.mp done
          exact ⟨cont :: conts, by rw [length_cons, long],
            forall_mem_cons.mpr ⟨tail, all⟩, rfl, rfl⟩
        · cases done
      · rintro ⟨conts, long, all, same, rfl⟩
        cases conts with
        | nil => cases long
        | cons first conts =>
          obtain ⟨rfl, rfl⟩ := List.cons.inj same
          rw [if_pos (all _ mem_cons_self)]
          exact inner.mpr ⟨conts, Nat.succ.inj long,
            fun b inside => all b (mem_cons_of_mem _ inside), rfl, rfl⟩

/-- The value of a sequence lies where its length is the least one, and is a scalar. -/
def Allowed (seq v : Nat) : Prop :=
  (seq = 2 → 0x80 ≤ v) ∧ (seq = 3 → 0x800 ≤ v) ∧ (seq = 4 → 0x10000 ≤ v) ∧ v ≤ 0x10FFFF ∧
    ¬ (0xD800 ≤ v ∧ v ≤ 0xDFFF)

theorem longSequence_iff {seq cp : Nat} {str rest : List Nat} (bytes : ∀ b ∈ str, b < 256) :
    longSequence seq cp str = some rest ↔ ∃ conts : List Nat, conts.length = seq - 1 ∧
      (∀ b ∈ conts, Tail b) ∧ str = conts ++ rest ∧
      Allowed seq (conts.foldl (fun cp b => cp * 64 + b % 64) cp) := by
  unfold longSequence Allowed
  constructor
  · intro done
    split at done
    · cases done
    · rename_i v rest' read
      obtain ⟨conts, long, all, same, value⟩ := (contLoop_iff _ _ _ _ _ bytes).mp read
      repeat' split at done
      all_goals cases done
      refine ⟨conts, long, all, same, ?_⟩
      exact ⟨by omega, by omega, by omega, by omega, by omega⟩
  · rintro ⟨conts, long, all, same, two, three, four, most, surrogate⟩
    rw [(contLoop_iff _ _ _ _ _ bytes).mpr ⟨conts, long, all, same, rfl⟩]
    dsimp only
    rw [if_neg (by omega), if_neg (by omega), if_neg (by omega), if_neg surrogate,
      if_neg (by omega)]

theorem u8Step_iff {c : Nat} {str rest : List Nat} (byte : c < 256) (bytes : ∀ b ∈ str, b < 256) :
    u8Step c str = some rest ↔ ∃ char, Utf8Char char ∧ c :: str = char ++ rest := by
  obtain ⟨_, two, three, four⟩ := byte_masks c byte
  have mask : ∀ k, c &&& (2 ^ k - 1) = c % 2 ^ k := and_two_pow_sub_one_eq_mod c
  have masks : c &&& 0x1F = c % 32 ∧ c &&& 0x0F = c % 16 ∧ c &&& 0x07 = c % 8 :=
    ⟨mask 5, mask 4, mask 3⟩
  unfold u8Step
  simp only [two, three, four, masks]
  constructor
  · intro done
    split at done
    · cases done
      exact ⟨[c], .one (by omega), rfl⟩
    · split at done
      · obtain ⟨conts, long, all, rfl, allowed⟩ := (longSequence_iff bytes).mp done
        match conts, long with
        | [x], _ =>
          have tail := all x (by simp)
          refine ⟨[c, x], .two ?_ (by omega) tail, rfl⟩
          have least := allowed.1 rfl
          rw [foldl_cons, foldl_nil] at least
          unfold Tail at tail
          omega
      · split at done
        · obtain ⟨conts, long, all, rfl, allowed⟩ := (longSequence_iff bytes).mp done
          match conts, long with
          | [x, y], _ =>
            have tailX := all x (by simp)
            have tailY := all y (by simp)
            refine ⟨[c, x, y], ?_, rfl⟩
            simp only [foldl_cons, foldl_nil] at allowed
            obtain ⟨_, least, _, most, surrogate⟩ := allowed
            have least := least rfl
            have tails : 0x80 ≤ x ∧ x ≤ 0xBF ∧ 0x80 ≤ y ∧ y ≤ 0xBF :=
              ⟨tailX.1, tailX.2, tailY.1, tailY.2⟩
            by_cases first : c = 0xE0
            · subst first
              exact .e0 (by omega) (by omega) tailY
            · by_cases middle : c = 0xED
              · subst middle
                exact .ed (by omega) (by omega) tailY
              · by_cases early : c ≤ 0xEC
                · exact .e1ec (by omega) early tailX tailY
                · exact .eeef (by omega) (by omega) tailX tailY
        · split at done
          · obtain ⟨conts, long, all, rfl, allowed⟩ := (longSequence_iff bytes).mp done
            match conts, long with
            | [x, y, z], _ =>
              have tailX := all x (by simp)
              have tailY := all y (by simp)
              have tailZ := all z (by simp)
              refine ⟨[c, x, y, z], ?_, rfl⟩
              simp only [foldl_cons, foldl_nil] at allowed
              obtain ⟨_, _, least, most, _⟩ := allowed
              have least := least rfl
              have tails : 0x80 ≤ x ∧ x ≤ 0xBF ∧ 0x80 ≤ y ∧ y ≤ 0xBF ∧ 0x80 ≤ z ∧ z ≤ 0xBF :=
                ⟨tailX.1, tailX.2, tailY.1, tailY.2, tailZ.1, tailZ.2⟩
              by_cases first : c = 0xF0
              · subst first
                exact .f0 (by omega) (by omega) tailY tailZ
              · by_cases last : c = 0xF4
                · subst last
                  exact .f4 (by omega) (by omega) tailY tailZ
                · exact .f1f3 (by omega) (by omega) tailX tailY tailZ
          · cases done
  · rintro ⟨char, wellFormed, same⟩
    have long : ∀ (seq cp : Nat) (conts : List Nat), conts.length = seq - 1 →
        (∀ b ∈ conts, Tail b) → str = conts ++ rest →
        Allowed seq (conts.foldl (fun cp b => cp * 64 + b % 64) cp) →
        longSequence seq cp str = some rest := fun seq cp conts length all same allowed =>
      (longSequence_iff bytes).mpr ⟨conts, length, all, same, allowed⟩
    have three : ∀ {x y : Nat}, Tail x → Tail y → str = x :: y :: rest →
        Allowed 3 ((c % 16 * 64 + x % 64) * 64 + y % 64) →
        longSequence 3 (c % 16) str = some rest := fun tailX tailY same allowed =>
      long 3 _ [_, _] rfl (by simp [tailX, tailY]) same allowed
    have four : ∀ {x y z : Nat}, Tail x → Tail y → Tail z → str = x :: y :: z :: rest →
        Allowed 4 (((c % 8 * 64 + x % 64) * 64 + y % 64) * 64 + z % 64) →
        longSequence 4 (c % 8) str = some rest := fun tailX tailY tailZ same allowed =>
      long 4 _ [_, _, _] rfl (by simp [tailX, tailY, tailZ]) same allowed
    clear long
    unfold Tail Allowed at three four
    cases wellFormed with
    | one small =>
      obtain ⟨rfl, rfl⟩ := List.cons.inj same
      exact if_pos (by omega)
    | two low high second =>
      obtain ⟨rfl, shape⟩ := List.cons.inj same
      rw [if_neg (by omega), if_pos (by omega)]
      refine (longSequence_iff bytes).mpr ⟨[_], rfl, by simpa using second, shape, ?_⟩
      simp only [foldl_cons, foldl_nil]
      unfold Tail at second
      exact ⟨by omega, by omega, by omega, by omega, by omega⟩
    | e0 low high last =>
      obtain ⟨rfl, shape⟩ := List.cons.inj same
      rw [if_neg (by omega), if_neg (by omega), if_pos (by omega)]
      unfold Tail at last
      exact three (by omega) last shape ⟨by omega, by omega, by omega, by omega, by omega⟩
    | e1ec low high second last =>
      obtain ⟨rfl, shape⟩ := List.cons.inj same
      rw [if_neg (by omega), if_neg (by omega), if_pos (by omega)]
      unfold Tail at second last
      exact three second last shape ⟨by omega, by omega, by omega, by omega, by omega⟩
    | ed low high last =>
      obtain ⟨rfl, shape⟩ := List.cons.inj same
      rw [if_neg (by omega), if_neg (by omega), if_pos (by omega)]
      unfold Tail at last
      exact three (by omega) last shape ⟨by omega, by omega, by omega, by omega, by omega⟩
    | eeef low high second last =>
      obtain ⟨rfl, shape⟩ := List.cons.inj same
      rw [if_neg (by omega), if_neg (by omega), if_pos (by omega)]
      unfold Tail at second last
      exact three second last shape ⟨by omega, by omega, by omega, by omega, by omega⟩
    | f0 low high third last =>
      obtain ⟨rfl, shape⟩ := List.cons.inj same
      rw [if_neg (by omega), if_neg (by omega), if_neg (by omega), if_pos (by omega)]
      unfold Tail at third last
      exact four (by omega) third last shape ⟨by omega, by omega, by omega, by omega, by omega⟩
    | f1f3 low high second third last =>
      obtain ⟨rfl, shape⟩ := List.cons.inj same
      rw [if_neg (by omega), if_neg (by omega), if_neg (by omega), if_pos (by omega)]
      exact four second third last shape ⟨by omega, by omega, by omega, by omega, by omega⟩
    | f4 low high third last =>
      obtain ⟨rfl, shape⟩ := List.cons.inj same
      exact four (by omega) third last shape ⟨by omega, by omega, by omega, by omega, by omega⟩

/-! ## The three checks -/

theorem u8Check_cons (c : Nat) (str : List Nat) :
    u8Check (c :: str) = match u8Step c str with
      | none => none
      | some rest => u8Check rest := by
  rw [u8Check]
  split <;> simp_all

/-- A check ends at the end of the text or with a null pointer. -/
theorem u8Check_eq : ∀ (str : List Nat), (∀ b ∈ str, b < 256) →
    (u8Check str = some [] ∧ Utf8 str) ∨ (u8Check str = none ∧ ¬ Utf8 str)
  | [], _ => .inl ⟨by rw [u8Check], .nil⟩
  | c :: str, bytes => by
    have step := fun rest => @u8Step_iff c str rest (bytes c mem_cons_self)
      fun b inside => bytes b (mem_cons_of_mem _ inside)
    rw [u8Check_cons]
    cases found : u8Step c str with
    | none =>
      refine .inr ⟨rfl, fun wellFormed => ?_⟩
      generalize whole : c :: str = text at wellFormed
      cases wellFormed with
      | nil => cases whole
      | @append char rest isChar _ =>
        rw [(step rest).mpr ⟨char, isChar, whole⟩] at found
        cases found
    | some rest =>
      have shorter := u8Step_length found
      obtain ⟨char, isChar, same⟩ := (step rest).mp found
      have inside : ∀ b ∈ rest, b < 256 := fun b inside =>
        bytes b (by rw [same]; exact mem_append_right _ inside)
      rcases u8Check_eq rest inside with ⟨done, wellFormed⟩ | ⟨done, illFormed⟩
      · exact .inl ⟨done, by rw [same]; exact .append isChar wellFormed⟩
      · refine .inr ⟨done, fun wellFormed => illFormed ?_⟩
        generalize whole : c :: str = text at wellFormed
        cases wellFormed with
        | nil => cases whole
        | @append char' rest' isChar' more =>
          rw [(step rest').mpr ⟨char', isChar', whole⟩] at found
          cases found
          exact more
termination_by str => str.length
decreasing_by exact lt_succ_of_le shorter

theorem High.not_low {u : Nat} (high : High u) : ¬ Low u := by
  unfold High at high
  unfold Low
  omega

/-- A unit that is no surrogate says nothing of its neighbours. -/
theorem utf16_cons {c : Nat} {str : List Nat} (notHigh : ¬ High c) (notLow : ¬ Low c) :
    Utf16 (c :: str) ↔ Utf16 str := by
  constructor
  · intro whole
    refine ⟨fun i u here high => ?_, fun i u here low => ?_⟩
    · exact whole.high (i + 1) u here high
    · obtain ⟨j, v, same, before, high⟩ := whole.low (i + 1) u here low
      cases i with
      | zero =>
        cases same
        cases before
        exact absurd high notHigh
      | succ i =>
        cases same
        exact ⟨i, v, rfl, before, high⟩
  · intro rest
    refine ⟨fun i u here high => ?_, fun i u here low => ?_⟩
    · cases i with
      | zero =>
        cases here
        exact absurd high notHigh
      | succ i => exact rest.high i u here high
    · cases i with
      | zero =>
        cases here
        exact absurd low notLow
      | succ i =>
        obtain ⟨j, v, rfl, before, high⟩ := rest.low i u here low
        exact ⟨j + 1, v, rfl, before, high⟩

theorem utf16_pair {c d : Nat} {str : List Nat} (high : High c) (low : Low d) :
    Utf16 (c :: d :: str) ↔ Utf16 str := by
  constructor
  · intro whole
    refine ⟨fun i u here high' => whole.high (i + 2) u here high', fun i u here low' => ?_⟩
    obtain ⟨j, v, same, before, high'⟩ := whole.low (i + 2) u here low'
    cases i with
    | zero =>
      cases same
      cases before
      exact absurd low high'.not_low
    | succ i =>
      cases same
      exact ⟨i, v, rfl, before, high'⟩
  · intro rest
    refine ⟨fun i u here high' => ?_, fun i u here low' => ?_⟩
    · match i with
      | 0 => exact ⟨d, rfl, low⟩
      | 1 =>
        cases here
        exact absurd low high'.not_low
      | i + 2 => exact rest.high i u here high'
    · match i with
      | 0 =>
        cases here
        exact absurd low' high.not_low
      | 1 => exact ⟨0, c, rfl, rfl, high⟩
      | i + 2 =>
        obtain ⟨j, v, rfl, before, high'⟩ := rest.low i u here low'
        exact ⟨j + 2, v, rfl, before, high'⟩

theorem u16Check_eq : ∀ (str : List Nat),
    (u16Check str = some [] ∧ Utf16 str) ∨ (u16Check str = none ∧ ¬ Utf16 str)
  | [] => .inl ⟨by rw [u16Check],
      ⟨nofun, nofun⟩⟩
  | c :: str => by
    rw [u16Check.eq_def]
    dsimp only
    by_cases plain : c < 0xD800 ∨ c > 0xDFFF
    · rw [if_pos plain, utf16_cons (by unfold High; omega) (by unfold Low; omega)]
      exact u16Check_eq str
    · rw [if_neg plain]
      by_cases high : High c
      · rw [if_pos (show 0xD800 ≤ c ∧ c ≤ 0xDBFF from high)]
        cases str with
        | nil =>
          refine .inr ⟨rfl, fun whole => ?_⟩
          obtain ⟨_, wrong, _⟩ := whole.high 0 c rfl high
          cases wrong
        | cons low str =>
          dsimp only
          by_cases pair : Low low
          · rw [if_neg (by unfold Low at pair; omega), utf16_pair high pair]
            exact u16Check_eq str
          · rw [if_pos (by unfold Low at pair; omega)]
            refine .inr ⟨rfl, fun whole => ?_⟩
            obtain ⟨v, same, isLow⟩ := whole.high 0 c rfl high
            cases same
            exact pair isLow
      · rw [if_neg (show ¬ (0xD800 ≤ c ∧ c ≤ 0xDBFF) from high)]
        refine .inr ⟨rfl, fun whole => ?_⟩
        obtain ⟨_, _, wrong, _⟩ := whole.low 0 c rfl (by unfold High at high; unfold Low; omega)
        cases wrong
termination_by str => str.length

theorem u32Check_eq : ∀ (str : List Nat),
    (u32Check str = some [] ∧ ∀ u ∈ str, Scalar u) ∨ (u32Check str = none ∧ ¬ ∀ u ∈ str, Scalar u)
  | [] => .inl ⟨rfl, fun _ inside => absurd inside not_mem_nil⟩
  | c :: str => by
    rw [u32Check, forall_mem_cons]
    by_cases surrogate : 0xD800 ≤ c ∧ c ≤ 0xDFFF
    · rw [if_pos surrogate]
      exact .inr ⟨rfl, fun all => all.1.2 surrogate⟩
    · rw [if_neg surrogate]
      by_cases large : c > 0x10FFFF
      · rw [if_pos large]
        exact .inr ⟨rfl, fun all => not_le.mpr large all.1.1⟩
      · rw [if_neg large]
        rcases u32Check_eq str with ⟨done, all⟩ | ⟨done, some⟩
        · exact .inl ⟨done, ⟨Nat.le_of_not_lt large, surrogate⟩, all⟩
        · exact .inr ⟨done, fun all => some all.2⟩

theorem isSome_iff {out : Option (List Nat)} {holds : Prop}
    (cases_ : (out = some [] ∧ holds) ∨ (out = none ∧ ¬ holds)) : out.isSome ↔ holds := by
  rcases cases_ with ⟨rfl, yes⟩ | ⟨rfl, no⟩
  · exact ⟨fun _ => yes, fun _ => rfl⟩
  · exact ⟨nofun, fun yes => absurd yes no⟩

/-- Each check accepts the texts that are well-formed in its encoding. -/
theorem checks_exact :
    (∀ str : List UInt8, (u8Check (str.map UInt8.toNat)).isSome ↔ Utf8 (str.map UInt8.toNat)) ∧
      (∀ str : List UInt16,
        (u16Check (str.map UInt16.toNat)).isSome ↔ Utf16 (str.map UInt16.toNat)) ∧
      ∀ str : List UInt32, (u32Check (str.map UInt32.toNat)).isSome ↔
        ∀ u ∈ str.map UInt32.toNat, Scalar u := by
  refine ⟨fun str => isSome_iff (u8Check_eq _ fun b inside => ?_),
    fun str => isSome_iff (u16Check_eq _), fun str => isSome_iff (u32Check_eq _)⟩
  obtain ⟨u, _, rfl⟩ := mem_map.mp inside
  exact u.toNat_lt

end Micron.Unicode
