import Micron.Io.Lines

/-!
# Decoding MFR1

`unframe_from` reads a value back from framed bytes that may be anything.  A target type is
a tree of leaves, strings and containers, and every container starts with a count that the
bytes declare.  A container may refuse an element: `svector::push_back` raises when the
vector is full, `robin_map::insert` at its load limit, and in a `noexcept` function that
ends the program.  A run counts its steps: the calls for an element, and the rounds of the
loops over characters and plain elements.
-/

set_option autoImplicit false

namespace Micron.Io

open List Nat

/-- What `src` points to; no object has 2 ^ 63 bytes. -/
structure Input where
  data : List Byte
  fits : data.length < 2 ^ 63

def Input.len (src : Input) : Nat := src.data.length

structure Size where
  bytes : Nat
  positive : 0 < bytes
  fits : bytes < 2 ^ 63

/-- What was handed to the containers, in order. -/
inductive Value where
  | raw (bytes : List Byte)
  | cells (elems : List (List Byte))
  | seq (elems : List Value)
  | pairs (entries : List (Value × Value))

inductive Sink where
  | settable
  | pushable (takes : Nat → Bool)
  | fixed (size : Nat)

/-- `reserves n` says whether `reserve(n)` returns, and `takes stored v` whether `push_back`
or `insert` of `v` does after those of `stored`. -/
inductive Target where
  | leaf (size : Size)
  | string (char : Size) (reserves : Nat → Bool)
  | blit (elem : Size) (reserves : Nat → Bool) (sink : Sink)
  | nodes (elem : Target) (takes : List Value → Value → Bool)
  | map (key value : Target) (takes : List (Value × Value) → Value × Value → Bool)
  | iterable (elem : Target) (takes : List Value → Value → Bool)

/-- `outside` stands for a read that is not inside the bytes, `raised` for a refusal of a
container.  Every error is `-error::invalid_arg`. -/
inductive Result (α : Type) where
  | outside
  | raised
  | error
  | done (off : Nat) (value : α)

structure Run (α : Type) where
  steps : Nat
  result : Result α

section Runs
variable {α β : Type}

def Run.bind (r : Run α) (f : Nat → α → Run β) : Run β :=
  match r.result with
  | .outside => ⟨r.steps, .outside⟩
  | .raised => ⟨r.steps, .raised⟩
  | .error => ⟨r.steps, .error⟩
  | .done off v => ⟨r.steps + (f off v).steps, (f off v).result⟩

def Run.map (f : α → β) (r : Run α) : Run β := r.bind fun off v => ⟨0, .done off (f v)⟩

theorem Run.bind_result {r : Run α} {f : Nat → α → Run β} {off : Nat} {v : α}
    (done : r.result = .done off v) : (r.bind f).result = (f off v).result := by
  rw [Run.bind, done]

theorem Run.bind_error {r : Run α} {f : Nat → α → Run β} (failed : r.result = .error) :
    (r.bind f).result = .error := by
  rw [Run.bind, failed]

theorem Run.bind_raised {r : Run α} {f : Nat → α → Run β} (refused : r.result = .raised) :
    (r.bind f).result = .raised := by
  rw [Run.bind, refused]

theorem Run.bind_done {r : Run α} {f : Nat → α → Run β} {off : Nat} {w : β}
    (done : (r.bind f).result = .done off w) :
    ∃ off' v, r.result = .done off' v ∧ (f off' v).result = .done off w := by
  unfold Run.bind at done
  split at done
  next => cases done
  next => cases done
  next => cases done
  next off' v equal => exact ⟨off', v, equal, done⟩

theorem Run.raised_of_bind {r : Run α} {f : Nat → α → Run β}
    (raised : (r.bind f).result = .raised) :
    r.result = .raised ∨ ∃ off v, r.result = .done off v ∧ (f off v).result = .raised := by
  unfold Run.bind at raised
  split at raised
  next => cases raised
  next equal => exact .inl equal
  next => cases raised
  next off v equal => exact .inr ⟨off, v, equal, raised⟩

theorem Run.map_raised {f : α → β} {r : Run α} :
    (r.map f).result = .raised ↔ r.result = .raised := by
  refine ⟨fun raised => ?_, Run.bind_raised⟩
  rcases Run.raised_of_bind raised with refused | ⟨_, _, _, done⟩
  · exact refused
  · cases done

theorem Run.map_done {f : α → β} {r : Run α} {off : Nat} {v : α} (done : r.result = .done off v) :
    (r.map f).result = .done off (f v) := by
  rw [Run.map, Run.bind_result done]

end Runs

def wrap (x : Nat) : Nat := x % 2 ^ 64

def load (src : Input) (off n : Nat) : Option (List Byte) :=
  if off + n ≤ src.len then some (slice src.data off n) else none

def getBytes (src : Input) (off n : Nat) : Result (List Byte) :=
  if wrap (off + n) > src.len then .error
  else match load src off n with
    | none => .outside
    | some bytes => .done (wrap (off + n)) bytes

def native (little : Bool) (bytes : List Byte) : Nat :=
  if little then bytes.foldr (fun b rest => b.toNat + 256 * rest) 0
  else bytes.foldl (fun rest b => 256 * rest + b.toNat) 0

/-- `__get_u64`, at the start of an element. -/
def getU64 (little : Bool) (src : Input) (off : Nat) : Run Nat :=
  Run.map (native little) ⟨1, getBytes src off 8⟩

/-- `__get_bytes` where the result is ignored: the target stays as it was. -/
def getIgnored (src : Input) (off n : Nat) : Result (List Byte) :=
  match getBytes src off n with
  | .error => .done off (List.replicate n 0)
  | result => result

def readEach (src : Input) (size : Nat) (takes : Nat → Bool) :
    Nat → Nat → Nat → Run (List (List Byte))
  | _, 0, off => ⟨0, .done off []⟩
  | i, cnt + 1, off =>
    Run.bind ⟨1, getIgnored src off size⟩ fun off v =>
      if takes i then (readEach src size takes (i + 1) cnt off).map (v :: ·) else ⟨0, .raised⟩

def remaining (src : Input) (off : Nat) : Nat := wrap (src.len + (2 ^ 64 - off))

def unframeString (little : Bool) (src : Input) (char : Size) (reserves : Nat → Bool)
    (off : Nat) : Run Value :=
  (getU64 little src off).bind fun off blen =>
    if blen > remaining src off then ⟨0, .error⟩
    else
      let elems := blen / char.bytes
      if reserves (elems + 1) then
        (readEach src char.bytes (fun _ => true) 0 elems off).bind fun off chars =>
          ⟨0, .done (wrap (off + (blen - elems * char.bytes))) (.cells chars)⟩
      else ⟨0, .raised⟩

def unframeBlit (little : Bool) (src : Input) (elem : Size) (reserves : Nat → Bool)
    (sink : Sink) (off : Nat) : Run Value :=
  (getU64 little src off).bind fun off cnt =>
    if cnt > remaining src off / elem.bytes then ⟨0, .error⟩
    else if reserves (cnt + 1) then
      match sink with
      | .settable => Run.map Value.raw ⟨0, getBytes src off (wrap (cnt * elem.bytes))⟩
      | .pushable takes => (readEach src elem.bytes takes 0 cnt off).map .cells
      | .fixed size =>
        (readEach src elem.bytes (fun _ => true) 0 (min cnt size) off).bind fun off elems =>
          ⟨0, .done (wrap (off + wrap ((cnt - min cnt size) * elem.bytes))) (.cells elems)⟩
    else ⟨0, .raised⟩

def unframeMany {α : Type} (element : Nat → Run α) (takes : List α → α → Bool) :
    List α → Nat → Nat → Run (List α)
  | stored, 0, off => ⟨0, .done off stored⟩
  | stored, cnt + 1, off =>
    (element off).bind fun off v =>
      if takes stored v then unframeMany element takes (stored ++ [v]) cnt off else ⟨0, .raised⟩

def unframePair {α β : Type} (key : Nat → Run α) (value : Nat → Run β) (off : Nat) : Run (α × β) :=
  (key off).bind fun off k => (value off).map (k, ·)

def unframeElement (little : Bool) (src : Input) : Target → Nat → Run Value
  | .leaf size, off => Run.map Value.raw ⟨1, getBytes src off size.bytes⟩
  | .string char reserves, off => unframeString little src char reserves off
  | .blit elem reserves sink, off => unframeBlit little src elem reserves sink off
  | .nodes elem takes, off =>
    (getU64 little src off).bind fun off cnt =>
      (unframeMany (unframeElement little src elem) takes [] cnt off).map .seq
  | .map key value takes, off =>
    (getU64 little src off).bind fun off cnt =>
      (unframeMany (unframePair (unframeElement little src key) (unframeElement little src value))
        takes [] cnt off).map .pairs
  | .iterable elem takes, off =>
    (getU64 little src off).bind fun off cnt =>
      (unframeMany (unframeElement little src elem) takes [] cnt off).map .seq

def mfrHeader : Nat := 8

def mfrMagic : List Byte := [0x4D, 0x46, 0x52, 0x31]

/-- On a machine that is little-endian or not; `none` is a null pointer. -/
def unframeFrom (little : Bool) (target : Target) : Option Input → Run Value
  | none => ⟨0, .error⟩
  | some src =>
    if src.len < mfrHeader then ⟨0, .error⟩
    else match load src 0 5 with
      | none => ⟨0, .outside⟩
      | some head =>
        if head.take 4 ≠ mfrMagic then ⟨0, .error⟩
        else if decide (head[4]? ≠ some 0) ≠ little then ⟨0, .error⟩
        else unframeElement little src target mfrHeader

def Counted (little : Bool) (src : Input) (off n : Nat) : Prop :=
  off + 8 ≤ src.len ∧ native little (slice src.data off 8) = n

def cellsAt (src : Input) (off size : Nat) : Nat → List (List Byte)
  | 0 => []
  | n + 1 => slice src.data off size :: cellsAt src (off + size) size n

section Reads
variable {src : Input} {little : Bool} {off : Nat}

theorem getBytes_eq {n : Nat} (le : off ≤ src.len) (small : n < 2 ^ 63) :
    getBytes src off n =
      if off + n ≤ src.len then .done (off + n) (slice src.data off n) else .error := by
  have bound : src.len < 2 ^ 63 := src.fits
  have same : wrap (off + n) = off + n := mod_eq_of_lt (by omega)
  rw [getBytes, same, load]
  by_cases inside : off + n ≤ src.len
  · rw [if_neg (by omega), if_pos inside, if_pos inside]
  · rw [if_pos (by omega), if_neg inside]

theorem getU64_result (le : off ≤ src.len) :
    (getU64 little src off).result =
      if off + 8 ≤ src.len then .done (off + 8) (native little (slice src.data off 8))
      else .error := by
  rw [getU64, getBytes_eq le (by decide)]
  split
  next => rfl
  next => rfl

theorem getU64_done (le : off ≤ src.len) {off' n : Nat} :
    (getU64 little src off).result = .done off' n ↔ off' = off + 8 ∧ Counted little src off n := by
  rw [getU64_result le]
  by_cases room : off + 8 ≤ src.len
  · rw [if_pos room]
    constructor
    · rintro ⟨⟩
      exact ⟨rfl, room, rfl⟩
    · rintro ⟨rfl, -, rfl⟩
      rfl
  · rw [if_neg room]
    exact ⟨nofun, fun counted => absurd counted.2.1 room⟩

theorem getU64_not_raised (le : off ≤ src.len) : (getU64 little src off).result ≠ .raised := by
  rw [getU64_result le]
  split
  next => exact nofun
  next => exact nofun

theorem remaining_eq (le : off ≤ src.len) : remaining src off = src.len - off := by
  have bound : src.len < 2 ^ 63 := src.fits
  unfold remaining wrap
  omega

/-- The reads whose result is ignored do not fail where the bytes have been counted before. -/
theorem readEach_taken {size cnt i : Nat} {takes : Nat → Bool} (small : size < 2 ^ 63)
    (within : off + cnt * size ≤ src.len) (taken : ∀ j, i ≤ j → j < i + cnt → takes j = true) :
    readEach src size takes i cnt off = ⟨cnt, .done (off + cnt * size) (cellsAt src off size cnt)⟩ := by
  induction cnt generalizing i off with
  | zero => rw [readEach, zero_mul, add_zero, cellsAt]
  | succ cnt ih =>
    rw [succ_mul] at within
    have first : getIgnored src off size = .done (off + size) (slice src.data off size) := by
      rw [getIgnored, getBytes_eq (by omega) small, if_pos (by omega)]
    have rest : readEach src size takes (i + 1) cnt (off + size) = _ :=
      ih (by omega) fun j ge lt => taken j (by omega) (by omega)
    rw [readEach, first, Run.bind]
    dsimp only
    rw [if_pos (taken i (le_refl i) (by omega)), rest, Run.map, Run.bind]
    dsimp only
    rw [cellsAt, succ_mul, show off + size + cnt * size = off + (cnt * size + size) by omega,
      add_zero, add_comm 1 cnt]

theorem readEach_refused {size cnt i j : Nat} {takes : Nat → Bool} (small : size < 2 ^ 63)
    (within : off + cnt * size ≤ src.len) (ge : i ≤ j) (lt : j < i + cnt) (refused : takes j = false) :
    ∃ steps ≤ cnt, readEach src size takes i cnt off = ⟨steps, .raised⟩ := by
  induction cnt generalizing i off with
  | zero => omega
  | succ cnt ih =>
    rw [succ_mul] at within
    have first : getIgnored src off size = .done (off + size) (slice src.data off size) := by
      rw [getIgnored, getBytes_eq (by omega) small, if_pos (by omega)]
    rw [readEach, first, Run.bind]
    dsimp only
    by_cases taken : takes i = true
    · have later : i ≠ j := by
        rintro rfl
        rw [taken] at refused
        cases refused
      obtain ⟨steps, few, rest⟩ : ∃ steps ≤ cnt,
          readEach src size takes (i + 1) cnt (off + size) = ⟨steps, .raised⟩ :=
        ih (by omega) (by omega) (by omega)
      refine ⟨1 + steps, by omega, ?_⟩
      rw [if_pos taken, rest, Run.map, Run.bind]
    · exact ⟨1 + 0, by omega, by rw [if_neg taken]⟩

end Reads

/-- A run from `off` on stays inside the bytes, takes at least `need` of them if it succeeds,
and makes no more steps than it takes bytes, but for one where it fails. -/
structure Sound {α : Type} (src : Input) (off need : Nat) (r : Run α) : Prop where
  inside : r.result ≠ .outside
  done : ∀ off' v, r.result = .done off' v →
    off + need ≤ off' ∧ off' ≤ src.len ∧ r.steps + off ≤ off'
  failed : r.result = .error → r.steps + off ≤ src.len + 1
  raised : r.result = .raised → r.steps + off ≤ src.len

section Sound
variable {α β : Type} {src : Input} {little : Bool} {off need need' : Nat}

theorem Sound.error (le : off ≤ src.len) : Sound src off need (⟨0, .error⟩ : Run α) :=
  ⟨nofun, nofun, (fun _ => by dsimp only; omega),
    nofun⟩

theorem Sound.refusal {steps : Nat} (le : steps + off ≤ src.len) :
    Sound src off need (⟨steps, .raised⟩ : Run α) :=
  ⟨nofun, nofun, nofun,
    fun _ => le⟩

theorem Sound.finish {steps off' : Nat} {v : α} (le : off + need ≤ off') (within : off' ≤ src.len)
    (few : steps + off ≤ off') : Sound src off need (⟨steps, .done off' v⟩ : Run α) := by
  refine ⟨nofun, ?_, nofun, nofun⟩
  rintro _ _ ⟨⟩
  exact ⟨le, within, few⟩

theorem Sound.weaken {r : Run α} (sound : Sound src off need r) (le : need' ≤ need) :
    Sound src off need' r :=
  ⟨sound.inside, fun off' v equal => by have := sound.done off' v equal; omega, sound.failed,
    sound.raised⟩

theorem Sound.bind {r : Run α} {f : Nat → α → Run β} (first : Sound src off need r)
    (second : ∀ off' v, r.result = .done off' v → off + need ≤ off' → off' ≤ src.len →
      Sound src off' need' (f off' v)) : Sound src off (need + need') (r.bind f) := by
  unfold Run.bind
  split
  next equal => exact absurd equal first.inside
  next equal => exact Sound.refusal (first.raised equal)
  next equal =>
    exact ⟨nofun, nofun,
      (fun _ => first.failed equal), nofun⟩
  next off' v equal =>
    obtain ⟨taken, within, steps⟩ := first.done off' v equal
    have rest := second off' v equal taken within
    refine ⟨rest.inside, ?_, ?_, ?_⟩
    · intro off'' w equal'
      have := rest.done off'' w equal'
      dsimp only at *
      omega
    · intro equal'
      have := rest.failed equal'
      dsimp only at *
      omega
    · intro equal'
      have := rest.raised equal'
      dsimp only at *
      omega

theorem Sound.map {r : Run α} {f : α → β} (sound : Sound src off need r) :
    Sound src off need (r.map f) := by
  have both : Sound src off (need + 0) (r.map f) :=
    sound.bind fun off' _ _ _ within => Sound.finish (le_refl _) within (by omega)
  exact both

theorem getBytes_sound {n steps : Nat} (le : off ≤ src.len) (small : n < 2 ^ 63) (few : steps ≤ 1)
    (enough : steps ≤ n) : Sound src off n ⟨steps, getBytes src off n⟩ := by
  rw [getBytes_eq le small]
  split
  next inside => exact Sound.finish (le_refl _) inside (by omega)
  next =>
    exact ⟨nofun, nofun,
      (fun _ => by dsimp only; omega), nofun⟩

theorem getU64_sound (le : off ≤ src.len) : Sound src off 8 (getU64 little src off) :=
  (getBytes_sound le (by decide) (le_refl 1) (by decide)).map

theorem readEach_sound {size cnt : Nat} {takes : Nat → Bool} (small : size < 2 ^ 63)
    (positive : 0 < size) (within : off + cnt * size ≤ src.len) :
    Sound src off 0 (readEach src size takes 0 cnt off) := by
  have each := Nat.le_mul_of_pos_right cnt positive
  by_cases taken : ∀ j, 0 ≤ j → j < 0 + cnt → takes j = true
  · rw [readEach_taken small within taken]
    exact Sound.finish (by omega) within (by omega)
  · simp only [not_forall] at taken
    obtain ⟨j, ge, lt, refused⟩ := taken
    obtain ⟨steps, few, equal⟩ := readEach_refused small within ge lt (eq_false_of_ne_true refused)
    rw [equal]
    exact Sound.refusal (by omega)

theorem unframeMany_sound {element : Nat → Run α} {takes : List α → α → Bool}
    (each : ∀ off ≤ src.len, Sound src off need (element off)) (cnt : Nat) (stored : List α)
    (le : off ≤ src.len) : Sound src off (cnt * need) (unframeMany element takes stored cnt off) := by
  induction cnt generalizing off stored with
  | zero => exact Sound.finish (by omega) le (by omega)
  | succ cnt ih =>
    rw [succ_mul, add_comm]
    refine (each off le).bind fun off' v _ _ within => ?_
    split
    next => exact ih _ within
    next => exact Sound.refusal (by omega)

theorem unframePair_sound {key : Nat → Run α} {value : Nat → Run β}
    (keys : ∀ off ≤ src.len, Sound src off need (key off))
    (values : ∀ off ≤ src.len, Sound src off need' (value off)) :
    ∀ off ≤ src.len, Sound src off (need + need') (unframePair key value off) :=
  fun off le => (keys off le).bind fun off' _ _ _ within => (values off' within).map

def minSize : Target → Nat
  | .leaf size => size.bytes
  | _ => 8

theorem unframeString_sound {char : Size} {reserves : Nat → Bool} (le : off ≤ src.len) :
    Sound src off (8 + 0) (unframeString little src char reserves off) := by
  refine (getU64_sound le).bind fun off' blen _ _ within => ?_
  have bound : src.len < 2 ^ 63 := src.fits
  rw [remaining_eq within]
  have whole := div_mul_le_self blen char.bytes
  split
  next => exact Sound.error within
  next fits =>
    dsimp only
    split
    next =>
      have all : off' + blen / char.bytes * char.bytes ≤ src.len := by omega
      refine (Sound.bind (readEach_sound char.fits char.positive all)
        fun off'' chars ended _ _ => ?_ : Sound src off' (0 + 0) _)
      rw [readEach_taken char.fits all fun _ _ _ => rfl] at ended
      obtain ⟨rfl, rfl⟩ := Result.done.inj ended
      have same : wrap (off' + blen / char.bytes * char.bytes +
          (blen - blen / char.bytes * char.bytes)) = off' + blen := by
        rw [wrap, mod_eq_of_lt (by omega)]
        omega
      exact Sound.finish (by omega) (by omega) (by omega)
    next => exact Sound.refusal (by omega)

theorem fixed_rest {size cnt : Nat} {elem : Size} (all : off + cnt * elem.bytes ≤ src.len) :
    wrap (off + min cnt size * elem.bytes + wrap ((cnt - min cnt size) * elem.bytes)) =
      off + cnt * elem.bytes := by
  have bound : src.len < 2 ^ 63 := src.fits
  have some : min cnt size * elem.bytes ≤ cnt * elem.bytes :=
    mul_le_mul_right _ (min_le_left _ _)
  have rest : (cnt - min cnt size) * elem.bytes = cnt * elem.bytes - min cnt size * elem.bytes :=
    Nat.sub_mul _ _ _
  unfold wrap
  omega

theorem unframeBlit_sound {elem : Size} {reserves : Nat → Bool} {sink : Sink} (le : off ≤ src.len) :
    Sound src off (8 + 0) (unframeBlit little src elem reserves sink off) := by
  refine (getU64_sound le).bind fun off' cnt _ _ within => ?_
  have bound : src.len < 2 ^ 63 := src.fits
  rw [remaining_eq within]
  split
  next => exact Sound.error within
  next fits =>
    have all : off' + cnt * elem.bytes ≤ src.len := by
      have := (Nat.le_div_iff_mul_le elem.positive).mp (Nat.le_of_not_lt fits)
      omega
    split
    next =>
      cases sink with
      | settable =>
        have same : wrap (cnt * elem.bytes) = cnt * elem.bytes := mod_eq_of_lt (by omega)
        exact ((getBytes_sound within (by omega) (by omega) (zero_le _)).weaken (zero_le _)).map
      | pushable takes => exact (readEach_sound elem.fits elem.positive all).map
      | fixed size =>
        have front : off' + min cnt size * elem.bytes ≤ src.len := by
          have := mul_le_mul_right elem.bytes (min_le_left cnt size)
          omega
        refine (Sound.bind (readEach_sound elem.fits elem.positive front)
          fun off'' elems ended _ _ => ?_ : Sound src off' (0 + 0) _)
        rw [readEach_taken elem.fits front fun _ _ _ => rfl] at ended
        obtain ⟨rfl, rfl⟩ := Result.done.inj ended
        have some : min cnt size * elem.bytes ≤ cnt * elem.bytes :=
          mul_le_mul_right _ (min_le_left _ _)
        rw [fixed_rest all]
        exact Sound.finish (by omega) (by omega) (by omega)
    next => exact Sound.refusal (by omega)

/-- Every element takes bytes of its own, so that no count makes a loop go on without end. -/
theorem unframeElement_sound (little : Bool) (src : Input) (target : Target) {off : Nat}
    (le : off ≤ src.len) : Sound src off (minSize target) (unframeElement little src target off) := by
  induction target generalizing off with
  | leaf size => exact (getBytes_sound le size.fits (le_refl 1) size.positive).map
  | string char reserves => exact unframeString_sound le
  | blit elem reserves sink => exact unframeBlit_sound le
  | nodes elem takes ih | iterable elem takes ih =>
    refine ((getU64_sound le).bind fun off' cnt _ _ within => ?_ : Sound src off (8 + 0) _)
    exact ((unframeMany_sound (fun _ => ih) cnt [] within).weaken (zero_le _)).map
  | map key value takes ih ih' =>
    refine ((getU64_sound le).bind fun off' cnt _ _ within => ?_ : Sound src off (8 + 0) _)
    exact ((unframeMany_sound (unframePair_sound (fun _ => ih) fun _ => ih') cnt [] within).weaken
      (zero_le _)).map

end Sound

/-! ## The grammar -/

def FramedAll {α : Type} (framed : Nat → Nat → α → Prop) : List α → Nat → Nat → Prop
  | [], off, off' => off' = off
  | v :: vs, off, off' => ∃ o, framed off o v ∧ FramedAll framed vs o off'

def FramedPair {α β : Type} (key : Nat → Nat → α → Prop) (value : Nat → Nat → β → Prop)
    (off off' : Nat) (v : α × β) : Prop :=
  ∃ o, key off o v.1 ∧ value o off' v.2

def Sink.stored (src : Input) (off size : Nat) (sink : Sink) (cnt : Nat) : Value :=
  match sink with
  | .settable => .raw (slice src.data off (cnt * size))
  | .pushable _ => .cells (cellsAt src off size cnt)
  | .fixed room => .cells (cellsAt src off size (min cnt room))

/-- The bytes from `off` to `off'` are those of an element, by the body grammar of MFR1. -/
def Frames (little : Bool) (src : Input) : Target → Nat → Nat → Value → Prop
  | .leaf size, off, off', v =>
    off' = off + size.bytes ∧ off' ≤ src.len ∧ v = .raw (slice src.data off size.bytes)
  | .string char _, off, off', v =>
    ∃ blen, Counted little src off blen ∧ off' = off + 8 + blen ∧ off' ≤ src.len ∧
      v = .cells (cellsAt src (off + 8) char.bytes (blen / char.bytes))
  | .blit elem _ sink, off, off', v =>
    ∃ cnt, Counted little src off cnt ∧ off' = off + 8 + cnt * elem.bytes ∧ off' ≤ src.len ∧
      v = sink.stored src (off + 8) elem.bytes cnt
  | .nodes elem _, off, off', v =>
    ∃ vs, Counted little src off vs.length ∧ FramedAll (Frames little src elem) vs (off + 8) off' ∧
      v = .seq vs
  | .map key value _, off, off', v =>
    ∃ vs, Counted little src off vs.length ∧
      FramedAll (FramedPair (Frames little src key) (Frames little src value)) vs (off + 8) off' ∧
      v = .pairs vs
  | .iterable elem _, off, off', v =>
    ∃ vs, Counted little src off vs.length ∧ FramedAll (Frames little src elem) vs (off + 8) off' ∧
      v = .seq vs

/-- Decoding one element comes to decoding another one inside it. -/
inductive Reaches (little : Bool) (src : Input) : Target → Nat → Target → Nat → Prop where
  | here (target : Target) (off : Nat) : Reaches little src target off target off
  | nodes {elem inner : Target} {takes : List Value → Value → Bool} {off cnt o o' : Nat}
      {vs : List Value} :
      Counted little src off cnt → vs.length < cnt →
      FramedAll (Frames little src elem) vs (off + 8) o →
      Reaches little src elem o inner o' → Reaches little src (.nodes elem takes) off inner o'
  | iterable {elem inner : Target} {takes : List Value → Value → Bool} {off cnt o o' : Nat}
      {vs : List Value} :
      Counted little src off cnt → vs.length < cnt →
      FramedAll (Frames little src elem) vs (off + 8) o →
      Reaches little src elem o inner o' → Reaches little src (.iterable elem takes) off inner o'
  | key {key value inner : Target} {takes : List (Value × Value) → Value × Value → Bool}
      {off cnt o o' : Nat} {vs : List (Value × Value)} :
      Counted little src off cnt → vs.length < cnt →
      FramedAll (FramedPair (Frames little src key) (Frames little src value)) vs (off + 8) o →
      Reaches little src key o inner o' → Reaches little src (.map key value takes) off inner o'
  | value {key value inner : Target} {takes : List (Value × Value) → Value × Value → Bool}
      {off cnt o o' p : Nat} {vs : List (Value × Value)} {k : Value} :
      Counted little src off cnt → vs.length < cnt →
      FramedAll (FramedPair (Frames little src key) (Frames little src value)) vs (off + 8) o →
      Frames little src key o p k →
      Reaches little src value p inner o' → Reaches little src (.map key value takes) off inner o'

def RefusesOne {α : Type} (framed : Nat → Nat → α → Prop) (takes : List α → α → Bool)
    (cnt off : Nat) : Prop :=
  ∃ vs v o o', vs.length < cnt ∧ FramedAll framed vs off o ∧ framed o o' v ∧ takes vs v = false

/-- The container at `off` refuses what the bytes give it. -/
def Refuses (little : Bool) (src : Input) : Target → Nat → Prop
  | .leaf _, _ => False
  | .string char reserves, off =>
    ∃ blen, Counted little src off blen ∧ off + 8 + blen ≤ src.len ∧
      reserves (blen / char.bytes + 1) = false
  | .blit elem reserves sink, off =>
    ∃ cnt, Counted little src off cnt ∧ off + 8 + cnt * elem.bytes ≤ src.len ∧
      (reserves (cnt + 1) = false ∨ ∃ takes, sink = .pushable takes ∧ ∃ i < cnt, takes i = false)
  | .nodes elem takes, off =>
    ∃ cnt, Counted little src off cnt ∧ RefusesOne (Frames little src elem) takes cnt (off + 8)
  | .map key value takes, off =>
    ∃ cnt, Counted little src off cnt ∧
      RefusesOne (FramedPair (Frames little src key) (Frames little src value)) takes cnt (off + 8)
  | .iterable elem takes, off =>
    ∃ cnt, Counted little src off cnt ∧ RefusesOne (Frames little src elem) takes cnt (off + 8)

/-- A run from `off` on reads what is framed there, unless a container refuses. -/
structure Decodes {α : Type} (src : Input) (framed : Nat → Nat → α → Prop) (off : Nat)
    (r : Run α) : Prop where
  sound : ∀ off' v, r.result = .done off' v → framed off off' v
  complete : ∀ off' v, framed off off' v →
    off' ≤ src.len ∧ (r.result = .raised ∨ r.result = .done off' v)

section Grammar
variable {α β : Type} {src : Input} {little : Bool} {off : Nat}

theorem Counted.inj {n n' : Nat} (counted : Counted little src off n)
    (counted' : Counted little src off n') : n = n' :=
  counted.2.symm.trans counted'.2

theorem Counted.bind {n : Nat} (counted : Counted little src off n) {f : Nat → Nat → Run β} :
    ((getU64 little src off).bind f).result = (f (off + 8) n).result :=
  Run.bind_result ((getU64_done (le_of_add_right_le counted.1)).mpr ⟨rfl, counted⟩)

theorem counted_of_done (le : off ≤ src.len) {f : Nat → Nat → Run β} {off' : Nat} {v : β}
    (done : ((getU64 little src off).bind f).result = .done off' v) :
    ∃ n, Counted little src off n ∧ (f (off + 8) n).result = .done off' v := by
  obtain ⟨o, n, number, rest⟩ := Run.bind_done done
  obtain ⟨rfl, counted⟩ := (getU64_done le).mp number
  exact ⟨n, counted, rest⟩

theorem counted_of_raised (le : off ≤ src.len) {f : Nat → Nat → Run β}
    (raised : ((getU64 little src off).bind f).result = .raised) :
    ∃ n, Counted little src off n ∧ (f (off + 8) n).result = .raised := by
  rcases Run.raised_of_bind raised with wrong | ⟨o, n, number, rest⟩
  · exact absurd wrong (getU64_not_raised le)
  · obtain ⟨rfl, counted⟩ := (getU64_done le).mp number
    exact ⟨n, counted, rest⟩

theorem unframeString_result {char : Size} {reserves : Nat → Bool} {blen : Nat}
    (counted : Counted little src off blen) :
    (unframeString little src char reserves off).result =
      if off + 8 + blen ≤ src.len then
        if reserves (blen / char.bytes + 1) then
          .done (off + 8 + blen) (.cells (cellsAt src (off + 8) char.bytes (blen / char.bytes)))
        else .raised
      else .error := by
  have bound : src.len < 2 ^ 63 := src.fits
  have room := counted.1
  have whole := div_mul_le_self blen char.bytes
  rw [unframeString, counted.bind, remaining_eq room]
  by_cases fits : off + 8 + blen ≤ src.len
  · rw [if_pos fits, if_neg (by omega)]
    dsimp only
    split
    next =>
      rw [readEach_taken char.fits (by omega) fun _ _ _ => rfl, Run.bind]
      dsimp only
      have same : wrap (off + 8 + blen / char.bytes * char.bytes +
          (blen - blen / char.bytes * char.bytes)) = off + 8 + blen := by
        rw [wrap, mod_eq_of_lt (by omega)]
        omega
      rw [same]
    next => rfl
  · rw [if_neg fits, if_pos (by omega)]

theorem unframeBlit_result {elem : Size} {reserves : Nat → Bool} {sink : Sink} {cnt : Nat}
    (counted : Counted little src off cnt) :
    (off + 8 + cnt * elem.bytes > src.len ∧
      (unframeBlit little src elem reserves sink off).result = .error) ∨
    (Refuses little src (.blit elem reserves sink) off ∧
      (unframeBlit little src elem reserves sink off).result = .raised) ∨
    (off + 8 + cnt * elem.bytes ≤ src.len ∧ ¬ Refuses little src (.blit elem reserves sink) off ∧
      (unframeBlit little src elem reserves sink off).result =
        .done (off + 8 + cnt * elem.bytes) (sink.stored src (off + 8) elem.bytes cnt)) := by
  have bound : src.len < 2 ^ 63 := src.fits
  have room := counted.1
  rw [unframeBlit, counted.bind, remaining_eq room]
  by_cases fits : off + 8 + cnt * elem.bytes ≤ src.len
  · have count : ¬ cnt > (src.len - (off + 8)) / elem.bytes :=
      not_lt.mpr ((le_div_iff_mul_le elem.positive).mpr (by omega))
    rw [if_neg count]
    by_cases reserved : reserves (cnt + 1) = true
    · rw [if_pos reserved]
      have unreserved : reserves (cnt + 1) ≠ false := fun wrong => by rw [reserved] at wrong; cases wrong
      cases sink with
      | settable =>
        refine .inr (.inr ⟨fits, ?_, ?_⟩)
        · rintro ⟨_, counted', -, wrong | ⟨_, wrong, _⟩⟩
          · exact unreserved (counted.inj counted' ▸ wrong)
          · cases wrong
        · have same : wrap (cnt * elem.bytes) = cnt * elem.bytes := mod_eq_of_lt (by omega)
          rw [same, getBytes_eq room (by omega), if_pos fits]
          rfl
      | pushable takes =>
        by_cases taken : ∀ i < cnt, takes i = true
        · refine .inr (.inr ⟨fits, ?_, ?_⟩)
          · rintro ⟨_, counted', -, wrong | ⟨_, ⟨⟩, i, lt, refused⟩⟩
            · exact unreserved (counted.inj counted' ▸ wrong)
            · rw [taken i (counted.inj counted' ▸ lt)] at refused
              cases refused
          · dsimp only
            rw [readEach_taken elem.fits fits fun j _ lt => taken j (by omega)]
            rfl
        · simp only [not_forall] at taken
          obtain ⟨i, lt, refused⟩ := taken
          have refused := eq_false_of_ne_true refused
          obtain ⟨steps, -, equal⟩ :=
            readEach_refused elem.fits fits (zero_le i) (by omega) refused
          refine .inr (.inl ⟨⟨cnt, counted, fits, .inr ⟨takes, rfl, i, lt, refused⟩⟩, ?_⟩)
          dsimp only
          rw [equal]
          rfl
      | fixed size =>
        refine .inr (.inr ⟨fits, ?_, ?_⟩)
        · rintro ⟨_, counted', -, wrong | ⟨_, wrong, _⟩⟩
          · exact unreserved (counted.inj counted' ▸ wrong)
          · cases wrong
        · have front : off + 8 + min cnt size * elem.bytes ≤ src.len := by
            have := mul_le_mul_right elem.bytes (min_le_left cnt size)
            omega
          dsimp only
          rw [readEach_taken elem.fits front fun _ _ _ => rfl, Run.bind]
          dsimp only
          rw [fixed_rest fits]
          rfl
    · rw [if_neg reserved]
      exact .inr (.inl
        ⟨⟨cnt, counted, fits, .inl (eq_false_of_ne_true reserved)⟩, rfl⟩)
  · refine .inl ⟨Nat.lt_of_not_le fits, ?_⟩
    have count : cnt > (src.len - (off + 8)) / elem.bytes :=
      (div_lt_iff_lt_mul elem.positive).mpr (by omega)
    rw [if_pos count]

section Many
variable {element : Nat → Run α} {framed : Nat → Nat → α → Prop} {takes : List α → α → Bool}

theorem unframeMany_done (each : ∀ o ≤ src.len, Decodes src framed o (element o)) {cnt off' : Nat}
    {stored all : List α} (le : off ≤ src.len)
    (done : (unframeMany element takes stored cnt off).result = .done off' all) :
    ∃ vs, all = stored ++ vs ∧ vs.length = cnt ∧ FramedAll framed vs off off' := by
  induction cnt generalizing off stored with
  | zero =>
    obtain ⟨rfl, rfl⟩ := Result.done.inj done
    exact ⟨[], (append_nil _).symm, rfl, rfl⟩
  | succ cnt ih =>
    obtain ⟨o, v, first, rest⟩ := Run.bind_done done
    have here := (each off le).sound o v first
    split at rest
    next =>
      obtain ⟨vs, rfl, length, more⟩ := ih ((each off le).complete o v here).1 rest
      exact ⟨v :: vs, by simp, by simp [length], o, here, more⟩
    next => cases rest

/-- After framed elements the loop goes on behind them, unless a container refused. -/
theorem unframeMany_passes (each : ∀ o ≤ src.len, Decodes src framed o (element o)) {cnt o : Nat}
    {stored vs : List α} (le : off ≤ src.len) (front : FramedAll framed vs off o)
    (few : vs.length ≤ cnt) :
    o ≤ src.len ∧ ((unframeMany element takes stored cnt off).result = .raised ∨
      (unframeMany element takes stored cnt off).result =
        (unframeMany element takes (stored ++ vs) (cnt - vs.length) o).result) := by
  induction vs generalizing off stored cnt with
  | nil =>
    cases front
    exact ⟨le, .inr (by rw [append_nil, length_nil, Nat.sub_zero])⟩
  | cons v vs ih =>
    obtain ⟨p, here, more⟩ := front
    rw [length_cons] at few
    obtain ⟨rest, rfl⟩ := exists_eq_succ_of_ne_zero (by omega : cnt ≠ 0)
    obtain ⟨within, first⟩ := (each off le).complete p v here
    obtain ⟨inside, behind⟩ :=
      @ih _ rest (stored ++ [v]) within more (by omega : vs.length ≤ rest)
    refine ⟨inside, ?_⟩
    rw [unframeMany]
    rcases first with raised | done
    · exact .inl (Run.bind_raised raised)
    · rw [Run.bind_result done]
      split
      next =>
        rw [append_assoc, singleton_append] at behind
        rw [length_cons, succ_sub_succ]
        exact behind
      next => exact .inl rfl

theorem unframeMany_raised (each : ∀ o ≤ src.len, Decodes src framed o (element o)) {cnt : Nat}
    {stored : List α} (le : off ≤ src.len)
    (raised : (unframeMany element takes stored cnt off).result = .raised) :
    ∃ vs o, vs.length < cnt ∧ FramedAll framed vs off o ∧ o ≤ src.len ∧
      ((element o).result = .raised ∨ ∃ o' v, framed o o' v ∧ takes (stored ++ vs) v = false) := by
  induction cnt generalizing off stored with
  | zero => cases raised
  | succ cnt ih =>
    rcases Run.raised_of_bind raised with first | ⟨o, v, first, rest⟩
    · exact ⟨[], off, succ_pos cnt, rfl, le, .inl first⟩
    · have here := (each off le).sound o v first
      split at rest
      next =>
        obtain ⟨vs, p, few, more, inside, refused⟩ := ih ((each off le).complete o v here).1 rest
        refine ⟨v :: vs, p, by simpa using few, ⟨o, here, more⟩, inside, ?_⟩
        rwa [append_assoc, singleton_append] at refused
      next refused =>
        exact ⟨[], off, succ_pos cnt, rfl, le,
          .inr ⟨o, v, here, by rw [append_nil]; exact eq_false_of_ne_true refused⟩⟩

theorem unframeMany_refused (each : ∀ o ≤ src.len, Decodes src framed o (element o)) {cnt : Nat}
    (le : off ≤ src.len) (refuses : RefusesOne framed takes cnt off) :
    (unframeMany element takes [] cnt off).result = .raised := by
  obtain ⟨vs, v, o, o', few, front, here, refused⟩ := refuses
  obtain ⟨inside, raised | behind⟩ :=
    @unframeMany_passes _ _ _ element framed takes each cnt o [] vs le front (le_of_lt few)
  · exact raised
  · obtain ⟨rest, more⟩ := exists_eq_succ_of_ne_zero (by omega : cnt - vs.length ≠ 0)
    rw [behind, more, unframeMany, nil_append]
    rcases ((each o inside).complete o' v here).2 with raised | done
    · exact Run.bind_raised raised
    · rw [Run.bind_result done, if_neg (by rw [refused]; exact Bool.false_ne_true)]

theorem unframePair_decodes {key : Nat → Run α} {value : Nat → Run β}
    {keyFramed : Nat → Nat → α → Prop} {valueFramed : Nat → Nat → β → Prop}
    (keys : ∀ o ≤ src.len, Decodes src keyFramed o (key o))
    (values : ∀ o ≤ src.len, Decodes src valueFramed o (value o)) :
    ∀ o ≤ src.len, Decodes src (FramedPair keyFramed valueFramed) o (unframePair key value o) := by
  refine fun o le => ⟨fun off' v done => ?_, fun off' v framed => ?_⟩
  · obtain ⟨p, k, first, rest⟩ := Run.bind_done done
    have here := (keys o le).sound p k first
    obtain ⟨q, w, second, equal⟩ := Run.bind_done rest
    obtain ⟨rfl, rfl⟩ := Result.done.inj equal
    exact ⟨p, here, (values p ((keys o le).complete p k here).1).sound q w second⟩
  · obtain ⟨p, first, second⟩ := framed
    obtain ⟨within, raised | done⟩ := (keys o le).complete p v.1 first
    all_goals obtain ⟨inside, more⟩ := (values p within).complete off' v.2 second
    · exact ⟨inside, .inl (Run.bind_raised raised)⟩
    · refine ⟨inside, ?_⟩
      rw [unframePair, Run.bind_result done]
      exact more.imp Run.map_raised.mpr Run.map_done

end Many

/-- Under the loop of a container, what is framed decodes. -/
theorem unframeMany_decodes {element : Nat → Run α} {framed : Nat → Nat → α → Prop}
    {takes : List α → α → Bool} {wrapped : List α → Value}
    (each : ∀ o ≤ src.len, Decodes src framed o (element o)) (le : off ≤ src.len) :
    Decodes src (fun off off' v => ∃ vs, Counted little src off vs.length ∧
        FramedAll framed vs (off + 8) off' ∧ v = wrapped vs) off
      ((getU64 little src off).bind fun off cnt =>
        (unframeMany element takes [] cnt off).map wrapped) := by
  refine ⟨fun off' v done => ?_, ?_⟩
  · obtain ⟨cnt, counted, rest⟩ := counted_of_done le done
    obtain ⟨o, all, many, equal⟩ := Run.bind_done rest
    obtain ⟨rfl, rfl⟩ := Result.done.inj equal
    obtain ⟨vs, rfl, rfl, front⟩ := unframeMany_done each counted.1 many
    exact ⟨_, counted, front, rfl⟩
  · rintro off' v ⟨vs, counted, front, rfl⟩
    obtain ⟨inside, passed⟩ :=
      @unframeMany_passes _ _ _ element framed takes each vs.length off' [] vs counted.1 front
        (le_refl _)
    refine ⟨inside, ?_⟩
    rw [counted.bind]
    rw [Nat.sub_self] at passed
    exact passed.imp Run.map_raised.mpr Run.map_done

theorem unframeElement_decodes (little : Bool) (src : Input) (target : Target) :
    ∀ off ≤ src.len, Decodes src (Frames little src target) off
      (unframeElement little src target off) := by
  induction target with
  | leaf size =>
    intro off le
    have result : (unframeElement little src (.leaf size) off).result =
        if off + size.bytes ≤ src.len then
          .done (off + size.bytes) (.raw (slice src.data off size.bytes)) else .error := by
      rw [unframeElement, getBytes_eq le size.fits]
      split
      next => rfl
      next => rfl
    refine ⟨fun off' v done => ?_, ?_⟩
    · rw [result] at done
      split at done
      next inside =>
        obtain ⟨rfl, rfl⟩ := Result.done.inj done
        exact ⟨rfl, inside, rfl⟩
      next => cases done
    · rintro off' v ⟨rfl, inside, rfl⟩
      exact ⟨inside, .inr (by rw [result, if_pos inside])⟩
  | string char reserves =>
    refine fun off le => ⟨fun off' v done => ?_, ?_⟩
    · obtain ⟨blen, counted, -⟩ := counted_of_done le done
      rw [unframeElement, unframeString_result counted] at done
      split at done
      next fits =>
        split at done
        next =>
          obtain ⟨rfl, rfl⟩ := Result.done.inj done
          exact ⟨blen, counted, rfl, fits, rfl⟩
        next => cases done
      next => cases done
    · rintro off' v ⟨blen, counted, rfl, fits, rfl⟩
      refine ⟨fits, ?_⟩
      rw [unframeElement, unframeString_result counted, if_pos fits]
      split
      next => exact .inr rfl
      next => exact .inl rfl
  | blit elem reserves sink =>
    refine fun off le => ⟨fun off' v done => ?_, ?_⟩
    · obtain ⟨cnt, counted, -⟩ := counted_of_done le done
      rw [unframeElement] at done
      rcases unframeBlit_result counted with ⟨-, result⟩ | ⟨-, result⟩ | ⟨fits, -, result⟩
      all_goals rw [result] at done
      · cases done
      · cases done
      · obtain ⟨rfl, rfl⟩ := Result.done.inj done
        exact ⟨cnt, counted, rfl, fits, rfl⟩
    · rintro off' v ⟨cnt, counted, rfl, fits, rfl⟩
      refine ⟨fits, ?_⟩
      rcases unframeBlit_result counted with ⟨less, -⟩ | ⟨-, result⟩ | ⟨-, -, result⟩
      · exact absurd fits (Nat.not_le_of_lt less)
      · exact .inl result
      · exact .inr result
  | nodes elem takes ih | iterable elem takes ih =>
    exact fun off le => unframeMany_decodes ih le
  | map key value takes ih ih' =>
    exact fun off le => unframeMany_decodes (unframePair_decodes ih ih') le

theorem refuses_raised {target : Target} (refuses : Refuses little src target off) :
    (unframeElement little src target off).result = .raised := by
  have each := unframeElement_decodes little src
  cases target with
  | leaf size => exact refuses.elim
  | string char reserves =>
    obtain ⟨blen, counted, fits, refused⟩ := refuses
    rw [unframeElement, unframeString_result counted, if_pos fits, if_neg]
    exact ne_true_of_eq_false refused
  | blit elem reserves sink =>
    obtain ⟨cnt, counted, fits, _⟩ := id refuses
    rcases unframeBlit_result counted with ⟨less, -⟩ | ⟨-, result⟩ | ⟨-, kept, -⟩
    · exact absurd fits (Nat.not_le_of_lt less)
    · exact result
    · exact absurd refuses kept
  | nodes elem takes | iterable elem takes =>
    obtain ⟨cnt, counted, one⟩ := refuses
    rw [unframeElement, counted.bind, Run.map_raised]
    exact unframeMany_refused (each elem) counted.1 one
  | map key value takes =>
    obtain ⟨cnt, counted, one⟩ := refuses
    rw [unframeElement, counted.bind, Run.map_raised]
    exact unframeMany_refused (unframePair_decodes (each key) (each value)) counted.1 one

/-- What stops the element at `o` stops the loop that comes to it. -/
theorem unframeMany_stops {element : Nat → Run α} {framed : Nat → Nat → α → Prop}
    {takes : List α → α → Bool} {cnt o : Nat} {vs : List α}
    (each : ∀ o ≤ src.len, Decodes src framed o (element o)) (le : off ≤ src.len)
    (few : vs.length < cnt) (front : FramedAll framed vs off o) :
    o ≤ src.len ∧
      ((element o).result = .raised → (unframeMany element takes [] cnt off).result = .raised) ∧
      ((element o).result = .error → (unframeMany element takes [] cnt off).result = .raised ∨
        (unframeMany element takes [] cnt off).result = .error) := by
  obtain ⟨inside, passed⟩ :=
    @unframeMany_passes _ _ _ element framed takes each cnt o [] vs le front (le_of_lt few)
  obtain ⟨rest, more⟩ := exists_eq_succ_of_ne_zero (by omega : cnt - vs.length ≠ 0)
  refine ⟨inside, fun raised => ?_, fun failed => ?_⟩
  · rcases passed with earlier | behind
    · exact earlier
    · rw [behind, more, unframeMany]
      exact Run.bind_raised raised
  · rcases passed with earlier | behind
    · exact .inl earlier
    · rw [behind, more, unframeMany]
      exact .inr (Run.bind_error failed)

/-- What stops an inner element stops the outer one, unless a container refused before. -/
theorem reaches_stops {target inner : Target} {o : Nat}
    (reaches : Reaches little src target off inner o) (le : off ≤ src.len) :
    o ≤ src.len ∧
      ((unframeElement little src inner o).result = .raised →
        (unframeElement little src target off).result = .raised) ∧
      ((unframeElement little src inner o).result = .error →
        (unframeElement little src target off).result = .raised ∨
          (unframeElement little src target off).result = .error) := by
  have each := unframeElement_decodes little src
  induction reaches with
  | here => exact ⟨le, id, .inr⟩
  | nodes counted less front _ ih | iterable counted less front _ ih =>
    obtain ⟨inside, raises, fails⟩ := unframeMany_stops (each _) counted.1 less front
    obtain ⟨within, raised, failed⟩ := ih inside
    refine ⟨within, fun stop => ?_, fun stop => ?_⟩
    · rw [unframeElement, counted.bind, Run.map_raised]
      exact raises (raised stop)
    · rw [unframeElement, counted.bind, Run.map_raised]
      rcases failed stop with refused | wrong
      · exact .inl (raises refused)
      · exact (fails wrong).imp_right Run.bind_error
  | key counted less front _ ih =>
    obtain ⟨inside, raises, fails⟩ :=
      unframeMany_stops (unframePair_decodes (each _) (each _)) counted.1 less front
    obtain ⟨within, raised, failed⟩ := ih inside
    refine ⟨within, fun stop => ?_, fun stop => ?_⟩
    · rw [unframeElement, counted.bind, Run.map_raised]
      exact raises (Run.bind_raised (raised stop))
    · rw [unframeElement, counted.bind, Run.map_raised]
      rcases failed stop with refused | wrong
      · exact .inl (raises (Run.bind_raised refused))
      · exact (fails (Run.bind_error wrong)).imp_right Run.bind_error
  | @value key value inner takes off cnt o o' p vs k counted less front first _ ih =>
    obtain ⟨inside, raises, fails⟩ :=
      unframeMany_stops (unframePair_decodes (each key) (each value)) counted.1 less front
    obtain ⟨behind, read⟩ := (each key o inside).complete p k first
    obtain ⟨within, raised, failed⟩ := ih behind
    rw [unframePair] at raises fails
    rcases read with refused | done
    · have stopped := raises (Run.bind_raised refused)
      rw [unframeElement, counted.bind, Run.map_raised]
      exact ⟨within, fun _ => stopped, fun _ => .inl stopped⟩
    rw [Run.bind_result done] at raises fails
    refine ⟨within, fun stop => ?_, fun stop => ?_⟩
    · rw [unframeElement, counted.bind, Run.map_raised]
      exact raises (Run.map_raised.mpr (raised stop))
    · rw [unframeElement, counted.bind, Run.map_raised]
      rcases failed stop with refused | wrong
      · exact .inl (raises (Run.map_raised.mpr refused))
      · exact (fails (Run.bind_error wrong)).imp_right Run.bind_error

/-- Decoding raises if and only if it comes to a container that refuses what the bytes give
it. -/
theorem raised_iff (little : Bool) (src : Input) (target : Target) {off : Nat} (le : off ≤ src.len) :
    (unframeElement little src target off).result = .raised ↔
      ∃ inner o, Reaches little src target off inner o ∧ Refuses little src inner o := by
  have each := unframeElement_decodes little src
  refine ⟨fun raised => ?_, ?_⟩
  · induction target generalizing off with
    | leaf size =>
      rw [unframeElement, getBytes_eq le size.fits, Run.map_raised] at raised
      split at raised
      next => cases raised
      next => cases raised
    | string char reserves =>
      obtain ⟨blen, counted, -⟩ := counted_of_raised le raised
      refine ⟨_, off, .here _ _, blen, counted, ?_⟩
      rw [unframeElement, unframeString_result counted] at raised
      split at raised
      next fits =>
        split at raised
        next => cases raised
        next refused => exact ⟨fits, eq_false_of_ne_true refused⟩
      next => cases raised
    | blit elem reserves sink =>
      obtain ⟨cnt, counted, -⟩ := counted_of_raised le raised
      rw [unframeElement] at raised
      rcases unframeBlit_result counted with ⟨-, result⟩ | ⟨refuses, -⟩ | ⟨-, -, result⟩
      · rw [result] at raised
        cases raised
      · exact ⟨_, off, .here _ _, refuses⟩
      · rw [result] at raised
        cases raised
    | nodes elem takes ih =>
      obtain ⟨cnt, counted, rest⟩ := counted_of_raised le raised
      obtain ⟨vs, o, few, front, inside, inner | ⟨o', v, here, refused⟩⟩ :=
        unframeMany_raised (each elem) counted.1 (Run.map_raised.mp rest)
      · obtain ⟨target, p, reaches, refuses⟩ := ih inside inner
        exact ⟨target, p, .nodes counted few front reaches, refuses⟩
      · exact ⟨_, off, .here _ _, cnt, counted, vs, v, o, o', few, front, here, refused⟩
    | map key value takes ih ih' =>
      obtain ⟨cnt, counted, rest⟩ := counted_of_raised le raised
      obtain ⟨vs, o, few, front, inside, inner | ⟨o', v, here, refused⟩⟩ :=
        unframeMany_raised (unframePair_decodes (each key) (each value)) counted.1
          (Run.map_raised.mp rest)
      · rcases Run.raised_of_bind inner with first | ⟨p, k, first, second⟩
        · obtain ⟨target, p, reaches, refuses⟩ := ih inside first
          exact ⟨target, p, .key counted few front reaches, refuses⟩
        · have here := (each key o inside).sound p k first
          obtain ⟨target, q, reaches, refuses⟩ :=
            ih' ((each key o inside).complete p k here).1 (Run.map_raised.mp second)
          exact ⟨target, q, .value counted few front here reaches, refuses⟩
      · exact ⟨_, off, .here _ _, cnt, counted, vs, v, o, o', few, front, here, refused⟩
    | iterable elem takes ih =>
      obtain ⟨cnt, counted, rest⟩ := counted_of_raised le raised
      obtain ⟨vs, o, few, front, inside, inner | ⟨o', v, here, refused⟩⟩ :=
        unframeMany_raised (each elem) counted.1 (Run.map_raised.mp rest)
      · obtain ⟨target, p, reaches, refuses⟩ := ih inside inner
        exact ⟨target, p, .iterable counted few front reaches, refuses⟩
      · exact ⟨_, off, .here _ _, cnt, counted, vs, v, o, o', few, front, here, refused⟩
  · rintro ⟨inner, o, reaches, refuses⟩
    obtain ⟨-, raises, -⟩ := reaches_stops reaches le
    exact raises (refuses_raised refuses)

/-! ## Counts that are too great -/

/-- The fewest bytes for each of what the number of an element counts. -/
def unit : Target → Nat
  | .leaf _ => 0
  | .string _ _ => 1
  | .blit elem _ _ => elem.bytes
  | .nodes elem _ => minSize elem
  | .map key value _ => minSize key + minSize value
  | .iterable elem _ => minSize elem

/-- An element at `off` starts with a length or a count of more than the bytes behind it hold. -/
def Excess (little : Bool) (src : Input) (target : Target) (off : Nat) : Prop :=
  (∀ size, target ≠ .leaf size) ∧
    ∃ declared, Counted little src off declared ∧ src.len < off + 8 + declared * unit target

theorem Sound.must_fail {off need : Nat} {r : Run α} (sound : Sound src off need r)
    (short : src.len < off + need) : r.result = .raised ∨ r.result = .error := by
  cases result : r.result with
  | outside => exact absurd result sound.inside
  | raised => exact .inl rfl
  | error => exact .inr rfl
  | done off' v =>
    have := sound.done off' v result
    omega

theorem excess_stops {target : Target} (excess : Excess little src target off) :
    (unframeElement little src target off).result = .raised ∨
      (unframeElement little src target off).result = .error := by
  obtain ⟨counts, declared, counted, short⟩ := excess
  have each : ∀ elem, ∀ o ≤ src.len, Sound src o (minSize elem) (unframeElement little src elem o) :=
    fun elem _ => unframeElement_sound little src elem
  cases target with
  | leaf size => exact absurd rfl (counts size)
  | string char reserves =>
    rw [unit, mul_one] at short
    rw [unframeElement, unframeString_result counted, if_neg (Nat.not_le_of_lt short)]
    exact .inr rfl
  | blit elem reserves sink =>
    rcases unframeBlit_result counted with ⟨-, result⟩ | ⟨-, result⟩ | ⟨fits, -⟩
    · exact .inr result
    · exact .inl result
    · exact absurd fits (Nat.not_le_of_lt short)
  | nodes elem takes | iterable elem takes =>
    rw [unframeElement, counted.bind, Run.map_raised]
    exact ((unframeMany_sound (each elem) declared [] counted.1).must_fail short).imp_right
      Run.bind_error
  | map key value takes =>
    rw [unframeElement, counted.bind, Run.map_raised]
    exact ((unframeMany_sound (unframePair_sound (each key) (each value)) declared []
      counted.1).must_fail short).imp_right Run.bind_error

end Grammar

def Headed (little : Bool) (src : Input) : Prop :=
  mfrHeader ≤ src.len ∧ src.data.take 4 = mfrMagic ∧ decide (src.data[4]? ≠ some 0) = little

theorem unframeFrom_headed {little : Bool} {target : Target} {src : Input}
    (headed : Headed little src) :
    unframeFrom little target (some src) = unframeElement little src target mfrHeader := by
  obtain ⟨long, magic, flag⟩ := headed
  have five : load src 0 5 = some (src.data.take 5) := by
    rw [load, if_pos (by rw [mfrHeader] at long; omega), slice, drop_zero]
  have front : (src.data.take 5).take 4 = mfrMagic := by
    rw [take_take]
    exact magic
  have byte : (src.data.take 5)[4]? = src.data[4]? := getElem?_take_of_lt (by decide)
  rw [unframeFrom, if_neg (not_lt.mpr long), five]
  dsimp only
  rw [if_neg (not_not_intro front), byte, if_neg (not_not_intro flag)]

theorem unframeFrom_unheaded {little : Bool} {target : Target} {src : Input}
    (unheaded : ¬ Headed little src) : unframeFrom little target (some src) = ⟨0, .error⟩ := by
  rw [unframeFrom]
  split
  next => rfl
  next long =>
    have five : load src 0 5 = some (src.data.take 5) := by
      rw [load, if_pos (by rw [mfrHeader] at long; omega), slice, drop_zero]
    rw [five]
    dsimp only
    split
    next => rfl
    next magic =>
      split
      next => rfl
      next flag =>
        refine absurd ⟨Nat.le_of_not_lt long, ?_, ?_⟩ unheaded
        · rw [← not_not.mp magic, take_take]
          rfl
        · rw [← not_not.mp flag, getElem?_take_of_lt (by decide)]

/-- Decoding reads inside the bytes, makes no more steps than there are bytes and ends inside
them if it succeeds.  It returns, and fails wherever it comes to a count of more than the
rest can hold, if and only if no container refuses what well-formed bytes give it. -/
theorem unframe_safe_iff (little : Bool) (target : Target) (src : Input) :
    ((unframeFrom little target (some src)).result ≠ .outside ∧
      (unframeFrom little target (some src)).steps ≤ src.len ∧
      ∀ off v, (unframeFrom little target (some src)).result = .done off v → off ≤ src.len) ∧
    (((unframeFrom little target (some src)).result ≠ .raised ∧
        ∀ inner off, Reaches little src target mfrHeader inner off →
          Excess little src inner off → (unframeFrom little target (some src)).result = .error) ↔
      (Headed little src → ∀ inner off, Reaches little src target mfrHeader inner off →
        ¬ Refuses little src inner off)) := by
  by_cases headed : Headed little src
  · rw [unframeFrom_headed headed]
    have le : mfrHeader ≤ src.len := headed.1
    have sound := unframeElement_sound little src target le
    refine ⟨⟨sound.inside, ?_, fun off v done => (sound.done off v done).2.1⟩, ?_, ?_⟩
    · rw [mfrHeader] at sound ⊢
      cases result : (unframeElement little src target 8).result with
      | outside => exact absurd result sound.inside
      | raised =>
        have := sound.raised result
        omega
      | error =>
        have := sound.failed result
        omega
      | done off v =>
        have := sound.done off v result
        omega
    · rintro ⟨returns, -⟩ - inner off reaches refuses
      exact returns ((raised_iff little src target le).mpr ⟨inner, off, reaches, refuses⟩)
    · intro kept
      have returns : (unframeElement little src target mfrHeader).result ≠ .raised := by
        intro raised
        obtain ⟨inner, off, reaches, refuses⟩ := (raised_iff little src target le).mp raised
        exact kept headed inner off reaches refuses
      refine ⟨returns, fun inner off reaches excess => ?_⟩
      obtain ⟨-, raises, fails⟩ := reaches_stops reaches le
      rcases excess_stops excess with refused | failed
      · exact absurd (raises refused) returns
      · exact (fails failed).resolve_left returns
  · rw [unframeFrom_unheaded headed]
    exact ⟨⟨nofun, zero_le _, nofun⟩,
      fun _ wrong => absurd wrong headed, fun _ => ⟨nofun, fun _ _ _ _ => rfl⟩⟩

def char : Size := ⟨1, by decide, by decide⟩

/-- `svector<hstring<char>, 2>`. -/
def pairOfStrings : Target :=
  .iterable (.string char fun _ => true) fun stored _ => decide (stored.length < 2)

/-- A count of 2 ^ 60, before three empty strings. -/
def overfull : Input :=
  ⟨mfrMagic ++ [1, 0, 0, 0] ++ [0, 0, 0, 0, 0, 0, 0, 16] ++ List.replicate 24 0, by decide⟩

theorem unframe_raises_in_full_svector :
    Reaches true overfull pairOfStrings mfrHeader pairOfStrings mfrHeader ∧
      Excess true overfull pairOfStrings mfrHeader ∧
      (unframeFrom true pairOfStrings (some overfull)).result = .raised := by
  have counted : Counted true overfull mfrHeader (2 ^ 60) := ⟨by decide, by decide⟩
  have short : overfull.len < mfrHeader + 8 + 2 ^ 60 * unit pairOfStrings := by decide
  exact ⟨.here _ _, ⟨nofun, 2 ^ 60, counted, short⟩, rfl⟩

/-- A list of lists of bytes, with a count of 2 ^ 60 inside. -/
example : (unframeFrom true
    (.nodes (.nodes (.leaf char) fun _ _ => true) fun _ _ => true)
    (some ⟨mfrMagic ++ [1, 0, 0, 0] ++ [1, 0, 0, 0, 0, 0, 0, 0] ++ [0, 0, 0, 0, 0, 0, 0, 16] ++ [7],
      by decide⟩)).result = .error := rfl

end Micron.Io
