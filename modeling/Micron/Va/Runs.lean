import Mathlib.Algebra.Order.Ring.Nat
import Micron.Lib.Holding

/-!
# The address-space reservation

One large reservation is handed out in runs of granules.  A run comes from the runs
that were given back, the best fit of them, or from the part behind the cursor that
was never handed out.  What the kernel answers is given with each call.
-/

set_option autoImplicit false

namespace Micron.Va

open List

/-- The constants of a build.  The number of granules fits the word that counts them,
and twice the reservation fits the word of the cursor. -/
structure Config where
  alignLog2 : Nat
  size : Nat
  cap : Nat
  whole : 2 ^ alignLog2 ∣ size
  granules : size / 2 ^ alignLog2 < 2 ^ 32
  room : size < 2 ^ 63

def Config.width64 : Config where
  alignLog2 := 21
  size := 2 ^ 38
  cap := 2 ^ 17
  whole := by decide
  granules := by decide
  room := by decide

/-- A run that was given back: its offset and its length in granules. -/
structure FreeRun where
  off : Nat
  granules : Nat
  deriving DecidableEq

structure State where
  base : Option Nat
  offset : Nat
  runs : List FreeRun

def State.init : State := ⟨none, 0, []⟩

variable (cfg : Config)

def granule : Nat := 2 ^ cfg.alignLog2

/-- `(bytes + mask) & ~mask`. -/
def rounded (bytes : Nat) : Nat := (bytes + (granule cfg - 1)) / granule cfg * granule cfg

def want (bytes : Nat) : Nat := rounded cfg bytes / granule cfg % 2 ^ 32

def vaBump (s : State) (bytes : Nat) : Option Nat × State :=
  if cfg.size < s.offset + bytes then (none, s)
  else (some s.offset, { s with offset := s.offset + bytes })

/-- The search of `__va_reuse` through the runs below `i`, from the last one down. -/
def bestFit (runs : List FreeRun) (want : Nat) : Nat → Option Nat → Option Nat
  | 0, best => best
  | i + 1, best =>
    match runs[i]? with
    | none => best
    | some run =>
      if run.granules < want then bestFit runs want i best
      else
        let best :=
          match best.bind fun b => runs[b]? with
          | none => some i
          | some old => if run.granules < old.granules then some i else best
        if run.granules = want then best else bestFit runs want i best

def swapRemove (runs : List FreeRun) (k : Nat) : List FreeRun :=
  match runs.getLast? with
  | none => runs
  | some last => (runs.set k last).dropLast

def vaReuse (s : State) (want : Nat) : Option Nat × State :=
  match bestFit s.runs want s.runs.length none with
  | none => (none, s)
  | some best =>
    match s.runs[best]? with
    | none => (none, s)
    | some run =>
      if want < run.granules then
        let rest : FreeRun := ⟨run.off + want * granule cfg, run.granules - want⟩
        (some run.off, { s with runs := s.runs.set best rest })
      else (some run.off, { s with runs := swapRemove s.runs best })

/-- `__va_reserve_once`, where `mapped` is what the kernel maps if it is asked. -/
def vaReserveOnce (s : State) (mapped : Option Nat) : Option Nat × State :=
  match s.base with
  | some base => (some base, s)
  | none =>
    let base := mapped.filter fun b => b ≠ 0
    (base, { s with base := base })

/-- `__va_carve`: the kernel may refuse to commit a run that is used again, and then
the run is dropped, and it may refuse a fresh one. -/
def vaCarve (s : State) (bytes : Nat) (mapped : Option Nat) (commitReuse commitBump : Bool) :
    Option Nat × State :=
  match vaReserveOnce s mapped with
  | (none, s) => (none, s)
  | (some base, s) =>
    match vaReuse cfg s (want cfg bytes), commitReuse with
    | (some off, s), true => (some (base + off), s)
    | (_, s), _ =>
      match vaBump cfg s (rounded cfg bytes) with
      | (none, s) => (none, s)
      | (some off, s) => (if commitBump then some (base + off) else none, s)

/-- `__va_carve_reserved`: nothing is committed. -/
def vaCarveReserved (s : State) (bytes : Nat) (mapped : Option Nat) : Option Nat × State :=
  match vaReserveOnce s mapped with
  | (none, s) => (none, s)
  | (some base, s) =>
    match vaReuse cfg s (want cfg bytes) with
    | (some off, s) => (some (base + off), s)
    | (none, s) =>
      match vaBump cfg s (rounded cfg bytes) with
      | (none, s) => (none, s)
      | (some off, s) => (some (base + off), s)

def vaRelease (s : State) (slot bytes : Nat) : State :=
  match s.base with
  | none => s
  | some base =>
    if slot = 0 ∨ slot < base ∨ base + cfg.size ≤ slot then s
    else if s.runs.length < cfg.cap then
      { s with runs := s.runs ++ [⟨slot - base, want cfg bytes⟩] }
    else s

inductive Call where
  | carve (bytes : Nat) (mapped : Option Nat) (commitReuse commitBump : Bool)
  | carveReserved (bytes : Nat) (mapped : Option Nat)
  | release (slot bytes : Nat)

/-- The reservation and the slots that are out, with the sizes they were asked for. -/
structure Sys where
  state : State
  carved : List (Nat × Nat)

def Sys.init : Sys := ⟨State.init, []⟩

def Sys.handOut (carved : List (Nat × Nat)) (bytes : Nat) (result : Option Nat × State) : Sys :=
  match result with
  | (some slot, s) => ⟨s, (slot, bytes) :: carved⟩
  | (none, s) => ⟨s, carved⟩

def Sys.step (y : Sys) : Call → Sys
  | .carve bytes mapped commitReuse commitBump =>
    Sys.handOut y.carved bytes (vaCarve cfg y.state bytes mapped commitReuse commitBump)
  | .carveReserved bytes mapped =>
    Sys.handOut y.carved bytes (vaCarveReserved cfg y.state bytes mapped)
  | .release slot bytes => ⟨vaRelease cfg y.state slot bytes, y.carved.erase (slot, bytes)⟩

/-- Sizes lie between 1 and the reservation, and a release names a slot that is out
with its size. -/
def Call.Valid (y : Sys) : Call → Prop
  | .carve bytes _ _ _ | .carveReserved bytes _ => 1 ≤ bytes ∧ bytes ≤ cfg.size
  | .release slot bytes => (slot, bytes) ∈ y.carved

inductive Reachable : Sys → Prop where
  | init : Reachable Sys.init
  | step {y : Sys} (c : Call) (before : Reachable y) (valid : c.Valid cfg y) :
      Reachable (y.step cfg c)

end Micron.Va

/-!
## Runs that are out and runs that are free

No granule is in two runs, whether they are out or recorded as free: a run is taken
whole or cut in two, or lies behind the cursor.
-/

namespace Micron.Va

open Micron.Lib

variable {cfg : Config} {s s' : State} {out : List Extent}

def FreeRun.extent (cfg : Config) (run : FreeRun) : Extent := ⟨run.off, run.granules * granule cfg⟩

def State.free (cfg : Config) (s : State) : List Extent := s.runs.map (FreeRun.extent cfg)

/-- With the extents `out` handed out: nothing overlaps, all are whole granules of the
part before the cursor, and the cursor lies in the reservation. -/
structure Partitioned (cfg : Config) (s : State) (out : List Extent) : Prop where
  apart : AllApart (out ++ s.free cfg)
  aligned : ∀ x ∈ out ++ s.free cfg, granule cfg ∣ x.start ∧ granule cfg ∣ x.size
  bumped : ∀ x ∈ out ++ s.free cfg, x.stop ≤ s.offset
  cursor : granule cfg ∣ s.offset ∧ s.offset ≤ cfg.size

namespace Partitioned

variable {x : Extent}

theorem init : Partitioned cfg State.init [] where
  apart := List.Pairwise.nil
  aligned _ inside := nomatch inside
  bumped _ inside := nomatch inside
  cursor := ⟨Nat.dvd_zero _, Nat.zero_le _⟩

theorem base (part : Partitioned cfg s out) (base : Option Nat) :
    Partitioned cfg { s with base := base } out :=
  ⟨part.apart, part.aligned, part.bumped, part.cursor⟩

theorem congr {out' : List Extent} (part : Partitioned cfg s out) (offset : s'.offset = s.offset)
    (same : (out ++ s.free cfg).Perm (out' ++ s'.free cfg)) : Partitioned cfg s' out' where
  apart := part.apart.perm same
  aligned x inside := part.aligned x (same.mem_iff.mpr inside)
  bumped x inside := offset ▸ part.bumped x (same.mem_iff.mpr inside)
  cursor := offset ▸ part.cursor

theorem drop (part : Partitioned cfg s (x :: out)) : Partitioned cfg s out where
  apart := (allApart_cons.mp part.apart).2
  aligned y inside := part.aligned y (List.mem_cons_of_mem x inside)
  bumped y inside := part.bumped y (List.mem_cons_of_mem x inside)
  cursor := part.cursor

end Partitioned

theorem bestFit_spec (runs : List FreeRun) (want i : Nat) (best : Option Nat)
    (sofar : ∀ b ∈ best, ∃ run, runs[b]? = some run ∧ want ≤ run.granules) :
    ∀ b ∈ bestFit runs want i best, ∃ run, runs[b]? = some run ∧ want ≤ run.granules := by
  induction i generalizing best with
  | zero => exact sofar
  | succ i ih =>
    unfold bestFit
    cases here : runs[i]? with
    | none => exact sofar
    | some run =>
      dsimp only
      by_cases short : run.granules < want
      · rw [if_pos short]
        exact ih best sofar
      · rw [if_neg short]
        have next : ∀ b ∈ (match best.bind fun b => runs[b]? with
            | none => some i
            | some old => if run.granules < old.granules then some i else best),
            ∃ run, runs[b]? = some run ∧ want ≤ run.granules := by
          intro b inside
          split at inside
          · obtain rfl := Option.some.inj inside
            exact ⟨run, here, by omega⟩
          · split at inside
            · obtain rfl := Option.some.inj inside
              exact ⟨run, here, by omega⟩
            · exact sofar b inside
        split
        · exact next
        · exact ih _ next

theorem perm_eraseIdx {runs : List FreeRun} {k : Nat} {run : FreeRun} (here : runs[k]? = some run) :
    runs.Perm (run :: runs.eraseIdx k) := by
  obtain ⟨inside, rfl⟩ := getElem?_eq_some_iff.mp here
  exact (List.getElem_cons_eraseIdx_perm inside).symm

theorem swapRemove_perm {runs : List FreeRun} {k : Nat} {run : FreeRun} (here : runs[k]? = some run) :
    runs.Perm (run :: swapRemove runs k) := by
  rcases List.eq_nil_or_concat runs with rfl | ⟨init, last, rfl⟩
  · simp at here
  rw [List.concat_eq_append] at here ⊢
  have atLast : (init ++ [last]).getLast? = some last := by simp
  rw [swapRemove, atLast]
  dsimp only
  by_cases inner : k < init.length
  · rw [List.set_append_left _ _ inner, List.dropLast_concat]
    rw [List.getElem?_append_left inner] at here
    calc (init ++ [last]).Perm (last :: init) := List.perm_append_singleton last init
      _ |>.Perm (last :: run :: init.eraseIdx k) := (perm_eraseIdx here).cons last
      _ |>.Perm (run :: last :: init.eraseIdx k) := List.Perm.swap run last _
      _ |>.Perm (run :: init.set k last) := ((List.set_perm_cons_eraseIdx inner last).symm).cons run
  · have atEnd : k = init.length := by
      have := (List.getElem?_eq_some_iff.mp here).1
      simp only [List.length_append, List.length_singleton] at this
      omega
    subst atEnd
    obtain rfl : last = run := by simpa using here
    simp

theorem vaReuse_spec (part : Partitioned cfg s out) (n : Nat) :
    (vaReuse cfg s n = (none, s)) ∨
      ∃ off s', vaReuse cfg s n = (some off, s') ∧
        Partitioned cfg s' (⟨off, n * granule cfg⟩ :: out) := by
  unfold vaReuse
  cases found : bestFit s.runs n s.runs.length none with
  | none => exact .inl rfl
  | some best =>
    obtain ⟨run, here, fits⟩ := bestFit_spec s.runs n s.runs.length none (by simp) best found
    refine .inr ?_
    dsimp only
    rw [here]
    dsimp only
    by_cases longer : n < run.granules
    · rw [if_pos longer]
      refine ⟨run.off, _, rfl, ?_⟩
      let others := (s.runs.eraseIdx best).map (FreeRun.extent cfg)
      have before : (out ++ s.free cfg).Perm (run.extent cfg :: (out ++ others)) :=
        (((perm_eraseIdx here).map (FreeRun.extent cfg)).append_left out).trans List.perm_middle
      have inside := (List.getElem?_eq_some_iff.mp here).1
      have after := ((List.set_perm_cons_eraseIdx inside
        ⟨run.off + n * granule cfg, run.granules - n⟩).map (FreeRun.extent cfg)).append_left out
      have moved := (after.trans List.perm_middle).cons ⟨run.off, n * granule cfg⟩
      have le : n * granule cfg ≤ run.granules * granule cfg := Nat.mul_le_mul_right _ fits
      have whole := part.aligned _ (before.mem_iff.mpr List.mem_cons_self)
      have bound := part.bumped _ (before.mem_iff.mpr List.mem_cons_self)
      simp only [FreeRun.extent, Extent.stop] at whole bound
      have parts : ∀ x, x ∈ ⟨run.off, n * granule cfg⟩ ::
          FreeRun.extent cfg ⟨run.off + n * granule cfg, run.granules - n⟩ :: (out ++ others) →
          (granule cfg ∣ x.start ∧ granule cfg ∣ x.size) ∧ x.stop ≤ s.offset := by
        intro x member
        rcases List.mem_cons.mp member with rfl | member
        · exact ⟨⟨whole.1, dvd_mul_left _ _⟩, by simp only [Extent.stop]; omega⟩
        rcases List.mem_cons.mp member with rfl | member
        · refine ⟨⟨Nat.dvd_add whole.1 (Nat.dvd_mul_left _ _), Nat.dvd_mul_left _ _⟩, ?_⟩
          simp only [FreeRun.extent, Extent.stop, Nat.sub_mul]
          omega
        · have old := before.mem_iff.mpr (List.mem_cons_of_mem _ member)
          exact ⟨part.aligned x old, part.bumped x old⟩
      have apart := (part.apart.perm before).cut le
      rw [← Nat.sub_mul] at apart
      exact ⟨apart.perm moved.symm, fun x member => (parts x (moved.mem_iff.mp member)).1,
        fun x member => (parts x (moved.mem_iff.mp member)).2, part.cursor⟩
    · obtain same : n = run.granules := by omega
      rw [if_neg longer]
      refine ⟨run.off, _, rfl, part.congr rfl ?_⟩
      have moved := (swapRemove_perm here).map (FreeRun.extent cfg)
      rw [same]
      exact (moved.append_left out).trans List.perm_middle

theorem vaBump_spec (part : Partitioned cfg s out) {bytes : Nat} (whole : granule cfg ∣ bytes) :
    (vaBump cfg s bytes = (none, s)) ∨
      ∃ off s', vaBump cfg s bytes = (some off, s') ∧ Partitioned cfg s' (⟨off, bytes⟩ :: out) := by
  unfold vaBump
  by_cases full : cfg.size < s.offset + bytes
  · rw [if_pos full]
    exact .inl rfl
  · rw [if_neg full]
    refine .inr ⟨s.offset, _, rfl, part.apart.behind part.bumped bytes, ?_, ?_, ?_⟩
    · intro x member
      rcases List.mem_cons.mp member with rfl | old
      · exact ⟨part.cursor.1, whole⟩
      · exact part.aligned x old
    · intro x member
      rcases List.mem_cons.mp member with rfl | old
      · exact le_refl _
      · exact le_trans (part.bumped x old) (Nat.le_add_right _ _)
    · exact ⟨Nat.dvd_add part.cursor.1 whole, by dsimp only; omega⟩

theorem granule_pos (cfg : Config) : 0 < granule cfg := Nat.two_pow_pos _

theorem rounded_whole (cfg : Config) (bytes : Nat) : granule cfg ∣ rounded cfg bytes :=
  dvd_mul_left _ _

/-- A size of the reservation has a word's worth of granules. -/
theorem want_mul {bytes : Nat} (bound : bytes ≤ cfg.size) :
    want cfg bytes * granule cfg = rounded cfg bytes := by
  have positive := granule_pos cfg
  have le : rounded cfg bytes / granule cfg ≤ cfg.size / granule cfg := by
    obtain ⟨q, isSize⟩ : granule cfg ∣ cfg.size := cfg.whole
    unfold rounded
    rw [Nat.mul_div_cancel _ positive, isSize, Nat.mul_div_cancel_left _ positive]
    refine Nat.lt_succ_iff.mp ((Nat.div_lt_iff_lt_mul positive).mpr ?_)
    rw [Nat.succ_mul, mul_comm q]
    omega
  have small : rounded cfg bytes / granule cfg < 2 ^ 32 := lt_of_le_of_lt le cfg.granules
  rw [want, Nat.mod_eq_of_lt small, Nat.div_mul_cancel (rounded_whole cfg bytes)]

/-- The extents of the slots that are out, from the base of the reservation. -/
def Sys.handed (cfg : Config) (y : Sys) : List Extent :=
  y.carved.map fun c => ⟨c.1 - y.state.base.getD 0, rounded cfg c.2⟩

structure Kept (cfg : Config) (y : Sys) : Prop where
  part : Partitioned cfg y.state (y.handed cfg)
  slots : ∀ c ∈ y.carved, ∃ base, y.state.base = some base ∧ base ≤ c.1 ∧ c.2 ≤ cfg.size

/-- The reservation is made before the first slot is handed out. -/
theorem vaReserveOnce_spec {carved : List (Nat × Nat)} (kept : Kept cfg ⟨s, carved⟩)
    (mapped : Option Nat) : Kept cfg ⟨(vaReserveOnce s mapped).2, carved⟩ ∧
      (vaReserveOnce s mapped).2.base = (vaReserveOnce s mapped).1 := by
  unfold vaReserveOnce
  cases known : s.base with
  | some base => exact ⟨kept, known⟩
  | none =>
    have nobody : carved = [] := by
      refine List.eq_nil_iff_forall_not_mem.mpr fun c member => ?_
      obtain ⟨base, isBase, -⟩ := kept.slots c member
      rw [known] at isBase
      cases isBase
    subst nobody
    exact ⟨⟨kept.part.base _, fun c member => nomatch member⟩, rfl⟩

variable {carved : List (Nat × Nat)} {base bytes : Nat}

theorem kept_cons {off : Nat} (kept : Kept cfg ⟨s, carved⟩) (known : s'.base = s.base)
    (isBase : s.base = some base) (bound : bytes ≤ cfg.size)
    (part : Partitioned cfg s' (⟨off, rounded cfg bytes⟩ :: (Sys.mk s carved).handed cfg)) :
    Kept cfg ⟨s', (base + off, bytes) :: carved⟩ where
  part := by
    simpa [Sys.handed, known, isBase] using part
  slots c member := by
    rcases List.mem_cons.mp member with rfl | old
    · exact ⟨base, known.trans isBase, Nat.le_add_right _ _, bound⟩
    · obtain ⟨b, isB, le⟩ := kept.slots c old
      exact ⟨b, known.trans isB, le⟩

theorem kept_state (kept : Kept cfg ⟨s, carved⟩) (known : s'.base = s.base)
    (part : Partitioned cfg s' ((Sys.mk s carved).handed cfg)) : Kept cfg ⟨s', carved⟩ where
  part := by
    simpa [Sys.handed, known] using part
  slots c member := by
    obtain ⟨b, isB, le⟩ := kept.slots c member
    exact ⟨b, known.trans isB, le⟩

theorem vaReuse_base (cfg : Config) (s : State) (n : Nat) : (vaReuse cfg s n).2.base = s.base := by
  unfold vaReuse
  split
  · rfl
  · split
    · rfl
    · split <;> rfl

theorem vaBump_base (cfg : Config) (s : State) (n : Nat) : (vaBump cfg s n).2.base = s.base := by
  unfold vaBump
  split <;> rfl

theorem bump_kept (kept : Kept cfg ⟨s, carved⟩) (isBase : s.base = some base)
    (bound : bytes ≤ cfg.size) (commit : Bool) :
    Kept cfg (Sys.handOut carved bytes
      (match vaBump cfg s (rounded cfg bytes) with
      | (none, s) => (none, s)
      | (some off, s) => (if commit then some (base + off) else none, s))) := by
  have known := vaBump_base cfg s (rounded cfg bytes)
  rcases vaBump_spec kept.part (rounded_whole cfg bytes) with full | ⟨off, s', result, part⟩
  · rw [full]
    exact kept
  · rw [result] at known ⊢
    cases commit with
    | true => exact kept_cons kept known isBase bound part
    | false => exact kept_state kept known part.drop

theorem carve_kept (kept : Kept cfg ⟨s, carved⟩) (bound : bytes ≤ cfg.size) (mapped : Option Nat)
    (commitReuse commitBump : Bool) :
    Kept cfg (Sys.handOut carved bytes (vaCarve cfg s bytes mapped commitReuse commitBump)) := by
  obtain ⟨kept, isBase⟩ := vaReserveOnce_spec kept mapped
  unfold vaCarve
  generalize vaReserveOnce s mapped = reserved at kept isBase ⊢
  obtain ⟨base?, s⟩ := reserved
  cases base? with
  | none => exact kept
  | some base =>
    dsimp only at kept isBase ⊢
    have known := vaReuse_base cfg s (want cfg bytes)
    rcases vaReuse_spec kept.part (want cfg bytes) with nothing | ⟨off, s', result, part⟩
    · rw [nothing]
      exact bump_kept kept isBase bound commitBump
    · rw [result] at known ⊢
      rw [want_mul bound] at part
      cases commitReuse with
      | true => exact kept_cons kept known isBase bound part
      | false => exact bump_kept (kept_state kept known part.drop) (known.trans isBase) bound commitBump

/-- To carve without committing is to carve with commits that succeed. -/
theorem vaCarveReserved_eq (cfg : Config) (s : State) (bytes : Nat) (mapped : Option Nat) :
    vaCarveReserved cfg s bytes mapped = vaCarve cfg s bytes mapped true true := by
  unfold vaCarveReserved vaCarve
  generalize vaReserveOnce s mapped = reserved
  obtain ⟨base?, s⟩ := reserved
  cases base? with
  | none => rfl
  | some base =>
    dsimp only
    generalize vaReuse cfg s (want cfg bytes) = reused
    obtain ⟨off?, s⟩ := reused
    cases off? with
    | none => rfl
    | some off => rfl

theorem carveReserved_kept (kept : Kept cfg ⟨s, carved⟩) (bound : bytes ≤ cfg.size)
    (mapped : Option Nat) :
    Kept cfg (Sys.handOut carved bytes (vaCarveReserved cfg s bytes mapped)) := by
  rw [vaCarveReserved_eq]
  exact carve_kept kept bound mapped true true

theorem release_kept (kept : Kept cfg ⟨s, carved⟩) {slot : Nat} (isOut : (slot, bytes) ∈ carved) :
    Kept cfg ⟨vaRelease cfg s slot bytes, carved.erase (slot, bytes)⟩ := by
  obtain ⟨base, isBase, low, bound⟩ := kept.slots _ isOut
  have perm := (List.perm_cons_erase isOut).map fun c : Nat × Nat =>
    (⟨c.1 - s.base.getD 0, rounded cfg c.2⟩ : Extent)
  have apart : Partitioned cfg s _ := kept.part.congr rfl (perm.append_right _)
  have fewer : Kept cfg ⟨s, carved.erase (slot, bytes)⟩ :=
    ⟨apart.drop, fun c member => kept.slots c (List.mem_of_mem_erase member)⟩
  unfold vaRelease
  rw [isBase]
  dsimp only
  split
  · exact fewer
  · split
    · refine ⟨apart.congr rfl ?_, isBase ▸ fewer.slots⟩
      rw [isBase]
      simp only [State.free, Sys.handed, List.map_cons, List.map_append, List.map_nil,
        Option.getD_some, FreeRun.extent, want_mul bound]
      rw [← List.append_assoc]
      exact (List.perm_append_singleton _ _).symm
    · exact fewer

/-- No granule is handed out twice. -/
theorem va_runs_never_overlap (cfg : Config) (y : Sys) (reached : Reachable cfg y) :
    Partitioned cfg y.state (y.handed cfg) ∧
      ∀ c ∈ y.carved, ∃ base, y.state.base = some base ∧ base ≤ c.1 ∧ c.2 ≤ cfg.size := by
  have kept : Kept cfg y := by
    induction reached with
    | init => exact ⟨Partitioned.init, fun c member => nomatch member⟩
    | @step y c _ valid ih =>
      cases c with
      | carve bytes mapped commitReuse commitBump =>
        exact carve_kept ih valid.2 mapped commitReuse commitBump
      | carveReserved bytes mapped => exact carveReserved_kept ih valid.2 mapped
      | release slot bytes => exact release_kept ih valid
  exact ⟨kept.part, kept.slots⟩

def threeCalls : Sys :=
  (((Sys.init.step Config.width64 (.carve (5 * 2 ^ 21) (some 4096) true true)).step Config.width64
    (.carveReserved 1 none)).step Config.width64 (.release 4096 (5 * 2 ^ 21))).step Config.width64
      (.carve (2 ^ 22 + 1) none true true)

theorem va_runs_never_overlap_threeCalls :
    Partitioned Config.width64 threeCalls.state (threeCalls.handed Config.width64) ∧
      threeCalls.handed Config.width64 = [⟨0, 3 * 2 ^ 21⟩, ⟨5 * 2 ^ 21, 2 ^ 21⟩] ∧
      threeCalls.state.free Config.width64 = [⟨3 * 2 ^ 21, 2 * 2 ^ 21⟩] := by
  refine ⟨(va_runs_never_overlap Config.width64 threeCalls ?_).1, by decide, by decide⟩
  refine Reachable.step _ (Reachable.step _ (Reachable.step _ (Reachable.step _ Reachable.init ?_)
    ?_) ?_) ?_
  · exact ⟨by decide, by decide⟩
  · exact ⟨by decide, by decide⟩
  · show (4096, 5 * 2 ^ 21) ∈ _
    decide
  · exact ⟨by decide, by decide⟩

end Micron.Va
