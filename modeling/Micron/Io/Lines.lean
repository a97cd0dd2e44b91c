import Mathlib.Algebra.Order.Ring.Nat

/-!
# Lines of a file

`__line_cursor` reads a descriptor into a window and returns one line a call; a line that
goes on beyond the window is carried over the next read.  `__split_lines_mem` cuts the
same lines out of bytes that are all there.  Both are compared with the text cut at its
newlines.
-/

set_option autoImplicit false

namespace Micron.Io

open List

abbrev Byte := UInt8

def newline : Byte := 10

def carriageReturn : Byte := 13

def slice (s : List Byte) (start n : Nat) : List Byte := (s.drop start).take n

/-- A line without the one carriage return directly before its newline. -/
def chomp (line : List Byte) : List Byte :=
  if line.getLast? = some carriageReturn then line.dropLast else line

/-- The pieces between the newlines, each without its carriage return, and what follows the
last newline as it is unless that is nothing. -/
def linesOf (text : List Byte) : List (List Byte) :=
  let pieces := text.splitOn newline
  pieces.dropLast.map chomp ++ (pieces.getLast?.filter (· ≠ [])).toList

theorem linesOf_break {front : List Byte} (none : newline ∉ front) (back : List Byte) :
    linesOf (front ++ newline :: back) = chomp front :: linesOf back := by
  have pieces : (front ++ newline :: back).splitOn newline = front :: back.splitOn newline :=
    splitOn_append_cons_self_of_not_mem none back
  obtain ⟨first, others, split⟩ := exists_cons_of_ne_nil (splitOn_ne_nil newline back)
  rw [linesOf, linesOf, pieces, split]
  rfl

theorem linesOf_last {text : List Byte} (none : newline ∉ text) :
    linesOf text = if text = [] then [] else [text] := by
  rw [linesOf, splitOn_eq_singleton none]
  by_cases empty : text = []
  · rw [if_pos empty, empty]
    rfl
  · rw [if_neg empty]
    simp [empty]

def splitLoop (s : List Byte) : Nat → Nat → Nat → List (List Byte) → List (List Byte) × Nat
  | 0, _, start, out => (out, start)
  | left + 1, i, start, out =>
    if s[i]? = some newline then
      let len := i - start
      let len := if len ≠ 0 ∧ s[start + len - 1]? = some carriageReturn then len - 1 else len
      splitLoop s left (i + 1) (i + 1) (out ++ [slice s start len])
    else splitLoop s left (i + 1) start out

/-- `__split_lines_mem`: the lines that `fn` is called with. -/
def splitLinesMem (s : List Byte) : List (List Byte) :=
  let (out, start) := splitLoop s s.length 0 0 []
  if start < s.length then out ++ [slice s start (s.length - start)] else out

def interrupted : Nat := 4

/-- What a call of `read` comes back with: bytes, or the negative of an error. -/
inductive Read where
  | bytes (data : List Byte)
  | error (number : Nat)

structure Cursor where
  base : List Byte
  pos : Nat
  valid : Nat
  line : List Byte
  err : Int
  eof : Bool

/-- The constructor; `raw` is what the window holds before the first read. -/
def Cursor.init (raw : List Byte) : Cursor := ⟨raw, 0, 0, [], 0, false⟩

def chunkSize (chunk_sz : Nat) : Nat := if chunk_sz ≠ 0 then chunk_sz else 4096

def scan (base : List Byte) : Nat → Nat → Option Nat
  | 0, _ => none
  | left + 1, i => if base[i]? = some newline then some i else scan base left (i + 1)

def Cursor.finish (c : Cursor) (i : Nat) : Cursor :=
  let text := if i > c.pos then c.line ++ slice c.base c.pos (i - c.pos) else c.line
  { c with
    pos := i + 1
    line :=
      if text.length ≠ 0 ∧ text[text.length - 1]? = some carriageReturn then
        text.take (text.length - 1)
      else text }

def Cursor.carry (c : Cursor) : Cursor :=
  { c with
    line := if c.valid > c.pos then c.line ++ slice c.base c.pos (c.valid - c.pos) else c.line
    pos := c.valid }

/-- The loop of `next`.  The reads that are still to come shorten with each turn; after the
last one `read` returns zero. -/
def Cursor.loop : List Read → Cursor → Bool × Cursor × List Read
  | reads, c =>
    match scan c.base (c.valid - c.pos) c.pos with
    | some i => (true, c.finish i, reads)
    | none =>
      match reads with
      | [] => (!c.carry.line.isEmpty, { c.carry with eof := true }, [])
      | .error number :: rest =>
        if number = interrupted then Cursor.loop rest c.carry
        else (false, { c.carry with err := -number, line := [] }, rest)
      | .bytes data :: rest =>
        if data.length = 0 then
          (!c.carry.line.isEmpty, { c.carry with eof := true }, rest)
        else
          Cursor.loop rest { c.carry with
            base := data ++ c.base.drop data.length, pos := 0, valid := data.length }

def Cursor.next (reads : List Read) (c : Cursor) : Bool × Cursor × List Read :=
  if c.eof = true ∨ c.err ≠ 0 then (false, c, reads)
  else Cursor.loop reads { c with line := [] }

/-- `while ( cur.next() ) fn(cur.line())`, for at most `turns` calls, and the error of the
cursor at its end. -/
def eachLine : Nat → List Read → Cursor → Option (List (List Byte) × Int)
  | 0, _, _ => none
  | turns + 1, reads, c =>
    match c.next reads with
    | (false, after, _) => some ([], after.err)
    | (true, after, rest) => (eachLine turns rest after).map fun r => (after.line :: r.1, r.2)

theorem slice_cons {s : List Byte} {i : Nat} {x : Byte} (here : s[i]? = some x) (n : Nat) :
    slice s i (n + 1) = x :: slice s (i + 1) n := by
  obtain ⟨below, rfl⟩ := List.getElem?_eq_some_iff.mp here
  rw [slice, List.drop_eq_getElem_cons below, List.take_succ_cons]
  rfl

theorem slice_none {s : List Byte} {i : Nat} (here : s[i]? = none) (n : Nat) :
    slice s i n = [] := by
  rw [slice, drop_eq_nil_of_le (getElem?_eq_none_iff.mp here), take_nil]

theorem slice_zero (s : List Byte) (i : Nat) : slice s i 0 = [] := by
  rw [slice, take_zero]

theorem slice_append (s : List Byte) (i m n : Nat) :
    slice s i (m + n) = slice s i m ++ slice s (i + m) n := by
  rw [slice, take_add, drop_drop]
  rfl

theorem slice_break {s : List Byte} {start i stop : Nat} (le : start ≤ i) (below : i < stop)
    (here : s[i]? = some newline) :
    slice s start (stop - start) =
      slice s start (i - start) ++ newline :: slice s (i + 1) (stop - (i + 1)) := by
  rw [show stop - start = i - start + (stop - (i + 1) + 1) by omega, slice_append,
    show start + (i - start) = i by omega, slice_cons here]

theorem slice_length {s : List Byte} {start n : Nat} (fits : start + n ≤ s.length) :
    (slice s start n).length = n := by
  rw [slice, length_take, length_drop]
  omega

theorem slice_all (s : List Byte) (start : Nat) :
    slice s start (s.length - start) = s.drop start := by
  rw [slice, ← length_drop, take_length]

theorem getElem?_slice {s : List Byte} {start n k : Nat} (below : k < n) :
    (slice s start n)[k]? = s[start + k]? := by
  rw [slice, getElem?_take_of_lt below, getElem?_drop]

/-- Cutting the last byte off is the `set_size` of the cursor. -/
theorem chomp_eq (text : List Byte) :
    (if text.length ≠ 0 ∧ text[text.length - 1]? = some carriageReturn then
      text.take (text.length - 1) else text) = chomp text := by
  rw [chomp, getLast?_eq_getElem?, dropLast_eq_take]
  by_cases last : text[text.length - 1]? = some carriageReturn
  · have some : text.length ≠ 0 := by
      have := (List.getElem?_eq_some_iff.mp last).1
      omega
    rw [if_pos last, if_pos ⟨some, last⟩]
  · rw [if_neg last, if_neg (fun both => last both.2)]

theorem chomp_slice {s : List Byte} {start i : Nat} (le : start ≤ i) (fits : i ≤ s.length) :
    slice s start (if i - start ≠ 0 ∧ s[start + (i - start) - 1]? = some carriageReturn then
      i - start - 1 else i - start) = chomp (slice s start (i - start)) := by
  have long := @slice_length s start (i - start) (by omega)
  rw [← chomp_eq, long]
  by_cases empty : i - start = 0
  · rw [if_neg (fun both => both.1 empty), if_neg (fun both => both.1 empty)]
  · rw [getElem?_slice (by omega), Nat.add_sub_assoc (by omega)]
    split
    · rw [slice, slice, take_take, min_eq_left (by omega)]
    · rfl

theorem splitLoop_eq (s : List Byte) : ∀ (left i start : Nat) (out : List (List Byte)),
    start ≤ i → i + left = s.length → newline ∉ slice s start (i - start) →
    (splitLoop s left i start out).1 ++
        linesOf (s.drop (splitLoop s left i start out).2) = out ++ linesOf (s.drop start) ∧
      newline ∉ s.drop (splitLoop s left i start out).2
  | 0, i, start, out, le, all, clean => by
    rw [show i = s.length from all, slice_all] at clean
    exact ⟨rfl, clean⟩
  | left + 1, i, start, out, le, all, clean => by
    have below : i < s.length := by omega
    have here := getElem?_eq_getElem below
    rw [splitLoop]
    by_cases ends : s[i]? = some newline
    · rw [if_pos ends]
      dsimp only
      rw [chomp_slice le (by omega)]
      obtain ⟨same, after⟩ := splitLoop_eq s left (i + 1) (i + 1)
        (out ++ [chomp (slice s start (i - start))]) (le_refl _) (by omega)
        (by rw [Nat.sub_self, slice_zero]; exact not_mem_nil)
      refine ⟨?_, after⟩
      have cut := slice_break le below ends
      rw [slice_all, slice_all] at cut
      rw [same, cut, linesOf_break clean, append_assoc]
      rfl
    · rw [if_neg ends]
      refine splitLoop_eq s left (i + 1) start out (by omega) (by omega) ?_
      rw [show i + 1 - start = i - start + 1 by omega, slice_append,
        show start + (i - start) = i by omega, slice_cons here, slice_zero,
        mem_append, mem_singleton]
      rintro (before | same)
      · exact clean before
      · exact ends (by rw [here, same])

/-- The lines that `__split_lines_mem` produces are the lines of the text. -/
theorem splitLinesMem_eq (s : List Byte) : splitLinesMem s = linesOf s := by
  obtain ⟨same, clean⟩ := splitLoop_eq s s.length 0 0 [] (le_refl 0) (zero_add _)
    not_mem_nil
  rw [nil_append, drop_zero] at same
  rw [splitLinesMem, ← same, linesOf_last clean]
  generalize splitLoop s s.length 0 0 [] = result
  obtain ⟨out, start⟩ := result
  dsimp only
  rw [slice_all]
  by_cases tail : start < s.length
  · rw [if_pos tail, if_neg (by rw [drop_eq_nil_iff]; omega)]
  · rw [if_neg tail, if_pos (drop_eq_nil_of_le (by omega)), append_nil]

/-! ## Lines through the window -/

def Read.data : Read → List Byte
  | .bytes data => data
  | .error _ => []

/-- A read of at most `n` bytes before the end of the file, or one that was interrupted. -/
def Read.Delivers (n : Nat) : Read → Prop
  | .bytes data => 1 ≤ data.length ∧ data.length ≤ n
  | .error number => number = interrupted

instance (n : Nat) : (read : Read) → Decidable (read.Delivers n)
  | .bytes _ => inferInstanceAs (Decidable (_ ∧ _))
  | .error _ => inferInstanceAs (Decidable (_ = _))

def Cursor.window (c : Cursor) : List Byte := slice c.base c.pos (c.valid - c.pos)

/-- What a cursor has not passed: the rest of its window and what the reads bring. -/
def Cursor.ahead (c : Cursor) (reads : List Read) : List Byte :=
  c.window ++ (reads.map Read.data).flatten

theorem scan_none {base : List Byte} : ∀ {left i : Nat}, scan base left i = none →
    newline ∉ slice base i left
  | 0, _, _ => by rw [slice_zero]; exact not_mem_nil
  | left + 1, i, missing => by
    rw [scan] at missing
    by_cases ends : base[i]? = some newline
    · rw [if_pos ends] at missing
      exact nomatch missing
    · rw [if_neg ends] at missing
      cases here : base[i]? with
      | none =>
        rw [slice_none here]
        exact not_mem_nil
      | some x =>
        rw [slice_cons here, mem_cons]
        rintro (same | later)
        · exact ends (by rw [here, same])
        · exact scan_none missing later

theorem scan_some {base : List Byte} : ∀ {left i j : Nat}, scan base left i = some j →
    i ≤ j ∧ j < i + left ∧ base[j]? = some newline ∧ newline ∉ slice base i (j - i)
  | 0, _, _, found => nomatch found
  | left + 1, i, j, found => by
    rw [scan] at found
    by_cases ends : base[i]? = some newline
    · rw [if_pos ends] at found
      cases found
      refine ⟨le_refl _, by omega, ends, ?_⟩
      rw [Nat.sub_self, slice_zero]
      exact not_mem_nil
    · rw [if_neg ends] at found
      obtain ⟨le, below, there, clean⟩ := scan_some found
      refine ⟨by omega, by omega, there, ?_⟩
      cases here : base[i]? with
      | none =>
        rw [slice_none here]
        exact not_mem_nil
      | some x =>
        rw [show j - i = j - (i + 1) + 1 by omega, slice_cons here, mem_cons]
        rintro (same | later)
        · exact ends (by rw [here, same])
        · exact clean later

theorem append_slice (line base : List Byte) {pos stop : Nat} :
    (if stop > pos then line ++ slice base pos (stop - pos) else line) =
      line ++ slice base pos (stop - pos) := by
  split
  · rfl
  · next short =>
    rw [show stop - pos = 0 by omega, slice_zero, append_nil]

/-- What the loop of `next` does to `text`, the line so far and all that is ahead. -/
inductive Passed (text : List Byte) (left : List Read) : Bool × Cursor × List Read → Prop where
  | line {front : List Byte} {after : Cursor} {rest : List Read} (clean : newline ∉ front)
      (cut : text = front ++ newline :: after.ahead rest) (line : after.line = chomp front)
      (opened : after.eof = false) (fine : after.err = 0) (fewer : ∀ read ∈ rest, read ∈ left) :
      Passed text left (true, after, rest)
  | last {after : Cursor} (clean : newline ∉ text) (line : after.line = text)
      (closed : after.eof = true) (fine : after.err = 0) :
      Passed text left (!text.isEmpty, after, [])

theorem Cursor.ahead_carry (c : Cursor) (reads : List Read) :
    c.line ++ c.ahead reads = c.carry.line ++ (reads.map Read.data).flatten := by
  rw [Cursor.ahead, Cursor.carry, append_slice, ← append_assoc]
  rfl

theorem Cursor.finish_passed {c : Cursor} {i : Nat} (reads : List Read)
    (found : scan c.base (c.valid - c.pos) c.pos = some i) (clean : newline ∉ c.line)
    (opened : c.eof = false) (fine : c.err = 0) :
    Passed (c.line ++ c.ahead reads) reads (true, c.finish i, reads) := by
  obtain ⟨le, below, there, before⟩ := scan_some found
  refine @Passed.line _ _ (c.line ++ slice c.base c.pos (i - c.pos)) _ _ ?_ ?_ ?_ opened fine
    (fun _ member => member)
  · rw [mem_append]
    exact fun either => either.elim clean before
  · rw [Cursor.ahead, Cursor.ahead, Cursor.window, slice_break le (by omega) there]
    simp only [append_assoc, cons_append]
    rfl
  · rw [Cursor.finish, append_slice]
    exact chomp_eq _

theorem Cursor.carry_clean {c : Cursor} (clean : newline ∉ c.line)
    (missing : scan c.base (c.valid - c.pos) c.pos = none) : newline ∉ c.carry.line := by
  rw [Cursor.carry, append_slice, mem_append]
  exact fun either => either.elim clean (scan_none missing)

theorem Passed.more {text : List Byte} {left more : List Read}
    {result : Bool × Cursor × List Read} (passed : Passed text left result)
    (fewer : ∀ read ∈ left, read ∈ more) : Passed text more result := by
  cases passed with
  | line clean cut line opened fine few =>
    exact .line clean cut line opened fine (fun read member => fewer read (few read member))
  | last clean line closed fine => exact .last clean line closed fine

/-- The carry of one turn is what the next starts from, so the chunks leave no trace. -/
theorem Cursor.loop_passed {n : Nat} (reads : List Read) : ∀ (c : Cursor),
    (∀ read ∈ reads, read.Delivers n) → newline ∉ c.line → c.eof = false → c.err = 0 →
    Passed (c.line ++ c.ahead reads) reads (Cursor.loop reads c) := by
  induction reads with
  | nil =>
    intro c _ clean opened fine
    cases found : scan c.base (c.valid - c.pos) c.pos with
    | some i =>
      rw [Cursor.loop.eq_def]
      dsimp only
      rw [found]
      exact Cursor.finish_passed [] found clean opened fine
    | none =>
      rw [Cursor.loop.eq_def]
      dsimp only
      rw [found, Cursor.ahead_carry, map_nil, flatten_nil,
        append_nil]
      exact .last (Cursor.carry_clean clean found) rfl rfl fine
  | cons read rest ih =>
    intro c good clean opened fine
    have good' : ∀ read ∈ rest, read.Delivers n :=
      fun read member => good read (mem_cons_of_mem _ member)
    cases found : scan c.base (c.valid - c.pos) c.pos with
    | some i =>
      rw [Cursor.loop.eq_def]
      dsimp only
      rw [found]
      exact Cursor.finish_passed (read :: rest) found clean opened fine
    | none =>
      have carried := Cursor.carry_clean clean found
      have delivers := good read mem_cons_self
      have fewer : ∀ r ∈ rest, r ∈ read :: rest := fun _ => mem_cons_of_mem _
      rw [Cursor.loop.eq_def]
      dsimp only
      rw [found, Cursor.ahead_carry, map_cons, flatten_cons]
      cases read with
      | error number =>
        have passed := ih c.carry good' carried opened fine
        rw [Cursor.ahead, Cursor.window, show c.carry.valid - c.carry.pos = 0 from
          Nat.sub_self _, slice_zero] at passed
        dsimp only
        rw [if_pos (show number = interrupted from delivers)]
        exact passed.more fewer
      | bytes data =>
        have passed := ih { c.carry with
          base := data ++ c.base.drop data.length, pos := 0, valid := data.length }
          good' carried opened fine
        have some : ¬ data.length = 0 := ne_of_gt delivers.1
        dsimp only
        rw [if_neg some]
        rw [Cursor.ahead, Cursor.window, slice, Nat.sub_zero, drop_zero,
          take_left] at passed
        exact passed.more fewer

theorem Cursor.ahead_init (raw : List Byte) (reads : List Read) :
    (Cursor.init raw).ahead reads = (reads.map Read.data).flatten := by
  rw [Cursor.ahead, Cursor.window, Cursor.init, Nat.sub_self, slice_zero, nil_append]

theorem eachLine_closed {c : Cursor} (closed : c.eof = true) (turns : Nat) (reads : List Read) :
    eachLine (turns + 1) reads c = some ([], c.err) := by
  rw [eachLine, Cursor.next, if_pos (.inl closed)]

/-- The lines that `next` returns one by one are those of what is ahead. -/
theorem eachLine_eq {n : Nat} : ∀ (size : Nat) (reads : List Read) (c : Cursor),
    (c.ahead reads).length = size → (∀ read ∈ reads, read.Delivers n) → c.eof = false →
    c.err = 0 → ∀ extra,
      eachLine (size + 2 + extra) reads c = some (linesOf (c.ahead reads), 0) := by
  intro size
  induction size using Nat.strongRecOn with
  | ind size ih =>
    intro reads c long good opened fine extra
    have passed := Cursor.loop_passed reads { c with line := [] } good not_mem_nil
      opened fine
    rw [show size + 2 + extra = size + 1 + extra + 1 by omega, eachLine, Cursor.next,
      if_neg (by rw [opened, fine]; simp)]
    rw [show ({ c with line := [] } : Cursor).line ++ ({ c with line := [] } : Cursor).ahead reads
      = c.ahead reads from rfl] at passed
    generalize Cursor.loop reads { c with line := [] } = result at passed
    cases passed with
    | @line front after rest clean cut line opened fine fewer =>
      have shorter := congrArg List.length cut
      rw [length_append, length_cons, long] at shorter
      have later := ih (after.ahead rest).length (by omega) rest after rfl
        (fun read member => good read (fewer read member)) opened fine
        (size + extra - (after.ahead rest).length - 1)
      dsimp only
      rw [show size + 1 + extra = (after.ahead rest).length + 2 +
        (size + extra - (after.ahead rest).length - 1) by omega, later, cut,
        linesOf_break clean, line]
      rfl
    | @last after clean line closed fine =>
      rw [linesOf_last clean]
      cases text : c.ahead reads with
      | nil =>
        simp only [isEmpty_nil, Bool.not_true]
        rw [fine, if_pos trivial]
      | cons first others =>
        simp only [isEmpty_cons, Bool.not_false]
        rw [show size + 1 + extra = size + extra + 1 by omega, eachLine_closed closed,
          if_neg (cons_ne_nil _ _), fine, line, text]
        rfl

/-- However the reads cut the bytes, the cursor returns the lines that are cut out of them
in memory, and ends without an error. -/
theorem lines_independent_of_reads (chunk_sz : Nat) (raw : List Byte) (reads : List Read)
    (delivers : ∀ read ∈ reads, read.Delivers (chunkSize chunk_sz)) :
    let text := (reads.map Read.data).flatten
    (∀ extra, eachLine (text.length + 2 + extra) reads (Cursor.init raw) =
        some (splitLinesMem text, 0)) ∧
      splitLinesMem text = linesOf text := by
  refine ⟨?_, splitLinesMem_eq _⟩
  intro extra
  have lines := eachLine_eq _ reads (Cursor.init raw) rfl delivers rfl rfl extra
  rw [Cursor.ahead_init] at lines
  rw [lines, splitLinesMem_eq]

theorem lines_independent_of_reads_twice :
    eachLine 9 [.bytes [97, 13], .error 4, .bytes [10], .bytes [10, 98, 13]]
        (Cursor.init [0, 0, 0]) = some ([[97], [], [98, 13]], 0) ∧
      splitLinesMem [97, 13, 10, 10, 98, 13] = [[97], [], [98, 13]] := by
  have delivers :
      ∀ read ∈ [Read.bytes [97, 13], .error 4, .bytes [10], .bytes [10, 98, 13]],
      read.Delivers (chunkSize 3) := by decide
  have lines : splitLinesMem [97, 13, 10, 10, 98, 13] = [[97], [], [98, 13]] := by decide
  have same := (lines_independent_of_reads 3 [0, 0, 0] _ delivers).1 1
  exact ⟨same.trans (congrArg (fun l => some (l, 0)) lines), lines⟩

end Micron.Io
