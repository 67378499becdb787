import SimpleTSDB.CString
import SimpleTSDB.Foundations.Memory
import SimpleTSDB.Foundations.Runs

/-!
# `CommandLineToArgvA`

The service splits its command line into one block of memory, with the pointers in front and the
characters behind them. An argument is a maximal run without a blank outside of quotes, and its
quotes are removed (`arguments`). The variables of the loop are a function of the runs that it has
read (`layout`), and each branch of its body is one step of the pass through the runs.

The call for a null pointer, which takes the file name of the program for the line, is left out.
-/

namespace SimpleTSDB.Service

open Memory Runs

/-! ## `CommandLineToArgvA` -/

/-- The block that `GlobalAlloc` returns for a line of `len` characters, with whatever is in it. A
pointer into the characters is its offset, and `none` is the null pointer. -/
structure Block (len : ℕ) where
  argv : List (Option ℕ)
  chars : Str
  argv_length : argv.length = (len + 2) / 2 + 1
  chars_length : chars.length = len + 2

/-- The variables of the loop, except for its index. -/
structure Scan where
  argv : List (Option ℕ)
  chars : Str
  -- an `int`, while `i` and `j` are `size_t`
  count : BitVec 32
  quotes : Bool
  text : Bool
  space : Bool
  j : ℕ

/-- `argv[count] = p`; `none` outside of the pointers. -/
def Scan.setArg (s : Scan) (p : Option ℕ) : Option Scan :=
  if s.count.toInt < 0 then none
  else (store s.argv (s.count.toInt.toNat, [p])).map fun argv => { s with argv }

/-- `_argv[j] = a`; `none` outside of the characters. -/
def Scan.setChar (s : Scan) (a : Char) : Option Scan :=
  (store s.chars (s.j, [a])).map fun chars => { s with chars }

/-- An argument starts behind a blank. -/
def Scan.startArg (s : Scan) : Option Scan :=
  if s.space then (s.setArg (some s.j)).map fun s => { s with count := s.count + 1 } else some s

/-- A character is copied. -/
def Scan.putChar (s : Scan) (a : Char) : Option Scan :=
  (s.setChar a).map fun s => { s with j := s.j + 1 }

/-- The blanks of the switch. -/
def isBlank (a : Char) : Bool := a = ' ' || a = '\t' || a = '\n' || a = '\r'

/-- The body of the loop. -/
def scanChar (s : Scan) (a : Char) : Option Scan :=
  if s.quotes then
    if a = '"' then some { s with quotes := false } else s.putChar a
  else if a = '"' then
    ({ s with quotes := true, text := true } : Scan).startArg.map fun s => { s with space := false }
  else if isBlank a then
    (if s.text then s.putChar '\x00' else some s).map fun s =>
      { s with text := false, space := true }
  else
    (({ s with text := true } : Scan).startArg.bind fun s => s.putChar a).map fun s =>
      { s with space := false }

/-- The result: the block, and the number of the arguments. -/
structure Argv where
  argv : List (Option ℕ)
  chars : Str
  argc : BitVec 32

/-- `CommandLineToArgvA` for a line; `none` if a write is outside of the pointers or outside of the
characters. -/
def commandLineToArgvA (cmdline : Str) (block : Block (cstr cmdline).length) : Option Argv := do
  let s : Scan :=
    { argv := block.argv, chars := block.chars, count := 0, quotes := false, text := false,
      space := true, j := 0 }
  let s ← s.setArg (some 0)
  let s ← (cstr cmdline).foldlM scanChar s
  let s ← s.setChar '\x00'
  let s ← s.setArg none
  return { argv := s.argv, chars := s.chars, argc := s.count }

/-- The strings of `argv[0]` to `argv[argc - 1]`, each from its start to the next NUL. -/
def Argv.strings (r : Argv) : List (Option Str) :=
  (r.argv.take r.argc.toNat).map fun p => p.bind (read '\x00' r.chars)

/-! ## The arguments of a line -/

/-- The text ends inside of quotes: it has an odd number of them. -/
def inQuotes (line : Str) : Bool := line.count '"' % 2 = 1

/-- The characters, each with whether the text before it ends inside of quotes. -/
def marked (line : Str) : List (Char × Bool) :=
  line.mapIdx fun i a => (a, inQuotes (line.take i))

/-- A blank outside of quotes. -/
def separates (x : Char × Bool) : Bool := isBlank x.1 && !x.2

/-- The text of a run, without its quotes. -/
def plain (run : List (Char × Bool)) : Str := (run.map Prod.fst).filter (· ≠ '"')

/-- **The arguments of a line.** -/
def arguments (line : Str) : List Str := (runs separates (marked line)).map plain

/-- Every write is inside of the block, and the strings of the result are the arguments. -/
def Splits (cmdline : Str) (block : Block (cstr cmdline).length) : Prop :=
  ∃ r, commandLineToArgvA cmdline block = some r ∧
    r.argc.toInt = (arguments (cstr cmdline)).length ∧
    r.strings = (arguments (cstr cmdline)).map some

theorem inQuotes_concat (line : Str) (a : Char) :
    inQuotes (line ++ [a]) = if a = '"' then !inQuotes line else inQuotes line := by
  unfold inQuotes
  rw [List.count_append, List.count_singleton]
  by_cases ha : a = '"'
  · rw [if_pos ha, ha, ← decide_not, decide_eq_decide]
    simp only [beq_self_eq_true, if_true]
    omega
  · simp [ha]

theorem marked_concat (line : Str) (a : Char) :
    marked (line ++ [a]) = marked line ++ [(a, inQuotes line)] := by
  unfold marked
  rw [List.mapIdx_concat, List.take_left]
  congr 1
  refine List.mapIdx_eq_mapIdx_iff.mpr fun i hi => ?_
  rw [List.take_append_of_le_length hi.le]

theorem length_marked (line : Str) : (marked line).length = line.length := List.length_mapIdx

theorem separates_quote (q : Bool) : separates ('"', q) = false := by
  cases q <;> rfl

/-! ## The block behind some runs -/

/-- What is written behind the runs. -/
def written (t : Pass (Char × Bool)) : Str :=
  pack '\x00' (t.done.map plain) ++ plain (t.last.getD [])

/-- The pointers to the runs. -/
def pointers (t : Pass (Char × Bool)) : List ℕ := starts 0 (t.all.map plain)

theorem plain_concat (run : List (Char × Bool)) (a : Char) (q : Bool) :
    plain (run ++ [(a, q)]) = if a = '"' then plain run else plain run ++ [a] := by
  unfold plain
  rw [List.map_append, List.filter_append]
  by_cases ha : a = '"' <;> simp [ha]

theorem length_plain_le (run : List (Char × Bool)) : (plain run).length ≤ run.length := by
  rw [plain, ← List.length_map Prod.fst]
  exact List.length_filter_le _ _

theorem length_pointers (t : Pass (Char × Bool)) : (pointers t).length = t.all.length := by
  rw [pointers, length_starts, List.length_map]

/-- Nothing is left of a blank line. -/
theorem written_of_none {t : Pass (Char × Bool)} (h : t.last = none) :
    written t = pack '\x00' (t.all.map plain) := by
  rw [written, Pass.all, h]
  simp [plain]

section Step

variable {t : Pass (Char × Bool)} {x : Char × Bool}

/-- A run that goes on keeps its pointer; a new one starts where the next character is written. -/
theorem pointers_of_neg (hx : separates x = false) : pointers (t.step separates x) =
    if t.last.isSome then pointers t else pointers t ++ [(written t).length] := by
  rw [Pass.step_of_neg t hx, pointers, pointers, Pass.all, Pass.all]
  cases hlast : t.last with
  | none =>
    rw [written_of_none hlast, Pass.all, hlast]
    simp only [Option.toList_some, Option.toList_none, List.append_nil, List.map_append,
      List.map_singleton, starts_concat '\x00', Nat.zero_add]
    rfl
  | some run =>
    simp only [Option.toList_some, List.map_append, List.map_singleton, starts_concat '\x00']
    rfl

/-- What a character of a run adds. -/
theorem written_of_neg (hx : separates x = false) : written (t.step separates x) =
    if x.1 = '"' then written t else written t ++ [x.1] := by
  rw [Pass.step_of_neg t hx, written, written, Option.getD_some, plain_concat]
  split
  · rfl
  · rw [List.append_assoc]

/-- A blank ends the last run, if there is one. -/
theorem written_of_pos (hx : separates x = true) : written (t.step separates x) =
    if t.last.isSome then written t ++ ['\x00'] else written t := by
  rw [Pass.step_of_pos t hx, written, written]
  cases t.last with
  | none => simp
  | some run => simp [pack_append, plain]

theorem pointers_of_pos (hx : separates x = true) : pointers (t.step separates x) = pointers t := by
  rw [Pass.step_of_pos t hx, pointers, pointers, Pass.all, Pass.all]
  simp

end Step

/-! ## The writes -/

theorem toInt_count {n : ℕ} (h : n < 2 ^ 31) : (BitVec.ofNat 32 n).toInt = n := by
  have hnat : (BitVec.ofNat 32 n).toNat = n := by
    rw [BitVec.toNat_ofNat, Nat.mod_eq_of_lt (by omega)]
  rw [BitVec.toInt_eq_toNat_of_lt (by omega), hnat]

/-- A pointer is written to the next slot, if the counter has not wrapped. -/
theorem setArg_eq {s : Scan} {front slots : List (Option ℕ)} {old : Option ℕ}
    (hargv : s.argv = front ++ old :: slots) (hcount : s.count = BitVec.ofNat 32 front.length)
    (h : front.length < 2 ^ 31) (p : Option ℕ) :
    s.setArg p = some { s with argv := front ++ p :: slots } := by
  have hstore : store s.argv (front.length, [p]) = some (front ++ p :: slots) := by
    rw [hargv, store_append (Nat.le_add_left 1 _)]
    simp
  rw [Scan.setArg, hcount, toInt_count h, if_neg (Int.not_lt.mpr (Int.natCast_nonneg _)),
    Int.toNat_natCast, hstore, Option.map_some]

/-- With the counter at its wrapped value nothing is written. -/
theorem setArg_eq_none {s : Scan} (h : s.count = BitVec.ofNat 32 (2 ^ 31)) (p : Option ℕ) :
    s.setArg p = none := by
  rw [Scan.setArg, h]
  exact if_pos (by decide)

theorem setChar_eq {s : Scan} {front rest : Str} {old : Char}
    (hchars : s.chars = front ++ old :: rest) (hj : s.j = front.length) (a : Char) :
    s.setChar a = some { s with chars := front ++ a :: rest } := by
  have hstore : store s.chars (s.j, [a]) = some (front ++ a :: rest) := by
    rw [hchars, hj, store_append (Nat.le_add_left 1 _)]
    simp
  rw [Scan.setChar, hstore, Option.map_some]

theorem putChar_eq {s : Scan} {front rest : Str} {old : Char}
    (hchars : s.chars = front ++ old :: rest) (hj : s.j = front.length) (a : Char) :
    s.putChar a = some { s with chars := front ++ a :: rest, j := s.j + 1 } := by
  rw [Scan.putChar, setChar_eq hchars hj, Option.map_some]

/-! ## The loop -/

/-- The variables when these pointers and characters are written, in front of the slots and the
characters that are left. -/
def state (ps : List ℕ) (w : Str) (quotes text space : Bool) (slots : List (Option ℕ))
    (rest : Str) : Scan where
  argv := ps.map some ++ slots
  chars := w ++ rest
  count := BitVec.ofNat 32 ps.length
  quotes := quotes
  text := text
  space := space
  j := w.length

section State

variable {ps : List ℕ} {w : Str} {quotes text space : Bool} {slots : List (Option ℕ)} {rest : Str}
  {old : Option ℕ} {oldChar a : Char}

theorem state_setArg (h : ps.length < 2 ^ 31) (p : Option ℕ) :
    (state ps w quotes text space (old :: slots) rest).setArg p =
      some { state ps w quotes text space slots rest with argv := ps.map some ++ p :: slots } := by
  have hlen : (ps.map some).length < 2 ^ 31 := by rwa [List.length_map]
  exact setArg_eq rfl (by rw [List.length_map]; rfl) hlen p

theorem state_putChar (a : Char) :
    (state ps w quotes text space slots (oldChar :: rest)).putChar a =
      some (state ps (w ++ [a]) quotes text space slots rest) := by
  rw [putChar_eq rfl rfl]
  simp [state]

theorem startArg_of_space {s : Scan} (h : s.space = true) :
    s.startArg = (s.setArg (some s.j)).map fun s => { s with count := s.count + 1 } := if_pos h

/-- An argument starts, if none goes on. -/
theorem state_startArg {inside : Bool} (h : inside = false → ps.length < 2 ^ 31) :
    (state ps w quotes text (!inside) (old :: slots) rest).startArg =
      some (state (if inside then ps else ps ++ [w.length]) w quotes text (!inside)
        (if inside then old :: slots else slots) rest) := by
  cases inside with
  | true => rfl
  | false =>
    have hcount : BitVec.ofNat 32 (ps.length + 1) = BitVec.ofNat 32 ps.length + 1 :=
      BitVec.ofNat_add _ 1
    rw [startArg_of_space rfl, state_setArg (h rfl), Option.map_some]
    simp [state, hcount]

theorem state_startArg_eq_none (h : ps.length = 2 ^ 31) :
    (state ps w quotes text true slots rest).startArg = none := by
  rw [startArg_of_space rfl, setArg_eq_none (congrArg (BitVec.ofNat 32) h), Option.map_none]

/-! The branches of the body. -/

theorem scanChar_copies (ha : a ≠ '"') : scanChar (state ps w true text space slots rest) a =
    (state ps w true text space slots rest).putChar a :=
  (if_pos rfl).trans (if_neg ha)

theorem scanChar_opens : scanChar (state ps w false text space slots rest) '"' =
    (state ps w true true space slots rest).startArg.map fun s => { s with space := false } := rfl

theorem scanChar_ends (ha : isBlank a = true) :
    scanChar (state ps w false text space slots rest) a =
      (if text then (state ps w false text space slots rest).putChar '\x00'
        else some (state ps w false text space slots rest)).map fun s =>
          { s with text := false, space := true } := by
  have hquote : a ≠ '"' := by
    rintro rfl
    cases ha
  exact (if_neg Bool.false_ne_true).trans ((if_neg hquote).trans (if_pos ha))

theorem scanChar_goes_on (ha : a ≠ '"') (hblank : isBlank a = false) :
    scanChar (state ps w false text space slots rest) a =
      ((state ps w false true space slots rest).startArg.bind fun s => s.putChar a).map fun s =>
        { s with space := false } :=
  (if_neg Bool.false_ne_true).trans ((if_neg ha).trans (if_neg (ne_true_of_eq_false hblank)))

end State

/-- The variables behind the runs of what has been read. -/
def layout (t : Pass (Char × Bool)) (quotes : Bool) (slots : List (Option ℕ)) (rest : Str) : Scan :=
  state (pointers t) (written t) quotes t.last.isSome (!t.last.isSome) slots rest

section Step

variable {t : Pass (Char × Bool)} {x : Char × Bool} {slots : List (Option ℕ)} {rest : Str}
  {old : Option ℕ} {oldChar a : Char}

theorem isSome_step (h : separates x = false) : (t.step separates x).last.isSome = true := by
  rw [Pass.step_of_neg t h]
  rfl

/-- A blank that separates. -/
theorem scanChar_blank {q : Bool} (h : separates (a, q) = true) :
    scanChar (layout t q slots (oldChar :: rest)) a = some (layout (t.step separates (a, q))
      (if a = '"' then !q else q) slots (if t.last.isSome then rest else oldChar :: rest)) := by
  obtain ⟨hblank, rfl⟩ : isBlank a = true ∧ q = false := by simpa [separates] using h
  have hquote : a ≠ '"' := by
    rintro rfl
    cases hblank
  have hlast : (t.step separates (a, false)).last = none := by rw [Pass.step_of_pos t h]
  rw [layout, layout, pointers_of_pos h, written_of_pos h, hlast, scanChar_ends hblank,
    if_neg hquote]
  cases t.last.isSome with
  | false => rfl
  | true =>
    rw [if_pos rfl, state_putChar]
    rfl

/-- A character of an argument, or one of its quotes. -/
theorem scanChar_run {q : Bool} (hsep : separates (a, q) = false)
    (hq : q = true → t.last.isSome = true)
    (h : t.last.isSome = false → (pointers t).length < 2 ^ 31) :
    scanChar (layout t q (old :: slots) (oldChar :: rest)) a =
      some (layout (t.step separates (a, q)) (if a = '"' then !q else q)
        (if t.last.isSome then old :: slots else slots)
        (if a = '"' then oldChar :: rest else rest)) := by
  rw [layout, layout, pointers_of_neg hsep, written_of_neg hsep, isSome_step hsep]
  cases q with
  | true =>
    -- the argument has started at the quote
    rw [hq rfl, if_pos rfl]
    by_cases ha : a = '"'
    · simp only [ha]
      rfl
    · rw [scanChar_copies ha, state_putChar]
      simp [ha]
  | false =>
    by_cases ha : a = '"'
    · rw [ha, scanChar_opens, state_startArg h, Option.map_some]
      rfl
    · have hblank : isBlank a = false := by simpa [separates] using hsep
      rw [scanChar_goes_on ha hblank, state_startArg h, Option.bind_some, state_putChar,
        Option.map_some]
      simp [ha, state]

/-- One argument too many. -/
theorem scanChar_run_eq_none (hsep : separates (a, false) = false) (hlast : t.last.isSome = false)
    (h : (pointers t).length = 2 ^ 31) : scanChar (layout t false slots rest) a = none := by
  rw [layout, hlast]
  by_cases ha : a = '"'
  · rw [ha, scanChar_opens, Bool.not_false, state_startArg_eq_none h, Option.map_none]
  · have hblank : isBlank a = false := by simpa [separates] using hsep
    rw [scanChar_goes_on ha hblank, Bool.not_false, state_startArg_eq_none h, Option.bind_none,
      Option.map_none]

end Step

end SimpleTSDB.Service
