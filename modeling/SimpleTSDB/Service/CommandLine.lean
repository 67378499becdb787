import Mathlib.Algebra.Order.BigOperators.Group.List
import Mathlib.Algebra.Order.Group.Nat
import SimpleTSDB.Service.Argv

/-!
# The command line of the service

The loop of `CommandLineToArgvA` keeps up with one pass through the runs of the line (`Scanned`), as
long as it has not counted an argument too many. The block is large enough for every line, but the
arguments are counted in an `int`: `splits_iff` says that a line is split into its arguments, inside
of the block, exactly if there are fewer than 2^31 of them.
-/

namespace SimpleTSDB.Service

open Memory Runs

/-! ## Runs of the loop -/

/-- The runs of the text that has been read. -/
def lineRuns (line : Str) : Pass (Char × Bool) := pass separates (marked line)

theorem lineRuns_concat (line : Str) (a : Char) :
    lineRuns (line ++ [a]) = (lineRuns line).step separates (a, inQuotes line) := by
  rw [lineRuns, marked_concat, pass_concat, lineRuns]

theorem arguments_eq (line : Str) : arguments line = (lineRuns line).all.map plain := by
  rw [lineRuns, all_pass, arguments]

/-- Inside of quotes, a run goes on. -/
theorem isSome_last {line : Str} (h : inQuotes line = true) :
    (lineRuns line).last.isSome = true := by
  induction line using List.reverseRecOn with
  | nil => cases h
  | append_singleton line a ih =>
    rw [inQuotes_concat] at h
    have hsep : separates (a, inQuotes line) = false := by
      by_cases ha : a = '"'
      · rw [ha, separates_quote]
      · rw [if_neg ha] at h
        rw [h, separates, Bool.not_true, Bool.and_false]
    rw [lineRuns_concat, Pass.step_of_neg _ hsep]
    rfl

theorem length_pointers_lineRuns (line : Str) :
    (pointers (lineRuns line)).length = (arguments line).length := by
  rw [length_pointers, arguments_eq, List.length_map]

theorem length_arguments_le_concat (line : Str) (a : Char) :
    (arguments line).length ≤ (arguments (line ++ [a])).length := by
  rw [arguments_eq, arguments_eq, List.length_map, List.length_map, lineRuns_concat]
  exact Pass.length_all_le_step _ _

/-- There is at most one argument for every two characters. -/
theorem length_arguments_le (line : Str) : 2 * (arguments line).length ≤ line.length + 1 := by
  have hpass := @length_pass _ separates (marked line)
  have hlast : (lineRuns line).last.toList.length ≤ 1 := by cases (lineRuns line).last <;> simp
  rw [length_marked] at hpass
  rw [arguments_eq, List.length_map, Pass.all, List.length_append]
  rw [lineRuns] at hlast ⊢
  omega

/-- No more is written than has been read. -/
theorem length_written_le (line : Str) : (written (lineRuns line)).length ≤ line.length := by
  have hsize := @size_pass _ separates (marked line)
  have hdone : ((lineRuns line).done.map fun run => (plain run).length + 1).sum ≤
      ((lineRuns line).done.map fun run => run.length + 1).sum :=
    List.sum_le_sum fun run _ => Nat.succ_le_succ (length_plain_le run)
  have hlast := length_plain_le ((lineRuns line).last.getD [])
  rw [length_marked] at hsize
  rw [written, List.length_append, length_pack, List.map_map]
  rw [lineRuns] at hdone hlast ⊢
  exact Nat.le_trans (Nat.add_le_add hdone hlast) hsize

/-- The variables when the text has been read, in a block for a line of `len` characters. -/
structure Scanned (len : ℕ) (line : Str) (s : Scan) : Prop where
  behind : ∃ slots rest, s = layout (lineRuns line) (inQuotes line) slots rest
  argv_length : s.argv.length = (len + 2) / 2 + 1
  chars_length : s.chars.length = len + 2

section Loop

variable {len : ℕ} {line : Str} {s : Scan} {a : Char}

theorem scanned_layout {slots : List (Option ℕ)} {rest : Str}
    (hargv : (pointers (lineRuns line)).length + slots.length = (len + 2) / 2 + 1)
    (hchars : (written (lineRuns line)).length + rest.length = len + 2) :
    Scanned len line (layout (lineRuns line) (inQuotes line) slots rest) := by
  refine ⟨⟨slots, rest, rfl⟩, ?_, ?_⟩
  · rw [← hargv]
    simp [layout, state]
  · rw [← hchars]
    simp [layout, state]

/-- There is a slot left, and a character. -/
theorem Scanned.exists_layout (h : Scanned len line s) (hlen : line.length ≤ len) :
    ∃ old slots oldChar rest,
      s = layout (lineRuns line) (inQuotes line) (old :: slots) (oldChar :: rest) ∧
        (pointers (lineRuns line)).length + slots.length = (len + 2) / 2 ∧
        (written (lineRuns line)).length + rest.length = len + 1 := by
  obtain ⟨slots, rest, rfl⟩ := h.behind
  have hargv := h.argv_length
  have hchars := h.chars_length
  have hargs := length_arguments_le line
  have hwritten := length_written_le line
  rw [← length_pointers_lineRuns] at hargs
  simp only [layout, state, List.length_append, List.length_map] at hargv hchars
  obtain ⟨old, slots, rfl⟩ := List.exists_cons_of_length_pos (l := slots) (by omega)
  obtain ⟨oldChar, rest, rfl⟩ := List.exists_cons_of_length_pos (l := rest) (by omega)
  rw [List.length_cons] at hargv hchars
  exact ⟨old, slots, oldChar, rest, rfl, by omega, by omega⟩

/-- **One character**, if it starts no argument too many. -/
theorem Scanned.step (h : Scanned len line s) (hlen : line.length ≤ len)
    (hn : (arguments (line ++ [a])).length ≤ 2 ^ 31) :
    ∃ s', scanChar s a = some s' ∧ Scanned len (line ++ [a]) s' := by
  obtain ⟨old, slots, oldChar, rest, rfl, hargv, hchars⟩ := h.exists_layout hlen
  rw [← length_pointers_lineRuns, lineRuns_concat] at hn
  cases hsep : separates (a, inQuotes line) with
  | true =>
    refine ⟨_, scanChar_blank hsep, ?_⟩
    rw [← lineRuns_concat, ← inQuotes_concat]
    refine scanned_layout ?_ ?_
    · rw [lineRuns_concat, pointers_of_pos hsep, List.length_cons]
      omega
    · rw [lineRuns_concat, written_of_pos hsep]
      cases (lineRuns line).last.isSome <;> simp <;> omega
  | false =>
    rw [pointers_of_neg hsep] at hn
    have hlt : (lineRuns line).last.isSome = false →
        (pointers (lineRuns line)).length < 2 ^ 31 := by
      intro hlast
      rw [hlast, if_neg Bool.false_ne_true, List.length_append] at hn
      exact hn
    refine ⟨_, scanChar_run hsep isSome_last hlt, ?_⟩
    rw [← lineRuns_concat, ← inQuotes_concat]
    refine scanned_layout ?_ ?_
    · rw [lineRuns_concat, pointers_of_neg hsep]
      cases (lineRuns line).last.isSome <;> simp <;> omega
    · rw [lineRuns_concat, written_of_neg hsep]
      by_cases ha : a = '"' <;> simp [ha] <;> omega

/-- One argument too many. -/
theorem Scanned.step_eq_none (h : Scanned len line s) (hle : (arguments line).length ≤ 2 ^ 31)
    (hn : 2 ^ 31 < (arguments (line ++ [a])).length) : scanChar s a = none := by
  obtain ⟨slots, rest, rfl⟩ := h.behind
  rw [← length_pointers_lineRuns] at hle hn
  rw [lineRuns_concat] at hn
  cases hsep : separates (a, inQuotes line) with
  | true =>
    rw [pointers_of_pos hsep] at hn
    omega
  | false =>
    rw [pointers_of_neg hsep] at hn
    cases hlast : (lineRuns line).last.isSome with
    | true =>
      rw [hlast, if_pos rfl] at hn
      omega
    | false =>
      rw [hlast, if_neg Bool.false_ne_true, List.length_append, List.length_singleton] at hn
      have hq : inQuotes line = false :=
        Bool.eq_false_iff.mpr fun hq => absurd (isSome_last hq) (ne_true_of_eq_false hlast)
      rw [hq] at hsep ⊢
      exact scanChar_run_eq_none hsep hlast (by omega)

/-- **The loop**, if there is no argument too many. -/
theorem scanned_foldlM (h : Scanned len [] s) (hlen : line.length ≤ len)
    (hn : (arguments line).length ≤ 2 ^ 31) :
    ∃ s', line.foldlM scanChar s = some s' ∧ Scanned len line s' := by
  induction line using List.reverseRecOn with
  | nil => exact ⟨s, rfl, h⟩
  | append_singleton line a ih =>
    have hlen' : line.length ≤ len := Nat.le_trans (List.length_append ▸ Nat.le_add_right _ _) hlen
    obtain ⟨s', hs', hscanned⟩ := ih hlen' (Nat.le_trans (length_arguments_le_concat line a) hn)
    obtain ⟨s'', hs'', hscanned'⟩ := hscanned.step hlen' hn
    exact ⟨s'', by simp [List.foldlM_append, hs', hs''], hscanned'⟩

theorem foldlM_eq_none (h : Scanned len [] s) (hlen : line.length ≤ len)
    (hn : 2 ^ 31 < (arguments line).length) : line.foldlM scanChar s = none := by
  induction line using List.reverseRecOn with
  | nil => exact absurd hn (by decide)
  | append_singleton line a ih =>
    have hlen' : line.length ≤ len := Nat.le_trans (List.length_append ▸ Nat.le_add_right _ _) hlen
    rw [List.foldlM_append]
    by_cases hle : (arguments line).length ≤ 2 ^ 31
    · obtain ⟨s', hs', hscanned⟩ := scanned_foldlM h hlen' hle
      simp [hs', hscanned.step_eq_none hle hn]
    · rw [ih hlen' (Nat.not_le.mp hle)]
      rfl

end Loop

/-! ## The whole function -/

/-- The loop starts with nothing written. -/
theorem exists_start {len : ℕ} (block : Block len) : ∃ s,
    ({ argv := block.argv, chars := block.chars, count := 0, quotes := false, text := false,
       space := true, j := 0 } : Scan).setArg (some 0) = some s ∧ Scanned len [] s := by
  have hargv := block.argv_length
  obtain ⟨old, slots, hslots⟩ := List.exists_cons_of_length_pos (l := block.argv) (by omega)
  refine ⟨_, @setArg_eq _ [] slots old hslots rfl (by decide) (some 0), ?_⟩
  refine ⟨⟨some 0 :: slots, block.chars, rfl⟩, ?_, block.chars_length⟩
  rw [← hargv, hslots]
  rfl

/-- The call, when the loop has been started. -/
theorem exists_started (cmdline : Str) (block : Block (cstr cmdline).length) : ∃ s,
    Scanned (cstr cmdline).length [] s ∧ commandLineToArgvA cmdline block =
      ((cstr cmdline).foldlM scanChar s).bind fun s => (s.setChar '\x00').bind fun s =>
        (s.setArg none).map fun s => { argv := s.argv, chars := s.chars, argc := s.count } := by
  obtain ⟨s, hs, hscanned⟩ := exists_start block
  refine ⟨s, hscanned, ?_⟩
  rw [commandLineToArgvA]
  simp only [hs, Option.bind_eq_bind, Option.bind_some, Option.pure_def, Option.map_eq_bind]
  rfl

/-- **The block behind a line** that has no argument too many. -/
theorem commandLineToArgvA_eq (cmdline : Str) (block : Block (cstr cmdline).length)
    (h : (arguments (cstr cmdline)).length < 2 ^ 31) : ∃ slots rest,
    commandLineToArgvA cmdline block = some
      { argv := (pointers (lineRuns (cstr cmdline))).map some ++ none :: slots
        chars := written (lineRuns (cstr cmdline)) ++ '\x00' :: rest
        argc := BitVec.ofNat 32 (arguments (cstr cmdline)).length } := by
  obtain ⟨s, hscanned, heq⟩ := exists_started cmdline block
  obtain ⟨s', hs', hscanned'⟩ := scanned_foldlM hscanned le_rfl h.le
  obtain ⟨old, slots, oldChar, rest, rfl, -, -⟩ := hscanned'.exists_layout le_rfl
  refine ⟨slots, rest, ?_⟩
  rw [← length_pointers_lineRuns] at h ⊢
  have hargs : ((pointers (lineRuns (cstr cmdline))).map some).length < 2 ^ 31 := by
    rwa [List.length_map]
  have hcount : BitVec.ofNat 32 (pointers (lineRuns (cstr cmdline))).length =
      BitVec.ofNat 32 ((pointers (lineRuns (cstr cmdline))).map some).length := by
    rw [List.length_map]
  rw [heq, hs', Option.bind_some, layout, setChar_eq rfl rfl, Option.bind_some,
    setArg_eq rfl hcount hargs, Option.map_some]
  rfl

/-- With an argument too many, a pointer is written outside of the slots. -/
theorem commandLineToArgvA_eq_none (cmdline : Str) (block : Block (cstr cmdline).length)
    (h : 2 ^ 31 ≤ (arguments (cstr cmdline)).length) : commandLineToArgvA cmdline block = none := by
  obtain ⟨s, hscanned, heq⟩ := exists_started cmdline block
  rw [heq]
  rcases h.lt_or_eq with hlt | hn
  · rw [foldlM_eq_none hscanned le_rfl hlt, Option.bind_none]
  · obtain ⟨s', hs', hscanned'⟩ := scanned_foldlM hscanned le_rfl hn.ge
    obtain ⟨old, slots, oldChar, rest, rfl, -, -⟩ := hscanned'.exists_layout le_rfl
    rw [← length_pointers_lineRuns] at hn
    rw [hs', Option.bind_some, layout, setChar_eq rfl rfl, Option.bind_some,
      setArg_eq_none (congrArg (BitVec.ofNat 32) hn.symm), Option.map_none]

/-! ## The strings of the result -/

theorem map_fst_marked (line : Str) : (marked line).map Prod.fst = line := by
  induction line using List.reverseRecOn with
  | nil => rfl
  | append_singleton line a ih => rw [marked_concat, List.map_append, ih, List.map_singleton]

/-- An argument has only characters of the line. -/
theorem mem_of_mem_arguments {line arg : Str} (h : arg ∈ arguments line) {a : Char} (ha : a ∈ arg) :
    a ∈ line := by
  obtain ⟨run, hrun, rfl⟩ := List.mem_map.mp h
  obtain ⟨x, hx, rfl⟩ := List.mem_map.mp (List.mem_of_mem_filter ha)
  have hmarked := List.mem_map_of_mem (f := Prod.fst) (mem_of_mem_runs hrun hx)
  rwa [map_fst_marked] at hmarked

/-- The arguments are packed behind one another, each with its NUL. -/
theorem exists_written_eq (t : Pass (Char × Bool)) (rest : Str) : ∃ rest',
    written t ++ '\x00' :: rest = pack '\x00' (t.all.map plain) ++ rest' := by
  cases hlast : t.last with
  | none => exact ⟨'\x00' :: rest, by rw [written_of_none hlast]⟩
  | some run =>
    refine ⟨rest, ?_⟩
    rw [written, Pass.all, hlast, Option.getD_some, Option.toList_some, List.map_append,
      pack_append]
    simp [pack]

/-- The strings are read from their starts to the next NUL. -/
theorem map_read_pointers (cmdline rest : Str) :
    (pointers (lineRuns (cstr cmdline))).map
      (read '\x00' (written (lineRuns (cstr cmdline)) ++ '\x00' :: rest)) =
        (arguments (cstr cmdline)).map some := by
  have hnul : ∀ arg ∈ arguments (cstr cmdline), '\x00' ∉ arg := fun arg harg hmem =>
    nul_not_mem_cstr cmdline (mem_of_mem_arguments harg hmem)
  obtain ⟨rest', hrest⟩ := exists_written_eq (lineRuns (cstr cmdline)) rest
  rw [hrest, pointers, ← arguments_eq]
  exact read_starts hnul [] rest'

theorem splits_of_lt {cmdline : Str} (block : Block (cstr cmdline).length)
    (h : (arguments (cstr cmdline)).length < 2 ^ 31) : Splits cmdline block := by
  obtain ⟨slots, rest, heq⟩ := commandLineToArgvA_eq cmdline block h
  refine ⟨_, heq, toInt_count h, ?_⟩
  have hnat : (BitVec.ofNat 32 (arguments (cstr cmdline)).length).toNat =
      ((pointers (lineRuns (cstr cmdline))).map some).length := by
    rw [BitVec.toNat_ofNat, Nat.mod_eq_of_lt (by omega), List.length_map, length_pointers_lineRuns]
  rw [Argv.strings, hnat, List.take_left, List.map_map]
  exact map_read_pointers cmdline rest

theorem not_splits_of_le {cmdline : Str} (block : Block (cstr cmdline).length)
    (h : 2 ^ 31 ≤ (arguments (cstr cmdline)).length) : ¬ Splits cmdline block := by
  rintro ⟨r, hr, -⟩
  rw [commandLineToArgvA_eq_none cmdline block h] at hr
  cases hr

/-- **A line is split into its arguments**, inside of the block, **if and only if** it has fewer
than 2^31 of them. -/
theorem splits_iff (cmdline : Str) (block : Block (cstr cmdline).length) :
    Splits cmdline block ↔ (arguments (cstr cmdline)).length < 2 ^ 31 := by
  constructor
  · exact fun h => Nat.not_le.mp fun hle => not_splits_of_le block hle h
  · exact splits_of_lt block

/-- A line that is not longer than an `int` can count. -/
theorem splits_of_length_lt {cmdline : Str} (block : Block (cstr cmdline).length)
    (h : (cstr cmdline).length < 2 ^ 32 - 1) : Splits cmdline block := by
  have hargs := length_arguments_le (cstr cmdline)
  exact splits_of_lt block (by omega)

example : arguments "a \"b c\" \"\" d\"e\"".toList =
    ["a".toList, "b c".toList, [], "de".toList] := by decide

/-- A line of single letters. -/
def letters : ℕ → Str
  | 0 => []
  | n + 1 => letters n ++ ['a', ' ']

theorem mem_letters {n : ℕ} {a : Char} (h : a ∈ letters n) : a = 'a' ∨ a = ' ' := by
  induction n with
  | zero => cases h
  | succ n ih =>
    rcases List.mem_append.mp h with h | h
    · exact ih h
    · simpa using h

theorem inQuotes_letters (n : ℕ) : inQuotes (letters n) = false := by
  have hcount : (letters n).count '"' = 0 :=
    List.count_eq_zero.mpr fun h => by rcases mem_letters h with h | h <;> cases h
  rw [inQuotes, hcount]
  rfl

theorem lineRuns_letters (n : ℕ) :
    lineRuns (letters n) = ⟨List.replicate n [('a', false)], none⟩ := by
  induction n with
  | zero => rfl
  | succ n ih =>
    have hline : letters (n + 1) = letters n ++ ['a'] ++ [' '] :=
      (List.append_assoc _ ['a'] [' ']).symm
    have hquotes : inQuotes (letters n ++ ['a']) = false := by
      rw [inQuotes_concat, inQuotes_letters]
      rfl
    rw [hline, lineRuns_concat, lineRuns_concat, ih, hquotes, inQuotes_letters,
      List.replicate_succ']
    rfl

theorem length_arguments_letters (n : ℕ) : (arguments (letters n)).length = n := by
  rw [arguments_eq, lineRuns_letters]
  simp [Pass.all]

/-- With 2^31 letters the counter wraps, and a pointer is written in front of the block. -/
theorem not_splits : ¬ ∀ (cmdline : Str) (block : Block (cstr cmdline).length),
    Splits cmdline block := by
  intro h
  obtain ⟨n, hn⟩ : ∃ n, 2 ^ 31 = n := ⟨_, rfl⟩
  have hcstr : cstr (letters n) = letters n :=
    cstr_eq_self fun h => by rcases mem_letters h with h | h <;> cases h
  have hargs : 2 ^ 31 ≤ (arguments (cstr (letters n))).length := by
    rw [hcstr, length_arguments_letters, hn]
  let block : Block (cstr (letters n)).length :=
    { argv := List.replicate _ none
      chars := List.replicate _ '\x00'
      argv_length := List.length_replicate
      chars_length := List.length_replicate }
  exact not_splits_of_le block hargs (h (letters n) block)

end SimpleTSDB.Service
