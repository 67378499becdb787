import SimpleTSDB.Foundations.Transducer
import SimpleTSDB.PutLine

/-!
# Telnet lines

The byte loop of `TelnetProcessor::Process` for one connection, as a transducer (`byteStep`): a
character that the filter lets through is appended to the line, a newline hands the line to
`dispatchLine` and clears it, every other byte is dropped. The dispatch throws on the empty line,
whose first character it removes, and on no other (`dispatchLine_eq_none_iff`). The outputs of a
connection are therefore those of its complete lines, each filtered (`session_eq`), as long as none
of them is empty (`session_eq_none_iff`).
-/

namespace SimpleTSDB.Telnet

open Transducer

/-! ## The dispatch of a line -/

/-- The count of blanks from `start` on, found one by one. -/
def blanksFrom (line : Str) (start : ℕ) : BitVec 32 :=
  match h : find line ' ' start with
  | some pos => blanksFrom line (pos + 1) + 1
  | none => 0
termination_by line.length - start
decreasing_by
  have := find_lt h
  omega

/-- `param_count`, an `int32_t`. -/
def paramCount (line : Str) : BitVec 32 := 1 + blanksFrom line 0

theorem blanksFrom_append (rest : Str) : ∀ pre : Str,
    blanksFrom (pre ++ rest) pre.length = BitVec.ofNat 32 (rest.count ' ') := by
  induction rest using Delimited.fields_induction ' ' with
  | nil =>
    intro pre
    rw [blanksFrom, find_of_not_mem_append List.not_mem_nil rfl]
    rfl
  | last f hf _ =>
    intro pre
    rw [blanksFrom, find_of_not_mem_append hf rfl, List.count_eq_zero.mpr hf]
    rfl
  | delim f rest hf ih =>
    intro pre
    have hnext := ih (pre ++ f ++ [' '])
    simp only [List.append_assoc, List.singleton_append, List.length_append, List.length_singleton,
      ← Nat.add_assoc] at hnext
    rw [blanksFrom, find_append hf rest rfl]
    simp [hnext, List.count_eq_zero.mpr hf, BitVec.ofNat_add]

theorem paramCount_eq (line : Str) : paramCount line = BitVec.ofNat 32 (line.count ' ' + 1) := by
  rw [paramCount, BitVec.ofNat_add, BitVec.add_comm]
  exact congrArg (· + 1) (blanksFrom_append line [])

/-- A counter is not ahead of what it counts. -/
theorem toInt_counter_le (n : ℕ) : (BitVec.ofNat 32 n).toInt ≤ n := by
  rw [BitVec.toInt_eq_toNat_cond, BitVec.toNat_ofNat]
  split <;> omega

theorem four_le_count {line : Str} (h : 5 ≤ (paramCount line).toInt) : 4 ≤ line.count ' ' := by
  have hle := toInt_counter_le (line.count ' ' + 1)
  rw [paramCount_eq] at h
  omega

/-- The test whether to remove the first character; `line[0]` of the empty line is NUL. -/
def stripsFirst (line : Str) : Bool :=
  let c := line.headD '\x00'
  !isalpha c || ispunct c || c == '\''

/-- A line that begins with `put`. -/
def dispatchPut (line : Str) : Option (List Effect) :=
  let paramCount := paramCount line
  if paramCount.toInt < 5 then
    -- the terminating NUL is sent too
    some [.send ("put: invalid number of parameters (".toList ++ showInt paramCount.toInt ++
      "), 5 required.\n\r".toList ++ ['\x00'])]
  else do
    let line ← substrFrom line 4
    let metric ← Metric.ofLine line
    if metric.isValid then some [.queueMetric metric, .addPutCount 1]
    else some [.send ("put: invalid value: ".toList ++ metric.error ++ "\r\n".toList ++ ['\x00'])]

/-- The handling of a complete line; `none` if a `substr` throws. -/
def dispatchLine (line : Str) : Option (List Effect) := do
  -- sometimes the first character is non-alpha, remove it
  let line ← if stripsFirst line then substrFrom line 1 else some line
  if findStr line "put".toList = some 0 then dispatchPut line
  else some []

theorem dispatchPut_ne_none {line : Str} (h : "put".toList <+: line) : dispatchPut line ≠ none := by
  rw [dispatchPut]
  split
  · simp
  · rename_i hcount
    have hcount := four_le_count (Int.not_lt.mp hcount)
    obtain ⟨rest, rfl⟩ := h
    -- four blanks behind the three letters
    have hlen : 4 ≤ ("put".toList ++ rest).length := by
      have h₁ := List.count_le_length (a := ' ') (l := rest)
      have h₂ : ("put".toList ++ rest).count ' ' = rest.count ' ' := by
        simp
      rw [List.length_append]
      omega
    obtain ⟨m, hm⟩ := Metric.ofLine_isSome (("put".toList ++ rest).drop 4)
    simp only [substrFrom, hlen, if_true, Option.bind_eq_bind, Option.bind_some, hm]
    split <;> simp

/-- **Only the empty line throws.** -/
theorem dispatchLine_eq_none_iff {line : Str} : dispatchLine line = none ↔ line = [] := by
  constructor
  · intro h
    by_contra hne
    have hlen : 1 ≤ line.length := List.length_pos_iff.mpr hne
    have key : ∀ l : Str, (if findStr l "put".toList = some 0 then dispatchPut l
        else some []) ≠ none := by
      intro l
      split
      · rename_i hput
        exact dispatchPut_ne_none (findStr_eq_zero_iff.mp hput)
      · simp
    cases hs : stripsFirst line with
    | false => exact key line (by simpa [dispatchLine, hs] using h)
    | true => exact key (line.drop 1) (by simpa [dispatchLine, hs, substrFrom, hlen] using h)
  · rintro rfl
    rfl

/-- What a line does: nothing, an answer to the client, or a metric that is queued and counted,
which is the parser's for an end of the line. -/
inductive Dispatched (line : Str) : List Effect → Prop
  | nothing : Dispatched line []
  | answer (text : Str) : Dispatched line [.send text]
  | put {l : Str} {m : Metric} (hl : l <:+ line) (hm : Metric.accepted l = some m) :
      Dispatched line [.queueMetric m, .addPutCount 1]

theorem dispatched_of_dispatchPut {line : Str} {es : List Effect}
    (h : dispatchPut line = some es) : Dispatched line es := by
  rw [dispatchPut] at h
  split at h
  · obtain rfl := Option.some.inj h
    exact .answer _
  · simp only [Option.bind_eq_bind, Option.bind_eq_some_iff] at h
    obtain ⟨l, hl, m, hm, h⟩ := h
    split at h
    next hvalid =>
      obtain rfl := Option.some.inj h
      exact .put (substrFrom_suffix hl) (Metric.accepted_eq_some_iff.mpr ⟨hm, hvalid⟩)
    next =>
      obtain rfl := Option.some.inj h
      exact .answer _

/-- **The cases of a line.** -/
theorem dispatched_of_dispatchLine {line : Str} {es : List Effect}
    (h : dispatchLine line = some es) : Dispatched line es := by
  have hput : ∀ l, l <:+ line →
      (if findStr l "put".toList = some 0 then dispatchPut l else some []) = some es →
      Dispatched line es := by
    intro l hsuffix hl
    split at hl
    · cases dispatched_of_dispatchPut hl with
      | nothing => exact .nothing
      | answer text => exact .answer text
      | put hl' hm => exact .put (hl'.trans hsuffix) hm
    · obtain rfl := Option.some.inj hl
      exact .nothing
  rw [dispatchLine] at h
  split at h
  · obtain ⟨l, hl, h⟩ := Option.bind_eq_some_iff.mp h
    exact hput l (substrFrom_suffix hl) h
  · exact hput line (List.suffix_refl line) h

/-- A metric that a line queues is the parser's for an end of the line. -/
theorem accepted_of_dispatchLine {line : Str} {es : List Effect} {m : Metric}
    (h : dispatchLine line = some es) (hm : m ∈ queued es) :
    ∃ l, l <:+ line ∧ Metric.accepted l = some m := by
  cases dispatched_of_dispatchLine h with
  | nothing => cases hm
  | answer text => cases hm
  | put hl hacc =>
    obtain rfl := List.mem_singleton.mp hm
    exact ⟨_, hl, hacc⟩

/-! ## The byte loop -/

/-- One byte of the loop, on the partial line of the connection. -/
def byteStep (line : Str) (ch : Char) : Option (Str × List Effect) :=
  if lineChar ch then some (line ++ [ch], [])
  else if ch = '\n' then (dispatchLine line).map fun o => ([], o)
  else some (line, [])

theorem run_byteStep_of_not_mem {bytes : Str} (h : '\n' ∉ bytes) (line : Str) :
    run byteStep line bytes = some (line ++ cleanLine bytes, []) := by
  induction bytes generalizing line with
  | nil => simp [cleanLine]
  | cons c bytes ih =>
    obtain ⟨hc, hb⟩ : '\n' ≠ c ∧ '\n' ∉ bytes := by simpa using h
    by_cases hl : lineChar c = true
    · rw [run_cons_of_some (t := line ++ [c]) (o := []) (by simp [byteStep, hl]), ih hb]
      simp [cleanLine, hl]
    · rw [run_cons_of_some (t := line) (o := []) (by simp [byteStep, hl, hc.symm]), ih hb]
      simp [cleanLine, hl]

theorem run_byteStep_newline {l : Str} (hl : '\n' ∉ l) (rest line : Str) :
    run byteStep line (l ++ '\n' :: rest) =
      (dispatchLine (line ++ cleanLine l)).bind fun o =>
        (run byteStep [] rest).map fun p => (p.1, o ++ p.2) := by
  have hnl : lineChar '\n' = false := by decide
  rw [run_append, run_byteStep_of_not_mem hl, Option.bind_some]
  cases h : dispatchLine (line ++ cleanLine l) with
  | none => rw [run_cons_of_none (by simp [byteStep, hnl, h])]; rfl
  | some o =>
    rw [run_cons_of_some (t := []) (o := o) (by simp [byteStep, hnl, h])]
    simp [Function.comp_def]

/-! ## The complete lines of a stream -/

/-- The lines of a byte stream that end in a newline. -/
def completeLines (bytes : Str) : List Str := (bytes.splitOn '\n').dropLast

theorem completeLines_of_not_mem {bytes : Str} (h : '\n' ∉ bytes) : completeLines bytes = [] := by
  rw [completeLines, List.splitOn_eq_singleton h]
  rfl

theorem completeLines_newline {l : Str} (h : '\n' ∉ l) (rest : Str) :
    completeLines (l ++ '\n' :: rest) = l :: completeLines rest := by
  rw [completeLines, List.splitOn_append_cons_self_of_not_mem h,
    List.dropLast_cons_of_ne_nil (List.splitOn_ne_nil '\n' rest), completeLines]

/-- No complete line of the stream is empty after filtering. -/
def NoEmptyLine (bytes : Str) : Prop := ∀ l ∈ completeLines bytes, cleanLine l ≠ []

instance (bytes : Str) : Decidable (NoEmptyLine bytes) := List.decidableBAll _ _

/-- The effects of one filtered line. -/
def respond (line : Str) : List Effect := (dispatchLine line).getD []

theorem dispatchLine_eq_respond {line : Str} (h : line ≠ []) :
    dispatchLine line = some (respond line) := by
  obtain ⟨o, ho⟩ := Option.ne_none_iff_exists'.mp (mt dispatchLine_eq_none_iff.mp h)
  rw [respond, ho]
  rfl

/-- **The byte loop throws exactly on an empty line.** -/
theorem session_eq_none_iff (bytes : Str) :
    run byteStep [] bytes = none ↔ ¬ NoEmptyLine bytes := by
  induction bytes using Delimited.fields_induction '\n' with
  | nil => simp [NoEmptyLine, completeLines]
  | last f hf _ => simp [run_byteStep_of_not_mem hf, NoEmptyLine, completeLines_of_not_mem hf]
  | delim l rest hl ih =>
    rw [run_byteStep_newline hl, NoEmptyLine, completeLines_newline hl]
    by_cases hc : cleanLine l = []
    · simp [hc, dispatchLine_eq_none_iff.mpr]
    · rw [List.nil_append, dispatchLine_eq_respond hc, Option.bind_some, Option.map_eq_none_iff, ih,
        List.forall_mem_cons]
      simp [hc, NoEmptyLine]

/-- **What a connection does**: the responses to its complete lines, filtered. -/
theorem session_eq {bytes : Str} (h : NoEmptyLine bytes) :
    ∃ line, run byteStep [] bytes =
      some (line, (completeLines bytes).flatMap fun l => respond (cleanLine l)) := by
  induction bytes using Delimited.fields_induction '\n' with
  | nil => exact ⟨[], rfl⟩
  | last f hf _ =>
    exact ⟨cleanLine f, by simp [run_byteStep_of_not_mem hf, completeLines_of_not_mem hf]⟩
  | delim l rest hl ih =>
    rw [NoEmptyLine, completeLines_newline hl, List.forall_mem_cons] at h
    obtain ⟨line, hr⟩ := ih h.2
    refine ⟨line, ?_⟩
    rw [run_byteStep_newline hl, List.nil_append, dispatchLine_eq_respond h.1, hr,
      completeLines_newline hl]
    simp

/-- **What a connection queues** is what the parser accepts of filtered text. -/
theorem accepted_of_session {bytes line : Str} {es : List Effect} {m : Metric}
    (h : run byteStep [] bytes = some (line, es)) (hm : m ∈ queued es) :
    ∃ l, CleanLine l ∧ Metric.accepted l = some m := by
  have hne : NoEmptyLine bytes := by
    by_contra hne
    rw [(session_eq_none_iff bytes).mpr hne] at h
    cases h
  obtain ⟨line', hrun⟩ := session_eq hne
  obtain ⟨-, rfl⟩ := Prod.mk.inj (Option.some.inj (hrun.symm.trans h))
  obtain ⟨e, he, hem⟩ := List.mem_filterMap.mp hm
  obtain ⟨l, hl, hel⟩ := List.mem_flatMap.mp he
  have hmem : m ∈ queued (respond (cleanLine l)) := List.mem_filterMap.mpr ⟨e, hel, hem⟩
  obtain ⟨l', hl', hacc⟩ := accepted_of_dispatchLine (dispatchLine_eq_respond (hne l hl)) hmem
  exact ⟨l', (cleanLine_clean l).mono hl'.subset, hacc⟩

end SimpleTSDB.Telnet
