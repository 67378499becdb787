import Mathlib.Algebra.GroupWithZero.Nat
import Mathlib.Data.List.DropRight
import SimpleTSDB.Foundations.Blocks
import SimpleTSDB.Http.Response

/-!
# The lines of a body

What `ApiPutHandler` queues and counts, by the lines of its body (`apiPutHandler_lines`). The body
passes through a C string, so that the handler sees nothing of it behind the first NUL.
`processesLines_iff` says for which bodies this makes no difference.
-/

namespace SimpleTSDB.Http

open Delimited

/-- What is counted as put. -/
def counted (es : List Effect) : ℕ :=
  (es.map fun
    | .addPutCount count => count
    | _ => 0).sum

/-- The metrics of the lines up to the first one that does not parse. -/
def parsedLines : List Str → List Metric
  | [] => []
  | line :: lines =>
    match Metric.accepted line with
    | some m => m :: parsedLines lines
    | none => []

/-! ## The loop -/

/-- A loop over the lines, of which `count` have been queued before, queues those that parse up to
the first one that does not, and counts them if there is no such one. -/
def Serves (lines : List Str) (count : ℕ) (r : Option (List Effect × ℕ)) : Prop :=
  ∃ es status, r = some (es, status) ∧ queued es = parsedLines lines ∧
    counted es = if ∀ line ∈ lines, Metric.accepted line ≠ none then count + lines.length else 0

/-- **The loop** serves its lines. -/
theorem serves_serveLines (lines : List Str) (count : ℕ) :
    Serves lines count (some (serveLines lines count)) := by
  refine ⟨_, _, rfl, ?_⟩
  induction lines generalizing count with
  | nil => exact ⟨rfl, by simp [serveLines, counted]⟩
  | cons line lines ih =>
    rw [serveLines, parsedLines]
    cases hacc : Metric.accepted line with
    | none =>
      refine ⟨rfl, ?_⟩
      simp [hacc, counted, mgWrite400]
    | some m =>
      obtain ⟨hqueued, hcounted⟩ := ih (count + 1)
      constructor
      · rw [← hqueued]
        rfl
      · refine (show counted _ = counted (serveLines lines (count + 1)).1 from ?_).trans
          (hcounted.trans ?_)
        · simp [counted]
        · simp [hacc, Nat.add_assoc, Nat.add_comm 1]

/-- **A put request** queues the lines of its body up to the first one that does not parse, and
counts them if there is no such one. -/
theorem apiPutHandler_lines (body : Str) :
    Serves (putLines body) 0 (apiPutHandler "POST".toList body) := by
  rw [apiPutHandler_eq]
  by_cases hbody : body = []
  · subst hbody
    exact ⟨[], 200, rfl, rfl, rfl⟩
  · rw [if_neg hbody]
    exact serves_serveLines (putLines body) 0

/-! ## Lines that are put together -/

/-- A text without a newline is one line or none. -/
theorem streamLines_line {line : Str} (h : '\n' ∉ line) :
    streamLines line = if cleanLine line = [] then [] else [cleanLine line] := by
  rcases eq_or_ne line [] with rfl | hne
  · rfl
  · exact streamLines_of_not_mem h hne

/-- A newline separates the lines of two texts. -/
theorem streamLines_newline (s t : Str) :
    streamLines (s ++ '\n' :: t) = streamLines s ++ streamLines t := by
  induction s using fields_induction '\n' with
  | nil => exact (streamLines_append List.not_mem_nil t).trans (if_pos rfl)
  | last line h _ =>
    rw [streamLines_append h, streamLines_line h]
    split <;> rfl
  | delim line rest h ih =>
    rw [List.append_assoc, List.cons_append, streamLines_append h, streamLines_append h, ih]
    split <;> rfl

theorem streamLines_nil : streamLines [] = [] := rfl

/-- The lines behind the last newline of a text can be cut off. -/
theorem streamLines_append_of_end {s : Str} (h : ∀ c ∈ s.getLast?, c = '\n') (t : Str) :
    streamLines (s ++ t) = streamLines s ++ streamLines t := by
  rcases List.eq_nil_or_concat' s with rfl | ⟨s, c, rfl⟩
  · rfl
  · obtain rfl := h c (by simp)
    rw [List.append_assoc, List.singleton_append, streamLines_newline, streamLines_newline,
      streamLines_nil, List.append_nil]

/-- The lines in front of a newline, and those behind it. -/
theorem streamLines_append_of_head {t : Str} (h : ∀ c ∈ t.head?, c = '\n') (s : Str) :
    streamLines (s ++ t) = streamLines s ++ streamLines t := by
  cases t with
  | nil => rw [List.append_nil, streamLines_nil, List.append_nil]
  | cons c t =>
    obtain rfl := h c rfl
    have hfirst := streamLines_newline [] t
    rw [List.nil_append, streamLines_nil, List.nil_append] at hfirst
    rw [streamLines_newline, hfirst]

theorem parsedLines_append (lines lines' : List Str) : parsedLines (lines ++ lines') =
    parsedLines lines ++ if ∃ line ∈ lines, Metric.accepted line = none then []
      else parsedLines lines' := by
  induction lines with
  | nil => simp [parsedLines]
  | cons line lines ih =>
    rw [List.cons_append, parsedLines, parsedLines]
    cases hacc : Metric.accepted line with
    | none => simp [hacc]
    | some m =>
      simp only [ih, List.cons_append, List.exists_mem_cons_iff, hacc, reduceCtorEq, false_or]

theorem parsedLines_eq_nil_iff {lines : List Str} :
    parsedLines lines = [] ↔ ∀ line ∈ lines.head?, Metric.accepted line = none := by
  cases lines with
  | nil => simp [parsedLines]
  | cons line lines =>
    rw [parsedLines]
    cases hacc : Metric.accepted line <;> simp [hacc]

/-- What is queued of one line. -/
theorem parsedLines_line {line : Str} (h : '\n' ∉ line) :
    parsedLines (streamLines line) = (Metric.accepted (cleanLine line)).toList := by
  rw [streamLines_line h]
  by_cases hc : cleanLine line = []
  · rw [if_pos hc, hc, Metric.accepted_blankless List.not_mem_nil]
    rfl
  · rw [if_neg hc, parsedLines]
    cases Metric.accepted (cleanLine line) <;> rfl

/-! ## Bodies with a NUL -/

/-- The handler queues the metrics of all lines of the body up to the first one that does not
parse. -/
def ProcessesLines (body : Str) : Prop :=
  ∃ es status, apiPutHandler "POST".toList body = some (es, status) ∧
    queued es = parsedLines (streamLines body)

/-- What stands behind the first NUL of a body makes no difference: a line that ends before it does
not parse, or the line with the NUL is parsed like the part of it that stands before the NUL, and
the line behind it, if it is reached, does not parse. -/
def NulHarmless (body : Str) : Prop :=
  let text := cstr body
  let part := text.rtakeWhile (· ≠ '\n')
  let behind := body.drop text.length
  let line := cleanLine (part ++ behind.takeWhile (· ≠ '\n'))
  let later := streamLines (behind.dropWhile (· ≠ '\n'))
  (∃ l ∈ streamLines (text.rdropWhile (· ≠ '\n')), Metric.accepted l = none) ∨
    Metric.accepted line = Metric.accepted (cleanLine part) ∧
      (Metric.accepted (cleanLine part) ≠ none ∨ line = [] →
        ∀ first ∈ later.head?, Metric.accepted first = none)

instance (body : Str) : Decidable (NulHarmless body) := by
  unfold NulHarmless
  infer_instance

/-- A line that is cut off, and everything behind it: what is queued is the same. -/
theorem parsedLines_cut_iff {part line : Str} (hpart : '\n' ∉ part) (hline : '\n' ∉ line)
    (hempty : cleanLine line = [] → cleanLine part = []) (lines later : List Str) :
    parsedLines (lines ++ streamLines part) = parsedLines (lines ++ (streamLines line ++ later)) ↔
      (∃ l ∈ lines, Metric.accepted l = none) ∨
        Metric.accepted (cleanLine line) = Metric.accepted (cleanLine part) ∧
          (Metric.accepted (cleanLine part) ≠ none ∨ cleanLine line = [] →
            ∀ first ∈ later.head?, Metric.accepted first = none) := by
  rw [parsedLines_append, parsedLines_append, List.append_right_inj, ← parsedLines_eq_nil_iff]
  by_cases hlines : ∃ l ∈ lines, Metric.accepted l = none
  · rw [if_pos hlines, if_pos hlines]
    exact iff_of_true rfl (.inl hlines)
  · rw [if_neg hlines, if_neg hlines, parsedLines_line hpart, streamLines_line hline]
    by_cases hc : cleanLine line = []
    · -- nothing of the line is left, and the loop goes on behind it
      have hnone : Metric.accepted [] = none := Metric.accepted_blankless List.not_mem_nil
      simp [hlines, hc, hempty hc, hnone, @eq_comm _ []]
    · rw [if_neg hc, List.singleton_append, parsedLines]
      cases hacc : Metric.accepted (cleanLine line) with
      | none => cases Metric.accepted (cleanLine part) <;> simp [hlines, hc]
      | some m =>
        cases Metric.accepted (cleanLine part) with
        | none => simp [hlines]
        | some m' => simp [hlines, @eq_comm _ [], @eq_comm _ m]

theorem newline_not_mem_takeWhile (s : Str) : '\n' ∉ s.takeWhile (· ≠ '\n') := fun h =>
  absurd (List.mem_takeWhile_imp h) (by decide)

/-- **The handler processes the lines of its body if and only if** nothing is lost behind the first
NUL. -/
theorem processesLines_iff (body : Str) : ProcessesLines body ↔ NulHarmless body := by
  obtain ⟨es, status, hes, hqueued, -⟩ := apiPutHandler_lines body
  have hprocess : ProcessesLines body ↔
      parsedLines (putLines body) = parsedLines (streamLines body) := by
    rw [← hqueued]
    constructor
    · rintro ⟨es', status', hes', hqueued'⟩
      obtain ⟨rfl, -⟩ := Prod.mk.inj (Option.some.inj (hes.symm.trans hes'))
      exact hqueued'
    · exact fun h => ⟨es, status, hes, h⟩
  rw [hprocess, putLines, NulHarmless]
  have hbody : cstr body ++ body.drop (cstr body).length = body :=
    List.prefix_iff_eq_append.mp (List.takeWhile_prefix _)
  generalize cstr body = text at hbody ⊢
  generalize body.drop text.length = behind at hbody ⊢
  have hpart : '\n' ∉ text.rtakeWhile (· ≠ '\n') := fun h =>
    absurd (List.mem_rtakeWhile_imp h) (by decide)
  have hbefore : ∀ c ∈ (text.rdropWhile (· ≠ '\n')).getLast?, c = '\n' := by
    intro c hc
    obtain ⟨hne, rfl⟩ := List.mem_getLast?_eq_getLast hc
    simpa using List.rdropWhile_last_not (· ≠ '\n') text hne
  have hlater : ∀ c ∈ (behind.dropWhile (· ≠ '\n')).head?, c = '\n' := fun c hc => by
    simpa using Blocks.head_dropWhile hc
  have htext : text.rdropWhile (· ≠ '\n') ++ text.rtakeWhile (· ≠ '\n') = text :=
    List.rdropWhile_append_rtakeWhile
  have hbehind : behind.takeWhile (· ≠ '\n') ++ behind.dropWhile (· ≠ '\n') = behind :=
    List.takeWhile_append_dropWhile
  generalize text.rtakeWhile (· ≠ '\n') = part at hpart htext ⊢
  generalize text.rdropWhile (· ≠ '\n') = before at hbefore htext ⊢
  have hline : '\n' ∉ part ++ behind.takeWhile (· ≠ '\n') := by
    rw [List.mem_append, not_or]
    exact ⟨hpart, newline_not_mem_takeWhile behind⟩
  generalize behind.takeWhile (· ≠ '\n') = front at hline hbehind ⊢
  generalize behind.dropWhile (· ≠ '\n') = rest at hlater hbehind ⊢
  have hempty : cleanLine (part ++ front) = [] → cleanLine part = [] := by
    rw [cleanLine, List.filter_append, List.append_eq_nil_iff]
    exact And.left
  rw [← parsedLines_cut_iff hpart hline hempty, ← streamLines_append_of_head hlater,
    ← streamLines_append_of_end hbefore, ← streamLines_append_of_end hbefore, htext,
    ← hbody, ← hbehind, ← htext, List.append_assoc, List.append_assoc]

/-- Without a NUL nothing is lost. -/
theorem nulHarmless_of_not_mem {body : Str} (h : '\x00' ∉ body) : NulHarmless body := by
  refine .inr ?_
  rw [cstr_eq_self h, List.drop_length]
  simp [streamLines_nil]

/-- A NUL at the end of a line hides the next line. -/
theorem not_processesLines : ¬ ∀ body : Str, ProcessesLines body := by
  intro h
  obtain ⟨es, status, hes, hall⟩ := h "a 1 2 k=v\x00\nb 1 2 k=v\n".toList
  obtain ⟨es', status', hes', hqueued, -⟩ :=
    apiPutHandler_lines "a 1 2 k=v\x00\nb 1 2 k=v\n".toList
  obtain ⟨rfl, -⟩ := Prod.mk.inj (Option.some.inj (hes.symm.trans hes'))
  rw [hqueued] at hall
  exact absurd hall (by decide +kernel)

end SimpleTSDB.Http
