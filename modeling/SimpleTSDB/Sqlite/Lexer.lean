import Mathlib.Algebra.Ring.Parity
import SimpleTSDB.Foundations.Transducer
import SimpleTSDB.Numeric

/-!
# The tokens of SQL

The tokenizer is a transducer over the characters of the statement. It covers the tokens that the
program writes: words (read in lower case), numbered parameters, comparisons, punctuation and text
literals, in which two quotes stand for one. Any other character outside a literal is an error.
-/

namespace SimpleTSDB.Sqlite

open Transducer

/-- A token of SQL. -/
inductive Token where
  | word (w : Str)
  | param (n : ℕ)
  | literal (s : Str)
  | lparen
  | rparen
  | comma
  | ge
  | le
deriving DecidableEq

/-- What the tokenizer is in the middle of: `quote` is behind a quote in a literal, which ends the
literal unless another quote follows. -/
inductive Mode where
  | blank
  | word (w : Str)
  | param (ds : Str)
  | literal (s : Str)
  | quote (s : Str)
  | greater
  | less
deriving DecidableEq

/-- The first character of a token. -/
def lexStart (c : Char) : Option (Mode × List Token) :=
  if isspace c then some (.blank, [])
  else if isalpha c || c = '_' then some (.word [tolower c], [])
  else if c = '\'' then some (.literal [], [])
  else if c = '?' then some (.param [], [])
  else if c = '(' then some (.blank, [.lparen])
  else if c = ')' then some (.blank, [.rparen])
  else if c = ',' then some (.blank, [.comma])
  else if c = '>' then some (.greater, [])
  else if c = '<' then some (.less, [])
  else none

/-- The token is complete and the character starts the next one. -/
def lexFlush (t : Token) (c : Char) : Option (Mode × List Token) :=
  (lexStart c).map fun p => (p.1, t :: p.2)

/-- One character of the statement. -/
def lexStep : Mode → Char → Option (Mode × List Token)
  | .blank, c => lexStart c
  | .word w, c =>
    if isalnum c || c = '_' then some (.word (w ++ [tolower c]), []) else lexFlush (.word w) c
  | .param ds, c =>
    if isdigit c then some (.param (ds ++ [c]), []) else lexFlush (.param (digitsVal 10 ds)) c
  | .literal s, c => some (if c = '\'' then .quote s else .literal (s ++ [c]), [])
  | .quote s, c => if c = '\'' then some (.literal (s ++ [c]), []) else lexFlush (.literal s) c
  | .greater, c => if c = '=' then some (.blank, [.ge]) else none
  | .less, c => if c = '=' then some (.blank, [.le]) else none

/-- The token that the end of the statement completes. -/
def lexEnd : Mode → Option (List Token)
  | .blank => some []
  | .word w => some [.word w]
  | .param ds => some [.param (digitsVal 10 ds)]
  | .quote s => some [.literal s]
  | _ => none

/-- The tokens of a statement. -/
def lex (sql : Str) : Option (List Token) :=
  (run lexStep .blank sql).bind fun p => (lexEnd p.1).map (p.2 ++ ·)

/-- A text without quotes is the body of a literal. -/
theorem run_lexStep_literal {body : Str} (h : '\'' ∉ body) (s : Str) :
    run lexStep (.literal s) body = some (.literal (s ++ body), []) := by
  induction body generalizing s with
  | nil => simp
  | cons c body ih =>
    rw [List.mem_cons, not_or] at h
    have hc : lexStep (.literal s) c = some (.literal (s ++ [c]), []) := by
      simp [lexStep, Ne.symm h.1]
    rw [run_cons_of_some hc, ih h.2]
    simp

/-- Is the tokenizer inside a literal? -/
def Mode.inLiteral : Mode → Bool
  | .literal _ => true
  | _ => false

theorem inLiteral_lexStart {c : Char} {m : Mode} {ts : List Token}
    (h : lexStart c = some (m, ts)) : m.inLiteral = decide (c = '\'') := by
  by_cases hc : c = '\''
  · subst hc
    obtain ⟨rfl, -⟩ := Prod.mk.inj (Option.some.inj h)
    rfl
  · simp only [lexStart, if_neg hc] at h
    rw [decide_eq_false hc]
    split_ifs at h <;> obtain ⟨rfl, -⟩ := Prod.mk.inj (Option.some.inj h) <;> rfl

/-- A quote enters a literal or leaves it, and no other character does. -/
theorem inLiteral_lexStep {m m' : Mode} {c : Char} {ts : List Token}
    (h : lexStep m c = some (m', ts)) : m'.inLiteral = (m.inLiteral ^^ decide (c = '\'')) := by
  have hflush {t : Token} (h : lexFlush t c = some (m', ts)) :
      m'.inLiteral = decide (c = '\'') := by
    obtain ⟨p, hp, heq⟩ := Option.map_eq_some_iff.mp h
    obtain ⟨rfl, -⟩ := Prod.mk.inj heq
    exact inLiteral_lexStart hp
  cases m with
  | blank => simpa [Mode.inLiteral] using inLiteral_lexStart h
  | word w =>
    rw [lexStep] at h
    split at h
    next hc =>
      obtain ⟨rfl, -⟩ := Prod.mk.inj (Option.some.inj h)
      have hne : c ≠ '\'' := by rintro rfl; revert hc; decide
      simp [Mode.inLiteral, hne]
    next => simpa [Mode.inLiteral] using hflush h
  | param ds =>
    rw [lexStep] at h
    split at h
    next hc =>
      obtain ⟨rfl, -⟩ := Prod.mk.inj (Option.some.inj h)
      have hne : c ≠ '\'' := by rintro rfl; revert hc; decide
      simp [Mode.inLiteral, hne]
    next => simpa [Mode.inLiteral] using hflush h
  | literal s =>
    obtain ⟨rfl, -⟩ := Prod.mk.inj (Option.some.inj h)
    by_cases hc : c = '\'' <;> simp [Mode.inLiteral, hc]
  | quote s =>
    rw [lexStep] at h
    split at h
    next hc =>
      obtain ⟨rfl, -⟩ := Prod.mk.inj (Option.some.inj h)
      simp [Mode.inLiteral, hc]
    next => simpa [Mode.inLiteral] using hflush h
  | greater =>
    obtain ⟨rfl, heq⟩ := Option.ite_none_right_eq_some.mp h
    obtain ⟨rfl, -⟩ := Prod.mk.inj (Option.some.inj heq)
    rfl
  | less =>
    obtain ⟨rfl, heq⟩ := Option.ite_none_right_eq_some.mp h
    obtain ⟨rfl, -⟩ := Prod.mk.inj (Option.some.inj heq)
    rfl

/-- Behind an odd number of quotes the tokenizer is inside a literal. -/
theorem inLiteral_run {s : Str} {m : Mode} {ts : List Token}
    (h : run lexStep .blank s = some (m, ts)) : m.inLiteral = decide (Odd (s.count '\'')) := by
  refine run_induction (motive := fun s m _ => m.inLiteral = decide (Odd (s.count '\'')))
    rfl ?_ h
  intro as m _ c m' _ _ ih hstep
  rw [inLiteral_lexStep hstep, ih, List.count_append]
  by_cases hc : c = '\''
  · simp [hc, Nat.odd_add_one, -Nat.not_odd_iff_even]
  · have hzero : List.count '\'' [c] = 0 := List.count_eq_zero.mpr (by simpa using Ne.symm hc)
    rw [hzero, decide_eq_false hc, Bool.xor_false, Nat.add_zero]

/-- The start of a statement ends inside a literal if it has an odd number of quotes. -/
theorem run_lexStep_odd {s r : Str} (h : Odd (s.count '\''))
    (hlex : (run lexStep .blank (s ++ r)).isSome) :
    ∃ t ts, run lexStep .blank s = some (.literal t, ts) := by
  obtain ⟨⟨m', ts'⟩, hrun⟩ := Option.isSome_iff_exists.mp hlex
  obtain ⟨m, ts, -, hstart, -⟩ := run_append_eq_some_iff.mp hrun
  have hin := inLiteral_run hstart
  rw [decide_eq_true h] at hin
  cases m with
  | literal t => exact ⟨t, ts, hstart⟩
  | _ => cases hin

/-- The statement from the mode it is read in, a piece at a time. -/
theorem run_lexStep_append {m m' : Mode} {a : Str} {ts : List Token}
    (h : run lexStep m a = some (m', ts)) (b : Str) :
    run lexStep m (a ++ b) = (run lexStep m' b).map fun q => (q.1, ts ++ q.2) := by
  rw [run_append, h, Option.bind_some]

end SimpleTSDB.Sqlite
