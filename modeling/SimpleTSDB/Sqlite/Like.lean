import SimpleTSDB.CString
import SimpleTSDB.Foundations.Wildcard

/-!
# The LIKE operator of SQLite

In a pattern `%` stands for any text and `_` for any one character; letters are compared without
regard to the case of ASCII.
-/

namespace SimpleTSDB.Sqlite

open Wildcard

/-- Two characters are equal for LIKE if they differ at most in the case of an ASCII letter. -/
def SameLetter (a b : Char) : Prop := tolower a = tolower b

instance : DecidableRel SameLetter := fun a b => inferInstanceAs (Decidable (tolower a = tolower b))

@[simp] theorem SameLetter.rfl (a : Char) : SameLetter a a := Eq.refl _

/-- A character of a LIKE pattern. -/
def likeSym (c : Char) : Sym Char :=
  if c = '%' then .run else if c = '_' then .one else .lit c

/-- `s LIKE pattern`. -/
def Like (pattern s : Str) : Prop := Matches SameLetter (pattern.map likeSym) s

instance (pattern s : Str) : Decidable (Like pattern s) :=
  inferInstanceAs (Decidable (Matches SameLetter (pattern.map likeSym) s))

/-- `%p%` matches the texts in which `p` occurs. -/
theorem like_contains {p s : Str} :
    Like ('%' :: p ++ ['%']) s ↔ ∃ u, u <:+: s ∧ Matches SameLetter (p.map likeSym) u := by
  rw [Like, List.map_append, List.map_cons]
  exact matches_run_append_run

/-- A character of a pattern matches itself. -/
theorem likeSym_covers (c : Char) : (likeSym c).Covers SameLetter c := by
  rw [likeSym]
  split
  · trivial
  · split
    · trivial
    · exact SameLetter.rfl c

end SimpleTSDB.Sqlite
