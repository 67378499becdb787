import Mathlib.Data.List.Basic
import Mathlib.Data.List.Forall2
import Mathlib.Data.List.Infix

/-!
# Wildcard patterns

A pattern is a list of symbols over an alphabet: a run of any letters, any one letter, or a given
letter. Letters are compared by a relation, so that the case of a text can be ignored. Matching
distributes over concatenation, and a pattern between two runs matches the texts in which it occurs.
-/

namespace SimpleTSDB.Wildcard

variable {α : Type*} {r : α → α → Prop}

/-- A symbol of a pattern. -/
inductive Sym (α : Type*) where
  | run
  | one
  | lit (a : α)
deriving DecidableEq

/-- The pattern matches the whole text. -/
def Matches (r : α → α → Prop) : List (Sym α) → List α → Prop
  | [], s => s = []
  | .run :: p, s => ∃ t ∈ s.tails, Matches r p t
  | .one :: _, [] => False
  | .one :: p, _ :: s => Matches r p s
  | .lit _ :: _, [] => False
  | .lit a :: p, c :: s => r a c ∧ Matches r p s

instance Matches.instDecidable [DecidableRel r] :
    (p : List (Sym α)) → (s : List α) → Decidable (Matches r p s)
  | [], [] => isTrue rfl
  | [], _ :: _ => isFalse (List.cons_ne_nil _ _)
  | .run :: p, s =>
    have : DecidablePred (Matches r p) := instDecidable p
    inferInstanceAs (Decidable (∃ t ∈ s.tails, Matches r p t))
  | .one :: _, [] => isFalse id
  | .one :: p, _ :: s => instDecidable p s
  | .lit _ :: _, [] => isFalse id
  | .lit a :: p, c :: s =>
    have := instDecidable p s
    inferInstanceAs (Decidable (r a c ∧ Matches r p s))

theorem matches_nil {s : List α} : Matches r [] s ↔ s = [] := Iff.rfl

/-- A leading run skips any prefix of the text. -/
theorem matches_run_cons {p : List (Sym α)} {s : List α} :
    Matches r (.run :: p) s ↔ ∃ u t, s = u ++ t ∧ Matches r p t := by
  simp only [Matches, List.mem_tails]
  constructor
  · rintro ⟨t, ⟨u, rfl⟩, h⟩
    exact ⟨u, t, rfl, h⟩
  · rintro ⟨u, t, rfl, h⟩
    exact ⟨t, List.suffix_append u t, h⟩

theorem matches_one_cons {p : List (Sym α)} {s : List α} :
    Matches r (.one :: p) s ↔ ∃ c t, s = c :: t ∧ Matches r p t := by
  cases s <;> simp [Matches]

theorem matches_lit_cons {a : α} {p : List (Sym α)} {s : List α} :
    Matches r (.lit a :: p) s ↔ ∃ c t, s = c :: t ∧ r a c ∧ Matches r p t := by
  cases s <;> simp [Matches]

/-- **Matching distributes over concatenation.** -/
theorem matches_append {p q : List (Sym α)} {s : List α} :
    Matches r (p ++ q) s ↔ ∃ s₁ s₂, s = s₁ ++ s₂ ∧ Matches r p s₁ ∧ Matches r q s₂ := by
  induction p generalizing s with
  | nil =>
    constructor
    · exact fun h => ⟨[], s, rfl, rfl, h⟩
    · rintro ⟨s₁, s₂, rfl, rfl, h⟩
      exact h
  | cons a p ih =>
    cases a with
    | run =>
      simp only [List.cons_append, matches_run_cons, ih]
      constructor
      · rintro ⟨u, t, rfl, s₁, s₂, rfl, h₁, h₂⟩
        exact ⟨u ++ s₁, s₂, by simp, ⟨u, s₁, rfl, h₁⟩, h₂⟩
      · rintro ⟨s₁, s₂, rfl, ⟨u, t, rfl, h₁⟩, h₂⟩
        exact ⟨u, t ++ s₂, by simp, t, s₂, rfl, h₁, h₂⟩
    | one =>
      simp only [List.cons_append, matches_one_cons, ih]
      constructor
      · rintro ⟨c, t, rfl, s₁, s₂, rfl, h₁, h₂⟩
        exact ⟨c :: s₁, s₂, rfl, ⟨c, s₁, rfl, h₁⟩, h₂⟩
      · rintro ⟨s₁, s₂, rfl, ⟨c, t, rfl, h₁⟩, h₂⟩
        exact ⟨c, t ++ s₂, rfl, t, s₂, rfl, h₁, h₂⟩
    | lit b =>
      simp only [List.cons_append, matches_lit_cons, ih]
      constructor
      · rintro ⟨c, t, rfl, hc, s₁, s₂, rfl, h₁, h₂⟩
        exact ⟨c :: s₁, s₂, rfl, ⟨c, s₁, rfl, hc, h₁⟩, h₂⟩
      · rintro ⟨s₁, s₂, rfl, ⟨c, t, rfl, hc, h₁⟩, h₂⟩
        exact ⟨c, t ++ s₂, rfl, hc, t, s₂, rfl, h₁, h₂⟩

/-- A single run matches every text. -/
theorem matches_run (s : List α) : Matches r [.run] s :=
  matches_run_cons.mpr ⟨s, [], (List.append_nil s).symm, rfl⟩

/-- **A pattern between two runs matches the texts in which it occurs.** -/
theorem matches_run_append_run {p : List (Sym α)} {s : List α} :
    Matches r (.run :: p ++ [.run]) s ↔ ∃ u, u <:+: s ∧ Matches r p u := by
  rw [List.cons_append, matches_run_cons]
  constructor
  · rintro ⟨a, t, rfl, h⟩
    obtain ⟨u, b, rfl, hu, -⟩ := matches_append.mp h
    exact ⟨u, ⟨a, b, List.append_assoc a u b⟩, hu⟩
  · rintro ⟨u, ⟨a, b, rfl⟩, hu⟩
    exact ⟨a, u ++ b, List.append_assoc a u b, matches_append.mpr ⟨u, b, rfl, hu, matches_run b⟩⟩

/-- The symbol matches the letter on its own. -/
def Sym.Covers (r : α → α → Prop) : Sym α → α → Prop
  | .lit a, c => r a c
  | _, _ => True

/-- A pattern matches a text that it covers letter by letter. -/
theorem matches_of_forall₂ {p : List (Sym α)} {s : List α} (h : List.Forall₂ (Sym.Covers r) p s) :
    Matches r p s := by
  induction h with
  | nil => rfl
  | @cons a c p s hac _ ih =>
    cases a with
    | run => exact matches_run_cons.mpr ⟨[c], s, rfl, ih⟩
    | one => exact ih
    | lit a => exact ⟨hac, ih⟩

/-- The symbol matches no more than the other one does. -/
def Sym.Le (r : α → α → Prop) (a b : Sym α) : Prop := ∀ s, Matches r [a] s → Matches r [b] s

theorem Sym.le_run (a : Sym α) : Sym.Le r a .run := fun s _ => matches_run s

theorem Sym.lit_le_one (a : α) : Sym.Le r (.lit a) .one := by
  intro s h
  obtain ⟨c, t, rfl, -, ht⟩ := matches_lit_cons.mp h
  exact matches_one_cons.mpr ⟨c, t, rfl, ht⟩

/-- **Matching is monotone in the symbols.** -/
theorem Matches.mono {p q : List (Sym α)} (h : List.Forall₂ (Sym.Le r) p q) {s : List α}
    (hp : Matches r p s) : Matches r q s := by
  induction h generalizing s with
  | nil => exact hp
  | @cons a b p q hab _ ih =>
    rw [← List.singleton_append] at hp ⊢
    obtain ⟨s₁, s₂, rfl, h₁, h₂⟩ := matches_append.mp hp
    exact matches_append.mpr ⟨s₁, s₂, rfl, hab s₁ h₁, ih h₂⟩

/-- A pattern of letters matches the texts related to it letter by letter. -/
theorem matches_map_lit {w s : List α} : Matches r (w.map .lit) s ↔ List.Forall₂ r w s := by
  induction w generalizing s with
  | nil => rw [List.map_nil, matches_nil, List.forall₂_nil_left_iff]
  | cons a w ih =>
    rw [List.map_cons, matches_lit_cons, List.forall₂_cons_left_iff]
    constructor
    · rintro ⟨c, t, rfl, hc, h⟩
      exact ⟨c, t, hc, ih.mp h, rfl⟩
    · rintro ⟨c, t, hc, h, rfl⟩
      exact ⟨c, t, rfl, hc, ih.mpr h⟩

end SimpleTSDB.Wildcard
