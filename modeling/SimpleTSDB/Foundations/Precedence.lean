import Mathlib.Data.List.Basic

/-!
# Boolean expressions with precedence

The usual grammar of conditions: `and` binds tighter than `or`, both associate to the left, and
parentheses group. The parser is a deterministic machine with a stack of open parentheses;
`parse_of_derives` shows that it reads every word of the grammar as the expression derived.
-/

namespace SimpleTSDB.Precedence

variable {α : Type*} {p : α → Prop}

/-- A condition over atoms. -/
inductive Expr (α : Type*) where
  | atom (a : α)
  | and (l r : Expr α)
  | or (l r : Expr α)
deriving DecidableEq

/-- The truth of a condition, given the truth of the atoms. -/
def Expr.Holds (p : α → Prop) : Expr α → Prop
  | .atom a => p a
  | .and l r => l.Holds p ∧ r.Holds p
  | .or l r => l.Holds p ∨ r.Holds p

instance Expr.Holds.instDecidable [DecidablePred p] : (e : Expr α) → Decidable (e.Holds p)
  | .atom a => inferInstanceAs (Decidable (p a))
  | .and l r =>
    have := instDecidable l
    have := instDecidable r
    inferInstanceAs (Decidable (l.Holds p ∧ r.Holds p))
  | .or l r =>
    have := instDecidable l
    have := instDecidable r
    inferInstanceAs (Decidable (l.Holds p ∨ r.Holds p))

/-- The atoms of a condition, from left to right. -/
def Expr.atoms : Expr α → List α
  | .atom a => [a]
  | .and l r => l.atoms ++ r.atoms
  | .or l r => l.atoms ++ r.atoms

/-- The height of a condition as a tree, if its atoms are trees of height `k`. -/
def Expr.height (k : ℕ) : Expr α → ℕ
  | .atom _ => k
  | .and l r => max (l.height k) (r.height k) + 1
  | .or l r => max (l.height k) (r.height k) + 1

/-- A symbol of the text of a condition. -/
inductive Tok (α : Type*) where
  | atom (a : α)
  | and
  | or
  | lparen
  | rparen
deriving DecidableEq

/-! ## The grammar -/

/-- The levels of the grammar, the tightest first. -/
inductive Level where
  | prim
  | conj
  | disj

/-- The word derives the expression at a level of the grammar. -/
inductive Derives : Level → List (Tok α) → Expr α → Prop
  | atom (a : α) : Derives .prim [.atom a] (.atom a)
  | paren {w e} : Derives .disj w e → Derives .prim (.lparen :: w ++ [.rparen]) e
  | prim {w e} : Derives .prim w e → Derives .conj w e
  | and {w e w' e'} : Derives .conj w e → Derives .prim w' e' →
      Derives .conj (w ++ .and :: w') (.and e e')
  | conj {w e} : Derives .conj w e → Derives .disj w e
  | or {w e w' e'} : Derives .disj w e → Derives .conj w' e' →
      Derives .disj (w ++ .or :: w') (.or e e')

/-- A chain of conjuncts derives the conjunction that nests to the left. -/
theorem derives_and_chain {w : List (Tok α)} {e : Expr α} {l : List (List (Tok α) × Expr α)}
    (h : Derives .conj w e) (hs : ∀ q ∈ l, Derives .prim q.1 q.2) :
    Derives .conj (w ++ l.flatMap fun q => .and :: q.1) ((l.map Prod.snd).foldl .and e) := by
  induction l generalizing w e with
  | nil => simpa using h
  | cons q l ih =>
    rw [List.forall_mem_cons] at hs
    simpa using ih (.and h hs.1) hs.2

/-- A chain of disjuncts derives the disjunction that nests to the left. -/
theorem derives_or_chain {w : List (Tok α)} {e : Expr α} {l : List (List (Tok α) × Expr α)}
    (h : Derives .disj w e) (hs : ∀ q ∈ l, Derives .conj q.1 q.2) :
    Derives .disj (w ++ l.flatMap fun q => .or :: q.1) ((l.map Prod.snd).foldl .or e) := by
  induction l generalizing w e with
  | nil => simpa using h
  | cons q l ih =>
    rw [List.forall_mem_cons] at hs
    simpa using ih (.or h hs.1) hs.2

theorem holds_foldl_and {e : Expr α} {es : List (Expr α)} :
    (es.foldl .and e).Holds p ↔ e.Holds p ∧ ∀ x ∈ es, x.Holds p := by
  induction es generalizing e with
  | nil => simp
  | cons x es ih => simp [ih, Expr.Holds, and_assoc]

theorem holds_foldl_or {e : Expr α} {es : List (Expr α)} :
    (es.foldl .or e).Holds p ↔ e.Holds p ∨ ∃ x ∈ es, x.Holds p := by
  induction es generalizing e with
  | nil => simp
  | cons x es ih => simp [ih, Expr.Holds, or_assoc]

theorem atoms_foldl_and {e : Expr α} {es : List (Expr α)} :
    (es.foldl .and e).atoms = e.atoms ++ es.flatMap Expr.atoms := by
  induction es generalizing e with
  | nil => simp
  | cons x es ih => simp [ih, Expr.atoms]

theorem atoms_foldl_or {e : Expr α} {es : List (Expr α)} :
    (es.foldl .or e).atoms = e.atoms ++ es.flatMap Expr.atoms := by
  induction es generalizing e with
  | nil => simp
  | cons x es ih => simp [ih, Expr.atoms]

/-- A chain of conjuncts grows by one level with each of them, and more if one is higher. -/
theorem height_foldl_and (k : ℕ) {e : Expr α} {es : List (Expr α)} :
    (es.foldl .and e).height k = es.foldl (fun h x => max h (x.height k) + 1) (e.height k) := by
  induction es generalizing e with
  | nil => rfl
  | cons x es ih => exact ih

/-- A chain of atoms is as high as it is long. -/
theorem height_foldl_or_atom {k : ℕ} {e : Expr α} (h : k ≤ e.height k) (as : List α) :
    ((as.map Expr.atom).foldl .or e).height k = e.height k + as.length := by
  induction as generalizing e with
  | nil => rfl
  | cons a as ih =>
    have hor : (e.or (.atom a)).height k = e.height k + 1 := by
      rw [Expr.height, Expr.height, Nat.max_eq_left h]
    rw [List.map_cons, List.foldl_cons, ih (by omega), hor, List.length_cons]
    omega

/-! ## The parser -/

/-- What an unfinished operand waits for: the disjunction and the conjunction read before it. -/
structure Frame (α : Type*) where
  disj : Option (Expr α)
  conj : Option (Expr α)

/-- The parser expects an operand, or has read a conjunction and expects an operator. The stack
holds one frame for each open parenthesis. -/
inductive State (α : Type*) where
  | operand (f : Frame α) (stack : List (Frame α))
  | operator (e : Expr α) (disj : Option (Expr α)) (stack : List (Frame α))

/-- The operand joined to the expression before it. -/
def joined (op : Expr α → Expr α → Expr α) (l : Option (Expr α)) (r : Expr α) : Expr α :=
  l.elim r fun l => op l r

/-- One step of the parser. -/
def step : State α → Tok α → Option (State α)
  | .operand f st, .atom a => some (.operator (joined .and f.conj (.atom a)) f.disj st)
  | .operand f st, .lparen => some (.operand ⟨none, none⟩ (f :: st))
  | .operator e d st, .and => some (.operand ⟨d, some e⟩ st)
  | .operator e d st, .or => some (.operand ⟨some (joined .or d e), none⟩ st)
  | .operator e d (f :: st), .rparen =>
    some (.operator (joined .and f.conj (joined .or d e)) f.disj st)
  | _, _ => none

/-- The expression of a state in which all parentheses are closed. -/
def finish : State α → Option (Expr α)
  | .operator e d [] => some (joined .or d e)
  | _ => none

/-- The condition that the word spells; `none` is a syntax error. -/
def parse (w : List (Tok α)) : Option (Expr α) :=
  (w.foldlM step (.operand ⟨none, none⟩ [])).bind finish

/-- Where the parser is after reading a word of the level from an operand position: a primary or a
conjunction completes the frame, a disjunction leaves its last conjunction open. -/
def Reads : Level → List (Tok α) → Expr α → Prop
  | .prim, w, e => ∀ f st, w.foldlM step (.operand f st) =
      some (.operator (joined .and f.conj e) f.disj st)
  | .conj, w, e => ∀ d st, w.foldlM step (.operand ⟨d, none⟩ st) = some (.operator e d st)
  | .disj, w, e => ∃ d e', joined .or d e' = e ∧ ∀ st,
      w.foldlM step (.operand ⟨none, none⟩ st) = some (.operator e' d st)

/-- The parser follows every derivation. -/
theorem reads_of_derives {l : Level} {w : List (Tok α)} {e : Expr α} (h : Derives l w e) :
    Reads l w e := by
  induction h with
  | atom a => exact fun f st => rfl
  | paren _ ih =>
    obtain ⟨d, e', rfl, ih⟩ := ih
    intro f st
    simp [step, ih]
  | prim _ ih => exact fun d st => ih ⟨d, none⟩ st
  | @and w e w' e' _ _ ih ih' =>
    intro d st
    simpa [ih d st, step, joined] using ih' ⟨d, some e⟩ st
  | conj _ ih => exact ⟨none, _, rfl, fun st => ih none st⟩
  | or _ _ ih ih' =>
    obtain ⟨d, e', rfl, ih⟩ := ih
    -- the disjunction read so far waits in the frame of its last conjunction
    refine ⟨some (joined .or d e'), _, rfl, fun st => ?_⟩
    simpa [ih st, step] using ih' (some (joined .or d e')) st

/-- **The parser reads every word of the grammar as the expression derived.** -/
theorem parse_of_derives {w : List (Tok α)} {e : Expr α} (h : Derives .disj w e) :
    parse w = some e := by
  obtain ⟨d, e', rfl, hw⟩ := reads_of_derives h
  rw [parse, hw, Option.bind_some, finish]

end SimpleTSDB.Precedence
