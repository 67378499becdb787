import SimpleTSDB.Numeric

/-!
# Metrics

A datapoint, and its parser from a put line. The parser looks for three blanks and reads the
fields between them, but it does not check that a blank was found: a search that fails leaves the
field at its default and restarts at position 0, since `npos + 1` wraps. What it makes of a line
therefore depends on the number of blanks, and the four shapes of a line (`Shape`) get one
specification each (`ofLine_blankless`, `ofLine_one`, `ofLine_two`, `ofLine_many`). It never throws
(`ofLine_isSome`).
-/

namespace SimpleTSDB

/-- `class Metric`. -/
structure Metric where
  name : Str := []
  timestamp : BitVec 64 := 0
  value : Double := .fin false 0 0
  tags : Str := []
  isOk : Bool := false
  error : Str := []
  deriving DecidableEq, Repr

namespace Metric

/-- `Metric(name, timestamp, value, tags)`. -/
def ofFields (name : Str) (timestamp : BitVec 64) (value : Double) (tags : Str) : Metric :=
  if name.length = 0 ∨ tags.length = 0 then { timestamp, value }  -- bad metric
  else { name, timestamp, value, tags, isOk := true }

/-- `IsValid(error)`; the error text is the field `error`. -/
def isValid (m : Metric) : Bool := m.isOk

/-! ## The parser -/

/-- The timestamp field: `error` is the early return. -/
def readTimestamp (m : Metric) (text : Str) : Except Metric Metric :=
  let (timestamp, rest) := strtoull (cstr text)
  if rest ≠ [] then
    let err := "Invalid timestamp format: ".toList ++ showNat timestamp.toNat ++ ", '".toList ++
      rest ++ "'".toList
    .error { m with timestamp := timestamp, error := err }
  else .ok { m with timestamp := timestamp }

/-- The value field: `error` is the early return. -/
def readValue (m : Metric) (text : Str) : Except Metric Metric :=
  let (value, rest) := strtod (cstr text)
  if rest ≠ [] then
    let err := "Invalid value: ".toList ++ showDouble value ++ ", '".toList ++ rest ++ "'".toList
    .error { m with value := value, error := err }
  else .ok { m with value := value }

/-- `if (pos != npos)`: read the field between `start` and `pos`. -/
def readField (read : Metric → Str → Except Metric Metric) (line : Str) (start : ℕ)
    (pos : Option ℕ) (m : Metric) : Option (Except Metric Metric) :=
  match pos with
  | some p => (substr line start (p - start)).map (read m)
  | none => some (.ok m)

/-- The end of the constructor: the tags, and the test of name and tags. -/
def finish (m : Metric) (tags : Str) : Metric :=
  let m := { m with tags := tags }
  if 0 < m.name.length ∧ 0 < m.tags.length then { m with isOk := true } else m

/-- `Metric(line)`; `none` if a `substr` throws. -/
def ofLine (line : Str) : Option Metric := do
  let start := 0
  let pos := find line ' ' start
  let m : Metric ← match pos with
    | some p => (substr line start p).map fun name => { name }
    | none => some {}
  let start := next pos
  let pos := find line ' ' (next pos)
  match ← readField readTimestamp line start pos m with
  | .error m => return m
  | .ok m =>
    let start := next pos
    let pos := find line ' ' start
    match ← readField readValue line start pos m with
    | .error m => return m
    | .ok m =>
      let start := next pos
      return m.finish (← substrFrom line start)

/-! ## The shapes of a line -/

/-- A line by its number of blanks, up to three. -/
inductive Shape : Str → Prop
  | blankless {x : Str} (hx : ' ' ∉ x) : Shape x
  | one {x y : Str} (hx : ' ' ∉ x) (hy : ' ' ∉ y) : Shape (x ++ ' ' :: y)
  | two {x y z : Str} (hx : ' ' ∉ x) (hy : ' ' ∉ y) (hz : ' ' ∉ z) :
      Shape (x ++ ' ' :: (y ++ ' ' :: z))
  | many {a b c : Str} (ha : ' ' ∉ a) (hb : ' ' ∉ b) (hc : ' ' ∉ c) (d : Str) :
      Shape (a ++ ' ' :: (b ++ ' ' :: (c ++ ' ' :: d)))

theorem shape (line : Str) : Shape line := by
  by_cases h₀ : ' ' ∈ line
  · obtain ⟨a, r₁, rfl, ha⟩ := List.eq_append_cons_of_mem h₀
    by_cases h₁ : ' ' ∈ r₁
    · obtain ⟨b, r₂, rfl, hb⟩ := List.eq_append_cons_of_mem h₁
      by_cases h₂ : ' ' ∈ r₂
      · obtain ⟨c, d, rfl, hc⟩ := List.eq_append_cons_of_mem h₂
        exact .many ha hb hc d
      · exact .two ha hb h₂
    · exact .one ha h₁
  · exact .blankless h₀

/-- Without a blank the whole line becomes the tags, and there is no name. -/
theorem ofLine_blankless {x : Str} (hx : ' ' ∉ x) : ofLine x = some { tags := x } := by
  have h : find x ' ' 0 = none := find_of_not_mem hx
  simp [ofLine, h, readField, finish]

/-- **One blank.** The first word is the name and is read again as the value; the timestamp stays
0. -/
theorem ofLine_one {x y : Str} (hx : ' ' ∉ x) (hy : ' ' ∉ y) :
    ofLine (x ++ ' ' :: y) = some (match readValue { name := x } x with
      | .error m => m
      | .ok m => m.finish y) := by
  have h₁ : find (x ++ ' ' :: y) ' ' 0 = some x.length := by
    simpa using find_append (p := []) hx y rfl
  have h₂ : find (x ++ ' ' :: y) ' ' (x.length + 1) = none := by
    simpa using find_of_not_mem_append (p := x ++ [' ']) hy (by simp)
  have s₁ : substr (x ++ ' ' :: y) 0 x.length = some x := by
    simpa using substr_append (p := []) (' ' :: y) rfl rfl
  have s₂ : substrFrom (x ++ ' ' :: y) (x.length + 1) = some y := by
    simpa using substrFrom_append (p := x ++ [' ']) y (by simp)
  simp only [ofLine, h₁, h₂, s₁, readField, next_some, next_none, Option.map_some,
    Option.bind_eq_bind, Option.bind_some, Nat.sub_zero, s₂]
  cases readValue { name := x } x <;> rfl

/-- **Two blanks.** The first two words are name and timestamp; the value stays 0 and the whole
line becomes the tags. -/
theorem ofLine_two {x y z : Str} (hx : ' ' ∉ x) (hy : ' ' ∉ y) (hz : ' ' ∉ z) :
    ofLine (x ++ ' ' :: (y ++ ' ' :: z)) = some (match readTimestamp { name := x } y with
      | .error m => m
      | .ok m => m.finish (x ++ ' ' :: (y ++ ' ' :: z))) := by
  set line := x ++ ' ' :: (y ++ ' ' :: z) with hline
  have h₁ : find line ' ' 0 = some x.length := by
    simpa using find_append (p := []) hx (y ++ ' ' :: z) rfl
  have h₂ : find line ' ' (x.length + 1) = some (x.length + 1 + y.length) := by
    simpa [hline] using find_append (p := x ++ [' ']) hy z (i := x.length + 1) (by simp)
  have h₃ : find line ' ' (x.length + 1 + y.length + 1) = none := by
    simpa [hline] using find_of_not_mem_append (p := x ++ ' ' :: (y ++ [' '])) hz
      (i := x.length + 1 + y.length + 1) (by simp; omega)
  have s₁ : substr line 0 x.length = some x := by
    simpa using substr_append (p := []) (' ' :: (y ++ ' ' :: z)) rfl rfl
  have s₂ : substr line (x.length + 1) y.length = some y := by
    simpa [hline] using substr_append (p := x ++ [' ']) (' ' :: z) (i := x.length + 1)
      (by simp) rfl
  simp only [ofLine, h₁, h₂, h₃, s₁, s₂, readField, next_some, next_none, Option.map_some,
    Option.bind_eq_bind, Option.bind_some, Nat.add_sub_cancel_left, substrFrom_zero]
  cases readTimestamp { name := x } y <;> rfl

/-- **Three blanks or more.** The fields are the words before the first three blanks and the rest
of the line. -/
theorem ofLine_many {a b c : Str} (ha : ' ' ∉ a) (hb : ' ' ∉ b) (hc : ' ' ∉ c) (d : Str) :
    ofLine (a ++ ' ' :: (b ++ ' ' :: (c ++ ' ' :: d))) =
      some (match readTimestamp { name := a } b with
        | .error m => m
        | .ok m => match m.readValue c with
          | .error m => m
          | .ok m => m.finish d) := by
  set line := a ++ ' ' :: (b ++ ' ' :: (c ++ ' ' :: d)) with hline
  have h₁ : find line ' ' 0 = some a.length := by
    simpa using find_append (p := []) ha (b ++ ' ' :: (c ++ ' ' :: d)) rfl
  have h₂ : find line ' ' (a.length + 1) = some (a.length + 1 + b.length) := by
    simpa [hline] using find_append (p := a ++ [' ']) hb (c ++ ' ' :: d)
      (i := a.length + 1) (by simp)
  have h₃ : find line ' ' (a.length + 1 + b.length + 1) =
      some (a.length + 1 + b.length + 1 + c.length) := by
    simpa [hline] using find_append (p := a ++ ' ' :: (b ++ [' '])) hc d
      (i := a.length + 1 + b.length + 1) (by simp; omega)
  have s₁ : substr line 0 a.length = some a := by
    simpa using substr_append (p := []) (' ' :: (b ++ ' ' :: (c ++ ' ' :: d))) rfl rfl
  have s₂ : substr line (a.length + 1) b.length = some b := by
    simpa [hline] using substr_append (p := a ++ [' ']) (' ' :: (c ++ ' ' :: d))
      (i := a.length + 1) (by simp) rfl
  have s₃ : substr line (a.length + 1 + b.length + 1) c.length = some c := by
    simpa [hline] using substr_append (p := a ++ ' ' :: (b ++ [' '])) (' ' :: d)
      (i := a.length + 1 + b.length + 1) (by simp; omega) rfl
  have s₄ : substrFrom line (a.length + 1 + b.length + 1 + c.length + 1) = some d := by
    simpa [hline] using substrFrom_append (p := a ++ ' ' :: (b ++ ' ' :: (c ++ [' ']))) d
      (i := a.length + 1 + b.length + 1 + c.length + 1) (by simp; omega)
  simp only [ofLine, h₁, h₂, h₃, s₁, s₂, s₃, readField, next_some, Option.map_some,
    Option.bind_eq_bind, Option.bind_some, Nat.add_sub_cancel_left]
  cases readTimestamp { name := a } b with
  | error m => rfl
  | ok m =>
    cases h : m.readValue c with
    | error m => simp [h]
    | ok m => simp [h, s₄]

/-- **The parser never throws.** -/
theorem ofLine_isSome (line : Str) : ∃ m, ofLine line = some m := by
  cases shape line with
  | blankless hx => exact ⟨_, ofLine_blankless hx⟩
  | one hx hy => exact ⟨_, ofLine_one hx hy⟩
  | two hx hy hz => exact ⟨_, ofLine_two hx hy hz⟩
  | many ha hb hc d => exact ⟨_, ofLine_many ha hb hc d⟩

/-! ## The accepted lines -/

/-- The metric of a line that the parser finds valid. -/
def accepted (line : Str) : Option Metric := (ofLine line).filter isValid

theorem accepted_blankless {x : Str} (hx : ' ' ∉ x) : accepted x = none := by
  simp [accepted, ofLine_blankless hx, isValid]

/-- The parser accepts a line with one blank when `strtod` reads all of the first word. -/
theorem accepted_one {x y : Str} (hx : ' ' ∉ x) (hy : ' ' ∉ y) :
    accepted (x ++ ' ' :: y) =
      if x ≠ [] ∧ y ≠ [] ∧ (strtod (cstr x)).2 = [] then
        some { name := x, value := (strtod (cstr x)).1, tags := y, isOk := true }
      else none := by
  rw [accepted, ofLine_one hx hy, readValue]
  by_cases hv : (strtod (cstr x)).2 = []
  · by_cases hn : x ≠ [] ∧ y ≠ []
    · simp [hv, hn, isValid, finish, List.length_pos_iff]
    · simp [hv, isValid, finish, List.length_pos_iff, hn]
  · simp [hv, isValid]

/-- The parser accepts a line with two blanks when `strtoull` reads all of the second word. -/
theorem accepted_two {x y z : Str} (hx : ' ' ∉ x) (hy : ' ' ∉ y) (hz : ' ' ∉ z) :
    accepted (x ++ ' ' :: (y ++ ' ' :: z)) =
      if x ≠ [] ∧ (strtoull (cstr y)).2 = [] then
        some { name := x, timestamp := (strtoull (cstr y)).1,
               tags := x ++ ' ' :: (y ++ ' ' :: z), isOk := true }
      else none := by
  rw [accepted, ofLine_two hx hy hz, readTimestamp]
  by_cases hv : (strtoull (cstr y)).2 = []
  · by_cases hn : x ≠ []
    · simp [hv, hn, isValid, finish, List.length_pos_iff]
    · simp [hv, isValid, finish, List.length_pos_iff, hn]
  · simp [hv, isValid]

/-- **Three blanks or more**: the parser accepts a line when name and tags are not empty and
`strtoull` and `strtod` read all of their words. -/
theorem accepted_many {a b c : Str} (ha : ' ' ∉ a) (hb : ' ' ∉ b) (hc : ' ' ∉ c) (d : Str) :
    accepted (a ++ ' ' :: (b ++ ' ' :: (c ++ ' ' :: d))) =
      if a ≠ [] ∧ d ≠ [] ∧ (strtoull (cstr b)).2 = [] ∧ (strtod (cstr c)).2 = [] then
        some { name := a, timestamp := (strtoull (cstr b)).1, value := (strtod (cstr c)).1,
               tags := d, isOk := true }
      else none := by
  rw [accepted, ofLine_many ha hb hc, readTimestamp]
  by_cases hb' : (strtoull (cstr b)).2 = []
  · by_cases hc' : (strtod (cstr c)).2 = []
    · by_cases hn : a ≠ [] ∧ d ≠ []
      · simp [hb', hc', hn, isValid, finish, readValue, List.length_pos_iff]
      · simp [hb', hc', isValid, finish, readValue, List.length_pos_iff, hn]
    · simp [hb', hc', isValid, readValue]
  · simp [hb', isValid]

theorem accepted_eq_some_iff {line : Str} {m : Metric} :
    accepted line = some m ↔ ofLine line = some m ∧ m.isValid = true := by
  simp [accepted, Option.filter_eq_some_iff]

/-- The lines that the parser accepts, with one blank, two, or three and more, and the metric of
each. -/
inductive AcceptedAs : Str → Metric → Prop
  | one {x y : Str} (hx : ' ' ∉ x) (hy : ' ' ∉ y) (hname : x ≠ []) (htags : y ≠ [])
      (hvalue : (strtod (cstr x)).2 = []) :
      AcceptedAs (x ++ ' ' :: y)
        { name := x, value := (strtod (cstr x)).1, tags := y, isOk := true }
  | two {x y z : Str} (hx : ' ' ∉ x) (hy : ' ' ∉ y) (hz : ' ' ∉ z) (hname : x ≠ [])
      (htime : (strtoull (cstr y)).2 = []) :
      AcceptedAs (x ++ ' ' :: (y ++ ' ' :: z))
        { name := x, timestamp := (strtoull (cstr y)).1,
          tags := x ++ ' ' :: (y ++ ' ' :: z), isOk := true }
  | many {a b c d : Str} (ha : ' ' ∉ a) (hb : ' ' ∉ b) (hc : ' ' ∉ c) (hname : a ≠ [])
      (htags : d ≠ []) (htime : (strtoull (cstr b)).2 = []) (hvalue : (strtod (cstr c)).2 = []) :
      AcceptedAs (a ++ ' ' :: (b ++ ' ' :: (c ++ ' ' :: d)))
        { name := a, timestamp := (strtoull (cstr b)).1, value := (strtod (cstr c)).1,
          tags := d, isOk := true }

theorem acceptedAs {line : Str} {m : Metric} (h : accepted line = some m) : AcceptedAs line m := by
  cases shape line with
  | blankless hx =>
    rw [accepted_blankless hx] at h
    cases h
  | one hx hy =>
    rw [accepted_one hx hy, Option.ite_none_right_eq_some] at h
    obtain ⟨⟨hname, htags, hvalue⟩, heq⟩ := h
    exact Option.some.inj heq ▸ .one hx hy hname htags hvalue
  | two hx hy hz =>
    rw [accepted_two hx hy hz, Option.ite_none_right_eq_some] at h
    obtain ⟨⟨hname, htime⟩, heq⟩ := h
    exact Option.some.inj heq ▸ .two hx hy hz hname htime
  | many ha hb hc d =>
    rw [accepted_many ha hb hc, Option.ite_none_right_eq_some] at h
    obtain ⟨⟨hname, htags, htime, hvalue⟩, heq⟩ := h
    exact Option.some.inj heq ▸ .many ha hb hc hname htags htime hvalue

/-- The tags of an accepted line are its end. -/
theorem tags_suffix_of_accepted {line : Str} {m : Metric} (h : accepted line = some m) :
    m.tags <:+ line := by
  cases acceptedAs h with
  | one => exact (List.suffix_cons _ _).trans (List.suffix_append _ _)
  | two => exact List.suffix_refl _
  | @many a b c => exact ⟨a ++ ' ' :: (b ++ ' ' :: (c ++ [' '])), by simp⟩

end Metric

end SimpleTSDB
