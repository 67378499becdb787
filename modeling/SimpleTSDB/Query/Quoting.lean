import SimpleTSDB.Query.Meaning

/-!
# Filters inside quotes

The text of a statement with the origin of every character: `tracedText` marks the characters that
come from the keys and the values of the filters (`tracedText_erase` says that it is the text of the
statement). In a confined statement these characters stand inside text literals, between a
documented aggregate and the end. A quote in a filter stays inside its literal exactly when quotes
come in pairs (`isBody_iff`). A scanner over the marked text accepts the conditions of the filters
exactly when all filters are harmless (`scan_conds_iff`).
-/

namespace SimpleTSDB.Query

open Delimited Transducer Sqlite

/-! ## The origin of the characters -/

/-- A text with the characters marked that come from filters. -/
abbrev Traced := List (Char × Bool)

/-- A text of the program or of the aggregator. -/
def plain (s : Str) : Traced := s.map (·, false)

/-- A text of a filter. -/
def marked (s : Str) : Traced := s.map (·, true)

/-- The characters of a marked text. -/
def erase (t : Traced) : Str := t.map Prod.fst

@[simp] theorem erase_plain (s : Str) : erase (plain s) = s := by
  simp [erase, plain, Function.comp_def]

@[simp] theorem erase_marked (s : Str) : erase (marked s) = s := by
  simp [erase, marked, Function.comp_def]

@[simp] theorem erase_append (s t : Traced) : erase (s ++ t) = erase s ++ erase t :=
  List.map_append

theorem plain_append (s t : Str) : plain (s ++ t) = plain s ++ plain t := List.map_append

/-- `tagLike`, with origins. -/
def tracedTagLike (key value : Str) : Traced :=
  plain "tags like '%".toList ++ (marked key ++ (plain "=".toList ++ (marked value ++
    plain "%'".toList)))

/-- `filterCond`, with origins. -/
def tracedCond (key value : Str) : Traced :=
  let orparts := splitString value '|'
  if 0 < orparts.length then
    plain "and (".toList ++ ((plain " or ".toList).intercalate (orparts.map (tracedTagLike key)) ++
      plain ")".toList)
  else tracedTagLike key value

/-- `condsText`, with origins. -/
def tracedConds (kept : List (Str × Str)) : Traced :=
  kept.flatMap fun p => plain " ".toList ++ tracedCond p.1 p.2

/-- The text of the statement, with origins. -/
def tracedText (q : Str) : Traced :=
  match header q with
  | none => []
  | some (agg, tags) => plain (headText agg) ++ (tracedConds (keptFilters tags) ++ plain tailText)

theorem erase_tagLike (key value : Str) : erase (tracedTagLike key value) = tagLike key value := by
  unfold tracedTagLike tagLike
  simp

theorem erase_cond (key value : Str) : erase (tracedCond key value) = filterCond key value := by
  rw [tracedCond, filterCond]
  split
  · have h : (splitString value '|').map (List.map Prod.fst ∘ tracedTagLike key) =
        (splitString value '|').map (tagLike key) :=
      List.map_congr_left fun v _ => erase_tagLike key v
    rw [erase_append, erase_append, erase_plain, erase_plain, erase, map_intercalate,
      List.map_map, h, ← List.append_assoc]
    rfl
  · exact erase_tagLike key value

theorem erase_conds (kept : List (Str × Str)) : erase (tracedConds kept) = condsText kept := by
  rw [erase, tracedConds, List.map_flatMap, condsText]
  refine congrArg (List.flatMap · kept) (funext fun p => ?_)
  exact congrArg (' ' :: ·) (erase_cond p.1 p.2)

/-- **The marked text is the text of the statement.** -/
theorem tracedText_erase (q : Str) : erase (tracedText q) = (ofText q).query := by
  rw [tracedText, ofText_query]
  cases header q with
  | none => rfl
  | some p => simp only [erase_append, erase_plain, erase_conds]

/-! ## Confined statements -/

/-- The body of a literal: the tokenizer, once inside a literal, is still inside it at the end. -/
def IsBody (b : Str) : Prop := ∃ s, run lexStep (.literal []) b = some (.literal s, [])

/-- A conjunct with the bodies of its literals. -/
def conjunct (bodies : List Traced) : Traced :=
  plain " and (".toList ++ ((plain " or ".toList).intercalate (bodies.map fun b =>
    plain "tags like '".toList ++ (b ++ plain "'".toList)) ++ plain ")".toList)

/-- A statement of a documented aggregate with filter conjuncts, in which all characters that come
from filters stand inside literals. -/
def ConfinedText (t : Traced) : Prop :=
  ∃ (agg : Aggregator) (conjuncts : List (List Traced)),
    t = plain (headText agg.text) ++ (conjuncts.flatMap conjunct ++ plain tailText) ∧
      ∀ bodies ∈ conjuncts, bodies ≠ [] ∧ ∀ b ∈ bodies, IsBody (erase b)

/-- The query is refused or its statement is confined. -/
def Confined (q : Str) : Prop := (ofText q).query ≠ [] → ConfinedText (tracedText q)

/-- Do the quotes of the text come in pairs? `odd` is set behind the first quote of a pair. -/
def quotesPaired : Bool → Str → Bool
  | odd, [] => !odd
  | odd, c :: s => if c = '\'' then quotesPaired (!odd) s else !odd && quotesPaired false s

/-- The filter has a value, and the quotes in its key and in each alternative come in pairs. -/
def Harmless (p : Str × Str) : Prop :=
  p.2 ≠ [] ∧ quotesPaired false p.1 = true ∧
    ∀ v ∈ splitString p.2 '|', quotesPaired false v = true

/-- The tokenizer inside a literal, or behind the first quote of a pair. -/
def literalMode (odd : Bool) (s : Str) : Mode := if odd then .quote s else .literal s

/-- The tokenizer stays inside the literal exactly when quotes come in pairs. -/
theorem stays_iff (b : Str) (odd : Bool) (s : Str) :
    (∃ t, run lexStep (literalMode odd s) b = some (.literal t, [])) ↔
      quotesPaired odd b = true := by
  induction b generalizing odd s with
  | nil => cases odd <;> simp [literalMode, quotesPaired]
  | cons c b ih =>
    by_cases hc : c = '\''
    · subst hc
      cases odd with
      | false =>
        have h : lexStep (literalMode false s) '\'' = some (literalMode true s, []) := rfl
        rw [run_cons_of_some h]
        simpa [quotesPaired] using ih true s
      | true =>
        have h : lexStep (literalMode true s) '\'' =
          some (literalMode false (s ++ ['\'']), []) := rfl
        rw [run_cons_of_some h]
        simpa [quotesPaired] using ih false (s ++ ['\''])
    · cases odd with
      | false =>
        have h : lexStep (literalMode false s) c = some (literalMode false (s ++ [c]), []) := by
          simp [literalMode, lexStep, hc]
        rw [run_cons_of_some h]
        simpa [quotesPaired, hc] using ih false (s ++ [c])
      | true =>
        -- the literal has ended, and its token is among the outputs
        simp only [quotesPaired, hc, if_false, Bool.not_true, Bool.false_and, Bool.false_eq_true,
          iff_false, not_exists]
        intro t ht
        obtain ⟨s', o₁, o₂, h₁, -, ho⟩ := run_cons_eq_some_iff.mp ht
        simp only [literalMode, if_true, lexStep, hc, if_false, lexFlush,
          Option.map_eq_some_iff, Prod.mk.injEq] at h₁
        obtain ⟨_, _, _, rfl⟩ := h₁
        simp at ho

theorem isBody_iff {b : Str} : IsBody b ↔ quotesPaired false b = true := stays_iff b false []

theorem quotesPaired_append {odd : Bool} {s : Str} (h : quotesPaired odd s = true) (t : Str) :
    quotesPaired odd (s ++ t) = quotesPaired false t := by
  induction s generalizing odd with
  | nil =>
    cases odd with
    | false => rfl
    | true => cases h
  | cons c s ih =>
    by_cases hc : c = '\''
    · simp only [quotesPaired, if_pos hc, List.cons_append] at h ⊢
      exact ih h
    · simp only [quotesPaired, if_neg hc, List.cons_append, Bool.and_eq_true] at h ⊢
      rw [h.1, Bool.true_and, ih h.2]

/-! ## The scanner -/

/-- Where the scanner is behind the time bounds: behind a conjunct, behind the blank that follows
it, in the text between literals, in a literal, or behind a quote in a literal. -/
inductive ScanState where
  | clause
  | joiner
  | outside
  | inside
  | quote
deriving DecidableEq

/-- One character of the marked text. Outside literals there is no marked character and no `M`, and
a literal is followed by a blank or a parenthesis. -/
def scanStep : ScanState → Char × Bool → Option ScanState
  | .clause, p => if p = (' ', false) then some .joiner else none
  | .joiner, p => if p = ('a', false) ∨ p = ('g', false) then some .outside else none
  | .outside, p =>
    if p.2 ∨ p.1 = 'M' then none
    else if p.1 = '\'' then some .inside
    else if p.1 = ')' then some .clause
    else some .outside
  | .inside, p => some (if p.1 = '\'' then .quote else .inside)
  | .quote, p =>
    if p.1 = '\'' then some .inside
    else if p = (' ', false) then some .outside
    else if p = (')', false) then some .clause
    else none

/-- The state behind a marked text; `none` is a refusal. -/
def scan (s : ScanState) (t : Traced) : Option ScanState := t.foldlM scanStep s

theorem scan_cons (s : ScanState) (p : Char × Bool) (t : Traced) :
    scan s (p :: t) = (scanStep s p).bind (scan · t) := rfl

theorem scan_append {s t : ScanState} {a : Traced} (h : scan s a = some t) (b : Traced) :
    scan s (a ++ b) = scan t b := by
  rw [scan, List.foldlM_append, ← scan, h]
  rfl

/-- The scanner in a literal, or behind the first quote of a pair. -/
def literalState (odd : Bool) : ScanState := if odd then .quote else .inside

/-- The scanner stays inside a literal while quotes come in pairs. -/
theorem scan_body {odd : Bool} {b : Traced} (h : quotesPaired odd (erase b) = true) :
    scan (literalState odd) b = some .inside := by
  induction b generalizing odd with
  | nil =>
    cases odd with
    | false => rfl
    | true => cases h
  | cons p b ih =>
    change quotesPaired odd (p.1 :: erase b) = true at h
    by_cases hp : p.1 = '\''
    · rw [quotesPaired, if_pos hp] at h
      have hstep : scanStep (literalState odd) p = some (literalState !odd) := by
        cases odd <;> simp [literalState, scanStep, hp]
      rw [scan_cons, hstep, Option.bind_some, ih h]
    · rw [quotesPaired, if_neg hp, Bool.and_eq_true, Bool.not_eq_true'] at h
      obtain ⟨rfl, h⟩ := h
      have hstep : scanStep (literalState false) p = some (literalState false) := by
        simp [literalState, scanStep, hp]
      rw [scan_cons, hstep, Option.bind_some, ih h]

/-- A text of a filter, in a literal and before a fixed character, is accepted exactly when its
quotes come in pairs. -/
theorem scan_marked_iff {odd : Bool} {s : Str} {c : Char} (hc : c ∉ "' )".toList) {r : Traced}
    {t : ScanState} : scan (literalState odd) (marked s ++ (c, false) :: r) = some t ↔
      quotesPaired odd s = true ∧ scan .inside r = some t := by
  have hne : c ≠ '\'' ∧ c ≠ ' ' ∧ c ≠ ')' := by simpa using hc
  induction s generalizing odd with
  | nil => cases odd <;> simp [marked, scan_cons, literalState, scanStep, quotesPaired, hne]
  | cons a s ih =>
    have hcons : marked (a :: s) ++ (c, false) :: r =
      (a, true) :: (marked s ++ (c, false) :: r) := rfl
    rw [hcons, scan_cons]
    by_cases ha : a = '\''
    · have hstep : scanStep (literalState odd) (a, true) = some (literalState !odd) := by
        cases odd <;> simp [literalState, scanStep, ha]
      rw [hstep, Option.bind_some, quotesPaired, if_pos ha]
      exact ih
    · cases odd with
      | false =>
        have hstep : scanStep (literalState false) (a, true) = some (literalState false) := by
          simp [literalState, scanStep, ha]
        rw [hstep, Option.bind_some, quotesPaired, if_neg ha]
        exact ih
      | true => simp [literalState, scanStep, quotesPaired, ha]

/-- The condition of a tag is accepted exactly when its quotes come in pairs. -/
theorem scan_tagLike_iff {key v : Str} {r : Traced} {t : ScanState} :
    scan .outside (tracedTagLike key v ++ r) = some t ↔
      (quotesPaired false key = true ∧ quotesPaired false v = true) ∧ scan .quote r = some t := by
  have htext : tracedTagLike key v ++ r = plain "tags like '%".toList ++ (marked key ++
      ('=', false) :: (marked v ++ ('%', false) :: ('\'', false) :: r)) := by
    simp [tracedTagLike, plain]
  have hstart : scan .outside (plain "tags like '%".toList) = some (literalState false) := by decide
  rw [htext, scan_append hstart, scan_marked_iff (by decide),
    show ScanState.inside = literalState false from rfl, scan_marked_iff (by decide), and_assoc]
  rfl

theorem scan_alternatives_iff {key : Str} {vs : List Str} {r : Traced} {t : ScanState} :
    scan .quote (vs.flatMap (fun v => plain " or ".toList ++ tracedTagLike key v) ++
        (plain ")".toList ++ r)) = some t ↔
      (∀ v ∈ vs, quotesPaired false key = true ∧ quotesPaired false v = true) ∧
        scan .clause r = some t := by
  induction vs with
  | nil =>
    have hclose : scan .quote (plain ")".toList) = some .clause := by decide
    rw [List.flatMap_nil, List.nil_append, scan_append hclose]
    simp
  | cons v vs ih =>
    have hor : scan .quote (plain " or ".toList) = some .outside := by decide
    rw [List.flatMap_cons, List.append_assoc, List.append_assoc, scan_append hor,
      scan_tagLike_iff, ih, List.forall_mem_cons, ← and_assoc]

/-- The condition of a filter is accepted exactly when the filter is harmless. -/
theorem scan_cond_iff {p : Str × Str} {r : Traced} {t : ScanState} :
    scan .clause (plain " ".toList ++ tracedCond p.1 p.2 ++ r) = some t ↔
      Harmless p ∧ scan .clause r = some t := by
  have hsplit := @fields_eq_nil_iff _ _ '|' p.2
  rw [← splitString_eq_fields] at hsplit
  rw [Harmless, tracedCond]
  cases h : splitString p.2 '|' with
  | nil =>
    -- the condition starts without `and`
    have hnil := hsplit.mp h
    simp [hnil, tracedTagLike, plain, scan_cons, scanStep]
  | cons v vs =>
    have hne : p.2 ≠ [] := fun hnil => by simp [hsplit.mpr hnil] at h
    have htext : plain " ".toList ++ (plain "and (".toList ++
        ((plain " or ".toList).intercalate ((v :: vs).map (tracedTagLike p.1)) ++
          plain ")".toList)) ++ r = plain " and (".toList ++ (tracedTagLike p.1 v ++
        (vs.flatMap (fun v => plain " or ".toList ++ tracedTagLike p.1 v) ++
          (plain ")".toList ++ r))) := by
      simp [plain, intercalate_cons_eq, List.flatMap_map]
    have hand : scan .clause (plain " and (".toList) = some .outside := by decide
    rw [if_pos (by simp), htext, scan_append hand, scan_tagLike_iff, scan_alternatives_iff,
      List.forall_mem_cons]
    constructor
    · rintro ⟨⟨hk, hv⟩, hvs, hr⟩
      exact ⟨⟨hne, hk, hv, fun v hv => (hvs v hv).2⟩, hr⟩
    · rintro ⟨⟨-, hk, hv, hvs⟩, hr⟩
      exact ⟨⟨hk, hv⟩, fun v hv => ⟨hk, hvs v hv⟩, hr⟩

/-- The conditions are accepted exactly when all filters are harmless. -/
theorem scan_conds_iff {kept : List (Str × Str)} {r : Traced} {t : ScanState} :
    scan .clause (tracedConds kept ++ r) = some t ↔
      (∀ p ∈ kept, Harmless p) ∧ scan .clause r = some t := by
  induction kept with
  | nil => simp [tracedConds]
  | cons p kept ih =>
    rw [tracedConds, List.flatMap_cons, List.append_assoc, ← tracedConds, scan_cond_iff, ih,
      List.forall_mem_cons, and_assoc]

end SimpleTSDB.Query
