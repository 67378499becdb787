import SimpleTSDB.Query.Quoting

/-!
# Confined statements

The scanner accepts every confined statement, and it accepts the statement of a query only if all
its filters are harmless. A longer aggregator than the documented ones is not accepted either,
because it would put the table's name into a literal. `confined_iff` is the condition on the query.
-/

namespace SimpleTSDB.Query

open Delimited Sqlite

/-! ## Confined statements are accepted -/

/-- A list of conditions in parentheses, each of which ends in a literal. -/
theorem scan_parens {ts : List Traced} (hne : ts ≠ [])
    (h : ∀ t ∈ ts, ∀ r, scan .outside (t ++ r) = scan .quote r) (r : Traced) :
    scan .outside (plain "(".toList ++ ((plain " or ".toList).intercalate ts ++
      plain ")".toList) ++ r) = scan .clause r := by
  have hopen : scan .outside (plain "(".toList) = some .outside := by decide
  have hor : scan .quote (plain " or ".toList) = some .outside := by decide
  have hclose : scan .quote (plain ")".toList) = some .clause := by decide
  -- the conditions behind the first one
  have hlist : ∀ ts : List Traced, (∀ t ∈ ts, ∀ r, scan .outside (t ++ r) = scan .quote r) →
      scan .quote (ts.flatMap (plain " or ".toList ++ ·) ++ (plain ")".toList ++ r)) =
        scan .clause r := by
    intro ts h
    induction ts with
    | nil => rw [List.flatMap_nil, List.nil_append, scan_append hclose]
    | cons t ts ih =>
      rw [List.forall_mem_cons] at h
      rw [List.flatMap_cons, List.append_assoc, List.append_assoc, scan_append hor, h.1, ih h.2]
  cases ts with
  | nil => exact absurd rfl hne
  | cons t ts =>
    rw [List.forall_mem_cons] at h
    rw [intercalate_cons_eq, List.append_assoc, scan_append hopen, List.append_assoc,
      List.append_assoc, h.1, hlist ts h.2]

theorem scan_literal {b : Traced} (h : IsBody (erase b)) (r : Traced) :
    scan .outside (plain "tags like '".toList ++ (b ++ plain "'".toList) ++ r) =
      scan .quote r := by
  have hlike : scan .outside (plain "tags like '".toList) = some .inside := by decide
  have hend : scan .inside (plain "'".toList) = some .quote := by decide
  have hbody : scan .inside b = some .inside := scan_body (isBody_iff.mp h)
  rw [List.append_assoc, scan_append hlike, List.append_assoc, scan_append hbody,
    scan_append hend]

/-- The conjuncts of a confined statement are accepted. -/
theorem scan_conjuncts {conjuncts : List (List Traced)}
    (h : ∀ bodies ∈ conjuncts, bodies ≠ [] ∧ ∀ b ∈ bodies, IsBody (erase b)) (r : Traced) :
    scan .clause (conjuncts.flatMap conjunct ++ r) = scan .clause r := by
  induction conjuncts with
  | nil => rfl
  | cons bodies conjuncts ih =>
    rw [List.forall_mem_cons] at h
    obtain ⟨⟨hne, hb⟩, h⟩ := h
    have hand : scan .clause (plain " and ".toList) = some .outside := by decide
    have hliterals : ∀ t ∈ bodies.map (fun b => plain "tags like '".toList ++
        (b ++ plain "'".toList)), ∀ r, scan .outside (t ++ r) = scan .quote r := by
      simp only [List.mem_map, forall_exists_index, and_imp, forall_apply_eq_imp_iff₂]
      exact fun b hmem => scan_literal (hb b hmem)
    have htext (s : Traced) : conjunct bodies ++ s = plain " and ".toList ++
        (plain "(".toList ++ ((plain " or ".toList).intercalate (bodies.map fun b =>
          plain "tags like '".toList ++ (b ++ plain "'".toList)) ++ plain ")".toList) ++ s) := rfl
    rw [List.flatMap_cons, List.append_assoc, htext, scan_append hand,
      scan_parens (by simpa using hne) hliterals, ih h]

/-! ## The aggregator -/

/-- The head between the aggregator and the `M` of the table. -/
def headStart : Str := "(value) as value from ".toList

/-- The head behind the `M` of the table. -/
def headRest : Str := "ETRIC where ".toList ++ timeBounds

theorem headText_eq (agg : Str) :
    headText agg = "select timestamp, ".toList ++ (agg ++ (headStart ++ 'M' :: headRest)) := by
  unfold headText headStart headRest
  simp

/-- In a literal, the conditions of a statement are not accepted: the first quote ends the literal
and a percent sign follows. -/
theorem scan_inside_conds (kept : List (Str × Str)) :
    scan .inside (tracedConds kept ++ plain tailText) ≠ some .outside := by
  cases kept with
  | nil => decide
  | cons p kept =>
    have hand : scan .inside (plain " and (tags like '%".toList) = none := by decide
    have htags : scan .inside (plain " tags like '%".toList) = none := by decide
    have hpre : (∃ r, tracedConds (p :: kept) ++ plain tailText =
        plain " and (tags like '%".toList ++ r) ∨
        ∃ r, tracedConds (p :: kept) ++ plain tailText = plain " tags like '%".toList ++ r := by
      rw [tracedConds, List.flatMap_cons, ← tracedConds, tracedCond]
      cases splitString p.2 '|' with
      | nil => exact .inr ⟨_, by simp [tracedTagLike, plain]; rfl⟩
      | cons v vs => exact .inl ⟨_, by simp [tracedTagLike, plain, intercalate_cons_eq]; rfl⟩
    rcases hpre with ⟨r, hr⟩ | ⟨r, hr⟩
    · rw [hr, scan, List.foldlM_append, ← scan, hand]
      simp
    · rw [hr, scan, List.foldlM_append, ← scan, htags]
      simp

theorem plain_headText (agg : Str) : plain (headText agg) = plain "select timestamp, ".toList ++
    (plain agg ++ (plain headStart ++ ('M', false) :: plain headRest)) := by
  rw [headText_eq, plain_append, plain_append, plain_append]
  rfl

/-- A text that goes on from a place behind the table's name is not accepted if it contains the
head again: the table's name would have to stand in a literal. -/
theorem scan_second_head (t : Traced) (kept : List (Str × Str)) :
    scan .outside (t ++ ('M', false) :: (plain headRest ++
      (tracedConds kept ++ plain tailText))) ≠ some .outside := by
  intro h
  have hinside : scan .inside (plain headRest) = some .inside := by decide
  cases hs : scan .outside t with
  | none =>
    rw [scan, List.foldlM_append, ← scan, hs] at h
    cases h
  | some s =>
    rw [scan_append hs, scan_cons] at h
    cases s with
    | inside =>
      have hstep : scanStep .inside ('M', false) = some .inside := rfl
      rw [hstep, Option.bind_some, scan_append hinside] at h
      exact scan_inside_conds kept h
    | clause => cases h
    | joiner => cases h
    | outside => cases h
    | quote => cases h

/-- The aggregator of an accepted statement is the documented one: a longer text would contain the
head again. -/
theorem agg_eq {agg : Str} {a : Aggregator} {kept : List (Str × Str)} {r : Traced}
    (hr : scan .clause r = some .outside)
    (h : plain (headText agg) ++ (tracedConds kept ++ plain tailText) =
      plain (headText a.text) ++ r) : agg = a.text := by
  have hstart : ('M', false) ∉ plain headStart := by decide
  rw [plain_headText, plain_headText] at h
  simp only [List.append_assoc, List.append_cancel_left_eq, List.cons_append] at h
  rcases List.append_eq_append_iff.mp h with ⟨w, hw, hx⟩ | ⟨w, hw, hx⟩
  · -- the aggregator is a prefix of the documented one
    cases w with
    | nil =>
      rw [List.append_nil] at hw
      simpa using congrArg erase hw.symm
    | cons p w =>
      have hp : ('(', false) = p := (List.cons.inj hx).1
      have hmem : ('(', false) ∈ plain a.text := by simp [hw, hp]
      have hno : ('(', false) ∉ plain a.text := by cases a <;> decide
      exact absurd hmem hno
  · -- it goes on with `w`
    rcases cases_delim ('M', false) w with hm | ⟨w₁, w₂, rfl, hm⟩
    · have hm' : ('M', false) ∉ w ++ plain headStart := by simp [hm, hstart]
      rw [← List.append_assoc] at hx
      have hnil := (append_delim_inj hstart hm' hx).1
      have hnil : w = [] := by simpa using hnil
      rw [hnil, List.append_nil] at hw
      simpa using congrArg erase hw
    · have hrest : scan .outside (plain headRest) = some .clause := by decide
      rw [List.append_assoc, List.cons_append] at hx
      have hx := (append_delim_inj hstart hm hx).2
      have hscan : scan .outside (plain headRest ++ r) = some .outside := by
        rw [scan_append hrest, hr]
      rw [hx, ← List.append_assoc] at hscan
      exact absurd hscan (scan_second_head _ kept)

/-! ## The condition -/

/-- A harmless filter is a conjunct whose literals have bodies. -/
theorem tracedCond_conjunct {p : Str × Str} (h : Harmless p) :
    ∃ bodies : List Traced, plain " ".toList ++ tracedCond p.1 p.2 = conjunct bodies ∧
      bodies ≠ [] ∧ ∀ b ∈ bodies, IsBody (erase b) := by
  obtain ⟨hne, hk, hv⟩ := h
  have hparts : splitString p.2 '|' ≠ [] := by
    rw [splitString_eq_fields]
    exact fun h => hne (fields_eq_nil_iff.mp h)
  refine ⟨(splitString p.2 '|').map fun v =>
    plain "%".toList ++ (marked p.1 ++ (plain "=".toList ++ (marked v ++ plain "%".toList))),
    ?_, by simpa using hparts, ?_⟩
  · rw [tracedCond, if_pos (List.length_pos_iff.mpr hparts), conjunct, List.map_map]
    have htag : (fun b => plain "tags like '".toList ++ (b ++ plain "'".toList)) ∘ (fun v =>
        plain "%".toList ++ (marked p.1 ++ (plain "=".toList ++ (marked v ++ plain "%".toList)))) =
        tracedTagLike p.1 := by
      funext v
      simp [tracedTagLike, plain]
    rw [htag, ← List.append_assoc]
    rfl
  · simp only [List.mem_map, forall_exists_index, and_imp, forall_apply_eq_imp_iff₂]
    intro v hmem
    have hone (c : Char) (hc : c ≠ '\'') (s : Str) :
        quotesPaired false (c :: s) = quotesPaired false s := by
      simp [quotesPaired, hc]
    rw [isBody_iff]
    simp only [erase_append, erase_plain, erase_marked]
    change quotesPaired false ('%' :: (p.1 ++ ('=' :: (v ++ ['%'])))) = true
    rw [hone _ (by decide), quotesPaired_append hk, hone _ (by decide),
      quotesPaired_append (hv v hmem), hone _ (by decide)]
    rfl

theorem tracedConds_conjuncts {kept : List (Str × Str)} (h : ∀ p ∈ kept, Harmless p) :
    ∃ conjuncts : List (List Traced), tracedConds kept = conjuncts.flatMap conjunct ∧
      ∀ bodies ∈ conjuncts, bodies ≠ [] ∧ ∀ b ∈ bodies, IsBody (erase b) := by
  induction kept with
  | nil => exact ⟨[], rfl, nofun⟩
  | cons p kept ih =>
    rw [List.forall_mem_cons] at h
    obtain ⟨bodies, hp, hb⟩ := tracedCond_conjunct h.1
    obtain ⟨conjuncts, hkept, hc⟩ := ih h.2
    refine ⟨bodies :: conjuncts, ?_, List.forall_mem_cons.mpr ⟨hb, hc⟩⟩
    rw [tracedConds, List.flatMap_cons, hp, ← tracedConds, hkept, List.flatMap_cons]

/-- A confined statement is one of a documented aggregator and of harmless filters. -/
theorem harmless_of_confined {q agg tags : Str} (h : Confined q)
    (hq : header q = some (agg, tags)) :
    (∃ a : Aggregator, agg = a.text) ∧ ∀ p ∈ keptFilters tags, Harmless p := by
  have hne : headText agg ++ (condsText (keptFilters tags) ++ tailText) ≠ [] := by
    rw [headText_eq]
    simp
  simp only [Confined, ofText_query, tracedText, hq] at h
  obtain ⟨a, conjuncts, htext, hbodies⟩ := h hne
  have htail : scan .clause (plain tailText) = some .outside := by decide
  have hscan : scan .clause (conjuncts.flatMap conjunct ++ plain tailText) = some .outside := by
    rw [scan_conjuncts hbodies, htail]
  obtain rfl := agg_eq hscan htext
  rw [← List.append_cancel_left htext] at hscan
  exact ⟨⟨a, rfl⟩, (scan_conds_iff.mp hscan).1⟩

/-- **The statement of a query is confined exactly when** the query is refused, or its aggregator
is a documented one and all its filters are harmless. -/
theorem confined_iff (q : Str) : Confined q ↔ ∀ agg tags, header q = some (agg, tags) →
    (∃ a : Aggregator, agg = a.text) ∧ ∀ p ∈ keptFilters tags, Harmless p := by
  constructor
  · exact fun h _ _ hq => harmless_of_confined h hq
  · intro h
    rw [Confined, ofText_query, tracedText]
    rcases hq : header q with _ | ⟨agg, tags⟩
    · exact fun hne => absurd rfl hne
    · obtain ⟨⟨a, rfl⟩, hkept⟩ := h agg tags hq
      obtain ⟨conjuncts, hconds, hbodies⟩ := tracedConds_conjuncts hkept
      exact fun _ => ⟨a, conjuncts, by simp only [hconds], hbodies⟩

/-- A single quote in a value ends its literal. -/
theorem not_confined : ¬ ∀ q : Str, Confined q := by
  intro h
  have hq : header "sum:m\x7bk=a'\x7d".toList = some ("sum".toList, "k=a'".toList) := by
    unfold header
    simp only [splitString_eq_fields]
    decide
  have hkept : ("k".toList, "a'".toList) ∈ keptFilters "k=a'".toList := by
    unfold keptFilters filterParts
    simp only [splitString_eq_fields]
    decide
  obtain ⟨-, -, hv⟩ := (harmless_of_confined (h _) hq).2 _ hkept
  have hmem : "a'".toList ∈ splitString "a'".toList '|' := by
    rw [splitString_eq_fields]
    decide
  exact absurd (hv _ hmem) (by decide)

end SimpleTSDB.Query
