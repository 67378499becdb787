import SimpleTSDB.Foundations.Delimited
import SimpleTSDB.Metric
import SimpleTSDB.Tags

/-!
# Put lines

The put format `name timestamp value tags` against what the parser accepts. Both front ends keep
only the printable ASCII characters except the single quote (`lineChar`). Over such lines the
parser is stricter than the format nowhere, and looser in three ways: it accepts lines with one or
two blanks (`LooseLine`), timestamps that are empty, signed or saturated, values that are empty or
not finite, and tags that are no pairs. `putLine_isSound_iff` says that there are no others.
-/

namespace SimpleTSDB

/-! ## The character filter -/

/-- The condition under which `TelnetProcessor::Process` appends a character to the line. -/
def lineChar (ch : Char) : Bool :=
  (isalnum ch || (ispunct ch && ch != '\'') || ch == ' ') && (ch != '\n' || ch != '\r')

/-- `isValidChar`, which is true of the characters to remove. -/
def isValidChar (ch : Char) : Bool :=
  if (isalnum ch || (ispunct ch && ch != '\'') || ch == ' ') && (ch != '\n' || ch != '\r') then
    false
  else true

/-- The two front ends filter the same characters. -/
theorem isValidChar_eq_not_lineChar (ch : Char) : isValidChar ch = !lineChar ch := by
  change (if lineChar ch = true then false else true) = !lineChar ch
  cases lineChar ch <;> rfl

/-- A line of characters that the front ends let through. -/
def CleanLine (line : Str) : Prop := ∀ c ∈ line, lineChar c = true

instance (line : Str) : Decidable (CleanLine line) := List.decidableBAll _ _

/-- The characters of `line` that the front ends let through. -/
def cleanLine (line : Str) : Str := line.filter lineChar

theorem cleanLine_clean (line : Str) : CleanLine (cleanLine line) := fun _ h =>
  (List.mem_filter.mp h).2

theorem CleanLine.nul_not_mem {line : Str} (h : CleanLine line) : '\x00' ∉ line := fun hc =>
  absurd (h _ hc) (by decide)

theorem CleanLine.quote_not_mem {line : Str} (h : CleanLine line) : '\'' ∉ line := fun hc =>
  absurd (h _ hc) (by decide)

theorem CleanLine.mono {s line : Str} (h : CleanLine line) (hs : s ⊆ line) : CleanLine s :=
  fun c hc => h c (hs hc)

theorem CleanLine.cstr_eq {line : Str} (h : CleanLine line) : cstr line = line :=
  cstr_eq_self h.nul_not_mem

theorem CleanLine.of_append_cons {s t : Str} {c : Char} (h : CleanLine (s ++ c :: t)) :
    CleanLine s ∧ CleanLine t :=
  ⟨fun c hc => h c (by simp [hc]), fun c hc => h c (by simp [hc])⟩

/-! ## What a front end does -/

/-- The effects of a front end: a metric handed to `Datastore::QueueMetric`, a count handed to
`Statistics::AddPutCount`, and text sent to the client. -/
inductive Effect
  | queueMetric (m : Metric)
  | addPutCount (count : ℕ)
  | send (text : Str)
  deriving DecidableEq, Repr

/-- The metrics among the effects that are queued. -/
def queued (es : List Effect) : List Metric :=
  es.filterMap fun
    | .queueMetric m => some m
    | _ => none

/-! ## The put format -/

/-- The line has the put format, and the metric stores its four fields. -/
def PutFormat (line : Str) (m : Metric) : Prop :=
  ∃ name timestamp value tags : Str,
    line = name ++ ' ' :: (timestamp ++ ' ' :: (value ++ ' ' :: tags)) ∧
    name ≠ [] ∧ ' ' ∉ name ∧
    timestamp ≠ [] ∧ (∀ c ∈ timestamp, isdigit c = true) ∧
    value ≠ [] ∧ ' ' ∉ value ∧ (strtod value).2 = [] ∧ (strtod value).1.isFinite = true ∧
    IsTagList tags ∧
    m.name = name ∧ m.timestamp.toNat = digitsVal 10 timestamp ∧ m.value = (strtod value).1 ∧
    m.tags = tags

/-- If the parser finds the line valid, it has the put format. -/
def IsSound (line : Str) : Prop :=
  ∀ m, Metric.ofLine line = some m → m.isValid = true → PutFormat line m

/-- A line with one or two blanks that passes the checks the parser makes of it. -/
def LooseLine (line : Str) : Prop :=
  match line.splitOn ' ' with
  | [x, y] => x ≠ [] ∧ y ≠ [] ∧ (strtod x).2 = []
  | [x, y, _] => x ≠ [] ∧ (strtoull y).2 = []
  | _ => False

instance (line : Str) : Decidable (LooseLine line) := by
  unfold LooseLine
  split <;> infer_instance

/-- The words of a line with three blanks or more: one of the parser's checks fails, or timestamp,
value and tags have the put format. -/
def StrictFields (line : Str) : Prop :=
  match line.splitOn ' ' with
  | a :: b :: c :: d :: ds =>
    (a = [] ∨ d :: ds = [[]] ∨ (strtoull b).2 ≠ [] ∨ (strtod c).2 ≠ []) ∨
    (b ≠ [] ∧ (∀ ch ∈ b, isdigit ch = true) ∧ digitsVal 10 b < 2 ^ 64 ∧
      c ≠ [] ∧ (strtod c).1.isFinite = true ∧ ∀ t ∈ d :: ds, IsTag t)
  | _ => True

instance (line : Str) : Decidable (StrictFields line) := by
  unfold StrictFields
  split <;> infer_instance

theorem splitOn_one {x y : Str} (hx : ' ' ∉ x) (hy : ' ' ∉ y) :
    (x ++ ' ' :: y).splitOn ' ' = [x, y] := by
  rw [List.splitOn_append_cons_self_of_not_mem hx, List.splitOn_eq_singleton hy]

theorem splitOn_two {x y z : Str} (hx : ' ' ∉ x) (hy : ' ' ∉ y) (hz : ' ' ∉ z) :
    (x ++ ' ' :: (y ++ ' ' :: z)).splitOn ' ' = [x, y, z] := by
  rw [List.splitOn_append_cons_self_of_not_mem hx, splitOn_one hy hz]

theorem splitOn_many {a b c : Str} (ha : ' ' ∉ a) (hb : ' ' ∉ b) (hc : ' ' ∉ c) (d : Str) :
    (a ++ ' ' :: (b ++ ' ' :: (c ++ ' ' :: d))).splitOn ' ' = a :: b :: c :: d.splitOn ' ' := by
  rw [List.splitOn_append_cons_self_of_not_mem ha, List.splitOn_append_cons_self_of_not_mem hb,
    List.splitOn_append_cons_self_of_not_mem hc]

theorem splitOn_eq_nil_singleton_iff {d : Str} : d.splitOn ' ' = [[]] ↔ d = [] := by
  constructor
  · intro h
    have hd : [' '].intercalate (d.splitOn ' ') = d := List.intercalate_splitOn ' '
    rwa [h, List.intercalate_singleton, eq_comm] at hd
  · rintro rfl
    rfl

/-- A line in the put format has three blanks. -/
theorem PutFormat.three_le_count {line : Str} {m : Metric} (h : PutFormat line m) :
    3 ≤ line.count ' ' := by
  obtain ⟨name, ts, value, tags, rfl, -⟩ := h
  simp only [List.count_append, List.count_cons_self]
  omega

theorem blank_not_mem_of_digits {ds : Str} (h : ∀ c ∈ ds, isdigit c = true) : ' ' ∉ ds := fun hc =>
  absurd (h _ hc) (by decide)

/-- The put format of a line with three blanks or more, read off its words. -/
theorem putFormat_many_iff {a b c d : Str} (ha : ' ' ∉ a) (hb : ' ' ∉ b) (hc : ' ' ∉ c)
    (m : Metric) :
    PutFormat (a ++ ' ' :: (b ++ ' ' :: (c ++ ' ' :: d))) m ↔
      a ≠ [] ∧ b ≠ [] ∧ (∀ ch ∈ b, isdigit ch = true) ∧ c ≠ [] ∧ (strtod c).2 = [] ∧
      (strtod c).1.isFinite = true ∧ IsTagList d ∧ m.name = a ∧
      m.timestamp.toNat = digitsVal 10 b ∧ m.value = (strtod c).1 ∧ m.tags = d := by
  constructor
  · rintro ⟨name, ts, value, tags, heq, h₁, h₂, h₃, h₄, h₅, h₆, h₇⟩
    obtain ⟨rfl, heq₁⟩ := Delimited.append_delim_inj ha h₂ heq
    obtain ⟨rfl, heq₂⟩ := Delimited.append_delim_inj hb (blank_not_mem_of_digits h₄) heq₁
    obtain ⟨rfl, rfl⟩ := Delimited.append_delim_inj hc h₆ heq₂
    exact ⟨h₁, h₃, h₄, h₅, h₇⟩
  · rintro ⟨h₁, h₃, h₄, h₅, h₇⟩
    exact ⟨a, b, c, d, rfl, h₁, ha, h₃, h₄, h₅, hc, h₇⟩

theorem isSound_def {line : Str} :
    IsSound line ↔ ∀ m, Metric.accepted line = some m → PutFormat line m := by
  simp only [IsSound, Metric.accepted_eq_some_iff, and_imp]

/-- A line with fewer than three blanks is parsed soundly when it is not accepted. -/
theorem isSound_iff_of_count_lt {line : Str} (h : line.count ' ' < 3) :
    IsSound line ↔ Metric.accepted line = none := by
  rw [isSound_def]
  constructor
  · intro hs
    by_contra hne
    obtain ⟨m, hm⟩ := Option.ne_none_iff_exists'.mp hne
    exact absurd (hs m hm).three_le_count (by omega)
  · intro hn m hm
    rw [hn] at hm
    cases hm

/-- The short lines that slip through are the accepted lines with fewer than three blanks. -/
theorem looseLine_iff {line : Str} (h : CleanLine line) :
    LooseLine line ↔ line.count ' ' < 3 ∧ Metric.accepted line ≠ none := by
  cases Metric.shape line with
  | blankless hx =>
    simp [LooseLine, List.splitOn_eq_singleton hx, Metric.accepted_blankless hx]
  | @one x y hx hy =>
    rw [Metric.accepted_one hx hy, h.of_append_cons.1.cstr_eq]
    simp [LooseLine, splitOn_one hx hy, List.count_eq_zero.mpr hx, List.count_eq_zero.mpr hy]
  | @two x y z hx hy hz =>
    rw [Metric.accepted_two hx hy hz, h.of_append_cons.2.of_append_cons.1.cstr_eq]
    simp [LooseLine, splitOn_two hx hy hz, List.count_eq_zero.mpr hx, List.count_eq_zero.mpr hy,
      List.count_eq_zero.mpr hz]
  | @many a b c ha hb hc d =>
    obtain ⟨d₀, ds, hd⟩ := List.exists_cons_of_ne_nil (List.splitOn_ne_nil ' ' d)
    simp only [LooseLine, splitOn_many ha hb hc, hd, List.count_append, List.count_cons_self,
      false_iff, not_and]
    omega

/-- **What the parser accepts beyond the put format**: over the characters that the front ends let
through, a line is parsed soundly exactly when it is not one of the short lines that slip through,
and its words, if there are four, fail a check of the parser or have the format. -/
theorem putLine_isSound_iff (line : Str) (h : CleanLine line) :
    IsSound line ↔ ¬ LooseLine line ∧ StrictFields line := by
  have hloose := looseLine_iff h
  have short : line.count ' ' < 3 → StrictFields line →
      (IsSound line ↔ ¬ LooseLine line ∧ StrictFields line) := fun hlt hstrict => by
    rw [isSound_iff_of_count_lt hlt, hloose]
    simp [hlt, hstrict]
  cases Metric.shape line with
  | blankless hx =>
    exact short (by simp [List.count_eq_zero.mpr hx])
      (by simp [StrictFields, List.splitOn_eq_singleton hx])
  | @one x y hx hy =>
    exact short (by simp [List.count_eq_zero.mpr hx, List.count_eq_zero.mpr hy])
      (by simp [StrictFields, splitOn_one hx hy])
  | @two x y z hx hy hz =>
    exact short (by simp [List.count_eq_zero.mpr hx, List.count_eq_zero.mpr hy,
      List.count_eq_zero.mpr hz]) (by simp [StrictFields, splitOn_two hx hy hz])
  | @many a b c ha hb hc d =>
    have hb' := h.of_append_cons.2.of_append_cons.1.cstr_eq
    have hc' := h.of_append_cons.2.of_append_cons.2.of_append_cons.1.cstr_eq
    obtain ⟨d₀, ds, hd⟩ := List.exists_cons_of_ne_nil (List.splitOn_ne_nil ' ' d)
    have hnot : ¬ LooseLine (a ++ ' ' :: (b ++ ' ' :: (c ++ ' ' :: d))) := by
      rw [hloose]
      simp only [List.count_append, List.count_cons_self]
      omega
    rw [isSound_def, Metric.accepted_many ha hb hc, hb', hc']
    simp only [hnot, StrictFields, splitOn_many ha hb hc, hd, not_false_eq_true, true_and]
    rw [← hd, splitOn_eq_nil_singleton_iff, ← isTagList_iff]
    by_cases hchk : a ≠ [] ∧ d ≠ [] ∧ (strtoull b).2 = [] ∧ (strtod c).2 = []
    · -- all checks of the parser pass, so the words must have the format themselves
      rw [if_pos hchk]
      obtain ⟨h₁, h₂, h₃, h₄⟩ := hchk
      simp only [Option.some.injEq, forall_eq', putFormat_many_iff ha hb hc, h₁, h₂, h₃, h₄,
        ne_eq, not_true_eq_false, not_false_eq_true, or_self, false_or, true_and, and_true]
      constructor
      · rintro ⟨hne, hd, hc₀, hfin, htags, hts⟩
        exact ⟨hne, hd, (toNat_strtoull_digits_iff hne hd).mp hts, hc₀, hfin, htags⟩
      · rintro ⟨hne, hd, hlt, hc₀, hfin, htags⟩
        exact ⟨hne, hd, hc₀, hfin, htags, (toNat_strtoull_digits_iff hne hd).mpr hlt⟩
    · rw [if_neg hchk]
      simp only [reduceCtorEq, false_implies, implies_true, true_iff]
      refine .inl ?_
      by_contra hn
      simp only [not_or, not_not] at hn
      exact hchk hn

/-- The example line of the put format is parsed soundly. -/
theorem putLine_isSound_example : IsSound "sys.cpu.nice 11583988 23.4 host=web01".toList :=
  (putLine_isSound_iff _ (by decide)).mpr ⟨by decide, by decide⟩

/-- A metric name that is a number and one tag: the parser accepts the line, which has neither a
timestamp nor a value. -/
theorem putLine_not_isSound :
    ¬ ∀ line, CleanLine line → IsSound line := fun h =>
  absurd (h "1 host=a".toList (by decide)) (by
    rw [isSound_iff_of_count_lt (by decide)]
    decide)

end SimpleTSDB
