import SimpleTSDB.Metric
import SimpleTSDB.Printing

/-!
# The line of a datapoint

A line with at least three blanks is parsed into the words before them and the rest. A datapoint is
written as such a line, with any text of its value that `strtod` reads back, and the line is parsed
into the datapoint (`parse_exact`).
-/

namespace SimpleTSDB

/-- Printable ASCII. -/
def IsPrintable (s : Str) : Prop := ∀ c ∈ s, ' ' ≤ c ∧ c ≤ '~'

instance (s : Str) : Decidable (IsPrintable s) :=
  inferInstanceAs (Decidable (∀ c ∈ s, ' ' ≤ c ∧ c ≤ '~'))

theorem IsPrintable.cstr_eq {s : Str} (h : IsPrintable s) : cstr s = s :=
  cstr_eq_self fun hmem => absurd (h _ hmem).1 (by decide)

/-- A word that `strtod` reads as the value. -/
structure Prints (c : Str) (value : Double) : Prop where
  printable : IsPrintable c
  blank_not_mem : ' ' ∉ c
  read : strtod c = (value, [])

/-- Printable ASCII without blanks. -/
def IsWordText (s : Str) : Prop := ∀ c ∈ s, c ≠ ' ' ∧ ' ' ≤ c ∧ c ≤ '~'

theorem IsWordText.isPrintable {s : Str} (h : IsWordText s) : IsPrintable s :=
  fun c hc => (h c hc).2

theorem IsWordText.blank_not_mem {s : Str} (h : IsWordText s) : ' ' ∉ s :=
  fun hc => (h ' ' hc).1 rfl

theorem wordText_digitChar :
    ∀ d < 16, Nat.digitChar d ≠ ' ' ∧ ' ' ≤ Nat.digitChar d ∧ Nat.digitChar d ≤ '~' := by decide

theorem isWordText_toDigits {base : ℕ} (hbase : 1 < base) (hle : base ≤ 16) (n : ℕ) :
    IsWordText (Nat.toDigits base n) := by
  intro c hc
  obtain ⟨d, hd, rfl⟩ := mem_toDigits hbase hc
  exact wordText_digitChar d (hd.trans_le hle)

theorem isWordText_append {s t : Str} (hs : IsWordText s) (ht : IsWordText t) :
    IsWordText (s ++ t) :=
  fun c hc => (List.mem_append.mp hc).elim (hs c) (ht c)

theorem isWordText_signText (neg : Bool) : IsWordText (signText neg) := by
  unfold IsWordText
  cases neg <;> decide

theorem isWordText_showHex (value : Double) : IsWordText (showHex value) := by
  cases value with
  | nan =>
    unfold IsWordText
    decide
  | inf neg =>
    have hinf : IsWordText "inf".toList := by
      unfold IsWordText
      decide
    exact isWordText_append (isWordText_signText neg) hinf
  | fin neg m e =>
    have hmarks : IsWordText ['0', 'x'] ∧ IsWordText ['p'] := by
      unfold IsWordText
      decide
    have hexponent : IsWordText (exponentText e) :=
      isWordText_append (isWordText_signText _) (isWordText_toDigits (by decide) (by decide) _)
    have hmantissa : IsWordText (Nat.toDigits 16 m) :=
      isWordText_toDigits (by decide) (by decide) _
    exact isWordText_append (isWordText_signText neg) (isWordText_append hmarks.1
      (isWordText_append hmantissa (isWordText_append hmarks.2 hexponent)))

/-- Every double has a text. -/
theorem prints_showHex {value : Double} (h : value.IsBinary64) : Prints (showHex value) value :=
  ⟨(isWordText_showHex value).isPrintable, (isWordText_showHex value).blank_not_mem,
    strtod_showHex h⟩

namespace Metric

/-- **The fields of a line with three blanks.** -/
theorem ofLine_fields {a b c : Str} (ha : ' ' ∉ a) (hb : ' ' ∉ b) (hc : ' ' ∉ c) (d : Str)
    (hb' : IsPrintable b) (hc' : IsPrintable c) :
    ∃ m, ofLine (a ++ ' ' :: (b ++ ' ' :: (c ++ ' ' :: d))) = some m ∧
      (m.isValid = true ↔ a ≠ [] ∧ d ≠ [] ∧ (strtoull b).2 = [] ∧ (strtod c).2 = []) ∧
      (m.isValid = true → m.name = a ∧ m.timestamp = (strtoull b).1 ∧ m.value = (strtod c).1 ∧
        m.tags = d) := by
  have hmany := accepted_many ha hb hc d
  rw [hb'.cstr_eq, hc'.cstr_eq] at hmany
  obtain ⟨m, hm⟩ := ofLine_isSome (a ++ ' ' :: (b ++ ' ' :: (c ++ ' ' :: d)))
  refine ⟨m, hm, ?_⟩
  have hacc : accepted (a ++ ' ' :: (b ++ ' ' :: (c ++ ' ' :: d))) =
      if m.isValid then some m else none := by
    rw [accepted, hm, Option.filter_some]
  rw [hacc] at hmany
  by_cases hvalid : m.isValid = true
  · rw [if_pos hvalid] at hmany
    obtain ⟨hfields, heq⟩ := Option.ite_none_right_eq_some.mp hmany.symm
    obtain rfl := Option.some.inj heq
    exact ⟨⟨fun _ => hfields, fun _ => rfl⟩, fun _ => ⟨rfl, rfl, rfl, rfl⟩⟩
  · rw [if_neg hvalid] at hmany
    refine ⟨⟨fun h => absurd h hvalid, fun h => ?_⟩, fun h => absurd h hvalid⟩
    rw [if_pos h] at hmany
    cases hmany

/-- The line of a datapoint, with a text of its value. -/
def printLine (name : Str) (timestamp : BitVec 64) (value tags : Str) : Str :=
  name ++ ' ' :: (showNat timestamp.toNat ++ ' ' :: (value ++ ' ' :: tags))

/-- **The line of a datapoint is parsed into the datapoint.** -/
theorem ofLine_printLine {name tags c : Str} {timestamp : BitVec 64} {value : Double}
    (hvalid : (ofFields name timestamp value tags).isValid = true) (hname : ' ' ∉ name)
    (hc : Prints c value) :
    ofLine (printLine name timestamp c tags) = some (ofFields name timestamp value tags) := by
  have htime : IsWordText (showNat timestamp.toNat) :=
    isWordText_toDigits (by decide) (by decide) _
  have hne : name ≠ [] ∧ tags ≠ [] := by
    rw [ofFields] at hvalid
    split at hvalid
    · cases hvalid
    next h =>
      simp only [not_or, List.length_eq_zero_iff] at h
      exact h
  have hacc : accepted (printLine name timestamp c tags) =
      some (ofFields name timestamp value tags) := by
    rw [printLine, accepted_many hname htime.blank_not_mem hc.blank_not_mem,
      htime.isPrintable.cstr_eq, hc.printable.cstr_eq, strtoull_showNat, hc.read,
      if_pos ⟨hne.1, hne.2, rfl, rfl⟩, ofFields, if_neg (by simp [hne])]
  exact (accepted_eq_some_iff.mp hacc).1

/-- The metric of an accepted line is one of its fields: a name without a blank and a double. -/
theorem fields_of_accepted {line : Str} {m : Metric} (h : accepted line = some m) :
    m = ofFields m.name m.timestamp m.value m.tags ∧ ' ' ∉ m.name ∧ m.value.IsBinary64 := by
  cases acceptedAs h with
  | one hx hy hname htags => exact ⟨by simp [ofFields, hname, htags], hx, isBinary64_strtod _⟩
  | two hx hy hz hname => exact ⟨by simp [ofFields, hname], hx, .inl ⟨rfl, rfl⟩⟩
  | many ha hb hc hname htags => exact ⟨by simp [ofFields, hname, htags], ha, isBinary64_strtod _⟩

/-- **An accepted line can be printed again**: its metric has a line that is parsed into it. -/
theorem ofLine_reprint {line : Str} {m : Metric} (h : accepted line = some m) :
    ofLine (printLine m.name m.timestamp (showHex m.value) m.tags) = some m := by
  obtain ⟨heq, hname, hvalue⟩ := fields_of_accepted h
  have hvalid : (ofFields m.name m.timestamp m.value m.tags).isValid = true :=
    heq ▸ (accepted_eq_some_iff.mp h).2
  exact (ofLine_printLine hvalid hname (prints_showHex hvalue)).trans (congrArg some heq.symm)

/-- **Lines are parsed exactly**: a line with three blanks into its fields, and the line of a valid
datapoint into the datapoint. -/
theorem parse_exact :
    (∀ a b c d : Str, ' ' ∉ a → ' ' ∉ b → ' ' ∉ c →
      IsPrintable a → IsPrintable b → IsPrintable c → IsPrintable d →
      ∃ m, ofLine (a ++ ' ' :: (b ++ ' ' :: (c ++ ' ' :: d))) = some m ∧
        (m.isValid = true ↔ a ≠ [] ∧ d ≠ [] ∧ (strtoull b).2 = [] ∧ (strtod c).2 = []) ∧
        (m.isValid = true → m.name = a ∧ m.timestamp = (strtoull b).1 ∧ m.value = (strtod c).1 ∧
          m.tags = d)) ∧
    (∀ value : Double, value.IsBinary64 → Prints (showHex value) value) ∧
    ∀ (name : Str) (timestamp : BitVec 64) (value : Double) (tags c : Str),
      (ofFields name timestamp value tags).isValid = true → ' ' ∉ name → Prints c value →
        ofLine (printLine name timestamp c tags) = some (ofFields name timestamp value tags) :=
  ⟨fun _ _ _ d ha hb hc _ hb' hc' _ => ofLine_fields ha hb hc d hb' hc',
    fun _ => prints_showHex, fun _ _ _ _ _ => ofLine_printLine⟩

/-- A line is parsed into its fields and printed again. -/
theorem parse_exact_example :
    (∃ m, ofLine "cpu 1 0.5 a=b c=d".toList = some m ∧ (m.isValid = true ↔
      "cpu".toList ≠ [] ∧ "a=b c=d".toList ≠ [] ∧ (strtoull "1".toList).2 = [] ∧
        (strtod "0.5".toList).2 = []) ∧
      (m.isValid = true → m.name = "cpu".toList ∧ m.timestamp = (strtoull "1".toList).1 ∧
        m.value = (strtod "0.5".toList).1 ∧ m.tags = "a=b c=d".toList)) ∧
    Prints "-0x0p0".toList (.fin true 0 0) ∧
    ofLine (printLine "cpu".toList 1 "nan".toList "a=b".toList) =
      some (ofFields "cpu".toList 1 .nan "a=b".toList) :=
  ⟨parse_exact.1 "cpu".toList "1".toList "0.5".toList "a=b c=d".toList (by decide) (by decide)
      (by decide) (by decide) (by decide) (by decide) (by decide),
    parse_exact.2.1 (.fin true 0 0) (Or.inl ⟨rfl, rfl⟩),
    parse_exact.2.2 _ _ _ _ _ (by decide) (by decide) (parse_exact.2.1 .nan trivial)⟩

end Metric

end SimpleTSDB
