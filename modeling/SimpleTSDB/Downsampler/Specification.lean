import SimpleTSDB.Downsampler
import SimpleTSDB.Query.Meaning
import SimpleTSDB.TimeUnit

/-!
# The specification of a downsampler

The documented form is `<size><unit>-<aggregator>`. The constructor takes more: any text without a
hyphen for the size and the unit, and a hyphen behind the aggregator; and an interval of a
documented type can wrap. `parsedExactly_iff` says for which types it is right.
-/

namespace SimpleTSDB

open Delimited

/-- The method of an aggregator. -/
def Aggregator.method : Aggregator → Method
  | .avg => .avg
  | .min => .min
  | .max => .max
  | .sum => .sum

namespace Downsampler

/-! ## The parts of a type -/

/-- The interval of the first part. -/
def sizeInterval (size : Str) : BitVec 64 :=
  let (interval, rel) := strtoull (cstr size)
  if rel = [] then interval
  else if rel = "all".toList then 0
  else if rel.head? = some 'm' then interval * 60
  else if rel.head? = some 'h' then interval * (60 * 60)
  else if rel.head? = some 'd' then interval * (60 * 60 * 24)
  else interval

/-- The method of the second part. -/
def aggregatorMethod (aggregator : Str) : Method :=
  if aggregator = "avg".toList then .avg
  else if aggregator = "sum".toList then .sum
  else if aggregator = "min".toList then .min
  else if aggregator = "max".toList then .max
  else .none

theorem ofType_of_fields {type size aggregator : Str} (h : fields '-' type = [size, aggregator]) :
    ofType type = ⟨aggregatorMethod aggregator, sizeInterval size⟩ := by
  have hne : 0 < type.length := by
    rw [List.length_pos_iff]
    rintro rfl
    cases h
  unfold ofType
  rw [if_pos hne, splitString_eq_fields, h]
  rfl

theorem ofType_none {type : Str} (h : ∀ size aggregator, fields '-' type ≠ [size, aggregator]) :
    (ofType type).method = .none := by
  unfold ofType
  split
  · rw [splitString_eq_fields]
    split
    next size aggregator hsplit => exact absurd hsplit (h size aggregator)
    next => rfl
  · rfl

theorem aggregatorMethod_ne_none_iff {aggregator : Str} :
    aggregatorMethod aggregator ≠ .none ↔ ∃ agg : Aggregator, aggregator = agg.text := by
  constructor
  · intro h
    unfold aggregatorMethod at h
    split at h
    next heq => exact ⟨.avg, heq⟩
    split at h
    next heq => exact ⟨.sum, heq⟩
    split at h
    next heq => exact ⟨.min, heq⟩
    split at h
    next heq => exact ⟨.max, heq⟩
    exact absurd rfl h
  · rintro ⟨agg, rfl⟩
    cases agg <;> decide

theorem aggregatorMethod_text (agg : Aggregator) : aggregatorMethod agg.text = agg.method := by
  cases agg <;> rfl

theorem hyphen_not_mem_text (agg : Aggregator) : '-' ∉ agg.text := by cases agg <;> decide

theorem text_ne (agg : Aggregator) : agg.text ≠ [] := by cases agg <;> decide

/-- **The types with a method**: a documented aggregator behind a hyphen, and at most one more
hyphen behind it. -/
theorem method_ne_none_iff {type : Str} : (ofType type).method ≠ .none ↔
    ∃ (x : Str) (agg : Aggregator), '-' ∉ x ∧
      (type = x ++ '-' :: agg.text ∨ type = x ++ '-' :: (agg.text ++ ['-'])) := by
  constructor
  · intro h
    by_cases hpair : ∃ size aggregator, fields '-' type = [size, aggregator]
    · obtain ⟨x, aggregator, hpair⟩ := hpair
      rw [ofType_of_fields hpair] at h
      obtain ⟨agg, rfl⟩ := aggregatorMethod_ne_none_iff.mp h
      obtain ⟨hx, -, ⟨htype, -⟩ | htype⟩ := fields_eq_pair_iff.mp hpair
      · exact ⟨x, agg, hx, .inl htype⟩
      · exact ⟨x, agg, hx, .inr htype⟩
    · exact absurd (ofType_none fun x aggregator heq => hpair ⟨x, aggregator, heq⟩) h
  · rintro ⟨x, agg, hx, htype⟩
    have hpair : fields '-' type = [x, agg.text] :=
      fields_eq_pair_iff.mpr ⟨hx, hyphen_not_mem_text agg, htype.imp_left fun h => ⟨h, text_ne agg⟩⟩
    rw [ofType_of_fields hpair]
    exact aggregatorMethod_ne_none_iff.mpr ⟨agg, rfl⟩

/-! ## Documented types -/

/-- The text of a unit, `all` being none of the units of time. -/
def unitText : Option TimeUnit → Str
  | none => "all".toList
  | some u => [u.letter]

/-- The type is `<n><unit>-<agg>`, with digits `n`. -/
structure IsSpec (type n : Str) (unit : Option TimeUnit) (agg : Aggregator) : Prop where
  type_eq : type = n ++ unitText unit ++ '-' :: agg.text
  n_ne : n ≠ []
  digits : ∀ c ∈ n, isdigit c = true

theorem unitText_spec (unit : Option TimeUnit) :
    '-' ∉ unitText unit ∧ '\x00' ∉ unitText unit ∧
      ∀ c ∈ (unitText unit).head?, isdigit c = false := by
  rcases unit with _ | u
  · refine ⟨by decide, by decide, ?_⟩
    rintro c ⟨⟩
    decide
  · refine ⟨by cases u <;> decide, by cases u <;> decide, ?_⟩
    rintro c ⟨⟩
    exact u.letter_not_digit

theorem not_mem_digits {n : Str} (hd : ∀ c ∈ n, isdigit c = true) {c : Char}
    (hc : isdigit c = false) : c ∉ n := by
  intro h
  rw [hd c h] at hc
  cases hc

/-- The interval of a documented type: the size is ignored for `all`. -/
theorem sizeInterval_append {n : Str} (hne : n ≠ []) (hd : ∀ c ∈ n, isdigit c = true)
    (unit : Option TimeUnit) : (sizeInterval (n ++ unitText unit)).toNat =
      unit.elim 0 fun u => u.wrapped (digitsVal 10 n) := by
  obtain ⟨-, h0, hhead⟩ := unitText_spec unit
  have h0n : '\x00' ∉ n ++ unitText unit := by
    simp [h0, not_mem_digits hd (show isdigit '\x00' = false by decide)]
  have hread := strtoull_digits_append hne hd hhead
  have hmul := TimeUnit.toNat_strtoull_mul hne hd hhead
  unfold sizeInterval
  rw [cstr_eq_self h0n]
  generalize strtoull (n ++ unitText unit) = p at hread hmul
  obtain ⟨v, rel⟩ := p
  obtain ⟨-, rfl⟩ := Prod.mk.inj hread
  dsimp only at hmul ⊢
  rcases unit with _ | u
  · rw [if_neg (by decide), if_pos (show unitText none = "all".toList from rfl)]
    rfl
  · rw [if_neg (by simp [unitText]), if_neg (by simp [unitText]), unitText, List.head?_cons,
      u.letter_factor]
    exact hmul u.seconds

variable {type n : Str} {unit : Option TimeUnit} {agg : Aggregator}

theorem IsSpec.hyphen_not_mem (h : IsSpec type n unit agg) : '-' ∉ n ++ unitText unit := by
  simp [(unitText_spec unit).1, not_mem_digits h.digits (show isdigit '-' = false by decide)]

/-- **A documented type has its method and the wrapped seconds of its size.** -/
theorem IsSpec.ofType_eq (h : IsSpec type n unit agg) : (ofType type).method = agg.method ∧
    (ofType type).interval.toNat = unit.elim 0 fun u => u.wrapped (digitsVal 10 n) := by
  have hpair : fields '-' type = [n ++ unitText unit, agg.text] :=
    fields_eq_pair_iff.mpr
      ⟨h.hyphen_not_mem, hyphen_not_mem_text agg, .inl ⟨h.type_eq, text_ne agg⟩⟩
  rw [ofType_of_fields hpair, aggregatorMethod_text]
  exact ⟨rfl, sizeInterval_append h.n_ne h.digits unit⟩

/-- The type is parsed exactly: it has a method if and only if it is documented, its interval is the
size in seconds, and an interval 0 means `all`. -/
structure ParsedExactly (type : Str) : Prop where
  method : (ofType type).method ≠ .none ↔ ∃ n unit agg, IsSpec type n unit agg
  interval : ∀ n u agg, IsSpec type n (some u) agg →
    (ofType type).interval.toNat = digitsVal 10 n * u.seconds
  zero : ∀ n unit agg, IsSpec type n unit agg → (ofType type).interval = 0 → unit = none

/-- Digits and a unit; without the unit `all`, the seconds are not 0 and fit 64 bits. -/
def IsInterval (x : Str) : Prop :=
  ∃ n unit, n ≠ [] ∧ (∀ c ∈ n, isdigit c = true) ∧ x = n ++ unitText unit ∧
    ∀ u, unit = some u → 0 < digitsVal 10 n ∧ digitsVal 10 n * u.seconds < 2 ^ 64

/-- An interval has one size and one unit. -/
theorem digits_append_inj {n n' : Str} {unit unit' : Option TimeUnit}
    (hd : ∀ c ∈ n, isdigit c = true) (hd' : ∀ c ∈ n', isdigit c = true)
    (h : n ++ unitText unit = n' ++ unitText unit') : n = n' ∧ unit = unit' := by
  have htake {n : Str} (hd : ∀ c ∈ n, isdigit c = true) (unit : Option TimeUnit) :
      (n ++ unitText unit).takeWhile isdigit = n := by
    rw [List.takeWhile_append_of_pos hd]
    cases unit with
    | none => simp [unitText, show isdigit 'a' = false by decide]
    | some u => simp [unitText, u.letter_not_digit]
  have hn : n = n' := by rw [← htake hd unit, h, htake hd' unit']
  subst hn
  refine ⟨rfl, ?_⟩
  have hunit : unitText unit = unitText unit' := List.append_cancel_left h
  revert hunit
  rcases unit with _ | u <;> rcases unit' with _ | u'
  · exact fun _ => rfl
  · cases u' <;> decide
  · cases u <;> decide
  · cases u <;> cases u' <;> decide

/-- The text in front of the aggregator of a documented type. -/
theorem IsSpec.eq_of_type_eq (h : IsSpec type n unit agg) {x rest : Str} (hx : '-' ∉ x)
    (htype : type = x ++ '-' :: rest) : x = n ++ unitText unit ∧ rest = agg.text :=
  append_delim_inj hx h.hyphen_not_mem (htype.symm.trans h.type_eq)

/-- **A type is parsed exactly if and only if** in front of an aggregator there is an interval, and
behind it no hyphen. -/
theorem parsedExactly_iff (type : Str) : ParsedExactly type ↔
    ∀ (x : Str) (agg : Aggregator), '-' ∉ x → type ≠ x ++ '-' :: (agg.text ++ ['-']) ∧
      (type = x ++ '-' :: agg.text → IsInterval x) := by
  constructor
  · intro h x agg hx
    constructor
    · intro htype
      obtain ⟨n, unit, agg', hspec⟩ := h.method.mp (method_ne_none_iff.mpr ⟨x, agg, hx, .inr htype⟩)
      have hbehind := (hspec.eq_of_type_eq hx htype).2
      exact hyphen_not_mem_text agg' (hbehind ▸ List.mem_append_right _ (List.mem_singleton_self _))
    · intro htype
      obtain ⟨n, unit, agg', hspec⟩ := h.method.mp (method_ne_none_iff.mpr ⟨x, agg, hx, .inl htype⟩)
      refine ⟨n, unit, hspec.n_ne, hspec.digits, (hspec.eq_of_type_eq hx htype).1, ?_⟩
      rintro u rfl
      have hinterval := h.interval n u agg' hspec
      have hwrapped : u.wrapped (digitsVal 10 n) = digitsVal 10 n * u.seconds :=
        hspec.ofType_eq.2.symm.trans hinterval
      refine ⟨Nat.pos_of_ne_zero fun hzero => ?_, (u.wrapped_eq_iff _).mp hwrapped⟩
      rw [hzero, Nat.zero_mul] at hinterval
      cases h.zero n (some u) agg' hspec (BitVec.eq_of_toNat_eq hinterval)
  · intro h
    have hinterval {n : Str} {u : TimeUnit} {agg : Aggregator}
        (hspec : IsSpec type n (some u) agg) :
        0 < digitsVal 10 n ∧ (ofType type).interval.toNat = digitsVal 10 n * u.seconds := by
      obtain ⟨n', unit, -, hd, hx, hsize⟩ := (h _ agg hspec.hyphen_not_mem).2 hspec.type_eq
      obtain ⟨rfl, rfl⟩ := digits_append_inj hspec.digits hd hx
      obtain ⟨hpos, hlt⟩ := hsize u rfl
      exact ⟨hpos, hspec.ofType_eq.2.trans ((u.wrapped_eq_iff _).mpr hlt)⟩
    refine ⟨⟨fun hmethod => ?_, ?_⟩, fun n u agg hspec => (hinterval hspec).2, ?_⟩
    · obtain ⟨x, agg, hx, htype | htype⟩ := method_ne_none_iff.mp hmethod
      · obtain ⟨n, unit, hne, hd, rfl, -⟩ := (h x agg hx).2 htype
        exact ⟨n, unit, agg, htype, hne, hd⟩
      · exact absurd htype (h x agg hx).1
    · rintro ⟨n, unit, agg, hspec⟩
      rw [hspec.ofType_eq.1]
      cases agg <;> decide
    · intro n unit agg hspec hzero
      rcases unit with _ | u
      · rfl
      · obtain ⟨hpos, heq⟩ := hinterval hspec
        have hprod : digitsVal 10 n * u.seconds = 0 := by rw [← heq, hzero]; rfl
        have := Nat.mul_pos hpos u.seconds_pos
        omega

/-- The size of a type need not be a number. -/
theorem not_parsedExactly : ¬ ∀ type, ParsedExactly type := by
  intro h
  have hmethod : (ofType "foo-avg".toList).method ≠ .none :=
    method_ne_none_iff.mpr ⟨"foo".toList, .avg, by decide, .inl rfl⟩
  obtain ⟨n, unit, agg, hspec⟩ := (h "foo-avg".toList).method.mp hmethod
  obtain ⟨hfoo, -⟩ := hspec.eq_of_type_eq (x := "foo".toList) (by decide) rfl
  cases n with
  | nil => exact hspec.n_ne rfl
  | cons c n =>
    have hc : c = 'f' := (List.cons.inj hfoo).1.symm
    exact absurd (hspec.digits c List.mem_cons_self) (hc ▸ by decide)

end Downsampler

end SimpleTSDB
