import Mathlib.Data.List.Basic
import Mathlib.Data.List.Infix
import Mathlib.Data.List.TakeWhile

/-!
# Lists cut at a delimiter

`fields d s` is the list of the pieces of `s` between the occurrences of `d`, where a last piece
that would be empty is dropped: the convention of a splitter that emits what lies before each
delimiter, and then what is left if anything is left. It is the inverse of joining
(`fields_intercalate`), every piece is a delimiter-free infix of the input (`not_mem_of_mem_fields`,
`infix_of_mem_fields`), and the pieces joined again give the input back up to one final delimiter
(`intercalate_fields_eq`).
-/

namespace SimpleTSDB.Delimited

variable {α : Type*} [DecidableEq α] {d : α}

/-- The pieces of a list between the occurrences of `d`; an empty last piece is dropped. -/
def fields (d : α) : List α → List (List α)
  | [] => []
  | c :: cs =>
    if c = d then [] :: fields d cs
    else match fields d cs with
      | [] => [[c]]
      | f :: fs => (c :: f) :: fs

@[simp] theorem fields_nil : fields d ([] : List α) = [] := rfl

@[simp] theorem fields_delim_cons (cs : List α) : fields d (d :: cs) = [] :: fields d cs := by
  simp [fields]

/-- A delimiter-free prefix that is followed by the delimiter is the first field. -/
theorem fields_append_delim {f : List α} (hf : d ∉ f) (rest : List α) :
    fields d (f ++ d :: rest) = f :: fields d rest := by
  induction f with
  | nil => simp
  | cons c f ih =>
    obtain ⟨hc, hf⟩ : d ≠ c ∧ d ∉ f := by simpa using hf
    rw [List.cons_append, fields, if_neg hc.symm, ih hf]

/-- A delimiter-free list is its own only field. -/
theorem fields_of_not_mem {f : List α} (hf : d ∉ f) (hne : f ≠ []) : fields d f = [f] := by
  induction f with
  | nil => exact absurd rfl hne
  | cons c f ih =>
    obtain ⟨hc, hf⟩ : d ≠ c ∧ d ∉ f := by simpa using hf
    rw [fields, if_neg hc.symm]
    rcases eq_or_ne f [] with rfl | hf'
    · rfl
    · rw [ih hf hf']

/-- A list has one delimiter-free prefix before a delimiter. -/
theorem append_delim_inj {f g r r' : List α} (hf : d ∉ f) (hg : d ∉ g)
    (h : f ++ d :: r = g ++ d :: r') : f = g ∧ r = r' := by
  have hc := congrArg (fields d) h
  rw [fields_append_delim hf, fields_append_delim hg, List.cons.injEq] at hc
  obtain rfl := hc.1
  exact ⟨rfl, by simpa using h⟩

omit [DecidableEq α] in
/-- A delimiter stands behind a delimiter-free prefix. -/
theorem exists_of_append_eq {f t p r : List α} (hf : d ∉ f) (h : f ++ t = p ++ d :: r) :
    ∃ w, p = f ++ w ∧ t = w ++ d :: r := by
  rcases List.append_eq_append_iff.mp h with ⟨w, rfl, rfl⟩ | ⟨w, rfl, hw⟩
  · exact ⟨w, rfl, rfl⟩
  · cases w with
    | nil => exact ⟨[], by simp, hw.symm⟩
    | cons c w =>
      obtain ⟨rfl, -⟩ := List.cons.inj hw
      simp at hf

/-- Every list is empty, delimiter-free, or a delimiter-free prefix before a delimiter. -/
theorem cases_delim (d : α) (s : List α) : d ∉ s ∨ ∃ f rest, s = f ++ d :: rest ∧ d ∉ f := by
  by_cases h : d ∈ s
  · obtain ⟨f, rest, hs, hf⟩ := List.eq_append_cons_of_mem h
    exact .inr ⟨f, rest, hs, hf⟩
  · exact .inl h

/-- What stands before the first delimiter, and what stands from it on. -/
theorem span_append_delim {f : List α} (hf : d ∉ f) (rest : List α) :
    (f ++ d :: rest).takeWhile (· ≠ d) = f ∧ (f ++ d :: rest).dropWhile (· ≠ d) = d :: rest := by
  have hall : ∀ c ∈ f, decide (c ≠ d) = true := by
    intro c hc
    rw [decide_eq_true_iff]
    rintro rfl
    exact hf hc
  rw [List.takeWhile_append_of_pos hall, List.dropWhile_append_of_pos hall]
  simp

theorem span_of_not_mem {s : List α} (hs : d ∉ s) :
    s.takeWhile (· ≠ d) = s ∧ s.dropWhile (· ≠ d) = [] := by
  have hall : ∀ c ∈ s, decide (c ≠ d) = true := by
    intro c hc
    rw [decide_eq_true_iff]
    rintro rfl
    exact hs hc
  exact ⟨List.takeWhile_eq_self_iff.mpr hall, List.dropWhile_eq_nil_iff.mpr hall⟩

/-- Induction along the fields of a list. -/
theorem fields_induction {motive : List α → Prop} (d : α) (nil : motive [])
    (last : ∀ f, d ∉ f → f ≠ [] → motive f)
    (delim : ∀ f rest, d ∉ f → motive rest → motive (f ++ d :: rest)) (s : List α) : motive s := by
  induction hn : s.length using Nat.strongRecOn generalizing s with
  | ind n ih =>
    rcases cases_delim d s with h | ⟨f, rest, rfl, hf⟩
    · rcases eq_or_ne s [] with rfl | hne
      · exact nil
      · exact last s h hne
    · refine delim f rest hf (ih rest.length ?_ rest rfl)
      rw [← hn, List.length_append, List.length_cons]
      omega

theorem fields_eq_nil_iff {s : List α} : fields d s = [] ↔ s = [] := by
  induction s using fields_induction d with
  | nil => simp
  | last f hf hne => simp [fields_of_not_mem hf hne, hne]
  | delim f rest hf _ => simp [fields_append_delim hf]

/-- A field is a part of the list without a delimiter. -/
theorem part_of_mem_fields {s f : List α} (h : f ∈ fields d s) : d ∉ f ∧ f <:+: s := by
  induction s using fields_induction d with
  | nil => simp at h
  | last g hg hne =>
    rw [fields_of_not_mem hg hne, List.mem_singleton] at h
    subst h
    exact ⟨hg, List.infix_refl _⟩
  | delim g rest hg ih =>
    rw [fields_append_delim hg, List.mem_cons] at h
    rcases h with rfl | h
    · exact ⟨hg, (List.prefix_append _ _).isInfix⟩
    · obtain ⟨hf, hinfix⟩ := ih h
      exact ⟨hf, hinfix.trans ((List.suffix_cons _ _).trans (List.suffix_append _ _)).isInfix⟩

theorem not_mem_of_mem_fields {s f : List α} (h : f ∈ fields d s) : d ∉ f :=
  (part_of_mem_fields h).1

theorem infix_of_mem_fields {s f : List α} (h : f ∈ fields d s) : f <:+: s :=
  (part_of_mem_fields h).2

/-- The first field is a prefix of the list. -/
theorem prefix_of_fields_eq_cons {s f : List α} {fs : List (List α)} (h : fields d s = f :: fs) :
    f <+: s := by
  induction s using fields_induction d with
  | nil => simp at h
  | last g hg hne =>
    rw [fields_of_not_mem hg hne, List.cons.injEq] at h
    exact h.1 ▸ List.prefix_refl _
  | delim g rest hg _ =>
    rw [fields_append_delim hg, List.cons.injEq] at h
    exact h.1 ▸ List.prefix_append _ _

/-- A list with two fields or more is a first field, a delimiter, and the rest. -/
theorem fields_eq_cons_cons {s f g : List α} {fs : List (List α)} (h : fields d s = f :: g :: fs) :
    ∃ r, s = f ++ d :: r ∧ d ∉ f ∧ fields d r = g :: fs := by
  rcases cases_delim d s with hs | ⟨f', r, rfl, hf'⟩
  · rcases eq_or_ne s [] with rfl | hne
    · cases h
    · rw [fields_of_not_mem hs hne] at h
      cases h
  · rw [fields_append_delim hf'] at h
    obtain ⟨rfl, hrest⟩ := List.cons.inj h
    exact ⟨r, rfl, hf', hrest⟩

/-- **Splitting inverts joining**: delimiter-free pieces, the last one not empty, come back. -/
theorem fields_intercalate : ∀ {fs : List (List α)}, (∀ f ∈ fs, d ∉ f) → fs.getLast? ≠ some [] →
    fields d ([d].intercalate fs) = fs
  | [], _, _ => rfl
  | [f], h, hne => by
    rw [List.intercalate_singleton]
    exact fields_of_not_mem (h f (by simp)) (by simpa using hne)
  | f :: g :: fs, h, hne => by
    rw [List.intercalate_cons_cons, List.append_assoc, List.singleton_append,
      fields_append_delim (h f (by simp)),
      fields_intercalate (fun f' hf' => h f' (List.mem_cons_of_mem _ hf'))
        (by rwa [List.getLast?_cons_cons] at hne)]

/-- Splitting inverts joining up to an empty last piece, which a filter may ignore. -/
theorem filter_fields_intercalate {p : List α → Bool} (hp : p [] = false) :
    ∀ {fs : List (List α)}, (∀ f ∈ fs, d ∉ f) →
      (fields d ([d].intercalate fs)).filter p = fs.filter p
  | [], _ => rfl
  | [f], h => by
    rw [List.intercalate_singleton]
    rcases eq_or_ne f [] with rfl | hne
    · simp [hp]
    · rw [fields_of_not_mem (h f (by simp)) hne]
  | f :: g :: fs, h => by
    rw [List.intercalate_cons_cons, List.append_assoc, List.singleton_append,
      fields_append_delim (h f (by simp)), List.filter_cons, List.filter_cons,
      filter_fields_intercalate hp fun f' hf' => h f' (List.mem_cons_of_mem _ hf')]

omit [DecidableEq α] in
/-- The first piece, and the others each behind a separator. -/
theorem intercalate_cons_eq (sep f : List α) (fs : List (List α)) :
    sep.intercalate (f :: fs) = f ++ fs.flatMap (sep ++ ·) := by
  induction fs generalizing f with
  | nil => simp
  | cons g fs ih => simp [List.intercalate_cons_cons, ih, List.append_assoc]

omit [DecidableEq α] in
theorem map_intercalate {β : Type*} (g : α → β) (sep : List α) (fs : List (List α)) :
    (sep.intercalate fs).map g = (sep.map g).intercalate (fs.map (List.map g)) := by
  cases fs with
  | nil => rfl
  | cons f fs =>
    simp only [List.map_cons, intercalate_cons_eq, List.map_append, List.flatMap_map,
      List.map_flatMap]

omit [DecidableEq α] in
/-- A letter of a joined list stands in a piece or in the separator. -/
theorem mem_intercalate {sep : List α} {fs : List (List α)} {c : α}
    (h : c ∈ sep.intercalate fs) : c ∈ sep ∨ ∃ f ∈ fs, c ∈ f := by
  cases fs with
  | nil => exact absurd h List.not_mem_nil
  | cons f fs =>
    rw [intercalate_cons_eq, List.mem_append, List.mem_flatMap] at h
    rcases h with h | ⟨g, hg, h⟩
    · exact .inr ⟨f, by simp, h⟩
    · rcases List.mem_append.mp h with h | h
      · exact .inl h
      · exact .inr ⟨g, List.mem_cons_of_mem _ hg, h⟩

omit [DecidableEq α] in
theorem mem_intercalate_of_mem {sep f : List α} {fs : List (List α)} {c : α} (hf : f ∈ fs)
    (h : c ∈ f) : c ∈ sep.intercalate fs := by
  cases fs with
  | nil => cases hf
  | cons g fs =>
    rw [intercalate_cons_eq, List.mem_append]
    rcases List.mem_cons.mp hf with rfl | hf
    · exact .inl h
    · exact .inr (List.mem_flatMap.mpr ⟨f, hf, List.mem_append_right _ h⟩)

/-- A map that keeps the delimiter, and makes it of nothing else, can be done before or behind the
split. -/
theorem fields_map {β : Type*} [DecidableEq β] {e : β} {g : α → β} (h : ∀ a, g a = e ↔ a = d)
    (s : List α) : fields e (s.map g) = (fields d s).map (List.map g) := by
  have hmem {f : List α} (hf : d ∉ f) : e ∉ f.map g := by
    intro hmem
    obtain ⟨a, ha, heq⟩ := List.mem_map.mp hmem
    exact hf ((h a).mp heq ▸ ha)
  induction s using fields_induction d with
  | nil => rfl
  | last f hf hne =>
    rw [fields_of_not_mem hf hne, fields_of_not_mem (hmem hf) (by simpa using hne)]
    rfl
  | delim f rest hf ih =>
    rw [List.map_append, List.map_cons, (h d).mpr rfl, fields_append_delim (hmem hf), ih,
      fields_append_delim hf]
    rfl

/-- **Joining inverts splitting**: the fields joined are the list without one final delimiter. -/
theorem intercalate_fields_eq (d : α) (s : List α) :
    [d].intercalate (fields d s) = if s.getLast? = some d then s.dropLast else s := by
  induction s using fields_induction d with
  | nil => rfl
  | last f hf hne =>
    have hlast : f.getLast? ≠ some d := fun h => hf (List.mem_of_mem_getLast? h)
    rw [fields_of_not_mem hf hne, if_neg hlast, List.intercalate_singleton]
  | delim f rest hf ih =>
    rw [fields_append_delim hf]
    rcases eq_or_ne rest [] with rfl | hne
    · simp
    · have hne' : fields d rest ≠ [] := fun h => hne (fields_eq_nil_iff.mp h)
      have hlast : (f ++ d :: rest).getLast? = rest.getLast? := by
        rw [List.getLast?_append_of_ne_nil _ (List.cons_ne_nil _ _),
          List.getLast?_cons_of_ne_nil hne]
      have hdrop : (f ++ d :: rest).dropLast = f ++ d :: rest.dropLast := by
        rw [List.dropLast_append_of_ne_nil (List.cons_ne_nil _ _),
          List.dropLast_cons_of_ne_nil hne]
      rw [List.intercalate_cons_of_ne_nil hne', ih, hlast, hdrop, List.append_assoc,
        List.singleton_append]
      split <;> rfl

/-- Joining the fields gives the list back, up to one final delimiter. -/
theorem intercalate_fields (d : α) (s : List α) :
    s = [d].intercalate (fields d s) ∨ s = [d].intercalate (fields d s) ++ [d] := by
  rw [intercalate_fields_eq]
  split
  next h => exact .inr (List.dropLast_append_getLast? d h).symm
  next => exact .inl rfl

/-- Every element but the delimiter is in a field. -/
theorem exists_mem_fields {s : List α} {c : α} (h : c ∈ s) (hc : c ≠ d) :
    ∃ f ∈ fields d s, c ∈ f := by
  have hmem : c ∈ [d].intercalate (fields d s) := by
    rcases intercalate_fields d s with hs | hs
    · exact hs ▸ h
    · rw [hs, List.mem_append] at h
      exact h.resolve_right fun h => hc (List.mem_singleton.mp h)
  exact (mem_intercalate hmem).resolve_left fun h => hc (List.mem_singleton.mp h)

/-- A list with two fields: the second one is not empty, or a delimiter stands behind it. -/
theorem fields_eq_pair_iff {s a b : List α} : fields d s = [a, b] ↔
    d ∉ a ∧ d ∉ b ∧ (s = a ++ d :: b ∧ b ≠ [] ∨ s = a ++ d :: (b ++ [d])) := by
  constructor
  · intro h
    have ha : d ∉ a := not_mem_of_mem_fields (h ▸ List.mem_cons_self)
    have hb : d ∉ b := not_mem_of_mem_fields (h ▸ List.mem_cons_of_mem _ List.mem_cons_self)
    have hs := intercalate_fields d s
    rw [h, List.intercalate_cons_cons, List.intercalate_singleton, List.append_assoc,
      List.singleton_append] at hs
    refine ⟨ha, hb, ?_⟩
    rcases hs with rfl | rfl
    · refine .inl ⟨rfl, ?_⟩
      rintro rfl
      rw [fields_append_delim ha, fields_nil] at h
      exact absurd h (by simp)
    · exact .inr (by simp)
  · rintro ⟨ha, hb, ⟨rfl, hne⟩ | rfl⟩
    · rw [fields_append_delim ha, fields_of_not_mem hb hne]
    · rw [fields_append_delim ha, fields_append_delim hb, fields_nil]

/-- **The pieces of a list** are the stretches without the delimiter that start at the start or
behind a delimiter, and end at the end or before one. -/
theorem mem_splitOn_iff {s u : List α} : u ∈ s.splitOn d ↔ d ∉ u ∧ ∃ p q, s = p ++ (u ++ q) ∧
    (p = [] ∨ [d] <:+ p) ∧ (q = [] ∨ [d] <+: q) := by
  constructor
  · intro h
    induction s using fields_induction d with
    | nil =>
      obtain rfl := List.mem_singleton.mp h
      exact ⟨List.not_mem_nil, [], [], rfl, .inl rfl, .inl rfl⟩
    | last f hf _ =>
      rw [List.splitOn_eq_singleton hf, List.mem_singleton] at h
      exact ⟨h ▸ hf, [], [], by simp [h], .inl rfl, .inl rfl⟩
    | delim f rest hf ih =>
      rw [List.splitOn_append_cons_self_of_not_mem hf, List.mem_cons] at h
      rcases h with rfl | h
      · exact ⟨hf, [], d :: rest, rfl, .inl rfl, .inr ⟨rest, rfl⟩⟩
      · obtain ⟨hu, p, q, rfl, hp, hq⟩ := ih h
        refine ⟨hu, f ++ d :: p, q, by simp, .inr ?_, hq⟩
        rcases hp with rfl | ⟨p, rfl⟩
        · exact ⟨f, rfl⟩
        · exact ⟨f ++ d :: p, by simp⟩
  · rintro ⟨hu, p, q, rfl, hp, hq⟩
    have hmem : u ∈ (u ++ q).splitOn d := by
      rcases hq with rfl | ⟨q, rfl⟩
      · rw [List.append_nil, List.splitOn_eq_singleton hu]
        exact List.mem_singleton.mpr rfl
      · rw [List.singleton_append, List.splitOn_append_cons_self_of_not_mem hu]
        exact List.mem_cons_self
    rcases hp with rfl | ⟨p, rfl⟩
    · exact hmem
    · rw [List.append_assoc, List.singleton_append, List.splitOn_append_cons_self]
      exact List.mem_append_right _ hmem

end SimpleTSDB.Delimited
