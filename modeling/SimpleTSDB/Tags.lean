import SimpleTSDB.CString
import SimpleTSDB.Foundations.Delimited

/-!
# Tags

A tag is a key and a value written `key=value`, neither empty, without a blank, and the key without
an equals sign; a tags text is a list of tags with single blanks between them.
-/

namespace SimpleTSDB

open Delimited

/-- A tag `key=value`. -/
structure Tag where
  key : Str
  value : Str
  key_ne : key ≠ []
  value_ne : value ≠ []
  eq_not_mem : '=' ∉ key
  blank_not_mem_key : ' ' ∉ key
  blank_not_mem_value : ' ' ∉ value

namespace Tag

/-- The text `key=value`. -/
def text (t : Tag) : Str := t.key ++ '=' :: t.value

theorem blank_not_mem_text (t : Tag) : ' ' ∉ t.text := by
  simp [text, t.blank_not_mem_key, t.blank_not_mem_value]

end Tag

/-- The text of a list of tags. -/
def tagsText (ts : List Tag) : Str := [' '].intercalate (ts.map Tag.text)

/-- Is the text one tag? -/
def IsTag (s : Str) : Prop := ∃ t : Tag, s = t.text

/-- Is the text a non-empty list of tags? -/
def IsTagList (s : Str) : Prop := ∃ ts : List Tag, ts ≠ [] ∧ s = tagsText ts

/-- A tag is cut at its first equals sign. -/
theorem isTag_iff {s : Str} : IsTag s ↔
    s.takeWhile (· ≠ '=') ≠ [] ∧ (s.dropWhile (· ≠ '=')).tail ≠ [] ∧ ' ' ∉ s := by
  rcases cases_delim '=' s with h | ⟨key, value, rfl, hkey⟩
  · rw [(span_of_not_mem h).2]
    refine iff_of_false ?_ fun hn => hn.2.1 rfl
    rintro ⟨t, rfl⟩
    exact h (by simp [Tag.text])
  · rw [(span_append_delim hkey value).1, (span_append_delim hkey value).2, List.tail_cons]
    constructor
    · rintro ⟨t, ht⟩
      obtain ⟨rfl, rfl⟩ := append_delim_inj hkey t.eq_not_mem ht
      exact ⟨t.key_ne, t.value_ne, t.blank_not_mem_text⟩
    · rintro ⟨hne, hv, hb⟩
      simp only [List.mem_append, List.mem_cons, not_or] at hb
      exact ⟨⟨key, value, hne, hv, hkey, hb.1, hb.2.2⟩, rfl⟩

instance (s : Str) : Decidable (IsTag s) := decidable_of_iff _ isTag_iff.symm

/-- The tags of a tags text stand between the blanks. -/
theorem splitOn_tagsText {ts : List Tag} (h : ts ≠ []) :
    (tagsText ts).splitOn ' ' = ts.map Tag.text := by
  refine List.splitOn_intercalate ' ' ?_ (by simpa using h)
  simp only [List.mem_map, forall_exists_index, and_imp, forall_apply_eq_imp_iff₂]
  exact fun t _ => t.blank_not_mem_text

theorem exists_map_text {l : List Str} (h : ∀ t ∈ l, IsTag t) :
    ∃ ts : List Tag, l = ts.map Tag.text := by
  induction l with
  | nil => exact ⟨[], rfl⟩
  | cons s l ih =>
    obtain ⟨t, rfl⟩ := h s (by simp)
    obtain ⟨ts, rfl⟩ := ih fun t ht => h t (List.mem_cons_of_mem _ ht)
    exact ⟨t :: ts, rfl⟩

/-- A tags text is one whose every blank-separated piece is a tag. -/
theorem isTagList_iff {s : Str} : IsTagList s ↔ ∀ t ∈ s.splitOn ' ', IsTag t := by
  constructor
  · rintro ⟨ts, hne, rfl⟩
    rw [splitOn_tagsText hne]
    simp only [List.mem_map, forall_exists_index, and_imp, forall_apply_eq_imp_iff₂]
    exact fun t _ => ⟨t, rfl⟩
  · intro h
    obtain ⟨ts, hts⟩ := exists_map_text h
    have hne : ts ≠ [] := by
      rintro rfl
      exact List.splitOn_ne_nil ' ' s hts
    exact ⟨ts, hne, by rw [tagsText, ← hts, List.intercalate_splitOn]⟩

instance (s : Str) : Decidable (IsTagList s) := decidable_of_iff _ isTagList_iff.symm

end SimpleTSDB
