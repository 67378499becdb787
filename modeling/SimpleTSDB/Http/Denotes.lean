import Mathlib.Data.List.Forall2
import SimpleTSDB.Foundations.JsonText
import SimpleTSDB.Http.Json

/-!
# What a serialised value denotes

The text of a value is read back as the value by a reader of JSON: an escaped text spells the text
(`spells_of_dumpEscaped`), for which the decoder has to reject the longer encodings of a byte of
ASCII (`decode_wide`), and the text of a value denotes its tree (`Json.denotes`).
-/

namespace SimpleTSDB

open JsonText Transducer

/-! ## Escaped texts -/

/-- The bytes of a text are its characters. -/
def IsBytes (s : Str) : Prop := ∀ c ∈ s, c.toNat < 256

/-- The least code point that is read before the decoder is in a state, of the bytes of one
character; in the end it is not one of ASCII. -/
def leastCodep : ℕ → ℕ
  | 0 => 128
  | 2 => 2
  | 3 | 5 | 7 | 8 => 1
  | _ => 0

/-- The decoder is between two characters, or it has read enough for a code point that is not one
of ASCII. -/
def Wide (p : ℕ × ℕ) : Prop := p.1 = 0 ∨ 2 ≤ p.1 ∧ p.1 < 9 ∧ leastCodep p.1 ≤ p.2

theorem utf8d_state (i : ℕ) : utf8d.getD (256 + i) 1 = utf8States.getD i 1 := by
  have hclasses : utf8Classes.length = 256 := by decide +kernel
  rw [utf8d, List.getD_append_right _ _ _ _ (by omega), hclasses, Nat.add_sub_cancel_left]

/-- The class of a byte that is not one of ASCII, and what it says about the byte. -/
theorem utf8d_class : ∀ byte < 256, 128 ≤ byte →
    utf8d.getD byte 1 < 12 ∧ (utf8d.getD byte 1 = 7 → 32 ≤ byte &&& 0x3f) ∧
      (utf8d.getD byte 1 = 9 → 16 ≤ byte &&& 0x3f) := by
  decide +kernel

/-- The first byte of a character. -/
theorem utf8d_first : ∀ byte < 256, 128 ≤ byte →
    let type := utf8d.getD byte 1
    let state := utf8States.getD type 1
    state = 1 ∨ 2 ≤ state ∧ state < 9 ∧ leastCodep state ≤ (0xff >>> type) &&& byte := by
  decide +kernel

/-- What a byte of a class leads to from a state, if it does not reject. -/
def Leads (state type next : ℕ) : Prop :=
  next < 9 ∧ (leastCodep next ≤ 64 * leastCodep state ∨
    leastCodep next ≤ 32 ∧ type = 7 ∨ leastCodep next ≤ 16 ∧ type = 9)

instance (state type next : ℕ) : Decidable (Leads state type next) :=
  inferInstanceAs (Decidable (_ ∧ _))

/-- A byte behind the first one. -/
theorem utf8d_next : ∀ state < 9, ∀ type < 12, 2 ≤ state →
    utf8States.getD (state * 16 + type) 1 = 1 ∨
      Leads state type (utf8States.getD (state * 16 + type) 1) := by
  decide +kernel

/-- **A byte that is not one of ASCII** is the end of a code point that is not one either, or the
character goes on. -/
theorem decode_wide {p : ℕ × ℕ} (hp : Wide p) {byte : ℕ} (hlow : 128 ≤ byte) (hbyte : byte < 256) :
    (decode p.1 p.2 byte).1 = 1 ∨
      (decode p.1 p.2 byte).1 < 9 ∧
        leastCodep (decode p.1 p.2 byte).1 ≤ (decode p.1 p.2 byte).2 := by
  obtain ⟨htype, hseven, hnine⟩ := utf8d_class byte hbyte hlow
  simp only [decode, Nat.add_assoc, utf8d_state]
  rcases hp with h0 | ⟨h2, h9, hleast⟩
  · rw [h0, Nat.zero_mul, Nat.zero_add, if_neg (not_not_intro rfl)]
    exact (utf8d_first byte hbyte hlow).imp_right fun h => ⟨h.2.1, h.2.2⟩
  · have hcodep : 64 * p.2 ≤ (byte &&& 0x3f) ||| (p.2 <<< 6) := by
      rw [Nat.mul_comm, ← Nat.shiftLeft_eq p.2 6]
      exact Nat.right_le_or
    have hlast : byte &&& 0x3f ≤ (byte &&& 0x3f) ||| (p.2 <<< 6) := Nat.left_le_or
    rw [if_pos (by omega)]
    refine (utf8d_next p.1 h9 _ htype h2).imp_right fun hnext => ⟨hnext.1, ?_⟩
    rcases hnext.2 with h | ⟨h, h7⟩ | ⟨h, h9⟩
    · omega
    · have := hseven h7
      omega
    · have := hnine h9
      omega

/-- What is written for a code point of ASCII spells it. -/
theorem spells_escape_ascii {c : Char} (h : c.toNat < 128) : Spells (escape c.toNat c) [c] := by
  have hshort {n : ℕ} {e : Char} (hn : c.toNat = n) (he : unescape e = some (Char.ofNat n)) :
      Spells ['\\', e] [c] := by
    rw [← hn, Char.ofNat_toNat] at he
    exact spells_escape he
  unfold escape
  split
  · next hn => exact hshort hn rfl
  · next hn => exact hshort hn rfl
  · next hn => exact hshort hn rfl
  · next hn => exact hshort hn rfl
  · next hn => exact hshort hn rfl
  · next hn => exact hshort hn rfl
  · next hn => exact hshort hn rfl
  · next hquote hsolidus =>
    split
    · next hle =>
      have hcode : ∀ n ≤ 0x1F, ofCode '0' '0' (Nat.digitChar (n / 16)) (Nat.digitChar (n % 16)) =
          some (Char.ofNat n) := by decide
      have hc := hcode c.toNat hle
      rw [Char.ofNat_toNat] at hc
      exact spells_code hc
    · next hle =>
      refine spells_char (by omega) ?_ ?_
      · rintro rfl
        exact hquote rfl
      · rintro rfl
        exact hsolidus rfl

theorem escape_of_wide {codepoint : ℕ} (h : 128 ≤ codepoint) (c : Char) :
    escape codepoint c = [c] := by
  unfold escape
  split
  all_goals first | omega | skip
  rw [if_neg (by omega)]

/-- **A byte is spelled by what is written for it.** -/
theorem escapeStep_spells {p p' : ℕ × ℕ} (hp : Wide p) {c : Char} (hc : c.toNat < 256)
    {o : List Char} (h : escapeStep p c = some (p', o)) : Spells o [c] ∧ Wide p' := by
  by_cases hascii : c.toNat < 128
  · rw [escapeStep_ascii hascii, Option.ite_none_right_eq_some] at h
    obtain ⟨rfl, rfl⟩ := Prod.mk.inj (Option.some.inj h.2)
    exact ⟨spells_escape_ascii hascii, .inl rfl⟩
  · have hself : Spells [c] [c] := by
      refine spells_char (by omega) ?_ ?_
      all_goals
        rintro rfl
        exact hascii (by decide)
    have hwide := decode_wide hp (not_lt.mp hascii) hc
    rw [← Nat.mod_eq_of_lt hc] at hwide
    simp only [escapeStep] at h
    split at h
    · next h0 =>
      obtain ⟨rfl, rfl⟩ := Prod.mk.inj (Option.some.inj h)
      rw [h0] at hwide
      rw [escape_of_wide (hwide.resolve_left (by decide)).2]
      exact ⟨hself, .inl rfl⟩
    · next h0 =>
      split at h
      · cases h
      · next h1 =>
        obtain ⟨rfl, rfl⟩ := Prod.mk.inj (Option.some.inj h)
        obtain ⟨hlt, hleast⟩ := hwide.resolve_left h1
        exact ⟨hself, .inr ⟨by omega, hlt, hleast⟩⟩

/-- **An escaped text spells the text.** -/
theorem spells_of_dumpEscaped {s t : Str} (hs : IsBytes s) (h : dumpEscaped s = some t) :
    Spells t s := by
  rw [dumpEscaped] at h
  split at h
  · next hrun =>
    obtain rfl := Option.some.inj h
    refine (run_induction (motive := fun s p t => IsBytes s → Spells t s ∧ Wide p)
      (fun _ => ⟨.nil, .inl rfl⟩) ?_ hrun hs).1
    intro s p t c p' o _ ih hstep hbytes
    rw [IsBytes, List.forall_mem_append] at hbytes
    obtain ⟨hspells, hwide⟩ := ih hbytes.1
    obtain ⟨hc, hwide'⟩ := escapeStep_spells hwide (hbytes.2 c (List.mem_singleton_self c)) hstep
    exact ⟨hspells.append hc, hwide'⟩
  · cases h

/-! ## Values -/

/-- Every finite double is written as a number of JSON. -/
def ToChars.WritesNumbers (tc : ToChars) : Prop :=
  ∀ d, d.isFinite = true → isNumber (tc.text d) = true

/-- What the text of a number denotes. -/
def numberTree (tc : ToChars) (d : Double) : Tree :=
  if d.isFinite then .number (tc.text d) else .null

mutual

/-- What the text of a value denotes. -/
def Json.tree (tc : ToChars) : Json → Tree
  | .null => .null
  | .number d => numberTree tc d
  | .string s => .string s
  | .array l => .array (elementTrees tc l)
  | .object m => .object (memberTrees tc m)

def elementTrees (tc : ToChars) : List Json → List Tree
  | [] => []
  | j :: l => j.tree tc :: elementTrees tc l

def memberTrees (tc : ToChars) : List (Str × Json) → List (Str × Tree)
  | [] => []
  | (key, j) :: m => (key, j.tree tc) :: memberTrees tc m

end

theorem denotes_dumpFloat {tc : ToChars} (htc : tc.WritesNumbers) (d : Double) :
    Denotes (dumpFloat tc d) (numberTree tc d) := by
  have hother : ∀ c ∈ "-.e+".toList, isWordChar c = true := by decide
  simp only [dumpFloat, numberTree]
  cases hd : d.isFinite with
  | false => exact denotes_word (by decide : ∀ c ∈ "null".toList, isWordChar c = true) rfl
  | true =>
    refine denotes_word (fun c hc => ?_) (ofWord_number (htc d hd))
    rcases tc.text_chars d c hc with hdigit | hmem
    · have hd : c.isDigit = true := Char.isDigit_iff_toNat.mpr (isdigit_iff.mp hdigit)
      simp [isWordChar, Char.isAlphanum, hd]
    · exact hother c hmem

theorem blanks_indentation (n : ℕ) : Blanks (indentation n) := by
  intro c hc
  rw [List.eq_of_mem_replicate hc]
  rfl

theorem blanks_line (n : ℕ) : Blanks ('\n' :: indentation n) := by
  rw [Blanks, List.forall_mem_cons]
  exact ⟨rfl, blanks_indentation n⟩

mutual

/-- **The text of a value denotes the value.** -/
theorem Json.denotes {tc : ToChars} (htc : tc.WritesNumbers) : ∀ (j : Json) {indent : ℕ} {t : Str},
    (∀ s ∈ j.strings, IsBytes s) → j.dump tc indent = some t → Denotes t (j.tree tc)
  | .null, _, _, _, h => by
    obtain rfl := Option.some.inj h
    exact denotes_word (by decide) rfl
  | .number d, _, _, _, h => by
    obtain rfl := Option.some.inj h
    exact denotes_dumpFloat htc d
  | .string s, _, _, hs, h => by
    obtain ⟨u, hu, rfl⟩ := Option.map_eq_some_iff.mp h
    exact denotes_string (spells_of_dumpEscaped (hs s (List.mem_singleton_self s)) hu)
  | .array l, indent, _, hs, h => by
    obtain ⟨us, hus, rfl⟩ := Option.map_eq_some_iff.mp h
    have htexts := dumpElements_denotes htc l hs hus
    rw [block]
    split
    · next hnil =>
      rw [hnil, List.forall₂_nil_left_iff] at htexts
      rw [Json.tree, htexts]
      exact denotes_brackets.1
    · next hne => exact denotes_array (blanks_line 0) (blanks_line indent) htexts hne
  | .object m, indent, _, hs, h => by
    obtain ⟨us, hus, rfl⟩ := Option.map_eq_some_iff.mp h
    have htexts := dumpMembers_denotes htc m hs hus
    rw [block]
    split
    · next hnil =>
      have hreads := htexts us.length (by simp [hnil])
      rw [hnil, List.forall₂_nil_left_iff] at hreads
      rw [Json.tree, hreads]
      exact denotes_brackets.2
    · next hne => exact denotes_object (blanks_line 0) (blanks_line indent) hne htexts

theorem dumpElements_denotes {tc : ToChars} (htc : tc.WritesNumbers) :
    ∀ (l : List Json) {indent : ℕ} {us : List Str}, (∀ s ∈ elementStrings l, IsBytes s) →
      dumpElements tc indent l = some us → List.Forall₂ Denotes us (elementTrees tc l)
  | [], _, _, _, h => by
    obtain rfl := Option.some.inj h
    exact .nil
  | j :: l, indent, _, hs, h => by
    obtain ⟨t, ht, h⟩ := Option.bind_eq_some_iff.mp h
    obtain ⟨ts, hts, h⟩ := Option.bind_eq_some_iff.mp h
    obtain rfl := Option.some.inj h
    rw [elementStrings, List.forall_mem_append] at hs
    exact .cons ((j.denotes htc hs.1 ht).blanks (blanks_indentation indent))
      (dumpElements_denotes htc l hs.2 hts)

theorem dumpMembers_denotes {tc : ToChars} (htc : tc.WritesNumbers) : ∀ (m : List (Str × Json))
    {indent : ℕ} {us : List Str}, (∀ s ∈ memberStrings m, IsBytes s) →
    dumpMembers tc indent m = some us → ∀ n, (∀ u ∈ us, u.length ≤ n) →
    List.Forall₂ (Reads (readMember (readValue n))) us (memberTrees tc m)
  | [], _, _, _, h, _, _ => by
    obtain rfl := Option.some.inj h
    exact .nil
  | (key, j) :: m, indent, _, hs, h, n, hn => by
    obtain ⟨k, hk, h⟩ := Option.bind_eq_some_iff.mp h
    obtain ⟨t, ht, h⟩ := Option.bind_eq_some_iff.mp h
    obtain ⟨ts, hts, h⟩ := Option.bind_eq_some_iff.mp h
    obtain rfl := Option.some.inj h
    rw [memberStrings, List.forall_mem_cons, List.forall_mem_append] at hs
    rw [List.forall_mem_cons] at hn
    have hline : indentation indent ++ quoted k ++ ": ".toList ++ t =
        indentation indent ++ '"' :: (k ++ '"' :: ':' :: (indentation 1 ++ t)) := by
      simp [quoted, indentation]
    rw [hline] at hn ⊢
    simp only [List.length_append, List.length_cons] at hn
    exact .cons ((reads_member (spells_of_dumpEscaped hs.1 hk) (j.denotes htc hs.2.1 ht)
      (blanks_indentation 1) (by omega)).blanks (blanks_indentation indent))
      (dumpMembers_denotes htc m hs.2.2 hts n hn.2)

end

theorem elementTrees_eq (tc : ToChars) (l : List Json) :
    elementTrees tc l = l.map (Json.tree tc) := by
  induction l with
  | nil => rfl
  | cons j l ih => rw [elementTrees, ih, List.map_cons]

theorem memberTrees_eq (tc : ToChars) (m : List (Str × Json)) :
    memberTrees tc m = m.map fun p => (p.1, p.2.tree tc) := by
  induction m with
  | nil => rfl
  | cons p m ih => rw [memberTrees, ih, List.map_cons]

end SimpleTSDB
