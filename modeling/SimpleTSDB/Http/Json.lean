import Mathlib.Data.List.GetD
import SimpleTSDB.Foundations.Delimited
import SimpleTSDB.Foundations.Transducer
import SimpleTSDB.Numeric

/-!
# JSON values

The part of the JSON library that the query handler uses: values that start as null and become
objects or arrays when they are used as such, and their serialisation. A string is checked to be
UTF-8 while it is escaped. The text of a double is a parameter (`ToChars`).
-/

namespace SimpleTSDB

open Transducer

/-- The values of `nlohmann::json` that the program builds. An object is a map in the order of its
keys. -/
inductive Json where
  | null
  | number (d : Double)
  | string (s : Str)
  | array (l : List Json)
  | object (m : List (Str × Json))

/-! ## Building values -/

/-- `operator[]` of the map of an object, where a missing key is inserted with a null value. The
reference that it returns is assigned by `f`. -/
def modifyKey (key : Str) (f : Json → Option Json) :
    List (Str × Json) → Option (List (Str × Json))
  | [] => (f .null).map fun v => [(key, v)]
  | (k, v) :: m =>
    if key = k then (f v).map fun v => (k, v) :: m
    else if key < k then (f .null).map fun v' => (key, v') :: (k, v) :: m
    else (modifyKey key f m).map ((k, v) :: ·)

namespace Json

/-- `operator[]` with a key, its reference assigned by `f`; it throws (`none`) for a value that is
neither null nor an object. -/
def «at» (key : Str) (f : Json → Option Json) : Json → Option Json
  | .null => (modifyKey key f []).map .object
  | .object m => (modifyKey key f m).map .object
  | _ => none

/-- `operator[]` with a key, its reference assigned by a value. -/
def set (key : Str) (v : Json) : Json → Option Json := «at» key fun _ => some v

/-- `push_back`; it throws (`none`) for a value that is neither null nor an array. -/
def pushBack (v : Json) : Json → Option Json
  | .null => some (.array [v])
  | .array l => some (.array (l ++ [v]))
  | _ => none

end Json

/-- A key gets its value and no other member is new; a missing key is inserted, and the other
members are kept. -/
theorem modifyKey_const (key : Str) (v : Json) (m : List (Str × Json)) :
    ∃ m', modifyKey key (fun _ => some v) m = some m' ∧ m' ⊆ (key, v) :: m ∧
      (key ∉ m.map Prod.fst → m'.Perm ((key, v) :: m)) := by
  induction m with
  | nil => exact ⟨_, rfl, List.Subset.refl _, fun _ => .refl _⟩
  | cons p m ih =>
    obtain ⟨m', hm', hsub, hperm⟩ := ih
    rw [modifyKey]
    split
    next heq =>
      subst heq
      refine ⟨_, rfl, ?_, fun h => absurd List.mem_cons_self h⟩
      exact List.cons_subset_cons _ (List.subset_cons_self _ _)
    next hne =>
      split
      · exact ⟨_, rfl, List.Subset.refl _, fun _ => .refl _⟩
      · refine ⟨p :: m', by rw [hm']; rfl, ?_, fun h => ?_⟩
        · intro x hx
          rcases List.mem_cons.mp hx with rfl | hx
          · exact List.mem_cons_of_mem _ List.mem_cons_self
          · rcases List.mem_cons.mp (hsub hx) with rfl | hx
            · exact List.mem_cons_self
            · exact List.mem_cons_of_mem _ (List.mem_cons_of_mem _ hx)
        · rw [List.map_cons, List.mem_cons, not_or] at h
          exact ((hperm h.2).cons p).trans (.swap _ _ _)

/-! ## Serialisation -/

/-- The classes of the bytes. -/
def utf8Classes : List ℕ :=
  List.replicate 128 0 ++ List.replicate 16 1 ++ List.replicate 16 9 ++ List.replicate 32 7 ++
    [8, 8] ++ List.replicate 30 2 ++ [10, 3, 3, 3, 3, 3, 3, 3, 3, 3, 3, 3, 3, 4, 3, 3] ++
    [11, 6, 6, 6, 5, 8, 8, 8, 8, 8, 8, 8, 8, 8, 8, 8]

/-- The next states, a row of 16 classes for each state. -/
def utf8States : List ℕ :=
    [0, 1, 2, 3, 5, 8, 7, 1, 1, 1, 4, 6, 1, 1, 1, 1] ++
    [1, 1, 1, 1, 1, 1, 1, 1, 1, 1, 1, 1, 1, 1, 1, 1] ++
    [1, 0, 1, 1, 1, 1, 1, 0, 1, 0, 1, 1, 1, 1, 1, 1] ++
    [1, 2, 1, 1, 1, 1, 1, 2, 1, 2, 1, 1, 1, 1, 1, 1] ++
    [1, 1, 1, 1, 1, 1, 1, 2, 1, 1, 1, 1, 1, 1, 1, 1] ++
    [1, 2, 1, 1, 1, 1, 1, 1, 1, 2, 1, 1, 1, 1, 1, 1] ++
    [1, 1, 1, 1, 1, 1, 1, 3, 1, 3, 1, 1, 1, 1, 1, 1] ++
    [1, 3, 1, 1, 1, 1, 1, 3, 1, 3, 1, 1, 1, 1, 1, 1] ++
    [1, 3, 1, 1, 1, 1, 1, 1, 1, 1, 1, 1, 1, 1, 1, 1]

/-- The table of the decoder. -/
def utf8d : List ℕ := utf8Classes ++ utf8States

/-- `decode`: the next state and code point. State 0 accepts and state 1 rejects. -/
def decode (state codep byte : ℕ) : ℕ × ℕ :=
  let type := utf8d.getD byte 1
  let codep :=
    if state ≠ 0 then (byte &&& 0x3f) ||| (codep <<< 6) else (0xff >>> type) &&& byte
  (utf8d.getD (256 + state * 16 + type) 1, codep)

/-- What is written for a code point whose last byte is `c`. -/
def escape (codepoint : ℕ) (c : Char) : Str :=
  match codepoint with
  | 0x08 => "\\b".toList
  | 0x09 => "\\t".toList
  | 0x0A => "\\n".toList
  | 0x0C => "\\f".toList
  | 0x0D => "\\r".toList
  | 0x22 => "\\\"".toList
  | 0x5C => "\\\\".toList
  | _ =>
    if codepoint ≤ 0x1F then
      "\\u00".toList ++ [Nat.digitChar (codepoint / 16), Nat.digitChar (codepoint % 16)]
    else [c]

/-- One round of the loop of `dump_escaped`, on the state and the code point of the decoder. -/
def escapeStep (p : ℕ × ℕ) (c : Char) : Option ((ℕ × ℕ) × List Char) :=
  let (state, codep) := decode p.1 p.2 (c.toNat % 256)
  if state = 0 then some ((0, codep), escape codep c)
  else if state = 1 then none    -- decode found an invalid byte
  else some ((state, codep), [c])

/-- `dump_escaped`, with non-ASCII characters as they are; `none` is the exception for a text that
is not UTF-8. -/
def dumpEscaped (s : Str) : Option Str :=
  match run escapeStep (0, 0) s with
  | some ((0, _), t) => some t
  | _ => none

/-- `to_chars` for a finite double. -/
structure ToChars where
  text : Double → Str
  text_chars : ∀ d, ∀ c ∈ text d, isdigit c = true ∨ c ∈ "-.e+".toList

/-- `dump_float`. -/
def dumpFloat (tc : ToChars) (d : Double) : Str :=
  if !d.isFinite then "null".toList else tc.text d

def quoted (s : Str) : Str := '"' :: (s ++ ['"'])

def indentation (n : ℕ) : Str := List.replicate n ' '

/-- The lines of an array or an object between its brackets. -/
def block (opening closing : Char) (indent : ℕ) (items : List Str) : Str :=
  if items = [] then [opening, closing]
  else opening :: '\n' :: (",\n".toList.intercalate items ++
    '\n' :: (indentation indent ++ [closing]))

mutual

/-- `dump(1)` of a value at an indentation; `none` if a text is not UTF-8. -/
def Json.dump (tc : ToChars) (indent : ℕ) : Json → Option Str
  | .null => some "null".toList
  | .number d => some (dumpFloat tc d)
  | .string s => (dumpEscaped s).map quoted
  | .array l => (dumpElements tc (indent + 1) l).map (block '[' ']' indent)
  | .object m => (dumpMembers tc (indent + 1) m).map (block '{' '}' indent)

/-- The lines of the elements of an array. -/
def dumpElements (tc : ToChars) (indent : ℕ) : List Json → Option (List Str)
  | [] => some []
  | j :: l => do
    let text ← j.dump tc indent
    let texts ← dumpElements tc indent l
    return (indentation indent ++ text) :: texts

/-- The lines of the members of an object. -/
def dumpMembers (tc : ToChars) (indent : ℕ) : List (Str × Json) → Option (List Str)
  | [] => some []
  | (key, j) :: m => do
    let key ← dumpEscaped key
    let text ← j.dump tc indent
    let texts ← dumpMembers tc indent m
    return (indentation indent ++ quoted key ++ ": ".toList ++ text) :: texts

end

mutual

/-- The strings and the keys of a value. -/
def Json.strings : Json → List Str
  | .null => []
  | .number _ => []
  | .string s => [s]
  | .array l => elementStrings l
  | .object m => memberStrings m

def elementStrings : List Json → List Str
  | [] => []
  | j :: l => j.strings ++ elementStrings l

def memberStrings : List (Str × Json) → List Str
  | [] => []
  | (key, j) :: m => key :: (j.strings ++ memberStrings m)

end

/-! ## Escaped texts -/

/-- A byte of ASCII has the class 0. -/
theorem utf8d_ascii : ∀ byte < 128, utf8d.getD byte 1 = 0 := by decide

/-- Only the accepting state continues with a byte of ASCII. -/
theorem utf8d_class_zero (state : ℕ) :
    utf8d.getD (256 + state * 16) 1 = if state = 0 then 0 else 1 := by
  have hclasses : utf8Classes.length = 256 := by decide +kernel
  have hle : utf8Classes.length ≤ 256 + state * 16 := by omega
  rw [utf8d, List.getD_append_right _ _ _ _ hle, hclasses, Nat.add_sub_cancel_left]
  by_cases h : state < 9
  · have hrows : ∀ state < 9, utf8States.getD (state * 16) 1 = if state = 0 then 0 else 1 := by
      decide
    exact hrows state h
  · have hstates : utf8States.length = 144 := by decide +kernel
    have hlen : utf8States.length ≤ state * 16 := by omega
    rw [List.getD_eq_default _ _ hlen, if_neg (by omega)]

theorem and_ascii : ∀ byte < 128, 0xff &&& byte = byte := by decide

/-- A byte of ASCII is accepted as itself, or it is invalid. -/
theorem escapeStep_ascii {p : ℕ × ℕ} {c : Char} (h : c.toNat < 128) :
    escapeStep p c = if p.1 = 0 then some ((0, c.toNat), escape c.toNat c) else none := by
  have hmod : c.toNat % 256 = c.toNat := Nat.mod_eq_of_lt (by omega)
  simp only [escapeStep, decode, hmod, utf8d_ascii _ h, Nat.add_zero, utf8d_class_zero]
  by_cases hp : p.1 = 0
  · simp [hp, and_ascii _ h]
  · simp [hp]

/-- A code point is written as its last byte, or its escape has neither a percent sign nor a
NUL. -/
theorem escape_cases (codepoint : ℕ) (c : Char) :
    0x1F < codepoint ∧ escape codepoint c = [c] ∨
      '%' ∉ escape codepoint c ∧ '\x00' ∉ escape codepoint c := by
  unfold escape
  split
  · exact .inr (by decide)
  · exact .inr (by decide)
  · exact .inr (by decide)
  · exact .inr (by decide)
  · exact .inr (by decide)
  · exact .inr (by decide)
  · exact .inr (by decide)
  · split
    · next h =>
      have hdigits : ∀ n < 32, Nat.digitChar (n / 16) ∉ ['%', '\x00'] ∧
          Nat.digitChar (n % 16) ∉ ['%', '\x00'] := by decide
      have hcodepoint := hdigits codepoint (by omega)
      simp only [List.mem_cons, List.not_mem_nil, or_false, not_or] at hcodepoint
      simp [Ne.symm hcodepoint.1.1, Ne.symm hcodepoint.1.2, Ne.symm hcodepoint.2.1,
        Ne.symm hcodepoint.2.2]
    · next h => exact .inl ⟨by omega, rfl⟩

/-- A step writes a percent sign for a percent sign only, and no NUL. -/
theorem escapeStep_spec {p p' : ℕ × ℕ} {c : Char} {o : List Char}
    (h : escapeStep p c = some (p', o)) : ('%' ∈ o ↔ c = '%') ∧ '\x00' ∉ o := by
  by_cases hpercent : c = '%'
  · subst hpercent
    rw [escapeStep_ascii (by decide), Option.ite_none_right_eq_some] at h
    obtain ⟨-, rfl⟩ := Prod.mk.inj (Option.some.inj h.2)
    decide
  · by_cases hnul : c = '\x00'
    · subst hnul
      rw [escapeStep_ascii (by decide), Option.ite_none_right_eq_some] at h
      obtain ⟨-, rfl⟩ := Prod.mk.inj (Option.some.inj h.2)
      decide
    · -- any other byte is written as itself or as an escape
      have hself : '%' ∉ [c] ∧ '\x00' ∉ [c] := by
        simp [Ne.symm hpercent, Ne.symm hnul]
      have ho : '%' ∉ o ∧ '\x00' ∉ o := by
        simp only [escapeStep] at h
        split at h
        · obtain ⟨-, rfl⟩ := Prod.mk.inj (Option.some.inj h)
          rcases escape_cases (decode p.1 p.2 (c.toNat % 256)).2 c with ⟨-, heq⟩ | hesc
          · rwa [heq]
          · exact hesc
        · split at h
          · cases h
          · obtain ⟨-, rfl⟩ := Prod.mk.inj (Option.some.inj h)
            exact hself
      exact ⟨iff_of_false ho.1 hpercent, ho.2⟩

theorem run_escapeStep_spec {s t : Str} {p p' : ℕ × ℕ} (h : run escapeStep p s = some (p', t)) :
    ('%' ∈ t ↔ '%' ∈ s) ∧ '\x00' ∉ t := by
  refine run_induction (motive := fun s _ t => ('%' ∈ t ↔ '%' ∈ s) ∧ '\x00' ∉ t)
    (by simp) ?_ h
  intro s p t c p' o _ ih hstep
  have hspec := escapeStep_spec hstep
  rw [List.mem_append, List.mem_append, List.mem_append, List.mem_singleton, not_or, ih.1, hspec.1,
    eq_comm]
  exact ⟨Iff.rfl, ih.2, hspec.2⟩

/-- **An escaped text** has a percent sign exactly if the text has one, and never a NUL. -/
theorem dumpEscaped_spec {s t : Str} (h : dumpEscaped s = some t) :
    ('%' ∈ t ↔ '%' ∈ s) ∧ '\x00' ∉ t := by
  rw [dumpEscaped] at h
  split at h
  · next hrun =>
    obtain rfl := Option.some.inj h
    exact run_escapeStep_spec hrun
  · cases h

/-- A character that is written as it is. -/
def PlainChar (c : Char) : Prop := 0x20 ≤ c.toNat ∧ c.toNat < 0x80 ∧ c ≠ '"' ∧ c ≠ '\\'

theorem escapeStep_plain {c : Char} (h : PlainChar c) (codep : ℕ) :
    escapeStep (0, codep) c = some ((0, c.toNat), [c]) := by
  obtain ⟨hlow, hhigh, hquote, hsolidus⟩ := h
  have hne : c.toNat ≠ 0x22 ∧ c.toNat ≠ 0x5C :=
    ⟨fun h => hquote (Char.toNat_inj.mp h), fun h => hsolidus (Char.toNat_inj.mp h)⟩
  rw [escapeStep_ascii hhigh, if_pos rfl]
  unfold escape
  split
  all_goals first | omega | skip
  rw [if_neg (by omega)]

/-- A text of plain characters is written as it is. -/
theorem dumpEscaped_plain {s : Str} (h : ∀ c ∈ s, PlainChar c) : dumpEscaped s = some s := by
  have hrun : ∀ codep, ∃ codep', run escapeStep (0, codep) s = some ((0, codep'), s) := by
    induction s with
    | nil => exact fun codep => ⟨codep, rfl⟩
    | cons c s ih =>
      intro codep
      rw [List.forall_mem_cons] at h
      obtain ⟨codep', hs⟩ := ih h.2 c.toNat
      exact ⟨codep', by rw [run_cons_of_some (escapeStep_plain h.1 codep), hs]; rfl⟩
  obtain ⟨codep', hs⟩ := hrun 0
  simp only [dumpEscaped, hs]

/-! ## Serialised values -/

/-- The text has a percent sign exactly if one of the strings has one, and no NUL. -/
def Carries (text : Str) (strings : List Str) : Prop :=
  ('%' ∈ text ↔ ∃ s ∈ strings, '%' ∈ s) ∧ '\x00' ∉ text

theorem Carries.append {t t' : Str} {ss ss' : List Str} (h : Carries t ss) (h' : Carries t' ss') :
    Carries (t ++ t') (ss ++ ss') := by
  constructor
  · simp only [List.mem_append, h.1, h'.1, or_and_right, exists_or]
  · simp [h.2, h'.2]

/-- A text carries what another one carries if it has the same percent signs and NULs. -/
theorem Carries.congr {t t' : Str} {ss : List Str} (h : Carries t ss)
    (ht : ∀ x ∈ ['%', '\x00'], x ∈ t' ↔ x ∈ t) : Carries t' ss := by
  rw [Carries, ht '%' (by simp), ht '\x00' (by simp)]
  exact h

theorem carries_quoted {s t : Str} (h : dumpEscaped s = some t) : Carries (quoted t) [s] := by
  have hspec := dumpEscaped_spec h
  constructor
  · simp [quoted, hspec.1]
  · simp [quoted, hspec.2]

theorem carries_dumpFloat (tc : ToChars) (d : Double) : Carries (dumpFloat tc d) [] := by
  have hchars : ∀ x ∈ ['%', '\x00'], x ∉ dumpFloat tc d := by
    intro x hx
    rw [dumpFloat]
    split
    · revert x
      decide
    · have hother : ∀ x ∈ ['%', '\x00'], ¬ (isdigit x = true ∨ x ∈ "-.e+".toList) := by decide
      exact fun hmem => hother x hx (tc.text_chars d x hmem)
  exact ⟨by simp [hchars '%' (by simp)], hchars '\x00' (by simp)⟩

theorem mem_block {x opening closing : Char} (indent : ℕ) (items : List Str)
    (hx : x ∉ [opening, closing, '\n', ',', ' ']) :
    x ∈ block opening closing indent items ↔ x ∈ items.flatten := by
  simp only [List.mem_cons, List.not_mem_nil, or_false, not_or] at hx
  obtain ⟨hopening, hclosing, hnewline, hcomma, hblank⟩ := hx
  rw [block]
  cases items with
  | nil => simp [hopening, hclosing]
  | cons t ts =>
    rw [if_neg (List.cons_ne_nil t ts), Delimited.intercalate_cons_eq]
    simp [indentation, hopening, hclosing, hnewline, hcomma, hblank]

theorem Carries.block {opening closing : Char} {items : List Str} {ss : List Str}
    (h : Carries items.flatten ss) (indent : ℕ)
    (hb : ∀ x ∈ ['%', '\x00'], x ∉ [opening, closing, '\n', ',', ' ']) :
    Carries (block opening closing indent items) ss :=
  h.congr fun x hx => mem_block indent items (hb x hx)

/-- The indentation of a line, or the mark behind a key. -/
theorem carries_layout (indent : ℕ) : Carries (indentation indent) [] ∧ Carries ": ".toList [] := by
  constructor
  · constructor <;> simp [indentation]
  · constructor <;> decide

mutual

/-- **A serialised value** has a percent sign exactly if one of its strings has one. -/
theorem Json.dump_carries (tc : ToChars) : ∀ (j : Json) {indent : ℕ} {t : Str},
    j.dump tc indent = some t → Carries t j.strings
  | .null, _, _, h => by
    obtain rfl := Option.some.inj h
    constructor <;> decide
  | .number d, _, _, h => by
    obtain rfl := Option.some.inj h
    exact carries_dumpFloat tc d
  | .string s, _, _, h => by
    obtain ⟨t, ht, rfl⟩ := Option.map_eq_some_iff.mp h
    exact carries_quoted ht
  | .array l, indent, _, h => by
    obtain ⟨ts, hts, rfl⟩ := Option.map_eq_some_iff.mp h
    exact (dumpElements_carries tc l hts).block indent (by decide)
  | .object m, indent, _, h => by
    obtain ⟨ts, hts, rfl⟩ := Option.map_eq_some_iff.mp h
    exact (dumpMembers_carries tc m hts).block indent (by decide)

theorem dumpElements_carries (tc : ToChars) : ∀ (l : List Json) {indent : ℕ} {ts : List Str},
    dumpElements tc indent l = some ts → Carries ts.flatten (elementStrings l)
  | [], _, _, h => by
    obtain rfl := Option.some.inj h
    constructor <;> decide
  | j :: l, indent, _, h => by
    obtain ⟨t, ht, h⟩ := Option.bind_eq_some_iff.mp h
    obtain ⟨ts, hts, h⟩ := Option.bind_eq_some_iff.mp h
    obtain rfl := Option.some.inj h
    exact ((carries_layout indent).1.append (j.dump_carries tc ht)).append
      (dumpElements_carries tc l hts)

theorem dumpMembers_carries (tc : ToChars) : ∀ (m : List (Str × Json)) {indent : ℕ}
    {ts : List Str}, dumpMembers tc indent m = some ts → Carries ts.flatten (memberStrings m)
  | [], _, _, h => by
    obtain rfl := Option.some.inj h
    constructor <;> decide
  | (key, j) :: m, indent, _, h => by
    obtain ⟨k, hk, h⟩ := Option.bind_eq_some_iff.mp h
    obtain ⟨t, ht, h⟩ := Option.bind_eq_some_iff.mp h
    obtain ⟨ts, hts, h⟩ := Option.bind_eq_some_iff.mp h
    obtain rfl := Option.some.inj h
    have hline := (((carries_layout indent).1.append (carries_quoted hk)).append
      (carries_layout indent).2).append (j.dump_carries tc ht)
    have hlines := hline.append (dumpMembers_carries tc m hts)
    exact hlines

end

mutual

/-- **A value can be serialised** exactly if its strings are UTF-8. -/
theorem Json.dump_isSome_iff (tc : ToChars) (indent : ℕ) :
    ∀ j : Json, (j.dump tc indent).isSome ↔ ∀ s ∈ j.strings, (dumpEscaped s).isSome
  | .null => by simp [Json.dump, Json.strings]
  | .number d => by simp [Json.dump, Json.strings]
  | .string s => by simp [Json.dump, Json.strings]
  | .array l => by
    rw [Json.dump, Option.isSome_map]
    exact dumpElements_isSome_iff tc _ l
  | .object m => by
    rw [Json.dump, Option.isSome_map]
    exact dumpMembers_isSome_iff tc _ m

theorem dumpElements_isSome_iff (tc : ToChars) (indent : ℕ) : ∀ l : List Json,
    (dumpElements tc indent l).isSome ↔ ∀ s ∈ elementStrings l, (dumpEscaped s).isSome
  | [] => by simp [dumpElements, elementStrings]
  | j :: l => by
    simp only [elementStrings, List.forall_mem_append, ← j.dump_isSome_iff tc indent,
      ← dumpElements_isSome_iff tc indent l, dumpElements]
    cases j.dump tc indent <;> cases dumpElements tc indent l <;> simp

theorem dumpMembers_isSome_iff (tc : ToChars) (indent : ℕ) : ∀ m : List (Str × Json),
    (dumpMembers tc indent m).isSome ↔ ∀ s ∈ memberStrings m, (dumpEscaped s).isSome
  | [] => by simp [dumpMembers, memberStrings]
  | (key, j) :: m => by
    simp only [memberStrings, List.forall_mem_cons, List.forall_mem_append,
      ← j.dump_isSome_iff tc indent, ← dumpMembers_isSome_iff tc indent m, dumpMembers]
    cases dumpEscaped key <;> cases j.dump tc indent <;> cases dumpMembers tc indent m <;> simp

end

end SimpleTSDB
