import Mathlib.Data.List.TakeWhile
import Mathlib.Tactic.Common
import SimpleTSDB.Foundations.Delimited

/-!
# Reading JSON

A reader of JSON texts (`read`), and rules for texts that it reads (`Denotes`): a word, a string, an
array and an object are read if their parts are, with any blanks between them. The characters of a
text are its bytes; an escape by a code stands for a byte of ASCII.
-/

namespace SimpleTSDB.JsonText

/-- What a text denotes. A number is kept as its text. -/
inductive Tree where
  | null
  | bool (b : Bool)
  | number (text : List Char)
  | string (s : List Char)
  | array (l : List Tree)
  | object (m : List (List Char × Tree))

/-! ## The reader -/

def isBlank (c : Char) : Bool := c = ' ' || c = '\n' || c = '\r' || c = '\t'

def skip (s : List Char) : List Char := s.dropWhile isBlank

/-- A character of a number or of `null`, `true` and `false`. -/
def isWordChar (c : Char) : Bool := c.isAlphanum || c = '-' || c = '+' || c = '.'

/-- What follows one digit or more. -/
def digits (s : List Char) : Option (List Char) :=
  if s.takeWhile Char.isDigit = [] then none else some (s.dropWhile Char.isDigit)

def integer : List Char → Option (List Char)
  | '0' :: s => some s
  | s => digits s

def fraction : List Char → Option (List Char)
  | '.' :: s => digits s
  | s => some s

def exponent : List Char → Option (List Char)
  | c :: s =>
    if c = 'e' ∨ c = 'E' then
      match s with
      | '+' :: s => digits s
      | '-' :: s => digits s
      | s => digits s
    else some (c :: s)
  | [] => some []

/-- The text of a number: an integer without needless zeros, a fraction and an exponent. -/
def isNumber (s : List Char) : Bool :=
  let s := match s with
    | '-' :: s => s
    | s => s
  (integer s >>= fraction >>= exponent) = some []

/-- What a word denotes. -/
def ofWord (w : List Char) : Option Tree :=
  if w = "null".toList then some .null
  else if w = "true".toList then some (.bool true)
  else if w = "false".toList then some (.bool false)
  else if isNumber w then some (.number w)
  else none

/-- What a character behind a backslash stands for. -/
def unescape : Char → Option Char
  | '"' => some '"'
  | '\\' => some '\\'
  | '/' => some '/'
  | 'b' => some '\x08'
  | 'f' => some '\x0c'
  | 'n' => some '\n'
  | 'r' => some '\r'
  | 't' => some '\t'
  | _ => none

def hexDigit (c : Char) : Option ℕ :=
  if '0' ≤ c ∧ c ≤ '9' then some (c.toNat - 48)
  else if 'a' ≤ c ∧ c ≤ 'f' then some (c.toNat - 87)
  else if 'A' ≤ c ∧ c ≤ 'F' then some (c.toNat - 55)
  else none

/-- The character of a code of four digits, one of ASCII. -/
def ofCode (a b c d : Char) : Option Char := do
  let code := ((← hexDigit a) * 16 + (← hexDigit b)) * 256 + (← hexDigit c) * 16 + (← hexDigit d)
  if code < 128 then some (Char.ofNat code) else none

/-- The characters of a string up to its closing quote, and what follows. -/
def readChars : List Char → Option (List Char × List Char)
  | [] => none
  | '"' :: s => some ([], s)
  | '\\' :: 'u' :: a :: b :: c :: d :: s => do
    let x ← ofCode a b c d
    let (t, s) ← readChars s
    return (x :: t, s)
  | '\\' :: c :: s => do
    let x ← unescape c
    let (t, s) ← readChars s
    return (x :: t, s)
  | c :: s => do
    if c.toNat < 0x20 then none
    let (t, s) ← readChars s
    return (c :: t, s)

/-- Items with commas between them up to the closing bracket, at least one. -/
def readItems {α : Type*} (item : List Char → Option (α × List Char)) (closing : Char) :
    ℕ → List Char → Option (List α × List Char)
  | 0, _ => none
  | n + 1, s => do
    let (a, s) ← item s
    match skip s with
    | c :: s =>
      if c = ',' then (readItems item closing n s).map fun p => (a :: p.1, p.2)
      else if c = closing then some ([a], s)
      else none
    | [] => none

/-- Any number of items up to the closing bracket. -/
def readBlock {α : Type*} (item : List Char → Option (α × List Char)) (closing : Char) (n : ℕ)
    (s : List Char) : Option (List α × List Char) :=
  match skip s with
  | c :: rest => if c = closing then some ([], rest) else readItems item closing n s
  | [] => none

/-- A key and a value. -/
def readMember (value : List Char → Option (Tree × List Char)) (s : List Char) :
    Option ((List Char × Tree) × List Char) :=
  match skip s with
  | '"' :: s => do
    let (key, s) ← readChars s
    match skip s with
    | ':' :: s => (value s).map fun p => ((key, p.1), p.2)
    | _ => none
  | _ => none

/-- A value and what follows; `none` also if `n` is too small for the text. -/
def readValue : ℕ → List Char → Option (Tree × List Char)
  | 0, _ => none
  | n + 1, s =>
    match skip s with
    | '"' :: s => (readChars s).map fun p => (.string p.1, p.2)
    | '[' :: s => (readBlock (readValue n) ']' n s).map fun p => (.array p.1, p.2)
    | '{' :: s => (readBlock (readMember (readValue n)) '}' n s).map fun p => (.object p.1, p.2)
    | s => (ofWord (s.takeWhile isWordChar)).map fun t => (t, s.dropWhile isWordChar)

/-- What a text denotes; `none` if it is not a text of JSON. -/
def read (s : List Char) : Option Tree := do
  let (t, s) ← readValue s.length s
  if skip s = [] then some t else none

/-! ## Blanks -/

/-- A text of blanks. -/
def Blanks (b : List Char) : Prop := ∀ c ∈ b, isBlank c = true

theorem skip_append {b : List Char} (hb : Blanks b) (s : List Char) : skip (b ++ s) = skip s :=
  List.dropWhile_append_of_pos hb

theorem skip_cons {c : Char} (hc : isBlank c = false) (s : List Char) : skip (c :: s) = c :: s := by
  rw [skip, List.dropWhile_cons_of_neg (by simp [hc])]

theorem readMember_append (value : List Char → Option (Tree × List Char)) {b : List Char}
    (hb : Blanks b) (s : List Char) : readMember value (b ++ s) = readMember value s := by
  rw [readMember, skip_append hb, readMember]

theorem readValue_append (n : ℕ) {b : List Char} (hb : Blanks b) (s : List Char) :
    readValue n (b ++ s) = readValue n s := by
  cases n with
  | zero => rfl
  | succ n => rw [readValue, skip_append hb, readValue]

/-! ## Strings -/

/-- Between quotes `u` is read as `s`. -/
def Spells (u s : List Char) : Prop :=
  ∀ rest, readChars (u ++ rest) = (readChars rest).map fun p => (s ++ p.1, p.2)

theorem Spells.nil : Spells [] [] := fun rest => by
  cases h : readChars rest <;> simp [h]

theorem Spells.append {u u' s s' : List Char} (h : Spells u s) (h' : Spells u' s') :
    Spells (u ++ u') (s ++ s') := by
  intro rest
  rw [List.append_assoc, h, h', Option.map_map]
  simp [Function.comp_def]

theorem spells_char {c : Char} (hlow : 0x20 ≤ c.toNat) (hquote : c ≠ '"') (hsolidus : c ≠ '\\') :
    Spells [c] [c] := by
  intro rest
  have hnot : ¬ c.toNat < 0x20 := by omega
  rw [List.singleton_append, readChars.eq_def]
  split
  · next h => cases h
  · next h => exact absurd (List.cons.inj h).1 hquote
  · next h => exact absurd (List.cons.inj h).1 hsolidus
  · next h => exact absurd (List.cons.inj h).1 hsolidus
  · next h =>
    obtain ⟨rfl, rfl⟩ := List.cons.inj h
    simp only [hnot, if_false]
    cases readChars rest <;> rfl

theorem spells_escape {c x : Char} (h : unescape c = some x) : Spells ['\\', c] [x] := by
  intro rest
  have hc : c ≠ 'u' := by
    rintro rfl
    cases h
  rw [List.cons_append, List.singleton_append, readChars.eq_def]
  split
  · next h' => cases h'
  · next h' => simp at h'
  · next h' => exact absurd (List.cons.inj (List.cons.inj h').2).1 hc
  · next h' =>
    obtain ⟨rfl, rfl⟩ := List.cons.inj (List.cons.inj h').2
    rw [h]
    cases readChars rest <;> rfl
  · next hno h' =>
    obtain ⟨rfl, rfl⟩ := List.cons.inj h'
    exact absurd rfl (hno _ _ rfl)

theorem spells_code {a b c d x : Char} (h : ofCode a b c d = some x) :
    Spells ['\\', 'u', a, b, c, d] [x] := by
  intro rest
  simp only [List.cons_append, List.nil_append, readChars, h]
  cases readChars rest <;> rfl

/-- The characters up to the closing quote. -/
theorem Spells.readChars_eq {u s : List Char} (h : Spells u s) (rest : List Char) :
    readChars (u ++ '"' :: rest) = some (s, rest) := by
  rw [h, readChars, Option.map_some, List.append_nil]

/-! ## Values -/

/-- The text does not go on with a character of a word. -/
def Ends (rest : List Char) : Prop := ∀ c ∈ rest.head?, isWordChar c = false

/-- The reader `item` reads `s` as `a`. -/
def Reads {α : Type*} (item : List Char → Option (α × List Char)) (s : List Char) (a : α) : Prop :=
  ∀ rest, Ends rest → item (s ++ rest) = some (a, rest)

/-- The text `s` denotes `t`. -/
def Denotes (s : List Char) (t : Tree) : Prop := ∀ n, s.length ≤ n → Reads (readValue n) s t

/-- A character of a word is neither a blank nor a mark. -/
theorem not_mark_of_isWordChar {c : Char} (h : isWordChar c = true) :
    isBlank c = false ∧ c ≠ '"' ∧ c ≠ '[' ∧ c ≠ '{' := by
  refine ⟨?_, ?_, ?_, ?_⟩
  · by_contra hblank
    simp only [Bool.not_eq_false, isBlank, Bool.or_eq_true, decide_eq_true_eq] at hblank
    obtain ((rfl | rfl) | rfl) | rfl := hblank
    all_goals revert h; decide
  all_goals
    rintro rfl
    revert h
    decide

theorem readValue_word (n : ℕ) {c : Char} (hc : isWordChar c = true) (s : List Char) :
    readValue (n + 1) (c :: s) = (ofWord ((c :: s).takeWhile isWordChar)).map fun t =>
      (t, (c :: s).dropWhile isWordChar) := by
  obtain ⟨hblank, hquote, harray, hobject⟩ := not_mark_of_isWordChar hc
  rw [readValue, skip_cons hblank]
  split
  · next h => exact absurd (List.cons.inj h).1 hquote
  · next h => exact absurd (List.cons.inj h).1 harray
  · next h => exact absurd (List.cons.inj h).1 hobject
  · rfl

theorem denotes_word {w : List Char} {t : Tree} (hw : ∀ c ∈ w, isWordChar c = true)
    (h : ofWord w = some t) : Denotes w t := by
  intro n hn rest hrest
  cases w with
  | nil => cases h
  | cons c w =>
    obtain ⟨n, rfl⟩ := Nat.exists_eq_add_of_lt (Nat.lt_of_lt_of_le w.length.lt_succ_self hn)
    have hspan : ((c :: w) ++ rest).takeWhile isWordChar = c :: w ∧
        ((c :: w) ++ rest).dropWhile isWordChar = rest := by
      rw [List.takeWhile_append_of_pos hw, List.dropWhile_append_of_pos hw]
      cases rest with
      | nil => simp
      | cons d rest =>
        have hd : ¬ isWordChar d = true := by simp [hrest d rfl]
        simp [List.takeWhile_cons_of_neg hd, List.dropWhile_cons_of_neg hd]
    rw [List.cons_append] at hspan ⊢
    rw [readValue_word _ (hw c List.mem_cons_self), hspan.1, hspan.2, h, Option.map_some]

/-- A number is not one of the other words. -/
theorem ofWord_number {w : List Char} (h : isNumber w = true) : ofWord w = some (.number w) := by
  have hne {v : List Char} (hv : isNumber v = false) : w ≠ v := by
    rintro rfl
    rw [h] at hv
    cases hv
  have hnull : isNumber "null".toList = false := by decide
  have htrue : isNumber "true".toList = false := by decide
  have hfalse : isNumber "false".toList = false := by decide
  rw [ofWord, if_neg (hne hnull), if_neg (hne htrue), if_neg (hne hfalse), if_pos h]

theorem denotes_string {u s : List Char} (h : Spells u s) :
    Denotes ('"' :: (u ++ ['"'])) (.string s) := by
  intro n hn rest _
  obtain ⟨n, rfl⟩ : ∃ k, n = k + 1 := Nat.exists_eq_succ_of_ne_zero (by rintro rfl; simp at hn)
  rw [readValue, List.cons_append, skip_cons (by decide), List.append_assoc, List.singleton_append]
  simp only [h.readChars_eq, Option.map_some]

/-- Blanks in front of a text. -/
theorem Denotes.blanks {s b : List Char} {t : Tree} (h : Denotes s t) (hb : Blanks b) :
    Denotes (b ++ s) t := by
  intro n hn rest hrest
  rw [List.append_assoc, readValue_append n hb]
  exact h n (by simp at hn; omega) rest hrest

/-! ## Arrays and objects -/

section Block

variable {α : Type*} {item : List Char → Option (α × List Char)} {closing : Char}
  {sep b : List Char}

theorem ends_of_mark {c : Char} (hc : isWordChar c = false) (rest : List Char) :
    Ends (c :: rest) := by
  rintro d ⟨⟩
  exact hc

theorem ends_append {c : Char} (hb : Blanks b) (hc : isWordChar c = false) (rest : List Char) :
    Ends (b ++ c :: rest) := by
  cases b with
  | nil => exact ends_of_mark hc rest
  | cons d b =>
    refine ends_of_mark ?_ _
    by_contra hd
    have hblank := (not_mark_of_isWordChar (Bool.not_eq_false _ ▸ hd)).1
    rw [hb d List.mem_cons_self] at hblank
    cases hblank

theorem readItems_append (hskip : ∀ b s, Blanks b → item (b ++ s) = item s) (n : ℕ) (hb : Blanks b)
    (s : List Char) : readItems item closing n (b ++ s) = readItems item closing n s := by
  cases n with
  | zero => rfl
  | succ n => rw [readItems, hskip b s hb, readItems]

/-- **Items with commas between them** are read by a reader that skips blanks. -/
theorem readItems_items (hskip : ∀ b s, Blanks b → item (b ++ s) = item s)
    (hclosing : isBlank closing = false ∧ isWordChar closing = false ∧ closing ≠ ',')
    (hsep : Blanks sep) (hb : Blanks b) {u : List Char} {a : α} {us : List (List Char)}
    {as : List α} (hu : Reads item u a) (hus : List.Forall₂ (Reads item) us as) {n : ℕ}
    (hn : us.length < n) (rest : List Char) :
    readItems item closing n ((',' :: sep).intercalate (u :: us) ++ (b ++ closing :: rest)) =
      some (a :: as, rest) := by
  obtain ⟨hblank, hword, hcomma⟩ := hclosing
  induction hus generalizing u a n with
  | nil =>
    obtain ⟨n, rfl⟩ := Nat.exists_eq_add_of_lt hn
    rw [readItems, List.intercalate_singleton, hu _ (ends_append hb hword rest)]
    simp only [Option.bind_eq_bind, Option.bind_some, skip_append hb, skip_cons hblank, hcomma,
      if_false, if_true]
  | @cons v a' us as hv _ ih =>
    obtain ⟨n, rfl⟩ := Nat.exists_eq_add_of_lt (Nat.zero_lt_of_lt hn)
    have hcommas : Ends ((',' :: sep) ++ ((',' :: sep).intercalate (v :: us) ++
        (b ++ closing :: rest))) := ends_of_mark (by decide) _
    rw [readItems, List.intercalate_cons_cons, List.append_assoc, List.append_assoc, hu _ hcommas]
    simp only [Option.bind_eq_bind, Option.bind_some, List.cons_append]
    rw [skip_cons (by decide)]
    simp only [if_true]
    rw [readItems_append hskip _ hsep, ih hv (by simp at hn; omega), Option.map_some]

theorem item_skip (hskip : ∀ b s, Blanks b → item (b ++ s) = item s) (s : List Char) :
    item (skip s) = item s := by
  conv_rhs => rw [← List.takeWhile_append_dropWhile (p := isBlank) (l := s)]
  exact (hskip _ _ fun c hc => List.mem_takeWhile_imp hc).symm

/-- **A block of items** with blanks behind the opening bracket. -/
theorem readBlock_items (hskip : ∀ b s, Blanks b → item (b ++ s) = item s)
    (hclosing : isBlank closing = false ∧ isWordChar closing = false ∧ closing ≠ ',')
    (hnone : ∀ s, item (closing :: s) = none) (hsep : Blanks sep) (hb : Blanks b)
    {us : List (List Char)} {as : List α} (hus : List.Forall₂ (Reads item) us as) (hne : us ≠ [])
    {n : ℕ} (hn : us.length ≤ n) (rest : List Char) :
    readBlock item closing n (sep ++ ((',' :: sep).intercalate us ++ (b ++ closing :: rest))) =
      some (as, rest) := by
  cases hus with
  | nil => exact absurd rfl hne
  | @cons u a us as hu hus =>
    have hitems := readItems_items hskip hclosing hsep hb hu hus hn rest
    rw [← readItems_append hskip n hsep] at hitems
    rw [readBlock]
    split
    · next c s hs =>
      have hc : c ≠ closing := by
        rintro rfl
        obtain ⟨n, rfl⟩ := Nat.exists_eq_add_of_lt (Nat.zero_lt_of_lt hn)
        -- the first item would begin with the closing bracket
        rw [readItems, ← item_skip hskip, hs, hnone] at hitems
        cases hitems
      rw [if_neg hc, hitems]
    · next hs =>
      have hmem := List.dropWhile_eq_nil_iff.mp hs closing (by simp)
      rw [hclosing.1] at hmem
      cases hmem

end Block

/-- What an item denotes is read by a reader with enough fuel. -/
theorem reads_of_denotes {us : List (List Char)} {ts : List Tree} (h : List.Forall₂ Denotes us ts)
    {n : ℕ} (hn : ∀ u ∈ us, u.length ≤ n) : List.Forall₂ (Reads (readValue n)) us ts := by
  induction h with
  | nil => exact .nil
  | cons hu _ ih =>
    rw [List.forall_mem_cons] at hn
    exact .cons (hu n hn.1) (ih hn.2)

/-- The number of items and the length of each are bounded by the length of the text. -/
theorem length_le_intercalate {sep : List Char} (us : List (List Char)) :
    us.length ≤ ((',' :: sep).intercalate us).length + 1 ∧
      ∀ u ∈ us, u.length ≤ ((',' :: sep).intercalate us).length := by
  induction us with
  | nil => simp
  | cons u us ih =>
    cases us with
    | nil => simp
    | cons v us =>
      simp only [List.intercalate_cons_cons, List.length_append, List.length_cons,
        List.forall_mem_cons] at ih ⊢
      refine ⟨by omega, by omega, by omega, fun w hw => ?_⟩
      have hw := ih.2.2 w hw
      omega

/-- **An array** with its elements on lines. -/
theorem denotes_array {sep b : List Char} (hsep : Blanks sep) (hb : Blanks b)
    {us : List (List Char)} {ts : List Tree} (h : List.Forall₂ Denotes us ts) (hne : us ≠ []) :
    Denotes ('[' :: (sep ++ ((',' :: sep).intercalate us ++ (b ++ [']'])))) (.array ts) := by
  intro n hn rest _
  obtain ⟨n, rfl⟩ : ∃ k, n = k + 1 := Nat.exists_eq_succ_of_ne_zero (by rintro rfl; simp at hn)
  obtain ⟨hlength, hlengths⟩ := @length_le_intercalate sep us
  simp only [List.length_cons, List.length_append, List.length_nil] at hn
  have hus := reads_of_denotes h fun u hu => (hlengths u hu).trans (by omega : _ ≤ n)
  have hnone : ∀ s, readValue n (']' :: s) = none := by
    intro s
    cases n with
    | zero => rfl
    | succ n => rfl
  have hcount : us.length ≤ n := by omega
  have hblock := readBlock_items (fun b s hb => readValue_append n hb s) (by decide) hnone hsep hb
    hus hne hcount rest
  rw [List.cons_append, readValue, skip_cons (by decide)]
  simp only [List.append_assoc, List.singleton_append, hblock, Option.map_some]

/-- **A member** of an object. -/
theorem reads_member {u key v gap : List Char} {t : Tree} (hu : Spells u key) (hv : Denotes v t)
    (hgap : Blanks gap) {n : ℕ} (hn : v.length ≤ n) :
    Reads (readMember (readValue n)) ('"' :: (u ++ '"' :: ':' :: (gap ++ v))) (key, t) := by
  intro rest hrest
  rw [readMember, List.cons_append, skip_cons (by decide)]
  simp only [List.append_assoc, List.cons_append, hu.readChars_eq, Option.bind_eq_bind,
    Option.bind_some]
  rw [skip_cons (by decide)]
  simp only [readValue_append n hgap, hv n hn rest hrest, Option.map_some]

/-- Blanks in front of a member. -/
theorem Reads.blanks {b s : List Char} {n : ℕ} {m : List Char × Tree}
    (h : Reads (readMember (readValue n)) s m) (hb : Blanks b) :
    Reads (readMember (readValue n)) (b ++ s) m := by
  intro rest hrest
  rw [List.append_assoc, readMember_append _ hb]
  exact h rest hrest

/-- **An object** with its members on lines. -/
theorem denotes_object {sep b : List Char} (hsep : Blanks sep) (hb : Blanks b)
    {us : List (List Char)} {ms : List (List Char × Tree)} (hne : us ≠ [])
    (h : ∀ n, (∀ u ∈ us, u.length ≤ n) → List.Forall₂ (Reads (readMember (readValue n))) us ms) :
    Denotes ('{' :: (sep ++ ((',' :: sep).intercalate us ++ (b ++ ['}'])))) (.object ms) := by
  intro n hn rest _
  obtain ⟨n, rfl⟩ : ∃ k, n = k + 1 := Nat.exists_eq_succ_of_ne_zero (by rintro rfl; simp at hn)
  obtain ⟨hlength, hlengths⟩ := @length_le_intercalate sep us
  simp only [List.length_cons, List.length_append, List.length_nil] at hn
  have hus := h n fun u hu => (hlengths u hu).trans (by omega : _ ≤ n)
  have hcount : us.length ≤ n := by omega
  have hnone : ∀ s, readMember (readValue n) ('}' :: s) = none := fun _ => rfl
  have hblock := readBlock_items (fun b s hb => readMember_append _ hb s) (by decide) hnone hsep hb
    hus hne hcount rest
  rw [List.cons_append, readValue, skip_cons (by decide)]
  simp only [List.append_assoc, List.singleton_append, hblock, Option.map_some]

/-- Two brackets. -/
theorem denotes_brackets : Denotes ['[', ']'] (.array []) ∧ Denotes ['{', '}'] (.object []) := by
  constructor
  all_goals
    intro n hn rest _
    obtain ⟨n, rfl⟩ : ∃ k, n = k + 1 := Nat.exists_eq_succ_of_ne_zero (by rintro rfl; simp at hn)
    rfl

/-- **A text that denotes a tree** is read as it. -/
theorem Denotes.read_eq {s : List Char} {t : Tree} (h : Denotes s t) : read s = some t := by
  have hs := h s.length le_rfl [] (by rintro c ⟨⟩)
  rw [List.append_nil] at hs
  rw [read, hs]
  rfl

end SimpleTSDB.JsonText
