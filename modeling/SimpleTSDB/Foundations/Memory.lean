import Mathlib.Algebra.GroupWithZero.Nat
import Mathlib.Data.List.Basic

/-!
# Writing into a block of memory

A block is the list of its bytes, and a write is an offset and some bytes. A write behind the end of
the block is an overrun. Writes that stay in front of a position of the block do not overrun it, and
leave alone what is behind that position (`stores_of_below`).

Texts are packed into a block one behind the other, each with a terminator, and are read back from
where they start (`read_starts`).
-/

namespace SimpleTSDB.Memory

variable {α : Type*}

/-- The block after a write; `none` for an overrun. -/
def store (block : List α) (w : ℕ × List α) : Option (List α) :=
  if w.1 + w.2.length ≤ block.length then
    some (block.take w.1 ++ w.2 ++ block.drop (w.1 + w.2.length))
  else none

/-- The block after some writes. -/
def stores (block : List α) (ws : List (ℕ × List α)) : Option (List α) := ws.foldlM store block

/-- The writes are in front of the position. -/
def Below (n : ℕ) (ws : List (ℕ × List α)) : Prop := ∀ w ∈ ws, w.1 + w.2.length ≤ n

theorem below_nil (n : ℕ) : Below n ([] : List (ℕ × List α)) := List.forall_mem_nil _

theorem Below.append {n : ℕ} {ws ws' : List (ℕ × List α)} (h : Below n ws) (h' : Below n ws') :
    Below n (ws ++ ws') := by
  intro w hw
  rcases List.mem_append.mp hw with hw | hw
  · exact h w hw
  · exact h' w hw

theorem Below.mono {m n : ℕ} {ws : List (ℕ × List α)} (h : Below m ws) (hmn : m ≤ n) : Below n ws :=
  fun w hw => Nat.le_trans (h w hw) hmn

/-- The writes, moved up. -/
def shift (k : ℕ) (ws : List (ℕ × List α)) : List (ℕ × List α) := ws.map fun w => (k + w.1, w.2)

theorem Below.shift {n : ℕ} {ws : List (ℕ × List α)} (h : Below n ws) (k : ℕ) :
    Below (k + n) (shift k ws) := by
  intro w hw
  obtain ⟨w', hw', rfl⟩ := List.mem_map.mp hw
  have := h w' hw'
  dsimp only
  omega

theorem store_of_le {block : List α} {w : ℕ × List α} {n : ℕ} (h : w.1 + w.2.length ≤ n)
    (hn : n ≤ block.length) : ∃ block', store block w = some block' ∧
      block'.length = block.length ∧ block'.drop n = block.drop n := by
  have hlen : (block.take w.1 ++ w.2).length = w.1 + w.2.length := by
    rw [List.length_append, List.length_take]
    omega
  refine ⟨_, if_pos (Nat.le_trans h hn), ?_, ?_⟩
  · rw [List.length_append, List.length_drop, hlen]
    omega
  · rw [List.drop_append, List.drop_of_length_le (by omega), List.nil_append, List.drop_drop, hlen]
    congr 1
    omega

/-- **Writes in front of a position** stay in the block and leave what is behind it alone. -/
theorem stores_of_below {block : List α} {ws : List (ℕ × List α)} {n : ℕ} (h : Below n ws)
    (hn : n ≤ block.length) : ∃ block', stores block ws = some block' ∧
      block'.length = block.length ∧ block'.drop n = block.drop n := by
  induction ws generalizing block with
  | nil => exact ⟨block, rfl, rfl, rfl⟩
  | cons w ws ih =>
    rw [Below, List.forall_mem_cons] at h
    obtain ⟨block₁, hstore, hlen, hdrop⟩ := store_of_le h.1 hn
    obtain ⟨block₂, hstores, hlen', hdrop'⟩ := @ih block₁ h.2 (by omega)
    refine ⟨block₂, ?_, hlen'.trans hlen, hdrop'.trans hdrop⟩
    rw [stores, List.foldlM_cons, hstore]
    exact hstores

/-- A write behind the front of a block. -/
theorem store_append {s t rest : List α} (h : t.length ≤ rest.length) :
    store (s ++ rest) (s.length, t) = some (s ++ t ++ rest.drop t.length) := by
  have hlen : s.length + t.length ≤ (s ++ rest).length := by
    rw [List.length_append]
    omega
  refine (if_pos hlen).trans ?_
  rw [List.take_left, ← List.drop_drop, List.drop_left]

/-- Two writes at the front, the second one behind the first. -/
theorem stores_adjacent {block s t : List α} (h : s.length + t.length ≤ block.length) :
    stores block [(0, s), (s.length, t)] = some (s ++ t ++ block.drop (s.length + t.length)) := by
  have hfirst : store block (0, s) = some (s ++ block.drop s.length) :=
    @store_append α [] s block (by omega)
  have hsecond : store (s ++ block.drop s.length) (s.length, t) =
      some (s ++ t ++ block.drop (s.length + t.length)) := by
    rw [store_append (by rw [List.length_drop]; omega), List.drop_drop]
  simp only [stores, List.foldlM_cons, hfirst, Option.bind_eq_bind, Option.bind_some, hsecond]
  rfl

/-! ## Texts with terminators -/

/-- Texts, one behind the other, each with a terminator. -/
def pack (z : α) (texts : List (List α)) : List α := texts.flatMap (· ++ [z])

/-- Where the texts start, from the offset on. -/
def starts : ℕ → List (List α) → List ℕ
  | _, [] => []
  | offset, text :: texts => offset :: starts (offset + text.length + 1) texts

/-- The text at an offset, up to the terminator. -/
def read [DecidableEq α] (z : α) (block : List α) (offset : ℕ) : Option (List α) :=
  if z ∈ block.drop offset then some ((block.drop offset).takeWhile (· ≠ z)) else none

theorem pack_append (z : α) (texts texts' : List (List α)) :
    pack z (texts ++ texts') = pack z texts ++ pack z texts' := List.flatMap_append

@[simp] theorem pack_singleton (z : α) (text : List α) : pack z [text] = text ++ [z] := by
  simp [pack]

theorem length_pack (z : α) (texts : List (List α)) :
    (pack z texts).length = (texts.map fun text => text.length + 1).sum := by
  simp [pack, List.length_flatMap]

@[simp] theorem length_starts (offset : ℕ) (texts : List (List α)) :
    (starts offset texts).length = texts.length := by
  induction texts generalizing offset with
  | nil => rfl
  | cons text texts ih => rw [starts, List.length_cons, ih, List.length_cons]

/-- The start of one more text. -/
theorem starts_concat (z : α) (offset : ℕ) (texts : List (List α)) (text : List α) :
    starts offset (texts ++ [text]) = starts offset texts ++ [offset + (pack z texts).length] := by
  induction texts generalizing offset with
  | nil => rfl
  | cons first texts ih =>
    rw [List.cons_append, starts, ih, starts, List.cons_append, length_pack, length_pack,
      List.map_cons, List.sum_cons]
    congr 3
    omega

theorem read_append [DecidableEq α] {z : α} {text : List α} (h : z ∉ text) (front rest : List α) :
    read z (front ++ (text ++ z :: rest)) front.length = some text := by
  have hne : ∀ a ∈ text, decide (a ≠ z) = true := fun a ha =>
    decide_eq_true (ne_of_mem_of_not_mem ha h)
  rw [read, List.drop_left, if_pos (List.mem_append_right _ List.mem_cons_self),
    List.takeWhile_append_of_pos hne, List.takeWhile_cons_of_neg (by simp), List.append_nil]

/-- **Packed texts are read back** from their starts. -/
theorem read_starts [DecidableEq α] {z : α} {texts : List (List α)} (h : ∀ text ∈ texts, z ∉ text)
    (front rest : List α) : (starts front.length texts).map
      (read z (front ++ pack z texts ++ rest)) = texts.map some := by
  induction texts generalizing front with
  | nil => rfl
  | cons text texts ih =>
    obtain ⟨htext, htexts⟩ := List.forall_mem_cons.mp h
    have hblock : front ++ pack z (text :: texts) ++ rest =
        front ++ (text ++ z :: (pack z texts ++ rest)) := by
      simp [pack]
    have hbehind : front ++ (text ++ z :: (pack z texts ++ rest)) =
        front ++ (text ++ [z]) ++ pack z texts ++ rest := by
      simp
    have hread := read_append htext front (pack z texts ++ rest)
    have hstart : front.length + text.length + 1 = (front ++ (text ++ [z])).length := by
      simp only [List.length_append, List.length_singleton, Nat.add_assoc]
    rw [starts, List.map_cons, hblock, hread, hstart, hbehind, ih htexts, List.map_cons]

end SimpleTSDB.Memory
