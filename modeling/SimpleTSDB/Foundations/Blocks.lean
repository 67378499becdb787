import Mathlib.Data.List.Chain
import Mathlib.Data.List.TakeWhile

/-!
# Greedy blocks

A list is cut into blocks greedily: a block starts at the first element that is left, and it takes
the elements behind as long as they are related to its first one. `blocks_greedy` says what the cut
is: nothing is lost, no block is empty, the members of a block are related to its first element, and
the first element of the next block is not.
-/

namespace SimpleTSDB.Blocks

variable {α : Type*} {r : α → α → Bool}

/-- The blocks of a list. -/
def blocks (r : α → α → Bool) : List α → List (List α)
  | [] => []
  | a :: l => (a :: l.takeWhile (r a)) :: blocks r (l.dropWhile (r a))
termination_by l => l.length
decreasing_by
  have := (List.dropWhile_suffix (l := l) (r a)).length_le
  rw [List.length_cons]
  omega

@[simp] theorem blocks_nil : blocks r [] = [] := by rw [blocks]

theorem blocks_cons (a : α) (l : List α) :
    blocks r (a :: l) = (a :: l.takeWhile (r a)) :: blocks r (l.dropWhile (r a)) := by
  rw [blocks]

/-- A cut of the list into blocks that are as long as they can be. -/
structure Greedy (r : α → α → Bool) (l : List α) (bs : List (List α)) : Prop where
  flatten_eq : bs.flatten = l
  ne_nil : ∀ b ∈ bs, b ≠ []
  inside : ∀ b ∈ bs, ∀ a ∈ b.head?, ∀ x ∈ b.tail, r a x = true
  next : bs.IsChain fun b b' => ∀ a ∈ b.head?, ∀ x ∈ b'.head?, r a x = false

/-- What is left behind a block starts with an element that is not related to its first one. -/
theorem head_dropWhile {p : α → Bool} {l : List α} {x : α} (h : x ∈ (l.dropWhile p).head?) :
    p x = false := by
  have := List.head?_dropWhile_not p l
  rw [h] at this
  simpa using this

theorem head_blocks {l : List α} {b : List α} (h : b ∈ (blocks r l).head?) :
    b.head? = l.head? := by
  cases l with
  | nil =>
    rw [blocks_nil] at h
    cases h
  | cons a l =>
    rw [blocks_cons] at h
    obtain rfl := Option.some.inj h
    rfl

/-- **The blocks are a greedy cut.** -/
theorem blocks_greedy (r : α → α → Bool) (l : List α) : Greedy r l (blocks r l) := by
  induction l using blocks.induct r with
  | case1 =>
    rw [blocks_nil]
    exact ⟨rfl, List.forall_mem_nil _, List.forall_mem_nil _, .nil⟩
  | case2 a l ih =>
    rw [blocks_cons]
    refine ⟨?_, ?_, ?_, ?_⟩
    · rw [List.flatten_cons, ih.flatten_eq, List.cons_append, List.takeWhile_append_dropWhile]
    · rw [List.forall_mem_cons]
      exact ⟨List.cons_ne_nil _ _, ih.ne_nil⟩
    · rw [List.forall_mem_cons]
      refine ⟨?_, ih.inside⟩
      rintro _ ⟨⟩ x hx
      exact List.mem_takeWhile_imp hx
    · refine ih.next.cons ?_
      rintro b hb _ ⟨⟩ x hx
      rw [head_blocks hb] at hx
      exact head_dropWhile hx

end SimpleTSDB.Blocks
