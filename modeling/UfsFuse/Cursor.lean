import Mathlib.Tactic

/-!
# Reading a changing list by position

A cursor reads a list in chunks and remembers only how far it has come. Between two chunks the list may
be replaced by another. Nothing is lost if that happens after the end has been reached; an element that
is erased before leaves out the element that the cursor was to read next.
-/
namespace UfsFuse

structure Cursor (α : Type*) where
  listing : List α
  offset : ℕ
  returned : List α

namespace Cursor
variable {α : Type*} {c : Cursor α} {l l₀ : List α} {x y : α} {room : ℕ}

def start (l : List α) : Cursor α := ⟨l, 0, []⟩

/-- What the next chunk holds. -/
def chunk (c : Cursor α) (room : ℕ) : List α := (c.listing.drop c.offset).take room

def read (c : Cursor α) (room : ℕ) : Cursor α :=
  ⟨c.listing, c.offset + (c.chunk room).length, c.returned ++ c.chunk room⟩

def relist (c : Cursor α) (l : List α) : Cursor α := { c with listing := l }

/-- Everything has been read. -/
def Done (c : Cursor α) : Prop := c.listing.length ≤ c.offset

theorem done_of_chunk (hroom : 0 < room) (h : c.chunk room = []) : c.Done := by
  unfold chunk at h
  rw [List.take_eq_nil_iff] at h
  cases h with
  | inl h => omega
  | inr h => exact List.drop_eq_nil_iff.mp h

theorem chunk_done (h : c.Done) : c.chunk room = [] := by
  unfold chunk
  rw [List.drop_of_length_le h, List.take_nil]

theorem chunk_subset : c.chunk room ⊆ c.listing.drop c.offset := List.take_subset _ _

theorem take_chunk : c.listing.take (c.offset + (c.chunk room).length) =
    c.listing.take c.offset ++ c.chunk room := by
  unfold chunk
  rw [List.take_add, List.length_take, ← List.take_take, List.take_length]

/-! ## Nothing is lost -/

/-- The cursor has returned a part of `l₀` from the front, and the list is still `l₀` unless it was
changed after the end. -/
structure Complete (l₀ : List α) (c : Cursor α) : Prop where
  returned : c.returned = l₀.take c.offset
  listing : c.listing = l₀ ∨ l₀.length ≤ c.offset ∧ c.Done

theorem complete_start : (start l).Complete l := ⟨rfl, .inl rfl⟩

theorem Complete.read (h : c.Complete l₀) (room : ℕ) : (c.read room).Complete l₀ := by
  cases h.listing with
  | inl hl =>
    refine ⟨?_, .inl hl⟩
    rw [Cursor.read, h.returned]
    dsimp only
    rw [← hl, take_chunk]
  | inr hdone =>
    have hsame : c.read room = c := by
      rw [Cursor.read, chunk_done hdone.2, List.append_nil]
      rfl
    rw [hsame]
    exact h

/-- After the end the list may become any list that is not longer. -/
theorem Complete.relist (h : c.Complete l₀) (hdone : c.Done) (hlen : l.length ≤ c.listing.length) :
    (c.relist l).Complete l₀ := by
  refine ⟨h.returned, .inr ⟨?_, hlen.trans hdone⟩⟩
  cases h.listing with
  | inl hl => exact hl ▸ hdone
  | inr hl => exact hl.1

/-- At the end everything has been returned, in order. -/
theorem Complete.returned_eq (h : c.Complete l₀) (hdone : c.Done) : c.returned = l₀ := by
  rw [h.returned]
  cases h.listing with
  | inl hl => exact List.take_of_length_le (hl ▸ hdone)
  | inr hl => exact List.take_of_length_le hl.1

/-! ## An element is lost -/

/-- Element `x` stands before the position of the cursor, but has not been returned. -/
structure Missed (x : α) (c : Cursor α) : Prop where
  before : x ∈ c.listing.take c.offset
  unreturned : x ∉ c.returned

theorem Missed.mem (h : Missed x c) : x ∈ c.listing := List.mem_of_mem_take h.before

/-- It never will be. -/
theorem Missed.read (h : Missed x c) (hl : c.listing.Nodup) (room : ℕ) : Missed x (c.read room) := by
  constructor
  · have hbefore := List.mem_append_left (c.chunk room) h.before
    rw [← take_chunk] at hbefore
    exact hbefore
  · intro hx
    cases List.mem_append.mp hx with
    | inl hx => exact h.unreturned hx
    | inr hx => exact List.disjoint_take_drop hl le_rfl h.before (chunk_subset hx)

variable [BEq α] [LawfulBEq α]

/-- Erasing another element. -/
theorem Missed.erase (h : Missed x c) (hy : y ∈ c.returned) :
    Missed x (c.relist (c.listing.erase y)) := by
  have hxy : x ≠ y := fun he => h.unreturned (he ▸ hy)
  refine ⟨?_, h.unreturned⟩
  have hfront : x ∈ (c.listing.take c.offset).erase y := (List.mem_erase_of_ne hxy).mpr h.before
  unfold relist
  dsimp only
  rw [← List.take_append_drop c.offset c.listing]
  by_cases hy' : y ∈ c.listing.take c.offset
  · rw [List.erase_append_left _ hy']
    have hlen := List.length_erase_of_mem hy'
    have hle : (c.listing.take c.offset).length ≤ c.offset := List.length_take_le _ _
    rw [List.take_append]
    exact List.mem_append_left _ (by rwa [List.take_of_length_le (by omega)])
  · rw [List.erase_append_right _ hy', List.take_append]
    refine List.mem_append_left _ ?_
    rw [List.take_of_length_le (List.length_take_le _ _)]
    exact h.before

/-- Erasing an element that was returned before the end puts the next one out of reach. -/
theorem missed_of_erase (hl : c.listing.Nodup) (hc : c.returned = c.listing.take c.offset)
    (hlate : ¬c.Done) (hy : y ∈ c.returned) : ∃ x ∈ c.listing, Missed x (c.relist (c.listing.erase y)) := by
  have hlt : c.offset < c.listing.length := not_le.mp hlate
  rw [hc] at hy
  refine ⟨c.listing[c.offset], List.getElem_mem hlt, ?_, ?_⟩
  · unfold relist
    dsimp only
    have hlen := List.length_erase_of_mem hy
    rw [List.length_take_of_le hlt.le] at hlen
    have hpos : 0 < c.offset := by
      have := List.length_pos_of_mem hy
      rw [List.length_take] at this
      omega
    have herase : c.listing.erase y = (c.listing.take c.offset).erase y ++ c.listing.drop c.offset := by
      rw [← List.erase_append_left _ hy, List.take_append_drop]
    rw [herase, List.take_append, hlen, show c.offset - (c.offset - 1) = 1 by omega,
      List.drop_eq_getElem_cons hlt]
    exact List.mem_append_right _ (List.mem_cons_self ..)
  · change c.listing[c.offset] ∉ c.returned
    rw [hc]
    intro hx
    have hdrop : c.listing[c.offset] ∈ c.listing.drop c.offset := by
      rw [List.drop_eq_getElem_cons hlt]
      exact List.mem_cons_self ..
    exact List.disjoint_take_drop hl le_rfl hx hdrop

end Cursor
end UfsFuse
