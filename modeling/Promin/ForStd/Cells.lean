import Mathlib.Data.List.Basic

/-!
# Mutable lists

Lists that are changed in place and shared by identity, as the arrays of
JavaScript are.
-/

/-- Lists by identity, which is the number they were made as. -/
structure Cells (α : Type) where
  cells : List (List α)

namespace Cells

variable {α : Type} {h : Cells α} {r r' : Nat}

def empty : Cells α := ⟨[]⟩

/-- How many lists were made. -/
def size (h : Cells α) : Nat := h.cells.length

def read (h : Cells α) (r : Nat) : List α := (h.cells[r]?).getD []

def alloc (h : Cells α) (l : List α) : Cells α := ⟨h.cells ++ [l]⟩

def write (h : Cells α) (r : Nat) (l : List α) : Cells α := ⟨h.cells.set r l⟩

variable (l : List α)

@[simp] theorem size_alloc : (h.alloc l).size = h.size + 1 := by
  simp [alloc, size]

@[simp] theorem size_write : (h.write r l).size = h.size := by
  simp [write, size]

@[simp] theorem read_alloc_self : (h.alloc l).read h.size = l := by
  simp [alloc, read, size]

theorem read_alloc_of_lt (hr : r < h.size) : (h.alloc l).read r = h.read r := by
  simp only [alloc, read]
  rw [List.getElem?_append_left hr]

theorem read_write_self (hr : r < h.size) : (h.write r l).read r = l := by
  simp only [write, read]
  rw [List.getElem?_set_self hr]
  rfl

theorem read_write_ne (hr : r ≠ r') : (h.write r l).read r' = h.read r' := by
  simp only [write, read]
  rw [List.getElem?_set_ne hr]

end Cells
