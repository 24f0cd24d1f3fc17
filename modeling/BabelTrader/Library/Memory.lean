import Mathlib.Data.List.Basic

/-!
# Memory

A block of memory as the list of its cells, read and written by address and length. What has been
stored is read back, and cells on either side of it keep what they held.
-/

namespace Memory

variable {α : Type} {mem : List α} {addr addr' n : Nat} {cells : List α}

/-- The `n` cells from `addr` on, as far as the block has them. -/
def load (mem : List α) (addr n : Nat) : List α := (mem.drop addr).take n

def store (mem : List α) (addr : Nat) (cells : List α) : List α :=
  mem.take addr ++ (cells ++ mem.drop (addr + cells.length))

theorem length_load (h : addr + n ≤ mem.length) : (load mem addr n).length = n := by
  rw [load, List.length_take, List.length_drop]
  omega

theorem length_store (h : addr + cells.length ≤ mem.length) :
    (store mem addr cells).length = mem.length := by
  simp only [store, List.length_append, List.length_take, List.length_drop]
  omega

theorem load_zero (mem : List α) (addr : Nat) : load mem addr 0 = [] := List.take_zero

theorem load_add (mem : List α) (addr n m : Nat) :
    load mem addr (n + m) = load mem addr n ++ load mem (addr + n) m := by
  rw [load, List.take_add, List.drop_drop]
  rfl

theorem load_store_same (h : addr ≤ mem.length) :
    load (store mem addr cells) addr cells.length = cells := by
  have hfront : (mem.take addr).length = addr := List.length_take_of_le h
  rw [load, store, List.drop_left' hfront, List.take_left]

theorem load_store_before (h : addr' + n ≤ addr) (hle : addr ≤ mem.length) :
    load (store mem addr cells) addr' n = load mem addr' n := by
  have hfront : (mem.take addr).length = addr := List.length_take_of_le hle
  have hroom : n ≤ ((mem.take addr).drop addr').length := by
    rw [List.length_drop, hfront]
    omega
  rw [load, store, List.drop_append_of_le_length (by omega), List.take_append_of_le_length hroom,
    List.drop_take, List.take_take, Nat.min_eq_left (by omega), load]

theorem load_store_after (h : addr + cells.length ≤ addr') (hle : addr ≤ mem.length) :
    load (store mem addr cells) addr' n = load mem addr' n := by
  have hfront : (mem.take addr ++ cells).length = addr + cells.length := by
    rw [List.length_append, List.length_take_of_le hle]
  rw [load, store, ← List.append_assoc, List.drop_append, hfront,
    List.drop_eq_nil_of_le (by omega), List.nil_append, List.drop_drop,
    show addr + cells.length + (addr' - (addr + cells.length)) = addr' by omega, load]

end Memory
