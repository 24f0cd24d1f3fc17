import Mathlib.Data.List.Basic
import Mathlib.Data.List.TakeWhile

/-!
# Strings that a zero ends

A C string has no length of its own: `strlen` looks at one byte after the other until it meets a
zero. How far it looks in a larger memory depends on the bytes up to that zero only, and it stays
inside a block that it starts in iff the block has a zero from there on.
-/

namespace CString

/-- The bytes before the first zero. What lies behind the memory counts as zero. -/
def string (memory : List UInt8) : List UInt8 := memory.takeWhile (· ≠ 0)

def strlen (memory : List UInt8) : Nat := (string memory).length

/-- The offsets at which `strlen` looks when it starts at `start`. -/
def scanned (memory : List UInt8) (start : Nat) : List Nat :=
  List.range' start (strlen (memory.drop start) + 1)

/-- The `n` bytes that `strncpy` stores for the string `src`. -/
def strncpy (src : List UInt8) (n : Nat) : List UInt8 :=
  src.take n ++ List.replicate (n - src.length) 0

variable {block : List UInt8}

theorem string_append (h : 0 ∈ block) (beyond : List UInt8) :
    string (block ++ beyond) = string block := by
  induction block with
  | nil => cases h
  | cons b block ih =>
      by_cases hb : b = 0
      · simp [string, hb]
      · have hmem : 0 ∈ block := by simpa [Ne.symm hb] using h
        simpa [string, hb] using ih hmem

theorem strlen_append (h : 0 ∈ block) (beyond : List UInt8) :
    strlen (block ++ beyond) = strlen block := by
  rw [strlen, string_append h, strlen]

/-- Without a zero the memory ends the string. -/
theorem strlen_of_not_mem (h : 0 ∉ block) : strlen block = block.length := by
  rw [strlen, string, List.takeWhile_eq_self_iff.mpr]
  intro b hb
  exact decide_eq_true (ne_of_mem_of_not_mem hb h)

theorem strlen_append_lt_iff (beyond : List UInt8) :
    strlen (block ++ beyond) < block.length ↔ 0 ∈ block := by
  induction block with
  | nil => simp
  | cons b block ih =>
      by_cases hb : b = 0
      · simp [strlen, string, hb]
      · have hlen : strlen (b :: block ++ beyond) = strlen (block ++ beyond) + 1 := by
          simp [strlen, string, hb]
        rw [hlen, List.length_cons, Nat.add_lt_add_iff_right, ih]
        simp [Ne.symm hb]

/-- **A scan inside a block.** -/
theorem scanned_inside_iff (beyond : List UInt8) (start : Nat) :
    (∀ offset ∈ scanned (block ++ beyond) start, offset < block.length)
      ↔ 0 ∈ block.drop start := by
  have hlast : (∀ offset ∈ scanned (block ++ beyond) start, offset < block.length)
      ↔ start + strlen ((block ++ beyond).drop start) < block.length := by
    simp only [scanned, List.mem_range'_1]
    constructor
    · intro h
      exact h _ ⟨by omega, by omega⟩
    · intro h offset hoffset
      omega
  rw [hlast]
  by_cases hstart : start ≤ block.length
  · rw [List.drop_append_of_le_length hstart, ← strlen_append_lt_iff beyond, List.length_drop]
    omega
  · have hnil : block.drop start = [] := List.drop_eq_nil_of_le (by omega)
    rw [hnil]
    simp only [List.not_mem_nil, iff_false]
    omega

/-! ### Strings that have been stored -/

theorem string_append_zero (chars after : List UInt8) :
    string (chars ++ 0 :: after) = string chars := by
  induction chars with
  | nil => rfl
  | cons c chars ih =>
      by_cases hc : c = 0
      · simp [string, hc]
      · simpa [string, hc] using ih

@[simp]
theorem length_strncpy (src : List UInt8) (n : Nat) : (strncpy src n).length = n := by
  rw [strncpy, List.length_append, List.length_take, List.length_replicate]
  omega

/-- With a zero behind it, what `strncpy` has stored is the string, cut off where it is too long. -/
theorem string_strncpy (src : List UInt8) (n : Nat) (after : List UInt8) :
    string (strncpy src n ++ [0] ++ after) = string (src.take n) := by
  have hpad : List.replicate (n - src.length) 0 ++ [0]
      = (0 : UInt8) :: List.replicate (n - src.length) 0 := by
    rw [← List.replicate_succ', List.replicate_succ]
  rw [strncpy, List.append_assoc (src.take n), hpad, List.append_assoc, List.cons_append,
    string_append_zero]

theorem strlen_strncpy_le (src : List UInt8) (n : Nat) (after : List UInt8) :
    strlen (strncpy src n ++ [0] ++ after) ≤ n := by
  rw [strlen, string_strncpy]
  calc (string (src.take n)).length
    _ ≤ (src.take n).length := (List.takeWhile_prefix _).length_le
    _ ≤ n := List.length_take_le n src

end CString
