import Mathlib.Algebra.BigOperators.Group.List.Basic
import Mathlib.Algebra.Order.Ring.Int
import Mathlib.Data.Fintype.Basic
import Mathlib.Data.ZMod.Defs
import Mathlib.Tactic.FinCases

/-!
# Machine words

How a 32-bit word lies in memory under either byte order, and what the conversions between `int` and
`uint32_t` keep. `int` values are integers here, and the two casts are the only places where they
are cut down to 32 bits.
-/

namespace MachineWord

inductive ByteOrder where
  | little
  | big
deriving DecidableEq, Repr

def loadLittle (bytes : Fin 4 → UInt8) : UInt32 :=
  UInt32.ofNat ((bytes 0).toNat + 2 ^ 8 * (bytes 1).toNat + 2 ^ 16 * (bytes 2).toNat
    + 2 ^ 24 * (bytes 3).toNat)

def storeLittle (word : UInt32) : Fin 4 → UInt8 :=
  fun i => UInt8.ofNat (word.toNat / 2 ^ (8 * i.val))

theorem loadLittle_storeLittle (word : UInt32) : loadLittle (storeLittle word) = word := by
  have hlt := word.toNat_lt
  apply UInt32.toNat_inj.mp
  simp only [loadLittle, storeLittle, UInt32.toNat_ofNat', UInt8.toNat_ofNat', Fin.val_zero,
    Fin.val_one, Fin.val_two, show (3 : Fin 4).val = 3 from rfl]
  omega

theorem storeLittle_loadLittle (bytes : Fin 4 → UInt8) :
    storeLittle (loadLittle bytes) = bytes := by
  have h0 := (bytes 0).toNat_lt
  have h1 := (bytes 1).toNat_lt
  have h2 := (bytes 2).toNat_lt
  have h3 := (bytes 3).toNat_lt
  funext i
  apply UInt8.toNat_inj.mp
  simp only [loadLittle, storeLittle, UInt32.toNat_ofNat', UInt8.toNat_ofNat']
  fin_cases i <;> simp only [Fin.zero_eta, Fin.mk_one, Fin.reduceFinMk] <;> omega

def load32 : ByteOrder → (Fin 4 → UInt8) → UInt32
  | .little, bytes => loadLittle bytes
  | .big, bytes => loadLittle fun i => bytes i.rev

def store32 : ByteOrder → UInt32 → Fin 4 → UInt8
  | .little, word => storeLittle word
  | .big, word => fun i => storeLittle word i.rev

@[simp]
theorem load32_store32 (order : ByteOrder) (word : UInt32) :
    load32 order (store32 order word) = word := by
  cases order with
  | little => exact loadLittle_storeLittle word
  | big => simp only [load32, store32, Fin.rev_rev, loadLittle_storeLittle]

@[simp]
theorem store32_load32 (order : ByteOrder) (bytes : Fin 4 → UInt8) :
    store32 order (load32 order bytes) = bytes := by
  cases order with
  | little => exact storeLittle_loadLittle bytes
  | big => simp only [load32, store32, storeLittle_loadLittle, Fin.rev_rev]

theorem load32_injective (order : ByteOrder) : Function.Injective (load32 order) :=
  Function.LeftInverse.injective (store32_load32 order)

theorem toNat_loadLittle (bytes : Fin 4 → UInt8) :
    (loadLittle bytes).toNat = (bytes 0).toNat + 2 ^ 8 * (bytes 1).toNat
      + 2 ^ 16 * (bytes 2).toNat + 2 ^ 24 * (bytes 3).toNat := by
  have h0 := (bytes 0).toNat_lt
  have h1 := (bytes 1).toNat_lt
  have h2 := (bytes 2).toNat_lt
  have h3 := (bytes 3).toNat_lt
  rw [loadLittle, UInt32.toNat_ofNat']
  apply Nat.mod_eq_of_lt
  omega

/-- Larger bytes are a larger word, in either order. -/
theorem load32_mono (order : ByteOrder) {bytes bytes' : Fin 4 → UInt8}
    (h : ∀ i, (bytes i).toNat ≤ (bytes' i).toNat) :
    (load32 order bytes).toNat ≤ (load32 order bytes').toNat := by
  have hlittle {bytes bytes' : Fin 4 → UInt8} (h : ∀ i, (bytes i).toNat ≤ (bytes' i).toNat) :
      (loadLittle bytes).toNat ≤ (loadLittle bytes').toNat := by
    have h0 := h 0
    have h1 := h 1
    have h2 := h 2
    have h3 := h 3
    rw [toNat_loadLittle, toNat_loadLittle]
    omega
  cases order with
  | little => exact hlittle h
  | big => exact hlittle fun i => h i.rev

theorem toNat_last_le_load32 (order : ByteOrder) (bytes : Fin 4 → UInt8) :
    (bytes (Fin.last 3)).toNat ≤ (load32 order bytes).toNat := by
  cases order with
  | little =>
      rw [load32, toNat_loadLittle]
      change (bytes 3).toNat ≤ _
      omega
  | big =>
      rw [load32, toNat_loadLittle]
      change (bytes 3).toNat ≤ (bytes 3).toNat + _ + _ + _
      omega

/-! ### Long words -/

/-- The bytes of a 64-bit word. -/
def store64 (order : ByteOrder) (word : UInt64) : Fin 8 → UInt8 :=
  fun i => UInt8.ofNat (word.toNat / 2 ^ (8 * (match order with
    | .little => i
    | .big => i.rev).val))

/-! ### Casts -/

/-- `(int)word`. -/
def toInt (word : UInt32) : Int := word.toInt32.toInt

/-- `(uint32_t)n`. -/
def ofInt (n : Int) : UInt32 := UInt32.ofInt n

theorem toInt_of_lt {word : UInt32} (h : word.toNat < 2 ^ 31) : toInt word = word.toNat := by
  change word.toBitVec.toInt = word.toBitVec.toNat
  apply BitVec.toInt_eq_toNat_of_lt
  change 2 * word.toNat < 2 ^ 32
  omega

theorem toInt_neg_iff {word : UInt32} : toInt word < 0 ↔ 2 ^ 31 ≤ word.toNat := by
  change word.toBitVec.toInt < 0 ↔ 2 ^ 31 ≤ word.toBitVec.toNat
  have hlt := word.toBitVec.isLt
  rw [BitVec.toInt_eq_toNat_cond]
  split <;> omega

theorem toNat_ofInt {n : Nat} (h : n < 2 ^ 32) : (ofInt n).toNat = n := by
  have hmod : ((n : Int) % 2 ^ 32).toNat = n := by omega
  rw [ofInt, UInt32.ofInt, hmod, UInt32.toNat_ofNat', Nat.mod_eq_of_lt h]

theorem toInt_add {a b : UInt32} (hlow : -2 ^ 31 ≤ toInt a + toInt b)
    (hhigh : toInt a + toInt b < 2 ^ 31) : toInt (a + b) = toInt a + toInt b := by
  change -2 ^ 31 ≤ a.toBitVec.toInt + b.toBitVec.toInt at hlow
  change a.toBitVec.toInt + b.toBitVec.toInt < 2 ^ 31 at hhigh
  change (a.toBitVec + b.toBitVec).toInt = a.toBitVec.toInt + b.toBitVec.toInt
  rw [BitVec.toInt_add]
  apply Int.bmod_eq_of_le <;> omega

theorem toInt_sub {a b : UInt32} (hlow : -2 ^ 31 ≤ toInt a - toInt b)
    (hhigh : toInt a - toInt b < 2 ^ 31) : toInt (a - b) = toInt a - toInt b := by
  change -2 ^ 31 ≤ a.toBitVec.toInt - b.toBitVec.toInt at hlow
  change a.toBitVec.toInt - b.toBitVec.toInt < 2 ^ 31 at hhigh
  change (a.toBitVec - b.toBitVec).toInt = a.toBitVec.toInt - b.toBitVec.toInt
  rw [BitVec.toInt_sub]
  apply Int.bmod_eq_of_le <;> omega

/-- Adding up in 32 bits is adding up, as long as nothing that is passed on the way is too large. -/
theorem toInt_foldl_add {words : List UInt32} {bound : Int}
    (hwords : ∀ word ∈ words, -bound ≤ toInt word ∧ toInt word ≤ bound) {start : UInt32}
    (hlow : -2 ^ 31 ≤ toInt start - bound * words.length)
    (hhigh : toInt start + bound * words.length < 2 ^ 31) :
    toInt (words.foldl (· + ·) start) = toInt start + (words.map toInt).sum := by
  induction words generalizing start with
  | nil => exact (Int.add_zero _).symm
  | cons word words ih =>
      obtain ⟨⟨hword, hword'⟩, hrest⟩ := List.forall_mem_cons.mp hwords
      have hbound : 0 ≤ bound * words.length := by
        apply Int.mul_nonneg _ (Int.natCast_nonneg _)
        omega
      rw [List.length_cons, Int.natCast_add, Int.mul_add] at hlow hhigh
      have hadd : toInt (start + word) = toInt start + toInt word := by
        apply toInt_add <;> omega
      rw [List.foldl_cons, ih hrest (by omega) (by omega), hadd, List.map_cons, List.sum_cons]
      omega
end MachineWord
