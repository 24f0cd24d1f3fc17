import BabelTrader.Msg

/-!
# The bytes buffer

A session keeps the bytes that have arrived and are not yet handled in a `muggle::BytesBuffer`. That
class lives in another repository, so it is an interface here: the operations the codecs call, and
the first-in first-out contract they rely on. Addresses are offsets into the buffer's array, and
lengths are `int`s.
-/

namespace BabelTrader

/-- The operations of `muggle::BytesBuffer` that the codecs call. `WriterFc` and `ReaderFc` hand out
an address in the buffer's own array, so a caller can also look at that memory (`peek`) and store
into it (`poke`). -/
class BytesBuffer (β : Type) where
  readable : β → Int
  fetch : β → Int → Option Bytes
  read : β → Int → Bool × Bytes × β
  readerFc : β → Int → Option Nat
  readerMove : β → Int → Bool × β
  writerFc : β → Int → Option Nat
  writerMove : β → Int → Bool × β
  peek : β → Nat → Nat → Bytes
  poke : β → Nat → Bytes → β

namespace BytesBuffer

variable {β : Type} [BytesBuffer β]

/-- The unread bytes, as a `Fetch` of all of them would copy them out. -/
def contents (buf : β) : Bytes := (fetch buf (readable buf)).getD []

end BytesBuffer

open BytesBuffer in
/-- **The FIFO contract.** `Fetch` only looks, `Read` and `ReaderMove` consume from the front, and
`WriterMove` appends what was stored at the address that `WriterFc` gave out. -/
class FifoContract (β : Type) [BytesBuffer β] : Prop where
  readable_eq (buf : β) : readable buf = (contents buf).length
  /-- `Readable` returns an `int`. -/
  length_lt (buf : β) : (contents buf).length < 2 ^ 31
  fetch_eq (buf : β) (n : Nat) :
    fetch buf n = if n ≤ (contents buf).length then some ((contents buf).take n) else none
  read_eq (buf : β) {n : Nat} (h : n ≤ (contents buf).length) :
    ∃ buf', read buf n = (true, (contents buf).take n, buf')
      ∧ contents buf' = (contents buf).drop n
  peek_readerFc (buf : β) {n addr : Nat} (h : n ≤ (contents buf).length)
    (hfc : readerFc buf n = some addr) : peek buf addr n = (contents buf).take n
  /-- Storing into the bytes that `ReaderFc` showed changes these bytes and no others. -/
  poke_readerFc (buf : β) {n addr : Nat} (h : n ≤ (contents buf).length)
    (hfc : readerFc buf n = some addr) {bytes : Bytes} (hlen : bytes.length = n) :
    contents (poke buf addr bytes) = bytes ++ (contents buf).drop n
  readerMove_eq (buf : β) {n : Nat} (h : n ≤ (contents buf).length) :
    ∃ buf', readerMove buf n = (true, buf') ∧ contents buf' = (contents buf).drop n
  writerMove_eq (buf : β) {n addr : Nat} (hfc : writerFc buf n = some addr) {bytes : Bytes}
    (hlen : bytes.length ≤ n) :
    ∃ buf', writerMove (poke buf addr bytes) bytes.length = (true, buf')
      ∧ contents buf' = contents buf ++ bytes

/-! ### A buffer that keeps the contract

One array of `capacity` bytes, with the unread ones at its front. It moves what remains back to the
front whenever something is consumed, so it answers like a ring whose positions have not come near
the end of the array. -/

structure FlatBuffer (capacity : Nat) where
  array : Bytes
  writer : Nat
  length_array : array.length = capacity
  writer_le : writer ≤ capacity
  capacity_lt : capacity < 2 ^ 31

namespace FlatBuffer

variable {capacity : Nat}

def init (capacity : Nat) (h : capacity < 2 ^ 31) : FlatBuffer capacity where
  array := List.replicate capacity 0
  writer := 0
  length_array := List.length_replicate
  writer_le := Nat.zero_le _
  capacity_lt := h

def consume (buf : FlatBuffer capacity) (n : Nat) (h : n ≤ buf.writer) : FlatBuffer capacity where
  array := buf.array.drop n ++ List.replicate n 0
  writer := buf.writer - n
  length_array := by
    have hle := buf.writer_le
    rw [List.length_append, List.length_drop, List.length_replicate, buf.length_array]
    omega
  writer_le := Nat.le_trans (Nat.sub_le _ _) buf.writer_le
  capacity_lt := buf.capacity_lt

def store (buf : FlatBuffer capacity) (addr : Nat) (bytes : Bytes)
    (h : addr + bytes.length ≤ capacity) : FlatBuffer capacity where
  array := buf.array.take addr ++ (bytes ++ buf.array.drop (addr + bytes.length))
  writer := buf.writer
  length_array := by
    simp only [List.length_append, List.length_take, List.length_drop, buf.length_array]
    omega
  writer_le := buf.writer_le
  capacity_lt := buf.capacity_lt

instance : BytesBuffer (FlatBuffer capacity) where
  readable buf := buf.writer
  fetch buf n := if n.toNat ≤ buf.writer then some (buf.array.take n.toNat) else none
  read buf n :=
    if h : n.toNat ≤ buf.writer then (true, buf.array.take n.toNat, buf.consume n.toNat h)
    else (false, [], buf)
  readerFc buf n := if n.toNat ≤ buf.writer then some 0 else none
  readerMove buf n :=
    if h : n.toNat ≤ buf.writer then (true, buf.consume n.toNat h) else (false, buf)
  writerFc buf n := if buf.writer + n.toNat ≤ capacity then some buf.writer else none
  writerMove buf n :=
    if h : buf.writer + n.toNat ≤ capacity then
      (true, { buf with writer := buf.writer + n.toNat, writer_le := h })
    else (false, buf)
  peek buf addr n := (buf.array.drop addr).take n
  poke buf addr bytes :=
    if h : addr + bytes.length ≤ capacity then buf.store addr bytes h else buf

theorem contents_eq (buf : FlatBuffer capacity) :
    BytesBuffer.contents buf = buf.array.take buf.writer := by
  simp [BytesBuffer.contents, BytesBuffer.fetch, BytesBuffer.readable]

theorem contents_init (h : capacity < 2 ^ 31) : BytesBuffer.contents (init capacity h) = [] := by
  rw [contents_eq]
  exact List.take_zero

theorem length_contents (buf : FlatBuffer capacity) :
    (BytesBuffer.contents buf).length = buf.writer := by
  rw [contents_eq, List.length_take, buf.length_array, Nat.min_eq_left buf.writer_le]

theorem contents_consume (buf : FlatBuffer capacity) {n : Nat} (h : n ≤ buf.writer) :
    BytesBuffer.contents (buf.consume n h) = (BytesBuffer.contents buf).drop n := by
  have hle := buf.writer_le
  have hlen := buf.length_array
  rw [contents_eq, contents_eq, List.drop_take]
  change (buf.array.drop n ++ List.replicate n 0).take (buf.writer - n) = _
  rw [List.take_append_of_le_length (by rw [List.length_drop]; omega)]

theorem array_store_take (buf : FlatBuffer capacity) {addr : Nat} {bytes : Bytes}
    (h : addr + bytes.length ≤ capacity) :
    (buf.store addr bytes h).array.take (addr + bytes.length) = buf.array.take addr ++ bytes := by
  change (buf.array.take addr ++ (bytes ++ buf.array.drop (addr + bytes.length))).take
    (addr + bytes.length) = _
  have hle : addr ≤ buf.array.length := by
    rw [buf.length_array]
    omega
  have hlen : (buf.array.take addr ++ bytes).length = addr + bytes.length := by
    rw [List.length_append, List.length_take_of_le hle]
  rw [← List.append_assoc, List.take_append_of_le_length hlen.ge, List.take_of_length_le hlen.le]

theorem contents_store_front (buf : FlatBuffer capacity) {bytes : Bytes}
    (hle : bytes.length ≤ buf.writer) (h : 0 + bytes.length ≤ capacity) :
    BytesBuffer.contents (buf.store 0 bytes h)
      = bytes ++ (BytesBuffer.contents buf).drop bytes.length := by
  rw [contents_eq, contents_eq, List.drop_take]
  change (buf.array.take 0 ++ (bytes ++ buf.array.drop (0 + bytes.length))).take buf.writer = _
  rw [List.take_zero, List.nil_append, Nat.zero_add, List.take_append, List.take_of_length_le hle]

theorem writerFc_ne_none (buf : FlatBuffer capacity) {n : Nat}
    (h : (BytesBuffer.contents buf).length + n ≤ capacity) : BytesBuffer.writerFc buf n ≠ none := by
  rw [length_contents] at h
  simp only [BytesBuffer.writerFc, Int.toNat_natCast, if_pos h, ne_eq, reduceCtorEq,
    not_false_eq_true]

instance : FifoContract (FlatBuffer capacity) where
  readable_eq buf := by rw [length_contents]; rfl
  length_lt buf := by
    rw [length_contents]
    exact Nat.lt_of_le_of_lt buf.writer_le buf.capacity_lt
  fetch_eq buf n := by
    rw [length_contents, contents_eq]
    simp only [BytesBuffer.fetch, Int.toNat_natCast]
    split
    next h => rw [List.take_take, Nat.min_eq_left h]
    next => rfl
  read_eq buf n h := by
    rw [length_contents] at h
    refine ⟨buf.consume n h, ?_, buf.contents_consume h⟩
    rw [contents_eq, List.take_take, Nat.min_eq_left h]
    exact dif_pos h
  peek_readerFc buf n addr h hfc := by
    rw [length_contents] at h
    obtain rfl : addr = 0 := by
      simp only [BytesBuffer.readerFc, Int.toNat_natCast, if_pos h, Option.some.injEq] at hfc
      exact hfc.symm
    rw [contents_eq, List.take_take, Nat.min_eq_left h]
    rfl
  poke_readerFc buf n addr h hfc bytes hlen := by
    rw [length_contents] at h
    have hle := buf.writer_le
    obtain rfl : addr = 0 := by
      simp only [BytesBuffer.readerFc, Int.toNat_natCast, if_pos h, Option.some.injEq] at hfc
      exact hfc.symm
    have hroom : 0 + bytes.length ≤ capacity := by omega
    have hpoke : BytesBuffer.poke buf 0 bytes = buf.store 0 bytes hroom := dif_pos hroom
    rw [hpoke, buf.contents_store_front (by omega), hlen]
  readerMove_eq buf n h := by
    rw [length_contents] at h
    exact ⟨buf.consume n h, dif_pos h, buf.contents_consume h⟩
  writerMove_eq buf n addr hfc bytes hlen := by
    obtain ⟨hfit, rfl⟩ : buf.writer + n ≤ capacity ∧ buf.writer = addr := by
      simpa only [BytesBuffer.writerFc, Int.toNat_natCast, Option.ite_none_right_eq_some,
        Option.some.injEq] using hfc
    have hroom : buf.writer + bytes.length ≤ capacity := by omega
    have hpoke : BytesBuffer.poke buf buf.writer bytes = buf.store buf.writer bytes hroom :=
      dif_pos hroom
    refine ⟨{ buf.store buf.writer bytes hroom with
      writer := buf.writer + bytes.length, writer_le := hroom }, ?_, ?_⟩
    · rw [hpoke]
      exact dif_pos hroom
    · rw [contents_eq, contents_eq]
      exact buf.array_store_take hroom

end FlatBuffer

end BabelTrader
