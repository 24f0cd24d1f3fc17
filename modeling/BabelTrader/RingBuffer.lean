import BabelTrader.BytesBuffer
import BabelTrader.Library.Memory

/-!
# Where a ring has room

The FIFO contract says what a buffer answers, and not where its free bytes lie. Two interfaces say
more: how much room there is behind an address, for any buffer, and for a ring the rule by which
`WriterFc` and `WriterMove` choose between the run at the writer and the one at the start of the
array. Both functions apply the rule to the length they are given, and to nothing else.
-/

namespace BabelTrader

open BytesBuffer Memory

/-! ### Free bytes -/

/-- Free bytes, all of them and those in one run from an address on. `WriterFc` compares its `int`
with the runs. -/
class FreeSpace (β : Type) [BytesBuffer β] where
  free : β → Nat
  runAt : β → Nat → Nat
  runAt_le (buf : β) (addr : Nat) : runAt buf addr ≤ free buf
  /-- The size of the array is an `int`. -/
  free_lt (buf : β) : free buf < 2 ^ 31
  writerFc_none_iff (buf : β) (k : Int) : writerFc buf k = none ↔ ∀ addr, (runAt buf addr : Int) < k
  le_runAt (buf : β) {k : Int} {addr : Nat} (h : writerFc buf k = some addr) : k ≤ runAt buf addr
  free_writerMove (buf : β) {k : Int} {addr : Nat} (h : writerFc buf k = some addr) {bytes : Bytes}
    (hlen : bytes.length ≤ k) :
    free (writerMove (poke buf addr bytes) bytes.length).2 + bytes.length ≤ free buf

/-! ### The two runs of a ring -/

/-- Where a ring reads and writes, and how long the free runs are at the writer and at the start of
the array. -/
structure RingPositions where
  reader : Nat
  writer : Nat
  atWriter : Nat
  atStart : Nat

/-- The run that is chosen for `k` bytes: the one at the writer if they fit there, and otherwise,
when the writer is not behind the reader, the one at the start of the array. -/
def RingPositions.place (pos : RingPositions) (k : Int) : Option Nat :=
  if k ≤ pos.atWriter then some pos.writer
  else if pos.reader ≤ pos.writer ∧ k ≤ pos.atStart then some 0
  else none

namespace RingPositions

variable {pos : RingPositions} {k : Int} {addr : Nat}

theorem place_cases (h : pos.place k = some addr) :
    (addr = pos.writer ∧ k ≤ pos.atWriter)
      ∨ (addr = 0 ∧ ¬ k ≤ pos.atWriter ∧ pos.reader ≤ pos.writer ∧ k ≤ pos.atStart) := by
  rw [place] at h
  split_ifs at h with hwriter hstart
  · exact Or.inl ⟨(Option.some.inj h).symm, hwriter⟩
  · exact Or.inr ⟨(Option.some.inj h).symm, hwriter, hstart⟩

theorem place_writer (h : k ≤ pos.atWriter) : pos.place k = some pos.writer := if_pos h

theorem place_start (hfull : ¬ k ≤ pos.atWriter) (hwriter : pos.reader ≤ pos.writer)
    (h : k ≤ pos.atStart) : pos.place k = some 0 := by
  rw [place, if_neg hfull, if_pos ⟨hwriter, h⟩]

theorem place_shorter {n : Int} (h : pos.place k = some addr) (hle : n ≤ k) :
    ∃ addr', pos.place n = some addr' := by
  by_cases hn : n ≤ pos.atWriter
  · exact ⟨_, place_writer hn⟩
  · obtain ⟨_, hroom⟩ | ⟨_, _, hwriter, hroom⟩ := place_cases h
    · omega
    · exact ⟨_, place_start hn hwriter (by omega)⟩

end RingPositions

/-- **The geometry of a ring.** What is stored in a run that was given out changes neither the
positions nor the unread bytes, and `WriterMove` makes the bytes readable that lie in the run chosen
for *its* argument. -/
class RingGeometry (β : Type) [BytesBuffer β] where
  positions : β → RingPositions
  /-- The run at the start of the array ends before the reader. -/
  atStart_le (buf : β) : (positions buf).atStart ≤ (positions buf).reader
  writerFc_eq (buf : β) (k : Int) : writerFc buf k = (positions buf).place k
  length_peek (buf : β) {n addr : Nat} (h : (positions buf).place n = some addr) :
    (peek buf addr n).length = n
  writerMove_eq (buf : β) {n addr : Nat} (h : (positions buf).place n = some addr) :
    ∃ buf', writerMove buf n = (true, buf') ∧ contents buf' = contents buf ++ peek buf addr n
  positions_poke (buf : β) {k : Int} {addr : Nat} (h : (positions buf).place k = some addr)
    {bytes : Bytes} (hlen : bytes.length ≤ k) : positions (poke buf addr bytes) = positions buf
  contents_poke (buf : β) {k : Int} {addr : Nat} (h : (positions buf).place k = some addr)
    {bytes : Bytes} (hlen : bytes.length ≤ k) : contents (poke buf addr bytes) = contents buf
  peek_poke (buf : β) {k : Int} {addr : Nat} (h : (positions buf).place k = some addr)
    {bytes : Bytes} (hlen : bytes.length ≤ k) : peek (poke buf addr bytes) addr bytes.length = bytes
  peek_poke_after (buf : β) {k : Int} {addr : Nat} (h : (positions buf).place k = some addr)
    {bytes : Bytes} (hlen : bytes.length ≤ k) {addr' : Nat} (hafter : addr + bytes.length ≤ addr')
    (n : Nat) : peek (poke buf addr bytes) addr' n = peek buf addr' n

/-! ### A ring

The unread bytes lie from `reader` to `writer`, or, with the writer behind the reader, from `reader`
to `mark` and on from the start of the array to `writer`. -/

structure RingBuffer (capacity : Nat) where
  array : Bytes
  reader : Nat
  writer : Nat
  mark : Nat
  length_array : array.length = capacity
  writer_le : writer ≤ capacity
  mark_le : mark ≤ capacity
  reader_le : writer < reader → reader ≤ mark
  capacity_lt : capacity < 2 ^ 31

namespace RingBuffer

variable {capacity : Nat}

def init (capacity : Nat) (h : capacity < 2 ^ 31) : RingBuffer capacity where
  array := List.ofFn fun _ : Fin capacity => 0
  reader := 0
  writer := 0
  mark := 0
  length_array := List.length_ofFn
  writer_le := Nat.zero_le _
  mark_le := Nat.zero_le _
  reader_le h := absurd h (Nat.not_lt_zero _)
  capacity_lt := h

def unread (buf : RingBuffer capacity) : Bytes :=
  if buf.reader ≤ buf.writer then load buf.array buf.reader (buf.writer - buf.reader)
  else load buf.array buf.reader (buf.mark - buf.reader) ++ load buf.array 0 buf.writer

/-- One byte before the reader stays free, so that a writer behind the reader never meets it. -/
def positions (buf : RingBuffer capacity) : RingPositions where
  reader := buf.reader
  writer := buf.writer
  atWriter :=
    if buf.reader ≤ buf.writer then capacity - buf.writer else buf.reader - buf.writer - 1
  atStart := buf.reader - 1

theorem length_unread (buf : RingBuffer capacity) :
    buf.unread.length
      = if buf.reader ≤ buf.writer then buf.writer - buf.reader
        else buf.mark - buf.reader + buf.writer := by
  have hwriter := buf.writer_le
  have hmark := buf.mark_le
  have hreader := buf.reader_le
  have hlen := buf.length_array
  rw [unread]
  split
  next h => rw [length_load (by omega)]
  next h => rw [List.length_append, length_load (by omega), length_load (by omega)]

def consume (buf : RingBuffer capacity) (n : Nat) (h : n ≤ buf.unread.length) :
    RingBuffer capacity where
  array := buf.array
  reader :=
    if buf.reader ≤ buf.writer ∨ buf.reader + n ≤ buf.mark then buf.reader + n
    else n - (buf.mark - buf.reader)
  writer := buf.writer
  mark := buf.mark
  length_array := buf.length_array
  writer_le := buf.writer_le
  mark_le := buf.mark_le
  reader_le := by
    rw [length_unread] at h
    split_ifs at h ⊢ <;> omega
  capacity_lt := buf.capacity_lt

def store (buf : RingBuffer capacity) (addr : Nat) (bytes : Bytes)
    (h : addr + bytes.length ≤ capacity) : RingBuffer capacity :=
  { buf with
    array := Memory.store buf.array addr bytes
    length_array := by rw [length_store (buf.length_array.symm ▸ h), buf.length_array] }

def advance (buf : RingBuffer capacity) (n : Nat) (h : n ≤ buf.positions.atWriter) :
    RingBuffer capacity :=
  { buf with
    writer := buf.writer + n
    writer_le := by
      have hwriter := buf.writer_le
      have hmark := buf.mark_le
      have hreader := buf.reader_le
      simp only [positions] at h
      split_ifs at h <;> omega
    reader_le := fun hlt => buf.reader_le (by omega) }

def jump (buf : RingBuffer capacity) (n : Nat)
    (h : buf.reader ≤ buf.writer ∧ n ≤ buf.positions.atStart) : RingBuffer capacity :=
  { buf with
    writer := n
    mark := buf.writer
    writer_le := by
      have hwriter := buf.writer_le
      simp only [positions] at h
      omega
    mark_le := buf.writer_le
    reader_le := fun _ => h.1 }

instance : BytesBuffer (RingBuffer capacity) where
  readable buf := buf.unread.length
  fetch buf n := if n.toNat ≤ buf.unread.length then some (buf.unread.take n.toNat) else none
  read buf n :=
    if h : n.toNat ≤ buf.unread.length then (true, buf.unread.take n.toNat, buf.consume n.toNat h)
    else (false, [], buf)
  readerFc buf n :=
    if buf.reader + n.toNat ≤ (if buf.reader ≤ buf.writer then buf.writer else buf.mark) then
      some buf.reader
    else none
  readerMove buf n :=
    if h : n.toNat ≤ buf.unread.length then (true, buf.consume n.toNat h) else (false, buf)
  writerFc buf k := buf.positions.place k
  writerMove buf n :=
    if h : n.toNat ≤ buf.positions.atWriter then (true, buf.advance n.toNat h)
    else if h : buf.reader ≤ buf.writer ∧ n.toNat ≤ buf.positions.atStart then
      (true, buf.jump n.toNat h)
    else (false, buf)
  peek buf addr n := load buf.array addr n
  poke buf addr bytes :=
    if h : addr + bytes.length ≤ capacity then buf.store addr bytes h else buf

theorem contents_eq (buf : RingBuffer capacity) : contents buf = buf.unread := by
  simp [contents, fetch, readable]

theorem writerMove_of_fits {buf : RingBuffer capacity} {n : Nat}
    (h : n ≤ buf.positions.atWriter) : writerMove buf n = (true, buf.advance n h) := dif_pos h

theorem writerMove_of_full {buf : RingBuffer capacity} {n : Nat}
    (hfull : ¬ n ≤ buf.positions.atWriter)
    (h : buf.reader ≤ buf.writer ∧ n ≤ buf.positions.atStart) :
    writerMove buf n = (true, buf.jump n h) := (dif_neg hfull).trans (dif_pos h)

theorem positions_place {buf : RingBuffer capacity} {k : Int} {addr : Nat}
    (h : buf.positions.place k = some addr) :
    (addr = buf.writer ∧ k ≤ buf.positions.atWriter)
      ∨ (addr = 0 ∧ ¬ k ≤ buf.positions.atWriter
        ∧ buf.reader ≤ buf.writer ∧ k ≤ buf.positions.atStart) :=
  RingPositions.place_cases h

/-- A run that was given out lies in the array, and no unread byte lies in it. -/
theorem place_free {buf : RingBuffer capacity} {k : Int} {addr len : Nat}
    (h : buf.positions.place k = some addr) (hlen : len ≤ k) :
    addr + len ≤ capacity
      ∧ (buf.reader ≤ buf.writer → buf.writer ≤ addr ∨ addr + len ≤ buf.reader)
      ∧ (buf.writer < buf.reader → buf.writer ≤ addr ∧ addr + len ≤ buf.reader) := by
  have hwriter := buf.writer_le
  have hmark := buf.mark_le
  have hreader := buf.reader_le
  obtain ⟨rfl, hroom⟩ | ⟨rfl, _, hunwrapped, hroom⟩ := positions_place h
  · simp only [positions] at hroom
    split_ifs at hroom <;> omega
  · simp only [positions] at hroom
    omega

theorem poke_of_place {buf : RingBuffer capacity} {k : Int} {addr : Nat}
    (h : buf.positions.place k = some addr) {bytes : Bytes} (hlen : bytes.length ≤ k) :
    poke buf addr bytes = buf.store addr bytes (place_free h hlen).1 :=
  dif_pos _

theorem unread_store {buf : RingBuffer capacity} {k : Int} {addr : Nat}
    (h : buf.positions.place k = some addr) {bytes : Bytes} (hlen : bytes.length ≤ k) :
    (buf.store addr bytes (place_free h hlen).1).unread = buf.unread := by
  have hwriter := buf.writer_le
  have hlength := buf.length_array
  obtain ⟨hfit, hunwrapped, hwrapped⟩ := place_free h hlen
  change (if buf.reader ≤ buf.writer then
      load (Memory.store buf.array addr bytes) buf.reader (buf.writer - buf.reader)
    else load (Memory.store buf.array addr bytes) buf.reader (buf.mark - buf.reader)
      ++ load (Memory.store buf.array addr bytes) 0 buf.writer) = _
  rw [unread]
  split
  next hle =>
    obtain hbehind | hbefore := hunwrapped hle
    · exact load_store_before (by omega) (by omega)
    · exact load_store_after (by omega) (by omega)
  next hlt =>
    obtain ⟨hbehind, hbefore⟩ := hwrapped (by omega)
    rw [load_store_after (by omega) (by omega), load_store_before (by omega) (by omega)]

theorem unread_advance (buf : RingBuffer capacity) {n : Nat} (h : n ≤ buf.positions.atWriter) :
    (buf.advance n h).unread = buf.unread ++ load buf.array buf.writer n := by
  change (if buf.reader ≤ buf.writer + n then
      load buf.array buf.reader (buf.writer + n - buf.reader)
    else load buf.array buf.reader (buf.mark - buf.reader) ++ load buf.array 0 (buf.writer + n)) = _
  simp only [positions] at h
  rw [unread]
  by_cases hle : buf.reader ≤ buf.writer
  · rw [if_pos hle, if_pos (by omega),
      show buf.writer + n - buf.reader = buf.writer - buf.reader + n by omega, load_add,
      show buf.reader + (buf.writer - buf.reader) = buf.writer by omega]
  · rw [if_neg hle] at h ⊢
    by_cases hzero : n = 0
    · rw [hzero, load_zero, List.append_nil, Nat.add_zero, if_neg hle]
    · rw [if_neg (by omega), load_add, Nat.zero_add, List.append_assoc]

theorem unread_jump (buf : RingBuffer capacity) {n : Nat}
    (h : buf.reader ≤ buf.writer ∧ n ≤ buf.positions.atStart) (hpos : 0 < n) :
    (buf.jump n h).unread = buf.unread ++ load buf.array 0 n := by
  change (if buf.reader ≤ n then load buf.array buf.reader (n - buf.reader)
    else load buf.array buf.reader (buf.writer - buf.reader) ++ load buf.array 0 n) = _
  have hstart := h.2
  simp only [positions] at hstart
  rw [unread, if_pos h.1, if_neg (by omega)]

instance : RingGeometry (RingBuffer capacity) where
  positions := positions
  atStart_le buf := Nat.sub_le _ _
  writerFc_eq _ _ := rfl
  length_peek buf n addr h := by
    obtain ⟨hfit, _⟩ := place_free h (Int.le_refl _)
    exact length_load (buf.length_array.symm ▸ hfit)
  writerMove_eq buf n addr h := by
    simp only [contents_eq]
    obtain ⟨rfl, hroom⟩ | ⟨rfl, hfull, hunwrapped, hroom⟩ := positions_place h
    · exact ⟨_, writerMove_of_fits (Int.ofNat_le.mp hroom), buf.unread_advance _⟩
    · have hstart : buf.reader ≤ buf.writer ∧ n ≤ buf.positions.atStart :=
        ⟨hunwrapped, Int.ofNat_le.mp hroom⟩
      exact ⟨_, writerMove_of_full (fun hfits => hfull (Int.ofNat_le.mpr hfits)) hstart,
        buf.unread_jump hstart (by omega)⟩
  positions_poke buf k addr h bytes hlen := by
    rw [poke_of_place h hlen]
    rfl
  contents_poke buf k addr h bytes hlen := by
    rw [contents_eq, contents_eq, poke_of_place h hlen, unread_store h hlen]
  peek_poke buf k addr h bytes hlen := by
    have hfit := (place_free h hlen).1
    rw [poke_of_place h hlen]
    exact load_store_same (by rw [buf.length_array]; omega)
  peek_poke_after buf k addr h bytes hlen addr' hafter n := by
    have hfit := (place_free h hlen).1
    rw [poke_of_place h hlen]
    exact load_store_after hafter (by rw [buf.length_array]; omega)

def free (buf : RingBuffer capacity) : Nat :=
  buf.positions.atWriter + if buf.reader ≤ buf.writer then buf.positions.atStart else 0

def runAt (buf : RingBuffer capacity) (addr : Nat) : Nat :=
  if addr = buf.writer then buf.positions.atWriter
  else if addr = 0 ∧ buf.reader ≤ buf.writer then buf.positions.atStart
  else 0

theorem runAt_writer (buf : RingBuffer capacity) :
    buf.runAt buf.writer = buf.positions.atWriter := if_pos rfl

theorem atStart_le_runAt {buf : RingBuffer capacity} (h : buf.reader ≤ buf.writer) :
    buf.positions.atStart ≤ buf.runAt 0 := by
  by_cases hzero : 0 = buf.writer
  · simp only [runAt, positions, if_pos hzero]
    omega
  · rw [runAt, if_neg hzero, if_pos ⟨rfl, h⟩]

theorem free_eq_of_le {buf : RingBuffer capacity} (h : buf.reader ≤ buf.writer) :
    buf.free = capacity - buf.writer + (buf.reader - 1) := by
  simp only [free, positions, if_pos h]

theorem free_eq_of_lt {buf : RingBuffer capacity} (h : buf.writer < buf.reader) :
    buf.free = buf.reader - buf.writer - 1 := by
  simp only [free, positions, if_neg (Nat.not_le.mpr h), Nat.add_zero]

theorem free_advance (buf : RingBuffer capacity) {n : Nat} (h : n ≤ buf.positions.atWriter) :
    (buf.advance n h).free + n ≤ buf.free := by
  have hwriter := buf.writer_le
  have hnext : (buf.advance n h).writer = buf.writer + n := rfl
  have hreader : (buf.advance n h).reader = buf.reader := rfl
  by_cases hle : buf.reader ≤ buf.writer
  · simp only [positions, if_pos hle] at h
    rw [free_eq_of_le hle, free_eq_of_le (by omega), hnext, hreader]
    omega
  · simp only [positions, if_neg hle] at h
    rw [free_eq_of_lt (by omega), free_eq_of_lt (by omega), hnext, hreader]
    omega

theorem free_jump (buf : RingBuffer capacity) {n : Nat}
    (h : buf.reader ≤ buf.writer ∧ n ≤ buf.positions.atStart) (hpos : 0 < n) :
    (buf.jump n h).free + n ≤ buf.free := by
  have hstart : n ≤ buf.reader - 1 := h.2
  have hnext : (buf.jump n h).writer = n := rfl
  have hreader : (buf.jump n h).reader = buf.reader := rfl
  rw [free_eq_of_le h.1, free_eq_of_lt (by omega), hnext, hreader]
  omega

theorem free_writerMove_le {buf : RingBuffer capacity} {n addr : Nat}
    (h : buf.positions.place n = some addr) : (writerMove buf n).2.free + n ≤ buf.free := by
  obtain ⟨rfl, hroom⟩ | ⟨rfl, hfull, hunwrapped, hroom⟩ := positions_place h
  · rw [writerMove_of_fits (Int.ofNat_le.mp hroom)]
    exact buf.free_advance (Int.ofNat_le.mp hroom)
  · rw [writerMove_of_full (fun hfits => hfull (Int.ofNat_le.mpr hfits))
      ⟨hunwrapped, Int.ofNat_le.mp hroom⟩]
    exact buf.free_jump ⟨hunwrapped, Int.ofNat_le.mp hroom⟩ (by omega)

instance : FreeSpace (RingBuffer capacity) where
  free := free
  runAt := runAt
  runAt_le buf addr := by
    rw [runAt, free]
    split_ifs <;> omega
  free_lt buf := by
    have hcapacity := buf.capacity_lt
    have hwriter := buf.writer_le
    have hmark := buf.mark_le
    have hreader := buf.reader_le
    simp only [free, positions]
    split_ifs <;> omega
  writerFc_none_iff buf k := by
    change buf.positions.place k = none ↔ _
    constructor
    · intro hnone addr
      rw [RingPositions.place] at hnone
      split_ifs at hnone with hfull hstart
      have hrun : buf.runAt addr ≤ buf.positions.atWriter
          ∨ (buf.reader ≤ buf.writer ∧ buf.runAt addr = buf.positions.atStart) := by
        rw [runAt]
        split_ifs with _ haddr
        · exact Or.inl (Nat.le_refl _)
        · exact Or.inr ⟨haddr.2, rfl⟩
        · exact Or.inl (Nat.zero_le _)
      obtain hrun | ⟨hunwrapped, hrun⟩ := hrun
      · omega
      · rw [hrun]
        exact Int.not_le.mp fun hfits => hstart ⟨hunwrapped, hfits⟩
    · intro hall
      have hwriter := hall buf.writer
      rw [runAt_writer] at hwriter
      have hfull : ¬ (k ≤ buf.positions.atWriter) := Int.not_le.mpr hwriter
      have hstart : ¬ (buf.positions.reader ≤ buf.positions.writer
          ∧ k ≤ buf.positions.atStart) := by
        rintro ⟨hunwrapped, hfits⟩
        have hzero := hall 0
        have hle := atStart_le_runAt hunwrapped
        omega
      rw [RingPositions.place, if_neg hfull, if_neg hstart]
  le_runAt buf k addr h := by
    obtain ⟨rfl, hroom⟩ | ⟨rfl, hfull, hunwrapped, hroom⟩ := positions_place h
    · rwa [runAt_writer]
    · have hle := atStart_le_runAt hunwrapped
      omega
  free_writerMove buf k addr h bytes hlen := by
    rw [poke_of_place h hlen]
    -- storing moves nothing, so the length that is committed fits one of the two runs
    obtain ⟨addr', hplace⟩ := RingPositions.place_shorter h hlen
    have hstored : (buf.store addr bytes (place_free h hlen).1).positions.place bytes.length
        = some addr' := hplace
    exact free_writerMove_le hstored

end RingBuffer

end BabelTrader
