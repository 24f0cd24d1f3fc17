import BabelTrader.BytesBuffer

/-!
# Sessions

A session owns a bytes buffer and is reached from the decoder through its virtual methods. What
these methods see and change besides the buffer (the socket, the state of the application) is one
environment of an arbitrary type, so nothing is assumed of the network or of the handlers that the
types of the methods do not say.
-/

namespace BabelTrader

/-! ### What the methods exchange with the decoder -/

/-- What `Session::Read(buf, len)` returns, as an `int`: at most zero, with nothing stored, or the
number of bytes stored, at most `len`. -/
inductive ReadResult (len : Nat) where
  | nothing (n : Int) (h : n ≤ 0)
  | bytes (data : Bytes) (pos : 0 < data.length) (le : data.length ≤ len)
      (lt : data.length < 2 ^ 31)

namespace ReadResult

variable {len : Nat}

/-- The returned `int`. -/
def count : ReadResult len → Int
  | nothing n _ => n
  | bytes data _ _ _ => data.length

def stored : ReadResult len → Bytes
  | nothing _ _ => []
  | bytes data _ _ _ => data

theorem stored_of_count_nonpos {result : ReadResult len} (h : result.count ≤ 0) :
    result.stored = [] := by
  cases result with
  | nothing n hn => rfl
  | bytes data pos le lt =>
      simp only [count] at h
      omega

theorem count_of_pos {result : ReadResult len} (h : 0 < result.count) :
    result.count = result.stored.length := by
  cases result with
  | nothing n hn =>
      simp only [count] at h
      omega
  | bytes data pos le lt => rfl

theorem length_stored_le (result : ReadResult len) : result.stored.length ≤ len := by
  cases result with
  | nothing n hn => exact Nat.zero_le _
  | bytes data pos le lt => exact le

end ReadResult

/-- The `data` and `datalen` of one call of `Next` or `OnRead`. -/
structure Frame where
  data : Bytes
  datalen : UInt32
deriving DecidableEq

/-- How a handler comes back: with a verdict, and with the bytes it was given as it left them. -/
structure Handled (data : Bytes) where
  ret : Bool
  left : Bytes
  length_left : left.length = data.length

def Handled.untouched (ret : Bool) (data : Bytes) : Handled data := ⟨ret, data, rfl⟩

abbrev Handler (ε : Type) := ε → (frame : Frame) → Handled frame.data × ε

/-- The virtual methods of a session class that the decoder calls. -/
structure Methods (ε : Type) where
  read : ε → (len : Nat) → ReadResult len × ε
  onRead : Handler ε

/-! ### The session -/

/-- A session, with two histories that no code reads: the bytes its socket has given, and the frames
passed to `Next` on its behalf. -/
structure Session (β ε : Type) where
  bytesBuf : Option β
  env : ε
  received : Bytes
  passed : List Frame

namespace Session

variable {β ε : Type}

/-- A session after `InitBytesBuffer`, before anything has arrived. -/
def init (buf : β) (env : ε) : Session β ε where
  bytesBuf := some buf
  env := env
  received := []
  passed := []

/-- The session has a buffer, and `bytes` is what it holds. -/
def Holds [BytesBuffer β] (s : Session β ε) (bytes : Bytes) : Prop :=
  ∃ buf, s.bytesBuf = some buf ∧ BytesBuffer.contents buf = bytes

/-- The bytes that have arrived and are not consumed; none without a buffer. -/
def unread [BytesBuffer β] (s : Session β ε) : Bytes :=
  match s.bytesBuf with
  | none => []
  | some buf => BytesBuffer.contents buf

structure Unused [BytesBuffer β] (s : Session β ε) : Prop where
  unread : s.unread = []
  received : s.received = []
  passed : s.passed = []

structure Fresh [BytesBuffer β] (s : Session β ε) : Prop extends Unused s where
  holds : s.Holds []

variable [BytesBuffer β]

theorem Holds.unique {s : Session β ε} {xs ys : Bytes} (h : s.Holds xs) (h' : s.Holds ys) :
    xs = ys := by
  obtain ⟨buf, hbuf, rfl⟩ := h
  obtain ⟨buf', hbuf', rfl⟩ := h'
  rw [hbuf] at hbuf'
  rw [Option.some.inj hbuf']

theorem Holds.unread_eq {s : Session β ε} {xs : Bytes} (h : s.Holds xs) : s.unread = xs := by
  obtain ⟨buf, hbuf, rfl⟩ := h
  simp only [unread, hbuf]

theorem Holds.length_lt [FifoContract β] {s : Session β ε} {xs : Bytes} (h : s.Holds xs) :
    xs.length < 2 ^ 31 := by
  obtain ⟨buf, _, rfl⟩ := h
  exact FifoContract.length_lt buf

theorem fresh_init {buf : β} (hbuf : BytesBuffer.contents buf = []) (env : ε) :
    (init buf env).Fresh :=
  ⟨⟨hbuf, rfl, rfl⟩, ⟨buf, rfl, hbuf⟩⟩

end Session

end BabelTrader
