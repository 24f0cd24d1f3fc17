import BabelTrader.BytesToMsgDecoder

/-!
# Calls of the buffer's methods

The decoder asks its buffer for room and for memory, looks at the answers, and then consumes or
commits without looking. Here every call that a pass makes is written down with the buffer as it was
then, so that the calls whose result is ignored can be asked about. The lengths that the code casts
are kept as the words they were before the cast.
-/

namespace BabelTrader

open MachineWord BytesBuffer

/-! ### Passes of both loops -/

/-- One pass of the loop in `ReadBytes`, or of the one in `Decode`. -/
inductive BufferPass (ε : Type) where
  | read (d : BytesToMsgDecoder ε)
  | parse (d : BytesToMsgDecoder ε)

def BufferPass.decoder {ε : Type} : BufferPass ε → BytesToMsgDecoder ε
  | read d | parse d => d

variable {β ε : Type} [BytesBuffer β]

/-- Passes in any order, each with a decoder of its own: every history of calls is one of these. -/
def Session.pass (host : Host) (m : Methods ε) (s : Session β ε) :
    BufferPass ε → Option (Session β ε)
  | .read d =>
      match d.readPass m s with
      | .again s' | .leave s' => some s'
  | .parse d =>
      match d.parsePass host m s with
      | .again s' | .leave (_, s') => some s'

/-! ### The calls of a pass -/

/-- A call of a method of the buffer. -/
inductive BufferCall (β : Type) where
  | writerFc (buf : β) (recvUnitSize : UInt32)
  | writerMove (buf : β) (n : Int)
  | fetch (buf : β) (n : Int)
  | readable (buf : β)
  | readerFc (buf : β) (totalBytes : UInt32)
  | read (buf : β) (totalBytes : UInt32)
  | readerMove (buf : β) (totalBytes : UInt32)

namespace BytesToMsgDecoder

/-- The calls in one pass of the loop in `ReadBytes`. -/
def readCalls (d : BytesToMsgDecoder ε) (m : Methods ε) (s : Session β ε) : List (BufferCall β) :=
  match s.bytesBuf with
  | none => []
  | some buf =>
      .writerFc buf d.recvUnitSize ::
        match writerFc buf (toInt d.recvUnitSize) with
        | none => []
        | some addr =>
            let result := (m.read s.env d.recvUnitSize.toNat).1
            let n := result.count
            if 0 < n then [.writerMove (poke buf addr result.stored) n] else []

/-- The calls that pass one frame on, and consume it. -/
def handleCalls (d : BytesToMsgDecoder ε) (m : Methods ε) (s : Session β ε) (buf : β)
    (totalBytes : UInt32) : List (BufferCall β) :=
  .readerFc buf totalBytes ::
    match readerFc buf (toInt totalBytes) with
    | none => [.read buf totalBytes]
    | some addr =>
        let frame : Frame := ⟨peek buf addr totalBytes.toNat, totalBytes⟩
        let handled := d.next m s.env frame
        [.readerMove (poke buf addr handled.1.left) totalBytes]

/-- The calls in one pass of the loop in `Decode`. -/
def parseCalls (host : Host) (d : BytesToMsgDecoder ε) (m : Methods ε) (s : Session β ε) :
    List (BufferCall β) :=
  match s.bytesBuf with
  | none => []
  | some buf =>
      .fetch buf sizeofMsgHdr ::
        match fetch buf sizeofMsgHdr with
        | none => []
        | some bytes =>
            let hdr := MsgHdr.load host bytes
            match checkHeader host d.msgLenLimit hdr with
            | some _ => []
            | none =>
                .readable buf ::
                  if ofInt (readable buf) < hdr.totalBytes then []
                  else d.handleCalls m s buf hdr.totalBytes

end BytesToMsgDecoder

def Session.calls (host : Host) (m : Methods ε) (s : Session β ε) :
    BufferPass ε → List (BufferCall β)
  | .read d => d.readCalls m s
  | .parse d => d.parseCalls host m s

/-- The calls of a run, in the order in which they were made. -/
def bufferCalls (host : Host) (m : Methods ε) (before : List (Session β ε × BufferPass ε)) :
    List (BufferCall β) :=
  before.flatMap fun p => p.1.calls host m p.2

/-! ### What is asked of a call -/

namespace BufferCall

/-- The buffer that the method is called on. -/
def buf : BufferCall β → β
  | writerFc buf _ | writerMove buf _ | fetch buf _ | readable buf => buf
  | readerFc buf _ | read buf _ | readerMove buf _ => buf

/-- The buffer after the call. -/
def leaves : BufferCall β → β
  | writerMove buf n => (BytesBuffer.writerMove buf n).2
  | read buf totalBytes => (BytesBuffer.read buf (toInt totalBytes)).2.2
  | readerMove buf totalBytes => (BytesBuffer.readerMove buf (toInt totalBytes)).2
  | writerFc buf _ | fetch buf _ | readable buf | readerFc buf _ => buf

/-- What the call returns, if the code does not look at it. -/
def ignored : BufferCall β → Option Bool
  | writerMove buf n => some (BytesBuffer.writerMove buf n).1
  | read buf totalBytes => some (BytesBuffer.read buf (toInt totalBytes)).1
  | readerMove buf totalBytes => some (BytesBuffer.readerMove buf (toInt totalBytes)).1
  | writerFc _ _ | fetch _ _ | readable _ | readerFc _ _ => none

/-- The calls lead from one buffer to another: each of them finds what the one before it has left,
but for bytes stored through an address. -/
inductive Leads : Option β → List (BufferCall β) → Option β → Prop where
  | stay (start : Option β) : Leads start [] start
  | call {buf : β} {call : BufferCall β} {calls : List (BufferCall β)} {final : Option β} :
      call.buf = buf ∨ (∃ addr bytes, call.buf = poke buf addr bytes) →
        Leads (some call.leaves) calls final → Leads (some buf) (call :: calls) final

/-- `(int)totalBytes` is the length it was, and so many bytes can be read. -/
structure Covered (buf : β) (totalBytes : UInt32) : Prop where
  cast : toInt totalBytes = totalBytes.toNat
  nonneg : 0 ≤ toInt totalBytes
  le : toInt totalBytes ≤ BytesBuffer.readable buf

/-- `n` bytes are committed after a `WriterFc` has given out memory for at least as many, with
nothing else called in between. -/
def Reserved (earlier : List (BufferCall β)) (buf : β) (n : Int) : Prop :=
  ∃ buf' recvUnitSize addr bytes, earlier.getLast? = some (.writerFc buf' recvUnitSize)
    ∧ toInt recvUnitSize = recvUnitSize.toNat
    ∧ BytesBuffer.writerFc buf' (toInt recvUnitSize) = some addr
    ∧ buf = poke buf' addr bytes ∧ bytes.length = n ∧ 0 < n ∧ n ≤ recvUnitSize.toNat

/-- Every length is the one it was before it was cast, and is one that the buffer can serve. -/
def InRange (earlier : List (BufferCall β)) : BufferCall β → Prop
  | writerFc _ recvUnitSize => toInt recvUnitSize = recvUnitSize.toNat
  | writerMove buf n => Reserved earlier buf n
  | fetch _ n => n = sizeofMsgHdr
  | readable buf => ((ofInt (BytesBuffer.readable buf)).toNat : Int) = BytesBuffer.readable buf
  | readerFc buf totalBytes | read buf totalBytes | readerMove buf totalBytes =>
      Covered buf totalBytes

end BufferCall

end BabelTrader
