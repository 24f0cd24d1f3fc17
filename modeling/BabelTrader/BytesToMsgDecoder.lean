import BabelTrader.Session
import BabelTrader.Library.WhileLoop

/-!
# `BytesToMsgDecoder`

`Decode` first reads from the socket until it has nothing more or the buffer is full, and then
passes on one frame after the other until the buffer does not start with a whole one. Both parts are
`while (true)` loops, written here as one pass through the body; `malloc` is assumed to succeed.
-/

namespace BabelTrader

open MachineWord WhileLoop BytesBuffer

/-! ### The checks on a header -/

inductive Reject where
  | magicWord
  | endianness
  | version
  | reversed1
  | reversed2
  | messageLength
deriving DecidableEq, Repr

/-- `(uint32_t)sizeof(msg_hdr_t) + msg_header.payload_len`, a sum of `uint32_t`s. -/
def MsgHdr.totalBytes (hdr : MsgHdr) : UInt32 := UInt32.ofNat sizeofMsgHdr + hdr.payloadLen

def checkHeader (host : Host) (msgLenLimit : UInt32) (hdr : MsgHdr) : Option Reject :=
  if load32 host.byteOrder hdr.magic ≠ load32 host.byteOrder magicWord then some .magicWord
  else if hdr.flags flagEndian ≠ host.muggleEndianness then some .endianness
  else if hdr.flags flagVer ≠ protocolVersion then some .version
  else if hdr.flags flagReversed1 ≠ 0 then some .reversed1
  else if hdr.flags flagReversed2 ≠ 0 then some .reversed2
  else if 0 < msgLenLimit then
    if msgLenLimit < hdr.totalBytes then some .messageLength else none
  else none

/-! ### The decoder -/

/-- `next_` is the decoder that follows in the chain, if there is one. No setter lets the receive
unit become zero. -/
structure BytesToMsgDecoder (ε : Type) where
  recvUnitSize : UInt32
  msgLenLimit : UInt32
  next_ : Option (Handler ε)
  recvUnitSize_ne : recvUnitSize ≠ 0

namespace BytesToMsgDecoder

variable {β ε : Type}

def new : BytesToMsgDecoder ε where
  recvUnitSize := 1024 * 16
  msgLenLimit := 1024 * 64
  next_ := none
  recvUnitSize_ne := by decide

def setRecvUnitSize (d : BytesToMsgDecoder ε) (recvUnitSize : UInt32) : BytesToMsgDecoder ε :=
  if h : recvUnitSize = 0 then d
  else { d with recvUnitSize := recvUnitSize, recvUnitSize_ne := h }

def setMsgLenLimit (d : BytesToMsgDecoder ε) (msgLenLimit : UInt32) : BytesToMsgDecoder ε :=
  { d with msgLenLimit := msgLenLimit }

/-- `Decoder::Next`. -/
def next (d : BytesToMsgDecoder ε) (m : Methods ε) : Handler ε :=
  match d.next_ with
  | some decode => decode
  | none => m.onRead

def NeverRefuses (d : BytesToMsgDecoder ε) (m : Methods ε) : Prop :=
  ∀ env frame, (d.next m env frame).1.ret = true

variable [BytesBuffer β]

/-- One pass of the loop in `ReadBytes`. -/
def readPass (d : BytesToMsgDecoder ε) (m : Methods ε) (s : Session β ε) :
    Pass (Session β ε) (Session β ε) :=
  match s.bytesBuf with
  | none => .leave s
  | some buf =>
      match writerFc buf (toInt d.recvUnitSize) with
      | none => .leave s -- bytes buffer full
      | some addr =>
          let result := (m.read s.env d.recvUnitSize.toNat).1
          let n := result.count
          let s' : Session β ε :=
            { bytesBuf := some
                (if 0 < n then (writerMove (poke buf addr result.stored) n).2 else buf)
              env := (m.read s.env d.recvUnitSize.toNat).2
              received := s.received ++ result.stored
              passed := s.passed }
          if n < toInt d.recvUnitSize then .leave s' else .again s'

/-- `ReadBytes`, with at most `passes` passes of its loop. -/
def readBytes (d : BytesToMsgDecoder ε) (m : Methods ε) (passes : Nat) (s : Session β ε) :
    Option (Bool × Session β ε) :=
  match s.bytesBuf with
  | none => some (false, s) -- failed get session bytes buffer
  | some _ => (run (d.readPass m) passes s).map fun s' => (true, s')

/-- The part of `Decode` that passes one frame on, and consumes it. -/
def handleMessage (d : BytesToMsgDecoder ε) (m : Methods ε) (s : Session β ε) (buf : β)
    (totalBytes : UInt32) : Bool × Session β ε :=
  match readerFc buf (toInt totalBytes) with
  | none =>
      -- discontinuous memory: the frame is consumed first, and handled in a copy
      let frame : Frame := ⟨(read buf (toInt totalBytes)).2.1, totalBytes⟩
      let handled := d.next m s.env frame
      (handled.1.ret,
        { s with
          bytesBuf := some (read buf (toInt totalBytes)).2.2
          env := handled.2
          passed := s.passed ++ [frame] })
  | some addr =>
      -- continuous memory: the handler works in the buffer, and the frame is consumed after it
      let frame : Frame := ⟨peek buf addr totalBytes.toNat, totalBytes⟩
      let handled := d.next m s.env frame
      (handled.1.ret,
        { s with
          bytesBuf := some (readerMove (poke buf addr handled.1.left) (toInt totalBytes)).2
          env := handled.2
          passed := s.passed ++ [frame] })

inductive Exit where
  | noBuffer
  | incomplete
  | rejected (why : Reject)
  | refused
deriving DecidableEq, Repr

def Exit.ret : Exit → Bool
  | incomplete => true
  | noBuffer | rejected _ | refused => false

variable (host : Host)

/-- One pass of the loop in `Decode`. -/
def parsePass (d : BytesToMsgDecoder ε) (m : Methods ε) (s : Session β ε) :
    Pass (Session β ε) (Exit × Session β ε) :=
  match s.bytesBuf with
  | none => .leave (.noBuffer, s)
  | some buf =>
      match fetch buf sizeofMsgHdr with
      | none => .leave (.incomplete, s) -- readable bytes less than a header
      | some bytes =>
          let hdr := MsgHdr.load host bytes
          match checkHeader host d.msgLenLimit hdr with
          | some why => .leave (.rejected why, s)
          | none =>
              if ofInt (readable buf) < hdr.totalBytes then .leave (.incomplete, s)
              else
                let handled := d.handleMessage m s buf hdr.totalBytes
                if handled.1 then .again handled.2 else .leave (.refused, handled.2)

/-- `Decode`, with at most `passes` passes of each of its two loops. -/
def decode (d : BytesToMsgDecoder ε) (m : Methods ε) (passes : Nat) (s : Session β ε) :
    Option (Exit × Session β ε) :=
  match d.readBytes m passes s with
  | none => none
  | some (false, s') => some (.noBuffer, s')
  | some (true, s') => run (d.parsePass host m) passes s'

/-- `n` calls of `Decode`, one after the other: what they return, and the session after them. -/
def decodeTimes (d : BytesToMsgDecoder ε) (m : Methods ε) (passes : Nat) (s : Session β ε) :
    Nat → Option (List Bool × Session β ε)
  | 0 => some ([], s)
  | n + 1 =>
      match d.decodeTimes m passes s n with
      | none => none
      | some (rets, s') =>
          (d.decode host m passes s').map fun (exit, s'') => (rets ++ [exit.ret], s'')

/-- A call of `Decode` on `s` returns, in the way and in the state that `r` says. -/
def Decodes (d : BytesToMsgDecoder ε) (m : Methods ε) (s : Session β ε) (r : Exit × Session β ε) :
    Prop :=
  ∃ passes, d.decode host m passes s = some r

/-- Calls of `Decode` on one session, each of which returned, and what they returned. -/
inductive Calls (d : BytesToMsgDecoder ε) (m : Methods ε) (s : Session β ε) :
    List Bool → Session β ε → Prop where
  | none : Calls d m s [] s
  | call {rets : List Bool} {s' s'' : Session β ε} {exit : Exit} :
      Calls d m s rets s' → Decodes host d m s' (exit, s'') → Calls d m s (rets ++ [exit.ret]) s''

end BytesToMsgDecoder

end BabelTrader
