import BabelTrader.Front

/-!
# What one pass can do

Both loops of `Decode` are described once, pass by pass, in terms of the bytes a session's buffer
holds: a pass of `ReadBytes` can only append what the socket gave, and a pass of the parse loop can
only stop without a change or cut one frame off the front. Everything said about whole runs follows
from these two case analyses, and nothing below unfolds the loops again.
-/

namespace BabelTrader

open MachineWord WhileLoop Framing BytesBuffer

namespace BytesToMsgDecoder

variable {β ε : Type} [BytesBuffer β] [FifoContract β] {host : Host} {d : BytesToMsgDecoder ε}
  {m : Methods ε} {s s' : Session β ε} {xs : Bytes}

theorem recvUnitSize_pos (d : BytesToMsgDecoder ε) : 0 < d.recvUnitSize.toNat := by
  rw [Nat.pos_iff_ne_zero]
  intro hzero
  exact d.recvUnitSize_ne (UInt32.toNat_inj.mp hzero)

/-- `(uint32_t)readable` is what can be read. -/
theorem toNat_ofInt_readable (buf : β) : (ofInt (readable buf)).toNat = (contents buf).length := by
  have hlt := FifoContract.length_lt buf
  rw [FifoContract.readable_eq]
  exact toNat_ofInt (by omega)

/-! ### Passing a frame on -/

/-- `frame` was at the front of `xs`, it has been passed to `Next`, and it is consumed. -/
structure HandsOver (host : Host) (d : BytesToMsgDecoder ε) (m : Methods ε) (s : Session β ε)
    (xs : Bytes) (frame : Frame) (s' : Session β ε) : Prop where
  front : front host d.msgLenLimit xs = .frame frame.data.length
  data : frame.data = xs.take frame.data.length
  datalen : frame.datalen = (MsgHdr.load host xs).totalBytes
  length_eq : frame.data.length = frame.datalen.toNat
  holds : s'.Holds (xs.drop frame.data.length)
  env : s'.env = (d.next m s.env frame).2
  received : s'.received = s.received
  passed : s'.passed = s.passed ++ [frame]

/-- Copied or in place, a frame is handled with the same bytes, and consumed whatever the handler
says and whatever it writes over these bytes. -/
theorem handleMessage_eq {buf : β} {totalBytes : UInt32}
    (hle : totalBytes.toNat ≤ (contents buf).length) :
    ∃ buf', contents buf' = (contents buf).drop totalBytes.toNat
      ∧ d.handleMessage m s buf totalBytes
        = ((d.next m s.env ⟨(contents buf).take totalBytes.toNat, totalBytes⟩).1.ret,
          { bytesBuf := some buf'
            env := (d.next m s.env ⟨(contents buf).take totalBytes.toNat, totalBytes⟩).2
            received := s.received
            passed := s.passed ++ [⟨(contents buf).take totalBytes.toNat, totalBytes⟩] }) := by
  have hlt : totalBytes.toNat < 2 ^ 31 := Nat.lt_of_le_of_lt hle (FifoContract.length_lt buf)
  have hcast : toInt totalBytes = (totalBytes.toNat : Int) := toInt_of_lt hlt
  cases hfc : readerFc buf (toInt totalBytes) with
  | none =>
      obtain ⟨buf', hread, hcontents⟩ := FifoContract.read_eq buf hle
      refine ⟨buf', hcontents, ?_⟩
      simp only [handleMessage, hfc]
      rw [hcast, hread]
  | some addr =>
      have hpeek := FifoContract.peek_readerFc buf hle (hcast ▸ hfc)
      simp only [handleMessage, hfc]
      rw [hpeek, hcast]
      generalize hhandled : d.next m s.env ⟨(contents buf).take totalBytes.toNat, totalBytes⟩
        = handled
      have hleft : handled.1.left.length = totalBytes.toNat := by
        rw [handled.1.length_left, List.length_take_of_le hle]
      have hpoke := FifoContract.poke_readerFc buf hle (hcast ▸ hfc) hleft
      have hroom : totalBytes.toNat ≤ (contents (poke buf addr handled.1.left)).length := by
        rw [hpoke, List.length_append]
        omega
      obtain ⟨buf', hmove, hcontents⟩ := FifoContract.readerMove_eq _ hroom
      refine ⟨buf', ?_, by rw [hmove]⟩
      rw [hcontents, hpoke, List.drop_left' hleft]

theorem handleMessage_handsOver {buf : β} {len : Nat}
    (hfront : BabelTrader.front host d.msgLenLimit (contents buf) = .frame len) :
    ∃ frame s', HandsOver host d m s (contents buf) frame s'
      ∧ d.handleMessage m s buf (MsgHdr.load host (contents buf)).totalBytes
        = ((d.next m s.env frame).1.ret, s') := by
  obtain ⟨_, _, hlen, hle⟩ := front_eq_frame_iff.mp hfront
  rw [hlen] at hle
  have htake := List.length_take_of_le hle
  obtain ⟨buf', hcontents, hhandle⟩ := handleMessage_eq (d := d) (m := m) (s := s) hle
  refine ⟨_, _, ?_, hhandle⟩
  exact {
    front := by rw [hfront, hlen, htake]
    data := by rw [htake]
    datalen := rfl
    length_eq := htake
    holds := ⟨buf', rfl, by rw [hcontents, htake]⟩
    env := rfl
    received := rfl
    passed := rfl }

/-! ### A pass of the parse loop -/

variable (host d m) in
/-- **The parse loop, pass by pass.** It stops for lack of bytes, stops at a header it rejects, or
hands over the frame at the front and goes by the verdict. -/
theorem parsePass_cases (h : s.Holds xs) :
    (front host d.msgLenLimit xs = .more ∧ d.parsePass host m s = .leave (.incomplete, s))
      ∨ (∃ why, front host d.msgLenLimit xs = .bad
        ∧ d.parsePass host m s = .leave (.rejected why, s))
      ∨ (∃ frame s', HandsOver host d m s xs frame s'
        ∧ d.parsePass host m s
          = if (d.next m s.env frame).1.ret then .again s' else .leave (.refused, s')) := by
  obtain ⟨buf, hbuf, rfl⟩ := h
  have hlt := FifoContract.length_lt buf
  have hfetch := FifoContract.fetch_eq buf sizeofMsgHdr
  by_cases hshort : (contents buf).length < sizeofMsgHdr
  · rw [if_neg (by omega)] at hfetch
    refine Or.inl ⟨front_short hshort, ?_⟩
    simp only [parsePass, hbuf, hfetch]
  have hle : sizeofMsgHdr ≤ (contents buf).length := by omega
  rw [if_pos hle] at hfetch
  have hload : MsgHdr.load host ((contents buf).take sizeofMsgHdr)
      = MsgHdr.load host (contents buf) := MsgHdr.load_take host (Nat.le_refl _) hle
  cases hcheck : checkHeader host d.msgLenLimit (MsgHdr.load host (contents buf)) with
  | some why =>
      refine Or.inr (Or.inl ⟨why, front_rejected hle hcheck, ?_⟩)
      simp only [parsePass, hbuf, hfetch, hload, hcheck]
  | none =>
      have hreadable := toNat_ofInt_readable buf
      have hfront := front_accepted hle hcheck
      by_cases hmissing : (contents buf).length < (MsgHdr.load host (contents buf)).totalBytes.toNat
      · rw [if_pos hmissing] at hfront
        refine Or.inl ⟨hfront, ?_⟩
        have hbreak : ofInt (readable buf) < (MsgHdr.load host (contents buf)).totalBytes := by
          rwa [UInt32.lt_iff_toNat_lt, hreadable]
        simp only [parsePass, hbuf, hfetch, hload, hcheck, if_pos hbreak]
      · rw [if_neg hmissing] at hfront
        have hgo : ¬ ofInt (readable buf) < (MsgHdr.load host (contents buf)).totalBytes := by
          rwa [UInt32.lt_iff_toNat_lt, hreadable]
        obtain ⟨frame, s', hhands, hhandle⟩ :=
          handleMessage_handsOver (m := m) (s := s) hfront
        refine Or.inr (Or.inr ⟨frame, s', hhands, ?_⟩)
        simp only [parsePass, hbuf, hfetch, hload, hcheck, if_neg hgo, hhandle]

/-! ### A pass of `ReadBytes` -/

/-- The bytes of one `Read` have been appended to the buffer. -/
structure TakesIn (d : BytesToMsgDecoder ε) (m : Methods ε) (s : Session β ε) (xs : Bytes)
    (s' : Session β ε) : Prop where
  room : ∃ buf addr, s.bytesBuf = some buf ∧ writerFc buf d.recvUnitSize.toNat = some addr
  holds : s'.Holds (xs ++ (m.read s.env d.recvUnitSize.toNat).1.stored)
  env : s'.env = (m.read s.env d.recvUnitSize.toNat).2
  received : s'.received = s.received ++ (m.read s.env d.recvUnitSize.toNat).1.stored
  passed : s'.passed = s.passed
  idle : (m.read s.env d.recvUnitSize.toNat).1.count ≤ 0 → s'.bytesBuf = s.bytesBuf

/-- **`ReadBytes`, pass by pass.** It stops when the buffer has no room for a receive unit;
otherwise it takes in what the socket gives, and goes on iff that was a whole unit. -/
theorem readPass_cases (hunit : d.recvUnitSize.toNat < 2 ^ 31) (h : s.Holds xs) :
    ((∃ buf, s.bytesBuf = some buf ∧ writerFc buf d.recvUnitSize.toNat = none)
        ∧ d.readPass m s = .leave s)
      ∨ ∃ s', TakesIn d m s xs s'
        ∧ d.readPass m s
          = if (m.read s.env d.recvUnitSize.toNat).1.count < d.recvUnitSize.toNat then .leave s'
            else .again s' := by
  obtain ⟨buf, hbuf, rfl⟩ := h
  have hcast : toInt d.recvUnitSize = (d.recvUnitSize.toNat : Int) := toInt_of_lt hunit
  cases hfc : writerFc buf (toInt d.recvUnitSize) with
  | none =>
      refine Or.inl ⟨⟨buf, hbuf, hcast ▸ hfc⟩, ?_⟩
      simp only [readPass, hbuf, hfc]
  | some addr =>
      right
      rw [hcast] at hfc
      simp only [readPass, hbuf, hcast, hfc]
      refine ⟨_, ?_, rfl⟩
      by_cases hpos : 0 < (m.read s.env d.recvUnitSize.toNat).1.count
      · obtain ⟨buf', hmove, hcontents⟩ :=
          FifoContract.writerMove_eq buf hfc (m.read s.env d.recvUnitSize.toNat).1.length_stored_le
        refine ⟨⟨buf, addr, hbuf, hfc⟩, ⟨buf', ?_, hcontents⟩, rfl, rfl, rfl,
          fun hidle => absurd hpos (by omega)⟩
        rw [if_pos hpos, ReadResult.count_of_pos hpos, hmove]
      · have hnone := ReadResult.stored_of_count_nonpos (Int.not_lt.mp hpos)
        refine ⟨⟨buf, addr, hbuf, hfc⟩, ⟨buf, by rw [if_neg hpos], ?_⟩, rfl, rfl, rfl, fun _ => ?_⟩
        · rw [hnone, List.append_nil]
        · rw [if_neg hpos, hbuf]

end BytesToMsgDecoder

end BabelTrader
