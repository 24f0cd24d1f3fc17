import BabelTrader.Proof.Passes
import BabelTrader.Proof.RoundTrip
import BabelTrader.ScriptedPeer

/-!
# Copied or in place

A frame that does not lie in one piece is consumed first and handled in a copy, any other is handled
in the buffer's own memory and consumed after that. Which of the two happens is up to `ReaderFc`,
frame by frame, and nothing that can be seen from outside depends on it.
-/

namespace BabelTrader

open MachineWord WhileLoop BytesBuffer

/-- A buffer with another way to decide where a frame lies in one piece. -/
structure WithReaderFc (β : Type) (readerFc : β → Int → Option Nat) where
  buf : β

namespace WithReaderFc

variable {β : Type} [BytesBuffer β] {readerFc : β → Int → Option Nat}

instance : BytesBuffer (WithReaderFc β readerFc) where
  readable b := readable b.buf
  fetch b := fetch b.buf
  read b n := ((read b.buf n).1, (read b.buf n).2.1, ⟨(read b.buf n).2.2⟩)
  readerFc b := readerFc b.buf
  readerMove b n := ((readerMove b.buf n).1, ⟨(readerMove b.buf n).2⟩)
  writerFc b := writerFc b.buf
  writerMove b n := ((writerMove b.buf n).1, ⟨(writerMove b.buf n).2⟩)
  peek b := peek b.buf
  poke b addr bytes := ⟨poke b.buf addr bytes⟩

/-- The contract stays when frames are said to lie in one piece less often. -/
theorem fifoContract [FifoContract β]
    (h : ∀ buf n addr, readerFc buf n = some addr → BytesBuffer.readerFc buf n = some addr) :
    FifoContract (WithReaderFc β readerFc) where
  readable_eq b := FifoContract.readable_eq b.buf
  length_lt b := FifoContract.length_lt b.buf
  fetch_eq b := FifoContract.fetch_eq b.buf
  read_eq b n hn := by
    obtain ⟨buf', hread, hcontents⟩ := FifoContract.read_eq b.buf hn
    refine ⟨⟨buf'⟩, ?_, hcontents⟩
    simp only [BytesBuffer.read, hread]
    rfl
  peek_readerFc b _ _ hn hfc := FifoContract.peek_readerFc b.buf hn (h _ _ _ hfc)
  poke_readerFc b _ _ hn hfc _ hlen := FifoContract.poke_readerFc b.buf hn (h _ _ _ hfc) hlen
  readerMove_eq b n hn := by
    obtain ⟨buf', hmove, hcontents⟩ := FifoContract.readerMove_eq b.buf hn
    refine ⟨⟨buf'⟩, ?_, hcontents⟩
    simp only [BytesBuffer.readerMove, hmove]
  writerMove_eq b n addr hfc bytes hlen := by
    obtain ⟨buf', hmove, hcontents⟩ := FifoContract.writerMove_eq b.buf hfc hlen
    refine ⟨⟨buf'⟩, ?_, hcontents⟩
    simp only [BytesBuffer.writerMove, BytesBuffer.poke, hmove]

end WithReaderFc

def Session.withReaderFc {β ε : Type} (readerFc : β → Int → Option Nat) (s : Session β ε) :
    Session (WithReaderFc β readerFc) ε where
  bytesBuf := s.bytesBuf.map WithReaderFc.mk
  env := s.env
  received := s.received
  passed := s.passed

/-- Two sessions, on buffers of their own, that look the same: what has arrived, what is unread,
what has been passed on, and everything the methods know. -/
structure Session.SameView {β₁ β₂ ε : Type} [BytesBuffer β₁] [BytesBuffer β₂]
    (s₁ : Session β₁ ε) (s₂ : Session β₂ ε) : Prop where
  bytesBuf : Option.Rel (fun buf₁ buf₂ => contents buf₁ = contents buf₂) s₁.bytesBuf s₂.bytesBuf
  env : s₁.env = s₂.env
  received : s₁.received = s₂.received
  passed : s₁.passed = s₂.passed

namespace BytesToMsgDecoder

section

variable {β₁ β₂ ε : Type} [BytesBuffer β₁] [FifoContract β₁] [BytesBuffer β₂] [FifoContract β₂]
  {host : Host} {d : BytesToMsgDecoder ε} {m : Methods ε} {s₁ : Session β₁ ε} {s₂ : Session β₂ ε}

/-- One frame: the handler is given the same bytes, and whatever it says and writes over them, the
same bytes are left. -/
theorem handleMessage_sameView (h : s₁.SameView s₂) {buf₁ : β₁} {buf₂ : β₂}
    (hcontents : contents buf₁ = contents buf₂) {totalBytes : UInt32}
    (hle : totalBytes.toNat ≤ (contents buf₁).length) :
    (d.handleMessage m s₁ buf₁ totalBytes).1 = (d.handleMessage m s₂ buf₂ totalBytes).1
      ∧ (d.handleMessage m s₁ buf₁ totalBytes).2.SameView
        (d.handleMessage m s₂ buf₂ totalBytes).2 := by
  obtain ⟨buf₁', hbuf₁', heq₁⟩ := handleMessage_eq (d := d) (m := m) (s := s₁) hle
  obtain ⟨buf₂', hbuf₂', heq₂⟩ := handleMessage_eq (d := d) (m := m) (s := s₂) (hcontents ▸ hle)
  rw [heq₁, heq₂, hcontents, h.env]
  refine ⟨rfl, ⟨.some ?_, rfl, h.received, by rw [h.passed]⟩⟩
  rw [hbuf₁', hbuf₂', hcontents]

theorem parsePass_related_of_contents (h : s₁.SameView s₂) {buf₁ : β₁} {buf₂ : β₂}
    (hbuf₁ : s₁.bytesBuf = some buf₁) (hbuf₂ : s₂.bytesBuf = some buf₂)
    (hcontents : contents buf₁ = contents buf₂) :
    Pass.Related Session.SameView (fun r₁ r₂ => r₁.1 = r₂.1 ∧ r₁.2.SameView r₂.2)
      (d.parsePass host m s₁) (d.parsePass host m s₂) := by
  have hfetch : fetch buf₁ (sizeofMsgHdr : Nat) = fetch buf₂ (sizeofMsgHdr : Nat) := by
    rw [FifoContract.fetch_eq, FifoContract.fetch_eq, hcontents]
  have hreadable : readable buf₁ = readable buf₂ := by
    rw [FifoContract.readable_eq, FifoContract.readable_eq, hcontents]
  simp only [parsePass, hbuf₁, hbuf₂, hfetch, hreadable]
  cases hbytes : fetch buf₂ (sizeofMsgHdr : Nat) with
  | none =>
      apply Pass.Related.leave
      exact ⟨rfl, h⟩
  | some bytes =>
      cases hcheck : checkHeader host d.msgLenLimit (MsgHdr.load host bytes) with
      | some why =>
          simp only [hcheck]
          apply Pass.Related.leave
          exact ⟨rfl, h⟩
      | none =>
          simp only [hcheck]
          by_cases hmissing : ofInt (readable buf₂) < (MsgHdr.load host bytes).totalBytes
          · simp only [if_pos hmissing]
            apply Pass.Related.leave
            exact ⟨rfl, h⟩
          · simp only [if_neg hmissing]
            have hle : (MsgHdr.load host bytes).totalBytes.toNat ≤ (contents buf₁).length := by
              rwa [UInt32.lt_iff_toNat_lt, ← hreadable, toNat_ofInt_readable, Nat.not_lt]
                at hmissing
            obtain ⟨hret, hview⟩ := handleMessage_sameView (d := d) (m := m) h hcontents hle
            rw [← hret]
            split
            next => exact .again hview
            next =>
              apply Pass.Related.leave
              exact ⟨rfl, hview⟩

/-- **One pass of the parse loop.** -/
theorem parsePass_related (h : s₁.SameView s₂) :
    Pass.Related Session.SameView (fun r₁ r₂ => r₁.1 = r₂.1 ∧ r₁.2.SameView r₂.2)
      (d.parsePass host m s₁) (d.parsePass host m s₂) := by
  have hsome := h.bytesBuf
  cases hbuf₁ : s₁.bytesBuf with
  | none =>
      cases hbuf₂ : s₂.bytesBuf with
      | none =>
          simp only [parsePass, hbuf₁, hbuf₂]
          exact .leave ⟨rfl, h⟩
      | some buf₂ =>
          rw [hbuf₁, hbuf₂] at hsome
          cases hsome
  | some buf₁ =>
      cases hbuf₂ : s₂.bytesBuf with
      | none =>
          rw [hbuf₁, hbuf₂] at hsome
          cases hsome
      | some buf₂ =>
          rw [hbuf₁, hbuf₂] at hsome
          cases hsome with
          | some hcontents => exact parsePass_related_of_contents h hbuf₁ hbuf₂ hcontents

end

section

variable {β ε : Type} [BytesBuffer β] {readerFc₁ readerFc₂ : β → Int → Option Nat}

theorem sameView_withReaderFc (s : Session β ε) :
    (s.withReaderFc readerFc₁).SameView (s.withReaderFc readerFc₂) := by
  refine ⟨?_, rfl, rfl, rfl⟩
  simp only [Session.withReaderFc]
  cases s.bytesBuf with
  | none => exact .none
  | some buf => exact .some rfl

theorem readPass_withReaderFc (readerFc : β → Int → Option Nat) (d : BytesToMsgDecoder ε)
    (m : Methods ε) (s : Session β ε) :
    Pass.Related (fun t₁ t₂ => t₁ = t₂.withReaderFc readerFc)
      (fun t₁ t₂ => t₁ = t₂.withReaderFc readerFc)
      (d.readPass m (s.withReaderFc readerFc)) (d.readPass m s) := by
  cases hbuf : s.bytesBuf with
  | none =>
      simp only [readPass, Session.withReaderFc, hbuf, Option.map_none]
      refine .leave ?_
      simp only [hbuf, Option.map_none]
  | some buf =>
      have hwriterFc (n : Int) :
          writerFc (⟨buf⟩ : WithReaderFc β readerFc) n = writerFc buf n := rfl
      simp only [readPass, Session.withReaderFc, hbuf, Option.map_some, hwriterFc]
      cases writerFc buf (toInt d.recvUnitSize) with
      | none =>
          refine .leave ?_
          simp only [hbuf, Option.map_some]
      | some addr =>
          have hmoved : (if 0 < (m.read s.env d.recvUnitSize.toNat).1.count then
                (writerMove (poke (⟨buf⟩ : WithReaderFc β readerFc) addr
                  (m.read s.env d.recvUnitSize.toNat).1.stored)
                  (m.read s.env d.recvUnitSize.toNat).1.count).2
              else ⟨buf⟩)
              = ⟨if 0 < (m.read s.env d.recvUnitSize.toNat).1.count then
                (writerMove (poke buf addr (m.read s.env d.recvUnitSize.toNat).1.stored)
                  (m.read s.env d.recvUnitSize.toNat).1.count).2
              else buf⟩ := by
            split <;> rfl
          simp only [hmoved]
          split
          next => exact .leave rfl
          next => exact .again rfl

/-- Reading has no use for `ReaderFc`. -/
theorem readBytes_withReaderFc (readerFc : β → Int → Option Nat) (d : BytesToMsgDecoder ε)
    (m : Methods ε) (passes : Nat) (s : Session β ε) :
    d.readBytes m passes (s.withReaderFc readerFc)
      = (d.readBytes m passes s).map fun r => (r.1, r.2.withReaderFc readerFc) := by
  have hrun : Option.Rel (fun t₁ t₂ => t₁ = t₂.withReaderFc readerFc)
      (run (d.readPass m) passes (s.withReaderFc readerFc)) (run (d.readPass m) passes s) := by
    refine run_related (R := fun t₁ t₂ => t₁ = t₂.withReaderFc readerFc) ?_ rfl passes
    intro t₁ t heq
    rw [heq]
    exact readPass_withReaderFc readerFc d m t
  cases hbuf : s.bytesBuf with
  | none =>
      have hbuf' : (s.withReaderFc readerFc).bytesBuf = none := by
        simp only [Session.withReaderFc, hbuf, Option.map_none]
      simp only [readBytes, hbuf, hbuf', Option.map_some]
  | some buf =>
      have hbuf' : (s.withReaderFc readerFc).bytesBuf = some ⟨buf⟩ := by
        simp only [Session.withReaderFc, hbuf, Option.map_some]
      simp only [readBytes, hbuf, hbuf', Option.map_map]
      generalize run (d.readPass m) passes (s.withReaderFc readerFc) = r₁ at hrun ⊢
      generalize run (d.readPass m) passes s = r₂ at hrun ⊢
      cases hrun with
      | none => rfl
      | some heq =>
          rw [heq]
          rfl

/-- **Both paths agree.** Decode does the same with any two ways to decide for each frame whether it
lies in one piece: it returns in the same way if it returns, after the same frames in the same
order, and leaves the same bytes unread. -/
theorem decode_withReaderFc (readerFc₁ readerFc₂ : β → Int → Option Nat)
    [FifoContract (WithReaderFc β readerFc₁)] [FifoContract (WithReaderFc β readerFc₂)]
    (host : Host) (d : BytesToMsgDecoder ε) (m : Methods ε) (s : Session β ε) (passes : Nat) :
    Option.Rel (fun r₁ r₂ => r₁.1 = r₂.1 ∧ r₁.2.SameView r₂.2)
      (d.decode host m passes (s.withReaderFc readerFc₁))
      (d.decode host m passes (s.withReaderFc readerFc₂)) := by
  rw [decode, decode, readBytes_withReaderFc, readBytes_withReaderFc]
  cases d.readBytes m passes s with
  | none => exact .none
  | some r =>
      obtain ⟨found, s'⟩ := r
      cases found with
      | false => exact .some ⟨rfl, sameView_withReaderFc s'⟩
      | true =>
          exact run_related (fun _ _ h => parsePass_related h) (sameView_withReaderFc s') passes

end

/-- Two pings, always copied and never copied. -/
theorem decode_withReaderFc_script :
    let msg := (encoded Host.little (newStackMsg Host.little 3 4)).data
    let d := ScriptedPeer.decoder 64 64
    let m := ScriptedPeer.methods fun _ => true
    let s := ScriptedPeer.connect ⟨msg ++ msg, [40]⟩ 128 (by decide)
    ∃ r₁ r₂, d.decode Host.little m 3 (s.withReaderFc fun _ _ => none) = some r₁
      ∧ d.decode Host.little m 3 (s.withReaderFc readerFc) = some r₂
      ∧ r₁.2.passed.length = 2 ∧ r₁.2.passed = r₂.2.passed := by
  intro msg d m s
  have hcopied : FifoContract (WithReaderFc (FlatBuffer 128) fun _ _ => none) :=
    WithReaderFc.fifoContract fun _ _ _ h => nomatch h
  have hinPlace : FifoContract (WithReaderFc (FlatBuffer 128) readerFc) :=
    WithReaderFc.fifoContract fun _ _ _ h => h
  have hrel := decode_withReaderFc (fun _ _ => none) readerFc Host.little d m s 3
  have hrun : (d.decode Host.little m 3 (s.withReaderFc fun _ _ => none)).map
      (fun r => r.2.passed.length) = some 2 := by decide +kernel
  obtain ⟨r₁, hr₁, hlen⟩ := Option.map_eq_some_iff.mp hrun
  rw [hr₁] at hrel
  cases hr₂ : d.decode Host.little m 3 (s.withReaderFc readerFc) with
  | none =>
      rw [hr₂] at hrel
      cases hrel
  | some r₂ =>
      rw [hr₂] at hrel
      cases hrel with
      | some h => exact ⟨r₁, r₂, hr₁, rfl, hlen, h.2.passed⟩

end BytesToMsgDecoder

end BabelTrader
