import BabelTrader.Proof.Decode
import BabelTrader.MsgToBytesEncoder
import BabelTrader.ScriptedPeer

/-!
# What a call leaves behind

When `Decode` returns `true`, what is left is a header not yet complete, or a good header whose
payload is not yet complete. The limit bounds both, so a buffer with room for two receive units on
top of that can always take the next one.
-/

namespace BabelTrader

open MachineWord WhileLoop Framing BytesBuffer BytesToMsgDecoder

/-- The beginning of a frame, or nothing at all. -/
def Residue (host : Host) (limit : UInt32) (xs : Bytes) : Prop :=
  xs.length < sizeofMsgHdr
    ∨ (checkHeader host limit (MsgHdr.load host xs) = none
      ∧ xs.length < sizeofMsgHdr + (MsgHdr.load host xs).payloadLen.toNat)

section

variable {host : Host} {limit : UInt32} {xs : Bytes}

theorem toNat_totalBytes_of_short {hdr : MsgHdr} (hle : sizeofMsgHdr ≤ xs.length)
    (hlt : xs.length < hdr.totalBytes.toNat) :
    hdr.totalBytes.toNat = sizeofMsgHdr + hdr.payloadLen.toNat := by
  have hword := hdr.payloadLen.toNat_lt
  have htotal := hdr.toNat_totalBytes
  -- a sum that has wrapped around is below 16, and 16 bytes cannot fall short of that
  simp only [sizeofMsgHdr] at *
  omega

theorem residue_of_more (h : front host limit xs = .more) : Residue host limit xs := by
  obtain hshort | ⟨hle, hcheck, hlt⟩ := front_eq_more_iff.mp h
  · exact Or.inl hshort
  · exact Or.inr ⟨hcheck, toNat_totalBytes_of_short hle hlt ▸ hlt⟩

theorem length_lt_of_more (hlimit : 0 < limit) (h : front host limit xs = .more) :
    xs.length < max limit.toNat sizeofMsgHdr := by
  obtain hshort | ⟨_, hcheck, hlt⟩ := front_eq_more_iff.mp h
  · exact lt_max_of_lt_right hshort
  · obtain ⟨_, hle⟩ := checkHeader_eq_none_iff.mp hcheck
    apply lt_max_of_lt_left
    calc xs.length
      _ < (MsgHdr.load host xs).totalBytes.toNat := hlt
      _ ≤ limit.toNat := UInt32.le_iff_toNat_le.mp (hle hlimit)

end

section

variable {β ε : Type} [BytesBuffer β] [FifoContract β] {host : Host} {d : BytesToMsgDecoder ε}
  {m : Methods ε} {s t : Session β ε} {xs : Bytes} {exit : Exit}

theorem decodes_idle (hunit : d.recvUnitSize.toNat < 2 ^ 31) (hxs : t.Holds xs)
    (hmore : front host d.msgLenLimit xs = .more)
    (hroom : ∀ buf, t.bytesBuf = some buf → writerFc buf d.recvUnitSize.toNat ≠ none)
    (hidle : (m.read t.env d.recvUnitSize.toNat).1.count ≤ 0) :
    Decodes host d m t
      (.incomplete, { t with env := (m.read t.env d.recvUnitSize.toNat).2 }) := by
  have hunitPos := d.recvUnitSize_pos
  obtain ⟨buf, hbuf, _⟩ := id hxs
  obtain ⟨⟨buf', hbuf', hfull⟩, _⟩ | ⟨u, htakes, hpass⟩ := readPass_cases (m := m) hunit hxs
  · exact absurd hfull (hroom buf' hbuf')
  · have hstored := ReadResult.stored_of_count_nonpos hidle
    have hu : u = { t with env := (m.read t.env d.recvUnitSize.toNat).2 } := by
      obtain ⟨bytesBuf, env, received, passed⟩ := u
      have hreceived := htakes.received
      rw [hstored, List.append_nil] at hreceived
      rw [Session.mk.injEq]
      exact ⟨htakes.idle hidle, htakes.env, hreceived, htakes.passed⟩
    have hholds := htakes.holds
    rw [hstored, List.append_nil] at hholds
    rw [if_pos (by omega)] at hpass
    have hstop := parsePass_of_more (m := m) hholds hmore
    exact (decodes_iff hbuf).mpr ⟨u, .of_leave hpass, hu ▸ .of_leave hstop⟩

/-- **No complete frame is left behind, and a session cannot wedge.** Let a buffer of `capacity`
bytes grant a write of `n` bytes whenever the unread bytes and `2 * n` are below its capacity. When
a call of `Decode` returns `true`, what it leaves is the beginning of a frame, it is shorter than
the limit or the header, the next call has room for a receive unit, and if that call finds nothing
in the socket then it changes nothing. -/
theorem decode_leaves_residue (d : BytesToMsgDecoder ε) (m : Methods ε) (s t : Session β ε)
    (exit : Exit) (capacity : Nat) (hlimit : 0 < d.msgLenLimit)
    (hcapacity : max d.msgLenLimit.toNat sizeofMsgHdr + 2 * d.recvUnitSize.toNat < capacity)
    (hmax : capacity < 2 ^ 31)
    (hwriter : ∀ (buf : β) (n : Nat),
      (contents buf).length + 2 * n < capacity → writerFc buf n ≠ none)
    (hbuf : s.bytesBuf ≠ none) (hdecodes : Decodes host d m s (exit, t))
    (hret : exit.ret = true) :
    ∃ buf, t.bytesBuf = some buf
      ∧ Residue host d.msgLenLimit (contents buf)
      ∧ (contents buf).length < max d.msgLenLimit.toNat sizeofMsgHdr
      ∧ writerFc buf d.recvUnitSize.toNat ≠ none
      ∧ ((m.read t.env d.recvUnitSize.toNat).1.count ≤ 0 →
        ∀ r, Decodes host d m t r
          ↔ r = (.incomplete, { t with env := (m.read t.env d.recvUnitSize.toNat).2 })) := by
  have hunit : d.recvUnitSize.toNat < 2 ^ 31 := by omega
  obtain ⟨buf₀, hbuf₀⟩ := Option.ne_none_iff_exists'.mp hbuf
  obtain ⟨_, ⟨buf, hbuf, rfl⟩, hmore⟩ := hdecodes.front_of_true hunit hret ⟨buf₀, hbuf₀, rfl⟩
  have hlen := length_lt_of_more hlimit hmore
  have hroom : writerFc buf d.recvUnitSize.toNat ≠ none := hwriter buf _ (by omega)
  refine ⟨buf, hbuf, residue_of_more hmore, hlen, hroom, ?_⟩
  intro hidle r
  have hdecodes' := decodes_idle hunit ⟨buf, hbuf, rfl⟩ hmore
    (fun buf' hbuf' => by rw [hbuf] at hbuf'; cases hbuf'; exact hroom) hidle
  exact ⟨fun hr => hr.unique hdecodes', fun hr => hr ▸ hdecodes'⟩

end

theorem decode_leaves_residue_script :
    let msg := (encoded Host.little (newStackMsg Host.little 3 4)).data
    let d := ScriptedPeer.decoder 16 64
    let m := ScriptedPeer.methods fun _ => true
    let s := ScriptedPeer.connect ⟨msg ++ msg.take 18, [16, 16, 6]⟩ 128 (by decide)
    ∃ t buf, Decodes Host.little d m s (.incomplete, t) ∧ t.bytesBuf = some buf
      ∧ (contents buf).length < 64 ∧ writerFc buf 16 ≠ none := by
  intro msg d m s
  have hrun : (d.decode Host.little m 3 s).map Prod.fst = some .incomplete := by decide +kernel
  obtain ⟨⟨exit, t⟩, heval, rfl⟩ := Option.map_eq_some_iff.mp hrun
  have hdecodes : Decodes Host.little d m s (.incomplete, t) := ⟨3, heval⟩
  obtain ⟨buf, hbuf, _, hlen, hroom, _⟩ := decode_leaves_residue d m s t .incomplete 128 (by decide)
    (by decide) (by decide) (fun buf n hn => buf.writerFc_ne_none (by omega)) (by decide) hdecodes
    rfl
  exact ⟨t, buf, hdecodes, hbuf, hlen, hroom⟩

end BabelTrader
