import BabelTrader.Proof.SharedDecoder
import BabelTrader.Proof.Segmentation

/-!
# Well-formed frames

A handler relies on a frame being at least a header, and as long as that header says. The decoder
guarantees it except for the last 16 payload lengths, for which the 32-bit sum wraps around: such a
header passes the checks as the header of a frame of fewer than 16 bytes. Nothing well-formed is
rejected in either case.
-/

namespace BabelTrader

open WhileLoop Framing BytesBuffer BytesToMsgDecoder

/-- The header at the front passes the checks of the code, and its length wraps around. -/
structure Wraps (host : Host) (limit : UInt32) (xs : Bytes) : Prop where
  header : sizeofMsgHdr ≤ xs.length
  check : checkHeader host limit (MsgHdr.load host xs) = none
  wraps : 2 ^ 32 ≤ sizeofMsgHdr + (MsgHdr.load host xs).payloadLen.toNat

section Headers

variable {host : Host} {limit : UInt32} {xs : Bytes}

theorem Wraps.toNat_totalBytes_lt (h : Wraps host limit xs) :
    (MsgHdr.load host xs).totalBytes.toNat < sizeofMsgHdr := by
  have hword := (MsgHdr.load host xs).payloadLen.toNat_lt
  have htotal := (MsgHdr.load host xs).toNat_totalBytes
  have hwraps := h.wraps
  simp only [sizeofMsgHdr] at *
  omega

theorem Wraps.front (h : Wraps host limit xs) :
    ∃ len, front host limit xs = .frame len ∧ len < sizeofMsgHdr := by
  have hlt := h.toNat_totalBytes_lt
  refine ⟨_, front_eq_frame_iff.mpr ⟨h.header, h.check, rfl, ?_⟩, hlt⟩
  exact Nat.le_trans (Nat.le_of_lt hlt) h.header

theorem not_acceptable_of_bad (h : BabelTrader.front host limit xs = .bad) :
    ¬ (MsgHdr.load host xs).Acceptable host limit := by
  intro hacceptable
  obtain ⟨_, why, hcheck⟩ := front_eq_bad_iff.mp h
  have hnone : checkHeader host limit (MsgHdr.load host xs) = none := by
    refine checkHeader_eq_none_iff.mpr ⟨hacceptable.marked, ?_⟩
    intro hlimit
    have hle := hacceptable.limit hlimit
    have hsum : sizeofMsgHdr + (MsgHdr.load host xs).payloadLen.toNat < 2 ^ 32 :=
      Nat.lt_of_le_of_lt hle limit.toNat_lt
    rwa [UInt32.le_iff_toNat_le, MsgHdr.toNat_totalBytes_of_lt hsum]
  rw [hnone] at hcheck
  cases hcheck

end Headers

section Runs

variable {β ε : Type} [BytesBuffer β] [FifoContract β] {host : Host} {d : BytesToMsgDecoder ε}
  {m : Methods ε} {s s' : Session β ε} {xs : Bytes} {frame : Frame}

omit [FifoContract β] in
/-- **One frame.** A frame that is handed over is well-formed iff its length has not wrapped
around. -/
theorem BytesToMsgDecoder.HandsOver.wellFormed_iff (h : HandsOver host d m s xs frame s') :
    frame.WellFormed host d.msgLenLimit ↔ ¬ Wraps host d.msgLenLimit xs := by
  obtain ⟨hle, hcheck, hlen, hfits⟩ := front_eq_frame_iff.mp h.front
  have hdatalen : frame.datalen.toNat = (MsgHdr.load host xs).totalBytes.toNat := by rw [h.datalen]
  constructor
  · intro hwell hwraps
    have hshort := hwraps.toNat_totalBytes_lt
    have hheader := hwell.header
    omega
  · intro hnot
    have hsum : sizeofMsgHdr + (MsgHdr.load host xs).payloadLen.toNat < 2 ^ 32 := by
      apply Nat.lt_of_not_le
      intro hge
      exact hnot ⟨hle, hcheck, hge⟩
    have htotal := MsgHdr.toNat_totalBytes_of_lt hsum
    have hload : MsgHdr.load host frame.data = MsgHdr.load host xs := by
      rw [h.data]
      exact MsgHdr.load_take host (by omega) hfits
    obtain ⟨hmarked, hlimit⟩ := checkHeader_eq_none_iff.mp hcheck
    exact {
      length_eq := h.length_eq
      header := by omega
      marked := hload ▸ hmarked
      datalen := by rw [hload, hdatalen, htotal]
      limit := fun hpos => h.datalen ▸ hlimit hpos }

omit [FifoContract β] in
theorem preserved_hasBuffer :
    Preserved host d m (fun t : Session β ε => ∃ xs, t.Holds xs) :=
  ⟨fun _ _ htakes => htakes.hasBuffer, fun _ _ hhands => hhands.hasBuffer⟩

theorem Task.step_wraps {s : Session β ε} (hxs : s.Holds xs) (h : Wraps host d.msgLenLimit xs) :
    ∃ frame, HandsOver host d m s xs frame (Task.step host d m ⟨.parsing, s⟩).session := by
  obtain ⟨len, hfront, _⟩ := h.front
  obtain ⟨frame, hhands, _⟩ := Task.step_of_frame (m := m) hxs hfront
  exact ⟨frame, hhands⟩

/-- **Nothing well-formed is rejected**, whether or not a length has wrapped around: when no handler
refuses a frame, a call that fails leaves a header that is not acceptable at the front. -/
theorem rejects_unacceptable (hunit : d.recvUnitSize.toNat < 2 ^ 31) (hnever : d.NeverRefuses m)
    {t u : Session β ε} {exit : Exit} (ht : ∃ xs, t.Holds xs)
    (hdecodes : Decodes host d m t (exit, u)) (hret : exit.ret = false) :
    sizeofMsgHdr ≤ u.unread.length
      ∧ ¬ (MsgHdr.load host u.unread).Acceptable host d.msgLenLimit := by
  obtain ⟨xs, hxs⟩ := ht
  obtain rfl | ⟨why, rfl⟩ := hdecodes.exit_of_neverRefuses hunit hnever hxs
  · cases hret
  · obtain ⟨ys, hys, hbad⟩ := hdecodes.front_of_rejected hunit hxs
    rw [hys.unread_eq]
    exact ⟨(front_eq_bad_iff.mp hbad).1, not_acceptable_of_bad hbad⟩

/-- **When only well-formed frames are passed on.** In every run over a fresh session: all frames
passed on are well-formed, and what a call rejects is not acceptable, iff no header whose length
wraps around comes to the front of the buffer while parsing. -/
theorem frames_well_formed_iff (d : BytesToMsgDecoder ε) (m : Methods ε) (s : Session β ε)
    (hunit : d.recvUnitSize.toNat < 2 ^ 31) (hs : s.Fresh) :
    ((∀ t, Task.Reachable host d m s t →
          ∀ frame ∈ t.session.passed, frame.WellFormed host d.msgLenLimit)
        ∧ (d.NeverRefuses m → ∀ rets t exit u, Calls host d m s rets t →
          Decodes host d m t (exit, u) → exit.ret = false →
          sizeofMsgHdr ≤ u.unread.length
            ∧ ¬ (MsgHdr.load host u.unread).Acceptable host d.msgLenLimit))
      ↔ ∀ t, Task.Reachable host d m s ⟨.parsing, t⟩ → ¬ Wraps host d.msgLenLimit t.unread := by
  have hbuffer {t : Task β ε} (h : Task.Reachable host d m s t) : ∃ xs, t.session.Holds xs :=
    h.preserves preserved_hasBuffer hunit ⟨[], hs.holds⟩
  constructor
  · rintro ⟨hwell, _⟩ t ht hwraps
    obtain ⟨xs, hxs⟩ := hbuffer ht
    rw [hxs.unread_eq] at hwraps
    obtain ⟨frame, hhands⟩ := Task.step_wraps (m := m) hxs hwraps
    have hmem : frame ∈ (Task.step host d m ⟨.parsing, t⟩).session.passed := by
      rw [hhands.passed]
      simp
    exact hhands.wellFormed_iff.mp (hwell _ ht.step frame hmem) hwraps
  · intro hnot
    refine ⟨?_, ?_⟩
    · intro t ht
      induction ht with
      | start =>
          intro frame hframe
          rw [hs.passed] at hframe
          cases hframe
      | @step t ht ih =>
          obtain ⟨xs, hxs⟩ := hbuffer ht
          obtain hpassed | ⟨hphase, frame, hhands⟩ :=
            Task.step_passed host m hunit hxs
          · rwa [hpassed]
          · obtain ⟨phase, u⟩ := t
            obtain rfl : phase = .parsing := hphase
            have hwraps := hnot u ht
            rw [hxs.unread_eq] at hwraps
            rw [hhands.passed]
            exact List.forall_mem_append.mpr
              ⟨ih, List.forall_mem_singleton.mpr (hhands.wellFormed_iff.mpr hwraps)⟩
    · intro hnever rets t exit u hcalls hdecodes hret
      exact rejects_unacceptable hunit hnever (hbuffer (Task.reachable_of_calls hcalls)) hdecodes
        hret

theorem not_wraps_of_encoded {unsent : ε → Bytes} {msgs : List Bytes}
    (hunit : d.recvUnitSize.toNat < 2 ^ 31) (hdelivers : Delivers d m unsent)
    (hmsgs : ∀ msg ∈ msgs, Sendable host d.msgLenLimit msg) (hs : s.Fresh)
    (hwire : unsent s.env = ((msgs.map (encoded host)).map Frame.data).flatten) {t : Task β ε}
    (ht : Task.Reachable host d m s t) : ¬ Wraps host d.msgLenLimit t.session.unread := by
  have hunderway : t.session.Underway host d.msgLenLimit unsent msgs :=
    ht.preserves (preserved_underway hdelivers) hunit (hs.underway hwire)
  intro hwraps
  obtain ⟨len, hfront, hlt⟩ := hwraps.front
  have hle := hunderway.header_le_of_frame hmsgs hfront
  omega

end Runs

theorem frames_well_formed_iff_script :
    let msgs := [newStackMsg Host.little 3 0, newStackMsg Host.little 4 5]
    let d := ScriptedPeer.decoder 32 64
    let m := ScriptedPeer.methods fun _ => true
    let s := ScriptedPeer.connect
      ⟨((msgs.map (encoded Host.little)).map Frame.data).flatten, [30, 7]⟩ 128 (by decide)
    ∃ t, Calls Host.little d m s [true, true] t
      ∧ ∀ frame ∈ t.passed, frame.WellFormed Host.little d.msgLenLimit := by
  intro msgs d m s
  have hmsgs : ∀ msg ∈ msgs, Sendable Host.little d.msgLenLimit msg :=
    List.forall_mem_cons.mpr ⟨sendable_newStackMsg 3 (by decide),
      List.forall_mem_singleton.mpr (sendable_newStackMsg 4 (by decide))⟩
  have hrun : (d.decodeTimes Host.little m 3 s 2).map Prod.fst = some [true, true] := by
    decide +kernel
  obtain ⟨⟨_, t⟩, heval, rfl⟩ := Option.map_eq_some_iff.mp hrun
  have hcalls := calls_of_decodeTimes heval
  have hwell := (frames_well_formed_iff d m s (by decide) (ScriptedPeer.fresh_connect _ _)).mpr
    fun _ ht => not_wraps_of_encoded (by decide) (ScriptedPeer.delivers rfl _) hmsgs
      (ScriptedPeer.fresh_connect _ _) rfl ht
  exact ⟨t, hcalls, hwell.1 _ (Task.reachable_of_calls hcalls)⟩

/-- A header that announces 2^32 - 11 bytes of payload is passed on as a frame of five bytes. -/
theorem wrapped_length_passed_on :
    let hdr := MsgHdr.store Host.little ⟨magicWord, ![1, 1, 0, 0], 3, 0xFFFFFFF5⟩
    let d := ScriptedPeer.decoder 16 64
    let m := ScriptedPeer.methods fun _ => true
    let s := ScriptedPeer.connect ⟨hdr, [16]⟩ 64 (by decide)
    ∃ t, Calls Host.little d m s [true] t
      ∧ ∃ frame ∈ t.passed, ¬ frame.WellFormed Host.little d.msgLenLimit := by
  intro hdr d m s
  have hrun : (d.decodeTimes Host.little m 2 s 1).map (fun r => (r.1, r.2.passed))
      = some ([true], [⟨hdr.take 5, 5⟩]) := by decide +kernel
  obtain ⟨⟨_, t⟩, heval, hr⟩ := Option.map_eq_some_iff.mp hrun
  obtain ⟨rfl, hpassed⟩ := Prod.mk.inj hr
  refine ⟨t, calls_of_decodeTimes heval, ⟨hdr.take 5, 5⟩, ?_, ?_⟩
  · rw [hpassed]
    exact List.mem_singleton_self _
  · intro hwell
    exact absurd hwell.header (by decide)

end BabelTrader
