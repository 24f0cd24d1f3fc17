import BabelTrader.Proof.Decode
import BabelTrader.MsgToBytesEncoder
import BabelTrader.ScriptedPeer

/-!
# A rejected header is final

The decoder remembers nothing about a header it has rejected. It rejects it again at every later
call because looking at the header does not consume it and reading only appends: the bytes that
follow are never looked at.
-/

namespace BabelTrader

open Framing BytesBuffer BytesToMsgDecoder

section

variable {β ε : Type} [BytesBuffer β] [FifoContract β] {host : Host} {d : BytesToMsgDecoder ε}
  {m : Methods ε} {s t : Session β ε} {xs : Bytes} {frames : List Frame} {exit : Exit}

/-- `xs` is still at the front of the buffer, and no frame has been passed on since `frames`. -/
structure Session.StuckAt (xs : Bytes) (frames : List Frame) (s : Session β ε) : Prop where
  front : ∃ more, s.Holds (xs ++ more)
  passed : s.passed = frames

omit [FifoContract β] in
theorem preserved_stuckAt (hbad : front host d.msgLenLimit xs = .bad) :
    Preserved host d m (Session.StuckAt (β := β) xs frames) where
  takesIn {s s' ys} hs hys htakes := by
    obtain ⟨more, hmore⟩ := hs.front
    obtain rfl := hys.unique hmore
    have hholds := htakes.holds
    rw [List.append_assoc] at hholds
    exact ⟨⟨_, hholds⟩, htakes.passed.trans hs.passed⟩
  handsOver {s s' ys frame} hs hys hhands := by
    obtain ⟨more, hmore⟩ := hs.front
    obtain rfl := hys.unique hmore
    have hframe := hhands.front
    rw [(front_stable host d.msgLenLimit).bad more hbad] at hframe
    cases hframe

omit [FifoContract β] in
theorem Session.StuckAt.front_eq (h : s.StuckAt xs frames)
    (hbad : BabelTrader.front host d.msgLenLimit xs = .bad) {ys : Bytes} (hys : s.Holds ys) :
    BabelTrader.front host d.msgLenLimit ys = .bad := by
  obtain ⟨more, hmore⟩ := h.front
  obtain rfl := hys.unique hmore
  exact (front_stable host d.msgLenLimit).bad more hbad

theorem Session.StuckAt.ret_of_decodes (h : s.StuckAt xs frames)
    (hbad : BabelTrader.front host d.msgLenLimit xs = .bad)
    (hunit : d.recvUnitSize.toNat < 2 ^ 31) (hdecodes : Decodes host d m s (exit, t)) :
    exit.ret = false := by
  obtain ⟨more, hmore⟩ := h.front
  obtain ⟨u, ys, hu, hys, hleave⟩ :=
    hdecodes.exists_top (preserved_stuckAt hbad) hunit h hmore
  obtain ⟨_, _, hwants⟩ | ⟨why, rfl, _⟩ | ⟨rfl, _⟩ := parsePass_leave hys hleave
  · rw [hu.front_eq hbad hys] at hwants
    cases hwants
  · rfl
  · rfl

/-- **Fail-stop.** After a call that has rejected a header, every further call returns, and returns
`false`. No frame is passed on any more, and the header that was rejected stays at the front of the
unread bytes, whatever is appended to them. -/
theorem rejected_header_is_final (d : BytesToMsgDecoder ε) (m : Methods ε) (s t : Session β ε)
    (why : Reject) (hunit : d.recvUnitSize.toNat < 2 ^ 31)
    (hrejected : Decodes host d m s (.rejected why, t)) :
    (∀ n, ∃ u, Calls host d m t (List.replicate n false) u)
      ∧ ∀ rets u, Calls host d m t rets u →
        rets = List.replicate rets.length false
          ∧ u.passed = t.passed
          ∧ sizeofMsgHdr ≤ t.unread.length
          ∧ t.unread <+: u.unread := by
  obtain ⟨xs, hxs⟩ : ∃ xs, s.Holds xs := by
    cases hbuf : s.bytesBuf with
    | none =>
        obtain ⟨hexit, _⟩ := Prod.mk.inj ((decodes_noBuffer_iff hbuf).mp hrejected)
        cases hexit
    | some buf => exact ⟨_, buf, hbuf, rfl⟩
  obtain ⟨ys, hys, hbad⟩ := hrejected.front_of_rejected hunit hxs
  have hstart : t.StuckAt ys t.passed := ⟨⟨[], by rwa [List.append_nil]⟩, rfl⟩
  have hstuck {rets : List Bool} {u : Session β ε} (h : Calls host d m t rets u) :
      u.StuckAt ys t.passed ∧ ∃ zs, u.Holds zs :=
    h.preserves (preserved_stuckAt hbad) hunit hstart ⟨ys, hys⟩
  have hreturns {rets : List Bool} {u v : Session β ε} {exit : Exit}
      (hcalls : Calls host d m t rets u) (hdecodes : Decodes host d m u (exit, v)) :
      exit.ret = false := (hstuck hcalls).1.ret_of_decodes hbad hunit hdecodes
  refine ⟨exists_calls ?_, ?_⟩
  · intro rets u hcalls
    obtain ⟨hu, hbuf⟩ := hstuck hcalls
    obtain ⟨exit, v, hdecodes⟩ := exists_decodes (preserved_stuckAt hbad) hunit hu hbuf
      fun hw hzs => by rw [hw.front_eq hbad hzs]; exact Front.noConfusion
    exact ⟨exit, v, hdecodes, hreturns hcalls hdecodes⟩
  · intro rets u hcalls
    obtain ⟨hu, _⟩ := hstuck hcalls
    obtain ⟨more, hmore⟩ := hu.front
    rw [hys.unread_eq, hmore.unread_eq]
    exact ⟨hcalls.rets_eq hreturns, hu.passed, (front_eq_bad_iff.mp hbad).1, ⟨more, rfl⟩⟩

end

/-- Sixteen zeros, and then a message that would be accepted. -/
theorem rejected_header_is_final_script :
    let stream := List.replicate 16 0 ++ (encoded Host.little (newStackMsg Host.little 3 4)).data
    let d := ScriptedPeer.decoder 32 64
    let m := ScriptedPeer.methods fun _ => true
    let s := ScriptedPeer.connect ⟨stream, [17, 9, 11]⟩ 128 (by decide)
    ∃ t u, Decodes Host.little d m s (.rejected .magicWord, t)
      ∧ Calls Host.little d m t [false, false] u ∧ u.passed = t.passed := by
  intro stream d m s
  have hrun : (d.decode Host.little m 2 s).map Prod.fst = some (.rejected .magicWord) := by
    decide +kernel
  obtain ⟨⟨exit, t⟩, heval, rfl⟩ := Option.map_eq_some_iff.mp hrun
  have hrejected : Decodes Host.little d m s (.rejected .magicWord, t) := ⟨2, heval⟩
  obtain ⟨hcalls, hruns⟩ := rejected_header_is_final d m s t .magicWord (by decide) hrejected
  obtain ⟨u, hu⟩ := hcalls 2
  exact ⟨t, u, hrejected, hu, (hruns _ u hu).2.1⟩

end BabelTrader
