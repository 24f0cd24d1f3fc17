import BabelTrader.Proof.Decode

/-!
# Passed on means cut off

What a session has passed on was cut off the front of what has arrived, by the framing rule and
nothing else, and what remains is in its buffer. Whatever can be said about cutting a stream can
therefore be said about a run of calls: this is where the library's lemmas enter.
-/

namespace BabelTrader

open Framing BytesBuffer BytesToMsgDecoder

def Frame.ofData (data : Bytes) : Frame := ⟨data, UInt32.ofNat data.length⟩

theorem Frame.eq_ofData {frame : Frame} (h : frame.data.length = frame.datalen.toNat) :
    frame = Frame.ofData frame.data := by
  obtain ⟨data, datalen⟩ := frame
  have hlen : UInt32.ofNat data.length = datalen := by
    rw [show data.length = datalen.toNat from h, UInt32.ofNat_toNat]
  rw [Frame.ofData, hlen]

namespace Session

variable {β ε : Type} [BytesBuffer β]

/-- The frames passed on are what the framing rule cuts off the front of the bytes received. -/
structure Framed (host : Host) (limit : UInt32) (s : Session β ε) : Prop where
  cuts : Cuts (front host limit) s.received (s.passed.map Frame.data) s.unread
  length_eq : ∀ frame ∈ s.passed, frame.data.length = frame.datalen.toNat

variable {host : Host} {limit : UInt32} {s : Session β ε}

theorem Unused.framed (h : s.Unused) : s.Framed host limit := by
  refine ⟨?_, ?_⟩
  · rw [h.received, h.passed, h.unread]
    exact .stop _
  · rw [h.passed]
    intro frame hframe
    cases hframe

theorem Framed.passed_eq (h : s.Framed host limit) :
    s.passed = (s.passed.map Frame.data).map Frame.ofData := by
  calc s.passed
    _ = s.passed.map id := (List.map_id _).symm
    _ = s.passed.map (Frame.ofData ∘ Frame.data) := by
      apply List.map_congr_left
      intro frame hframe
      exact Frame.eq_ofData (h.length_eq frame hframe)
    _ = (s.passed.map Frame.data).map Frame.ofData := by rw [List.map_map]

end Session

namespace BytesToMsgDecoder

variable {β ε : Type} [BytesBuffer β] [FifoContract β] {host : Host} {d : BytesToMsgDecoder ε}
  {m : Methods ε} {s s' : Session β ε} {rets : List Bool}

omit [FifoContract β] in
theorem preserved_framed : Preserved host d m (Session.Framed (β := β) host d.msgLenLimit) where
  takesIn {s s' xs} hs hxs htakes := by
    refine ⟨?_, ?_⟩
    · rw [htakes.received, htakes.passed, htakes.holds.unread_eq, ← hxs.unread_eq]
      exact hs.cuts.append (front_stable host d.msgLenLimit) _
    · rw [htakes.passed]
      exact hs.length_eq
  handsOver {s s' xs frame} hs hxs hhands := by
    have hcuts := hs.cuts
    rw [hxs.unread_eq] at hcuts
    refine ⟨?_, ?_⟩
    · rw [hhands.received, hhands.passed, hhands.holds.unread_eq, List.map_append, List.map_cons,
        List.map_nil]
      have hcut := hcuts.snoc hhands.front
      rwa [← hhands.data] at hcut
    · have hlength : Preserved host d m
          fun s : Session β ε => ∀ frame ∈ s.passed, frame.data.length = frame.datalen.toNat :=
        preserved_forall_passed fun _ hhands => hhands.length_eq
      exact hlength.handsOver hs.length_eq hxs hhands

theorem Calls.framed (h : Calls host d m s rets s') (hunit : d.recvUnitSize.toNat < 2 ^ 31)
    (hs : s.Fresh) : s'.Framed host d.msgLenLimit ∧ ∃ xs, s'.Holds xs :=
  h.preserves preserved_framed hunit hs.toUnused.framed ⟨[], hs.holds⟩

theorem Calls.front_unread_of_passed (h : Calls host d m s rets s')
    (hunit : d.recvUnitSize.toNat < 2 ^ 31) (hs : s.Fresh)
    (haccepts : ∀ frame ∈ s'.passed, ∀ env, (d.next m env frame).1.ret = true) :
    front host d.msgLenLimit s'.unread = if rets.getLast? = some false then .bad else .more := by
  cases h with
  | none =>
      rw [hs.unread, (front_stable host d.msgLenLimit).nil]
      rfl
  | call hcalls hdecodes =>
      obtain ⟨_, xs, hxs⟩ := hcalls.framed hunit hs
      obtain ⟨t, ys, _, hys, hleave⟩ := hdecodes.exists_top preserved_true hunit trivial hxs
      obtain ⟨rfl, rfl, hmore⟩ | ⟨why, rfl, rfl, hbad⟩ | ⟨rfl, frame, hhands, hret⟩ :=
        parsePass_leave hys hleave
      · rw [hys.unread_eq, hmore]
        simp [Exit.ret]
      · rw [hys.unread_eq, hbad]
        simp [Exit.ret]
      · have hmem : frame ∈ s'.passed := by
          rw [hhands.passed]
          exact List.mem_append_right _ (List.mem_singleton_self _)
        rw [haccepts frame hmem] at hret
        cases hret

/-- **Where a run of calls stands.** When no handler refuses a frame, the verdict of the last call
tells which of the two ways of being stuck the unread bytes are in. -/
theorem Calls.front_unread (h : Calls host d m s rets s') (hunit : d.recvUnitSize.toNat < 2 ^ 31)
    (hnever : d.NeverRefuses m) (hs : s.Fresh) :
    front host d.msgLenLimit s'.unread = if rets.getLast? = some false then .bad else .more :=
  h.front_unread_of_passed hunit hs fun frame _ env => hnever env frame

theorem Calls.stuck (h : Calls host d m s rets s') (hunit : d.recvUnitSize.toNat < 2 ^ 31)
    (hnever : d.NeverRefuses m) (hs : s.Fresh) : Stuck (front host d.msgLenLimit) s'.unread := by
  have hfront := h.front_unread hunit hnever hs
  by_cases hlast : rets.getLast? = some false
  · rw [if_pos hlast] at hfront
    exact stuck_of_bad hfront
  · rw [if_neg hlast] at hfront
    exact stuck_of_more hfront

end BytesToMsgDecoder

end BabelTrader
