import BabelTrader.Library.Runs
import BabelTrader.Proof.SharedDecoder
import BabelTrader.Proof.EmptyFrame

/-!
# No byte is lost and no frame is handled twice

What a socket has given is, at any moment, what has been passed on followed by what the buffer still
holds. Both consumption paths keep this, and so does every way of leaving the parse loop: a refused
frame has been consumed, and a rejected header has not. A frame is handled once if consuming it
moves the front of the buffer on, which it does unless the frame has length zero.
-/

namespace BabelTrader

open Runs WhileLoop Framing BytesBuffer BytesToMsgDecoder

variable {β ε : Type} [BytesBuffer β]

/-- The bytes received are the frames passed on, in order, followed by the bytes not yet consumed.
-/
def Session.Conserved (s : Session β ε) : Prop :=
  s.received = (s.passed.map Frame.data).flatten ++ s.unread

/-- The frames passed on begin at different positions of what was received, and parsing goes on
behind all of them. -/
def Session.HandledOnce (s : Session β ε) : Prop := (offsets 0 (s.passed.map Frame.data)).Nodup

instance (s : Session β ε) : Decidable s.HandledOnce := inferInstanceAs (Decidable (List.Nodup _))

omit [BytesBuffer β] in
theorem Session.handledOnce_iff {s : Session β ε} :
    s.HandledOnce ↔ ∀ frame ∈ s.passed, frame.data ≠ [] := by
  rw [Session.HandledOnce, offsets_nodup_iff, List.forall_mem_map]

/-- The next move is a pass of the parse loop, and what it meets at the front of the buffer is a
header that passes the checks and announces a frame of length zero. -/
structure Task.AtEmptyFrame (host : Host) (d : BytesToMsgDecoder ε) (t : Task β ε) : Prop where
  parsing : t.phase = .parsing
  header : sizeofMsgHdr ≤ t.session.unread.length
  check : checkHeader host d.msgLenLimit (MsgHdr.load host t.session.unread) = none
  empty : (MsgHdr.load host t.session.unread).payloadLen = emptyPayloadLen

theorem Task.atEmptyFrame_iff {host : Host} {d : BytesToMsgDecoder ε} {t : Task β ε} :
    t.AtEmptyFrame host d
      ↔ t.phase = .parsing ∧ front host d.msgLenLimit t.session.unread = .frame 0 := by
  rw [front_eq_frame_zero_iff]
  constructor
  · rintro ⟨hphase, hle, hcheck, hempty⟩
    exact ⟨hphase, hle, hcheck, hempty⟩
  · rintro ⟨hphase, hle, hcheck, hempty⟩
    exact ⟨hphase, hle, hcheck, hempty⟩

theorem Session.Unused.conserved {s : Session β ε} (h : s.Unused) : s.Conserved := by
  rw [Session.Conserved, h.received, h.passed, h.unread]
  rfl

namespace BytesToMsgDecoder

variable {host : Host} {d : BytesToMsgDecoder ε} {m : Methods ε} {s s' : Session β ε} {xs : Bytes}

theorem HandsOver.unread_eq {frame : Frame} (h : HandsOver host d m s xs frame s')
    (hxs : s.Holds xs) : s.unread = frame.data ++ s'.unread := by
  calc s.unread
    _ = xs.take frame.data.length ++ xs.drop frame.data.length := by
      rw [hxs.unread_eq, List.take_append_drop]
    _ = frame.data ++ s'.unread := by rw [← h.data, h.holds.unread_eq]

theorem HandsOver.handledOnce_iff {frame : Frame} (h : HandsOver host d m s xs frame s') :
    s'.HandledOnce ↔ s.HandledOnce ∧ frame.data ≠ [] := by
  rw [Session.handledOnce_iff, Session.handledOnce_iff, h.passed, List.forall_mem_append,
    List.forall_mem_singleton]

theorem preserved_conserved [FifoContract β] :
    Preserved host d m (Session.Conserved (β := β)) where
  takesIn {s s' xs} hs hxs htakes := by
    let data := (m.read s.env d.recvUnitSize.toNat).1.stored
    calc s'.received
      _ = s.received ++ data := htakes.received
      _ = (s.passed.map Frame.data).flatten ++ s.unread ++ data := by rw [hs]
      _ = (s'.passed.map Frame.data).flatten ++ s'.unread := by
        rw [htakes.passed, htakes.holds.unread_eq, hxs.unread_eq, List.append_assoc]
  handsOver {s s' xs frame} hs hxs hhands := by
    calc s'.received
      _ = (s.passed.map Frame.data).flatten ++ s.unread := hhands.received.trans hs
      _ = (s.passed.map Frame.data).flatten ++ frame.data ++ s'.unread := by
        rw [hhands.unread_eq hxs, List.append_assoc]
      _ = (s'.passed.map Frame.data).flatten ++ s'.unread := by
        rw [hhands.passed, List.map_append, List.flatten_append, List.map_singleton,
          List.flatten_singleton]

theorem parsePass_consumes [FifoContract β]
    (hpass : d.parsePass host m s = .again s' ∨ d.parsePass host m s = .leave (.refused, s')) :
    ∃ frame, s'.passed = s.passed ++ [frame] ∧ s.unread = frame.data ++ s'.unread := by
  cases hbuf : s.bytesBuf with
  | none => simp only [parsePass, hbuf, reduceCtorEq, Pass.leave.injEq, Prod.mk.injEq, false_and,
      or_self] at hpass
  | some buf =>
      have hxs : s.Holds (contents buf) := ⟨buf, hbuf, rfl⟩
      obtain hagain | hleave := hpass
      · obtain ⟨frame, hhands, _⟩ := parsePass_again hxs hagain
        exact ⟨frame, hhands.passed, hhands.unread_eq hxs⟩
      · obtain ⟨hexit, _⟩ | ⟨_, hexit, _⟩ | ⟨_, frame, hhands, _⟩ := parsePass_leave hxs hleave
        · cases hexit
        · cases hexit
        · exact ⟨frame, hhands.passed, hhands.unread_eq hxs⟩

theorem parsePass_rejected [FifoContract β] {why : Reject}
    (hleave : d.parsePass host m s = .leave (.rejected why, s')) : s' = s := by
  cases hbuf : s.bytesBuf with
  | none => simp only [parsePass, hbuf, reduceCtorEq, Pass.leave.injEq, Prod.mk.injEq,
      false_and] at hleave
  | some buf =>
      obtain ⟨hexit, _⟩ | ⟨_, _, rfl, _⟩ | ⟨hexit, _⟩ := parsePass_leave ⟨buf, hbuf, rfl⟩ hleave
      · cases hexit
      · rfl
      · cases hexit

end BytesToMsgDecoder

/-- **One move.** Every frame is still handled once after it, unless it meets the frame of length
zero. -/
theorem Task.step_handledOnce_iff [FifoContract β] {host : Host} {d : BytesToMsgDecoder ε}
    {m : Methods ε} (hunit : d.recvUnitSize.toNat < 2 ^ 31) (t : Task β ε) :
    (t.step host d m).session.HandledOnce ↔ t.session.HandledOnce ∧ ¬ t.AtEmptyFrame host d := by
  rw [Task.atEmptyFrame_iff]
  obtain ⟨phase, s⟩ := t
  cases hbuf : s.bytesBuf with
  | none =>
      have hsame : (Task.step host d m ⟨phase, s⟩).session = s := Task.step_noBuffer hbuf
      have hunread : s.unread = [] := by simp only [Session.unread, hbuf]
      have hshort : front host d.msgLenLimit [] ≠ .frame 0 := by
        rw [front_short (by decide)]
        exact Front.noConfusion
      simp only [hsame, hunread, hshort, and_false, not_false_eq_true, and_true]
  | some buf =>
      have hxs : s.Holds s.unread := ⟨buf, hbuf, by simp only [Session.unread, hbuf]⟩
      by_cases hempty : phase = .parsing ∧ front host d.msgLenLimit s.unread = .frame 0
      · obtain ⟨rfl, hfront⟩ := hempty
        obtain ⟨frame, hhands, hlen⟩ := Task.step_of_frame (m := m) hxs hfront
        have hdata : frame.data = [] := List.eq_nil_of_length_eq_zero hlen
        rw [hhands.handledOnce_iff]
        simp only [hdata, hfront, ne_eq, not_true_eq_false, and_false, and_self]
      · obtain hpassed | ⟨hphase, frame, hhands⟩ :=
          Task.step_passed host m hunit (t := ⟨phase, s⟩) hxs
        · simp only [Session.HandledOnce, hpassed, hempty, not_false_eq_true, and_true]
        · have hdata : frame.data ≠ [] := by
            intro hdata
            have hfront := hhands.front
            rw [hdata] at hfront
            exact hempty ⟨hphase, hfront⟩
          rw [hhands.handledOnce_iff, and_iff_left hdata, and_iff_left hempty]

namespace Server

variable {ι : Type} [DecidableEq ι] [FifoContract β] {host : Host} {m : ι → Methods ε}

theorem step_handledOnce_iff {srv : Server ι β ε} {event : Event ι ε} {later : List (Event ι ε)}
    (hunit : srv.FitsInt (event :: later)) :
    (∀ i, ((srv.step host m event).task i).session.HandledOnce)
      ↔ (∀ i, (srv.task i).session.HandledOnce)
        ∧ ∀ i, event = .turn i → ¬ (srv.task i).AtEmptyFrame host srv.decoder := by
  have hothers (k : ι) := and_forall_ne (p := fun i => (srv.task i).session.HandledOnce) k
  cases event with
  | setRecvUnitSize n => simp only [step, reduceCtorEq, false_implies, implies_true, and_true]
  | setMsgLenLimit n => simp only [step, reduceCtorEq, false_implies, implies_true, and_true]
  | outside k env =>
      simp only [reduceCtorEq, false_implies, implies_true, and_true]
      exact (Function.forall_update_iff srv.task fun _ t => t.session.HandledOnce).trans
        (hothers k)
  | turn k =>
      let d := srv.decoder
      calc (∀ i, ((srv.step host m (.turn k)).task i).session.HandledOnce)
        _ ↔ ((srv.task k).step host d (m k)).session.HandledOnce
            ∧ ∀ i, i ≠ k → (srv.task i).session.HandledOnce :=
          Function.forall_update_iff srv.task fun _ t => t.session.HandledOnce
        _ ↔ ((srv.task k).session.HandledOnce ∧ ¬ (srv.task k).AtEmptyFrame host d)
            ∧ ∀ i, i ≠ k → (srv.task i).session.HandledOnce := by
          rw [Task.step_handledOnce_iff hunit.1]
        _ ↔ (∀ i, (srv.task i).session.HandledOnce)
            ∧ ¬ (srv.task k).AtEmptyFrame host d := by
          rw [and_right_comm]
          exact and_congr_left' (hothers k)
        _ ↔ (∀ i, (srv.task i).session.HandledOnce)
            ∧ ∀ i, Event.turn (ε := ε) k = .turn i → ¬ (srv.task i).AtEmptyFrame host d := by
          simp only [Event.turn.injEq, forall_eq']

/-- **Any run.** Every frame is handled once iff none of the moves meets the frame of length zero.
-/
theorem run_handledOnce_iff {srv : Server ι β ε} {events : List (Event ι ε)}
    (hunit : srv.FitsInt events) (hunused : ∀ i, (srv.task i).session.Unused) :
    (∀ i, ((srv.run host m events).task i).session.HandledOnce)
      ↔ Throughout (fun earlier event => ∀ i, event = .turn i →
          ¬ ((srv.run host m earlier).task i).AtEmptyFrame host (srv.run host m earlier).decoder)
        events := by
  induction events using List.reverseRecOn with
  | nil =>
      refine iff_of_true ?_ throughout_nil
      intro i
      apply Session.handledOnce_iff.mpr
      intro frame hframe
      rw [run, List.foldl_nil, (hunused i).passed] at hframe
      cases hframe
  | append_singleton earlier event ih =>
      have hearlier : srv.FitsInt earlier :=
        ⟨hunit.1, fun n hn => hunit.2 n (List.mem_append_left _ hn)⟩
      have hnow : (srv.run host m earlier).FitsInt [event] := hunit.run
      rw [run_concat, step_handledOnce_iff hnow, ih hearlier, throughout_append_iff,
        throughout_cons_iff]
      simp only [List.append_nil, throughout_nil, and_true]

/-- **Conservation.** In every state of every interleaved run of calls on any number of sessions
that share a decoder, what each socket has given is what has been passed on for that session
followed by its unread bytes. The next pass of a task takes the frame it passes on off the unread
bytes, also when the handler refuses it, and leaves everything as it is when it rejects a header.
No frame is handled twice, and parsing goes on behind the frames handled, iff no pass meets a frame
of length zero.
-/
theorem bytes_conserved_iff (host : Host) (m : ι → Methods ε) (srv : Server ι β ε)
    (events : List (Event ι ε)) (hunit : srv.FitsInt events)
    (hunused : ∀ i, (srv.task i).session.Unused) :
    (∀ i, let d := (srv.run host m events).decoder
        let s := ((srv.run host m events).task i).session
        s.received = (s.passed.map Frame.data).flatten ++ s.unread
          ∧ (∀ s', d.parsePass host (m i) s = .again s'
              ∨ d.parsePass host (m i) s = .leave (.refused, s') →
            ∃ frame, s'.passed = s.passed ++ [frame] ∧ s.unread = frame.data ++ s'.unread)
          ∧ ∀ why s', d.parsePass host (m i) s = .leave (.rejected why, s') → s' = s)
      ∧ ((∀ i, ((srv.run host m events).task i).session.HandledOnce)
        ↔ Throughout (fun earlier event => ∀ i, event = .turn i →
            ¬ ((srv.run host m earlier).task i).AtEmptyFrame host (srv.run host m earlier).decoder)
          events) := by
  refine ⟨?_, run_handledOnce_iff hunit hunused⟩
  intro i d s
  have hconserved : s.Conserved :=
    run_preserves (fun _ _ => preserved_conserved) (fun _ _ h => h) hunit
      (fun j => (hunused j).conserved) i
  exact ⟨hconserved, fun _ => parsePass_consumes, fun _ _ => parsePass_rejected⟩

/-- Two sessions that take turns, while the receive unit is changed. The first one's handler refuses
its first message, and the second one is sent garbage. -/
theorem bytes_conserved_iff_script :
    let msg (id : UInt32) := (encoded Host.little (newStackMsg Host.little id 4)).data
    let wire (i : Fin 2) : Bytes := if i = 0 then msg 7 ++ msg 8 else List.replicate 40 1
    let srv : Server (Fin 2) (FlatBuffer 64) ScriptedPeer :=
      ⟨ScriptedPeer.decoder 16 64,
        fun i => ⟨.idle, ScriptedPeer.connect ⟨wire i, [16, 5, 9, 7]⟩ 64 (by decide)⟩⟩
    let events : List (Event (Fin 2) ScriptedPeer) :=
      [.turn 0, .turn 0, .turn 1, .turn 1, .turn 0, .turn 0, .setRecvUnitSize 10, .turn 1,
        .outside 1 ⟨[2, 2], [8]⟩, .turn 1, .turn 0, .turn 0, .turn 1]
    let m (_ : Fin 2) := ScriptedPeer.methods fun frame => frame.data ≠ msg 7
    let s := ((srv.run Host.little m events).task 0).session
    s.passed.map Frame.data = [msg 7]
      ∧ s.received = (s.passed.map Frame.data).flatten ++ s.unread
      ∧ ¬ ((srv.run Host.little m (events.take 5)).task 0).AtEmptyFrame Host.little
          (srv.run Host.little m (events.take 5)).decoder := by
  intro msg wire srv events m s
  have hunit : srv.FitsInt events := by
    refine ⟨by decide, ?_⟩
    intro n hn
    simp only [events, List.mem_cons, reduceCtorEq, Event.setRecvUnitSize.injEq, List.not_mem_nil,
      or_false, false_or] at hn
    rw [hn]
    decide
  have hunused (i : Fin 2) : (srv.task i).session.Unused :=
    (ScriptedPeer.fresh_connect _ _).toUnused
  have honce : ∀ i, ((srv.run Host.little m events).task i).session.HandledOnce := by
    decide +kernel
  obtain ⟨hbytes, honce_iff⟩ := bytes_conserved_iff Host.little m srv events hunit hunused
  refine ⟨by decide +kernel, (hbytes 0).1, ?_⟩
  exact honce_iff.mp honce (events.take 5) (.turn 0) (events.drop 6) rfl 0 rfl

/-- The empty frame is refused, and the next call presents it again. -/
theorem refused_frame_again :
    let hdr := MsgHdr.store Host.little ⟨magicWord, ![1, 1, 0, 0], 3, 0xFFFFFFF0⟩
    let srv : Server Unit (FlatBuffer 64) ScriptedPeer :=
      ⟨ScriptedPeer.decoder 16 64,
        fun _ => ⟨.idle, ScriptedPeer.connect ⟨hdr, [16]⟩ 64 (by decide)⟩⟩
    let events : List (Event Unit ScriptedPeer) := List.replicate 7 (.turn ())
    let m (_ : Unit) := ScriptedPeer.methods fun _ => false
    let s := ((srv.run Host.little m events).task ()).session
    s.passed = [⟨[], 0⟩, ⟨[], 0⟩] ∧ s.unread = hdr ∧ ¬ s.HandledOnce := by
  decide +kernel

end Server

end BabelTrader
