import BabelTrader.Dispatcher
import BabelTrader.MsgToBytesEncoder
import BabelTrader.Proof.SharedDecoder
import BabelTrader.ScriptedPeer

/-!
# What closing a session does not do

Frames are dispatched in the order in which they are passed on, each by its own message id. That the
session has been closed in between makes no difference: a callback is invoked for a later frame
whenever there is one for its id.
-/

namespace BabelTrader

open BytesBuffer BytesToMsgDecoder

variable {α β : Type} {host : Host} {dispatcher : Dispatcher (Callback α)}

/-- The histories of a session: every frame passed on has been given to `OnRead`, the frames given
after `Close` come after all others, and callbacks were invoked by message id alone. -/
structure Session.Logged (host : Host) (dispatcher : Dispatcher (Callback α))
    (s : Session β (Conn α)) : Prop where
  given : s.env.given.map Prod.fst = s.passed
  closed : ∃ before after, s.env.given = before ++ after ∧ (∀ p ∈ before, p.2 = false)
    ∧ (∀ p ∈ after, p.2 = true) ∧ (s.env.closed = false → after = [])
  invoked : (∀ frame ∈ s.passed, sizeofMsgHdr ≤ frame.data.length) →
    s.env.invoked = s.env.given.filter fun p => dispatcher.handles (MsgHdr.load host p.1.data)

section

variable [BytesBuffer β] {beyond : α → Bytes} {read : Conn α → (len : Nat) → ReadResult len × α}
  {d : BytesToMsgDecoder (Conn α)}

theorem Session.Fresh.logged {s : Session β (Conn α)} (hs : s.Fresh) {app : α}
    (henv : s.env = .start app) : s.Logged host dispatcher := by
  refine ⟨?_, ⟨[], [], ?_, ?_, ?_, fun _ => rfl⟩, fun _ => ?_⟩
  · rw [henv, hs.passed]
    rfl
  · rw [henv]
    rfl
  · intro p hp
    cases hp
  · intro p hp
    cases hp
  · rw [henv]
    rfl

theorem given_closed {given : List (Frame × Bool)} {closed closed' : Bool} (frame : Frame)
    (hclosed : closed = true → closed' = true)
    (h : ∃ before after, given = before ++ after ∧ (∀ p ∈ before, p.2 = false)
      ∧ (∀ p ∈ after, p.2 = true) ∧ (closed = false → after = [])) :
    ∃ before after, given ++ [(frame, closed)] = before ++ after ∧ (∀ p ∈ before, p.2 = false)
      ∧ (∀ p ∈ after, p.2 = true) ∧ (closed' = false → after = []) := by
  obtain ⟨before, after, rfl, hbefore, hafter, hopen⟩ := h
  cases closed with
  | false =>
      obtain rfl := hopen rfl
      refine ⟨before ++ [(frame, false)], [], by simp, ?_, hafter, fun _ => rfl⟩
      exact List.forall_mem_append.mpr ⟨hbefore, List.forall_mem_singleton.mpr rfl⟩
  | true =>
      refine ⟨before, after ++ [(frame, true)], by simp, hbefore, ?_, ?_⟩
      · exact List.forall_mem_append.mpr ⟨hafter, List.forall_mem_singleton.mpr rfl⟩
      · intro hfalse
        rw [hclosed rfl] at hfalse
        cases hfalse

variable (host dispatcher beyond) in
theorem onRead_cases (conn : Conn α) (frame : Frame) :
    (Conn.onRead host dispatcher beyond conn frame).2.given = conn.given ++ [(frame, conn.closed)]
      ∧ (conn.closed = true → (Conn.onRead host dispatcher beyond conn frame).2.closed = true)
      ∧ (sizeofMsgHdr ≤ frame.data.length →
        (Conn.onRead host dispatcher beyond conn frame).2.invoked
          = conn.invoked
            ++ [(frame, conn.closed)].filter
              fun p => dispatcher.handles (MsgHdr.load host p.1.data)) := by
  have hload (h : sizeofMsgHdr ≤ frame.data.length) :
      MsgHdr.load host frame.data = MsgHdr.load host (frame.data ++ beyond conn.app) :=
    (MsgHdr.load_append host _ h).symm
  cases hdispatch : dispatcher.dispatch (MsgHdr.load host (frame.data ++ beyond conn.app)) with
  | invoke cb =>
      simp only [Conn.onRead, hdispatch]
      refine ⟨trivial, fun hclosed => by rw [hclosed, Bool.true_or], fun h => ?_⟩
      simp [Dispatcher.handles, hload h, hdispatch]
  | noCallback =>
      simp only [Conn.onRead, hdispatch]
      refine ⟨trivial, id, fun h => ?_⟩
      simp [Dispatcher.handles, hload h, hdispatch]
  | close =>
      simp only [Conn.onRead, hdispatch]
      refine ⟨trivial, fun _ => trivial, fun h => ?_⟩
      simp [Dispatcher.handles, hload h, hdispatch]

theorem preserved_logged (hnext : d.next_ = none) :
    Preserved host d (Conn.methods host dispatcher beyond read)
      (Session.Logged (β := β) host dispatcher) where
  takesIn {s s' xs} hs _ htakes := by
    have henv : s'.env = { s.env with app := (read s.env d.recvUnitSize.toNat).2 } := htakes.env
    refine ⟨?_, ?_, ?_⟩
    · rw [henv, htakes.passed]
      exact hs.given
    · rw [henv]
      exact hs.closed
    · rw [henv, htakes.passed]
      exact hs.invoked
  handsOver {s s' xs frame} hs _ hhands := by
    have henv : s'.env = (Conn.onRead host dispatcher beyond s.env frame).2 := by
      rw [hhands.env, next, hnext]
      rfl
    obtain ⟨hgiven, hclosed, hinvoked⟩ :=
      onRead_cases host dispatcher beyond s.env frame
    refine ⟨?_, ?_, ?_⟩
    · rw [henv, hgiven, hhands.passed, List.map_append, hs.given]
      rfl
    · rw [henv, hgiven]
      exact given_closed frame hclosed hs.closed
    · rw [henv, hhands.passed]
      intro hheader
      have hframe := hheader frame (by simp)
      rw [hinvoked hframe, hgiven, List.filter_append,
        hs.invoked fun f hf => hheader f (List.mem_append_left _ hf)]

/-- **Closing does not silence a session.** In every state of every run, the frames passed on are
the frames given to the dispatcher: some before `Close` was called, and then those after it. Of
both, a callback was invoked for exactly the ones whose message id has one, in their order. So a
session is silent after `Close` iff no later frame has a message id with a callback. -/
theorem closing_does_not_silence [FifoContract β] (host : Host)
    (dispatcher : Dispatcher (Callback α)) (beyond : α → Bytes)
    (read : Conn α → (len : Nat) → ReadResult len × α) (d : BytesToMsgDecoder (Conn α))
    (s : Session β (Conn α)) (app : α) (t : Task β (Conn α))
    (hunit : d.recvUnitSize.toNat < 2 ^ 31) (hnext : d.next_ = none) (hs : s.Fresh)
    (henv : s.env = .start app)
    (ht : Task.Reachable host d (Conn.methods host dispatcher beyond read) s t)
    (hheader : ∀ frame ∈ t.session.passed, sizeofMsgHdr ≤ frame.data.length) :
    let handles (p : Frame × Bool) : Bool := dispatcher.handles (MsgHdr.load host p.1.data)
    ∃ before after, t.session.passed = (before ++ after).map Prod.fst
      ∧ t.session.env.given = before ++ after
      ∧ (∀ p ∈ before, p.2 = false) ∧ (∀ p ∈ after, p.2 = true)
      ∧ t.session.env.invoked = before.filter handles ++ after.filter handles
      ∧ ((∀ p ∈ t.session.env.invoked, p.2 = false) ↔ after.filter handles = []) := by
  intro handles
  have hlogged : t.session.Logged host dispatcher :=
    ht.preserves (preserved_logged hnext) hunit (hs.logged henv)
  obtain ⟨before, after, hgiven, hbefore, hafter, _⟩ := hlogged.closed
  have hinvoked := hlogged.invoked hheader
  rw [hgiven, List.filter_append] at hinvoked
  refine ⟨before, after, by rw [← hgiven, hlogged.given], hgiven, hbefore, hafter, hinvoked, ?_⟩
  rw [hinvoked]
  constructor
  · intro hsilent
    rw [List.eq_nil_iff_forall_not_mem]
    intro p hp
    have hfalse := hsilent p (List.mem_append_right _ hp)
    rw [hafter p (List.mem_of_mem_filter hp)] at hfalse
    cases hfalse
  · intro hnone p hp
    rw [hnone, List.append_nil] at hp
    exact hbefore p (List.mem_of_mem_filter hp)

end

/-! ### A message id without a slot, and then a ping -/

/-- A dispatcher of seven messages, with a callback for the ping that leaves everything as it is. -/
def pingDispatcher : Dispatcher (Callback ScriptedPeer) :=
  ((Dispatcher.new.setTotalMessage true 7).2.registerCallback 3
    (some fun app frame => ⟨app, false, frame.data, rfl⟩)).2

/-- The methods of a session that pings and is closed at message ids from seven on. -/
def pingMethods : Methods (Conn ScriptedPeer) :=
  Conn.methods Host.little pingDispatcher (fun _ => []) fun conn len => conn.app.read len

theorem closing_does_not_silence_script :
    let msg (id : UInt32) := (encoded Host.little (newStackMsg Host.little id 4)).data
    let d : BytesToMsgDecoder (Conn ScriptedPeer) := BytesToMsgDecoder.new
    let s : Session (FlatBuffer 32768) (Conn ScriptedPeer) :=
      Session.init (FlatBuffer.init 32768 (by decide)) (.start ⟨msg 3 ++ msg 9 ++ msg 3, [50, 10]⟩)
    ∃ (t : Session (FlatBuffer 32768) (Conn ScriptedPeer)) (before after : List (Frame × Bool)),
      Calls Host.little d pingMethods s [true, true] t ∧ t.passed = (before ++ after).map Prod.fst
        ∧ (∀ p ∈ before, p.2 = false) ∧ ∀ p ∈ after, p.2 = true := by
  intro msg d s
  have hrun : (d.decodeTimes Host.little pingMethods 4 s 2).map (fun r => (r.1, r.2.passed))
      = some ([true, true], [⟨msg 3, 20⟩, ⟨msg 9, 20⟩, ⟨msg 3, 20⟩]) := by decide +kernel
  obtain ⟨⟨_, t⟩, heval, hr⟩ := Option.map_eq_some_iff.mp hrun
  obtain ⟨rfl, hpassed⟩ := Prod.mk.inj hr
  have hcalls := calls_of_decodeTimes heval
  have hheader : ∀ frame ∈ t.passed, sizeofMsgHdr ≤ frame.data.length := by
    rw [hpassed]
    decide +kernel
  obtain ⟨before, after, hsplit, _, hbefore, hafter, _⟩ :=
    closing_does_not_silence Host.little pingDispatcher (fun _ => [])
      (fun conn len => conn.app.read len) d s _ ⟨.idle, t⟩ (by decide) rfl
      (Session.fresh_init (FlatBuffer.contents_init (by decide)) _) rfl
      (Task.reachable_of_calls hcalls) hheader
  exact ⟨t, before, after, hcalls, hsplit, hbefore, hafter⟩

/-- Message 9 closes the session, and the ping behind it in the same batch reaches its callback. -/
theorem ping_after_close :
    let msg (id : UInt32) := (encoded Host.little (newStackMsg Host.little id 4)).data
    let d : BytesToMsgDecoder (Conn ScriptedPeer) := BytesToMsgDecoder.new
    let s : Session (FlatBuffer 32768) (Conn ScriptedPeer) :=
      Session.init (FlatBuffer.init 32768 (by decide)) (.start ⟨msg 9 ++ msg 3, [40]⟩)
    ∃ t, Calls Host.little d pingMethods s [true] t
      ∧ ∃ p ∈ t.env.invoked, p.2 = true := by
  intro msg d s
  have hrun : (d.decodeTimes Host.little pingMethods 3 s 1).map (fun r => (r.1, r.2.env.invoked))
      = some ([true], [(⟨msg 3, 20⟩, true)]) := by decide +kernel
  obtain ⟨⟨_, t⟩, heval, hr⟩ := Option.map_eq_some_iff.mp hrun
  obtain ⟨rfl, hinvoked⟩ := Prod.mk.inj hr
  refine ⟨t, calls_of_decodeTimes heval, (⟨msg 3, 20⟩, true), ?_, rfl⟩
  rw [hinvoked]
  exact List.mem_singleton_self _

end BabelTrader
