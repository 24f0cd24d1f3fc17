import BabelTrader.Proof.DemoMessages
import BabelTrader.Proof.SharedDecoder
import BabelTrader.Proof.Segmentation

/-!
# From bytes to messages

Two sessions over a pair of sockets behave like two parties that send each other whole messages: the
passes of the two decoders, the pieces in which bytes arrive and the writes that fall short leave no
trace but which message is taken when, and from where on nothing is posted.
-/

namespace BabelTrader

open MachineWord Framing BytesBuffer BytesToMsgDecoder Mailbox

theorem Sendable.mono {host : Host} {limit limit' : UInt32} {msg : Bytes}
    (h : Sendable host limit msg) (hle : limit.toNat ≤ limit'.toNat) : Sendable host limit' msg :=
  ⟨h.header, Nat.le_trans h.limit hle, h.reversed1, h.reversed2⟩

/-! ### Sending -/

namespace Endpoint

variable {α κ : Type} {host : Host} {limit : UInt32} {sent : κ → Bytes} {down : κ → Prop}
  {e e' : Endpoint α κ} {passed : List Frame}

/-- What the socket has transferred is the accepted messages, and after a loss at most a part of one
frame more. -/
structure Sending (sent : κ → Bytes) (down : κ → Prop) (host : Host) (limit : UInt32)
    (e : Endpoint α κ) : Prop where
  sendable : ∀ msg ∈ e.accepted, Sendable host limit msg
  down : (e.lost || e.closed) = true → down e.ctx
  sent : ∃ torn, sent e.ctx = ((e.accepted.map (encoded host)).map Frame.data).flatten ++ torn
    ∧ Torn (front host limit) torn ∧ (e.lost = false → torn = [])

/-- `e` has performed some effects, and is now `e'`. -/
structure Performed (sent : κ → Bytes) (down : κ → Prop) (host : Host) (limit : UInt32)
    (e : Endpoint α κ) (effects : List Effect) (e' : Endpoint α κ) : Prop where
  sending : e'.Sending sent down host limit
  grows : sent e.ctx <+: sent e'.ctx
  arrived : e'.arrived = e.arrived
  performs : ∀ passed, Party.Performs (e.party host passed) (Effect.acts host effects)
    (e'.party host passed)

/-- After one more call of `SendMessage`. -/
def ask (e : Endpoint α κ) (msg : Bytes) (r : Bool × κ) : Endpoint α κ :=
  { e with ctx := r.2, asked := e.asked ++ [(msg, r.1)] }

theorem accepted_ask (msg : Bytes) (r : Bool × κ) :
    (e.ask msg r).accepted = e.accepted ++ if r.1 then [msg] else [] := by
  obtain ⟨ret, ctx⟩ := r
  rw [accepted, accepted, ask, List.filter_append, List.map_append]
  cases ret <;> rfl

theorem lost_ask (msg : Bytes) (r : Bool × κ) : (e.ask msg r).lost = (e.lost || !r.1) := by
  simp only [lost, ask, List.any_append, List.any_cons, List.any_nil, Bool.or_false]

theorem party_ask (msg : Bytes) (r : Bool × κ) :
    (e.ask msg r).party host passed
      = { e.party host passed with
          asked := (e.party host passed).asked ++ [encoded host msg]
          posted := (e.party host passed).posted ++ if r.1 then [encoded host msg] else []
          lost := e.lost || !r.1 } := by
  obtain ⟨ret, ctx⟩ := r
  unfold party
  rw [accepted_ask, lost_ask, ask, List.map_append, List.map_append]
  cases ret <;> rfl

theorem performs_ask (msg : Bytes) (r : Bool × κ)
    (hr : r.1 = true → e.lost = false ∧ e.closed = false) (passed : List Frame) :
    Party.Performs (e.party host passed) (Effect.acts host [.sendMessage msg])
      ((e.ask msg r).party host passed) := by
  obtain ⟨ret, ctx⟩ := r
  rw [party_ask]
  change Party.Performs _ [.send (encoded host msg)] _
  cases ret with
  | true =>
      obtain ⟨hlost, hclosed⟩ := hr rfl
      rw [if_pos rfl, hlost]
      have hparty : (e.party host passed).lost = false := hlost
      have hpost : Party.Performs (e.party host passed) [.send (encoded host msg)] _ :=
        .post hparty hclosed (.done _)
      rwa [hparty] at hpost
  | false =>
      rw [if_neg Bool.false_ne_true, List.append_nil, Bool.not_false, Bool.or_true]
      exact .lose (.done _)

theorem accepted_of_not_lost (h : e.lost = false) : e.accepted = e.asked.map Prod.fst := by
  rw [accepted, List.filter_eq_self.mpr]
  intro p hp
  have hret := List.any_eq_false.mp h p hp
  simpa using hret

theorem sending_start (app : α) {ctx : κ} (hctx : sent ctx = []) :
    (start app ctx).Sending sent down host limit where
  sendable msg hmsg := by cases hmsg
  down hlost := by cases hlost
  sent := ⟨[], hctx, Or.inl rfl, fun _ => rfl⟩

theorem Performed.refl (h : e.Sending sent down host limit) :
    Performed sent down host limit e [] e :=
  ⟨h, List.prefix_refl _, rfl, fun _ => .done _⟩

theorem Performed.trans {e'' : Endpoint α κ} {effects effects' : List Effect}
    (h : Performed sent down host limit e effects e')
    (h' : Performed sent down host limit e' effects' e'') :
    Performed sent down host limit e (effects ++ effects') e'' where
  sending := h'.sending
  grows := h.grows.trans h'.grows
  arrived := h'.arrived.trans h.arrived
  performs passed := by
    rw [Effect.acts, List.filterMap_append]
    exact (h.performs passed).trans (h'.performs passed)

/-- The application's own state is not what effects are about. -/
theorem Sending.withApp (h : e.Sending sent down host limit) (app : α) :
    { e with app := app }.Sending sent down host limit := ⟨h.sendable, h.down, h.sent⟩

section

variable [SocketContext κ] (hsocket : SocketContract sent down) (hlimit : limit.toNat < 2 ^ 31)
include hsocket

include hlimit in
/-- **One call of `SendMessage`.** -/
theorem performed_ask (h : e.Sending sent down host limit) {msg : Bytes}
    (hmsg : Sendable host limit msg) :
    Performed sent down host limit e [.sendMessage msg] (e.ask msg
      (Session.sendMessage (Session.encoderChain host) e.ctx msg (UInt32.ofNat msg.length))) := by
  have hmsg' : Sendable host 0x7FFFFFFF msg :=
    hmsg.mono (Nat.le_of_lt_succ (Nat.lt_of_lt_of_eq hlimit rfl))
  have hcases := Session.sendMessage_cases hsocket e.ctx hmsg'
  have hdead := fun hlost => Session.sendMessage_down hsocket hmsg' (h.down hlost)
  generalize Session.sendMessage (Session.encoderChain host) e.ctx msg (UInt32.ofNat msg.length) = r
    at hcases hdead
  obtain ⟨ret, ctx⟩ := r
  obtain ⟨torn, hsent, htorn, hwhole⟩ := h.sent
  have hrefused : ¬ (e.ask msg (false, ctx)).lost = false := by
    rw [lost_ask, Bool.not_false, Bool.or_true]
    exact Bool.noConfusion
  cases hsilent : e.lost || e.closed with
  | true =>
      obtain ⟨rfl, hdown, hsame⟩ := hdead hsilent
      have haccepted : (e.ask msg (false, ctx)).accepted = e.accepted :=
        (accepted_ask msg _).trans (List.append_nil _)
      refine ⟨⟨haccepted ▸ h.sendable, fun _ => hdown, torn, ?_, htorn, ?_⟩, ?_, rfl, ?_⟩
      · rw [haccepted]
        exact hsame.trans hsent
      · exact fun hno => absurd hno hrefused
      · exact (List.prefix_refl _).trans (hsame ▸ List.prefix_refl _)
      · exact performs_ask msg _ fun hret => absurd hret Bool.false_ne_true
  | false =>
      obtain ⟨hlost, hclosed⟩ := Bool.or_eq_false_iff.mp hsilent
      obtain rfl := hwhole hlost
      rw [List.append_nil] at hsent
      obtain ⟨rfl, hall⟩ | ⟨rfl, hdown, torn, hpre, hne, hpart⟩ := hcases
      · have haccepted : (e.ask msg (true, ctx)).accepted = e.accepted ++ [msg] :=
          accepted_ask msg _
        have hstill : ((e.ask msg (true, ctx)).lost || (e.ask msg (true, ctx)).closed) = false := by
          rw [lost_ask, hlost]
          exact hclosed
        refine ⟨⟨?_, ?_, [], ?_, Or.inl rfl, fun _ => rfl⟩, ?_, rfl, ?_⟩
        · rw [haccepted]
          exact List.forall_mem_append.mpr ⟨h.sendable, List.forall_mem_singleton.mpr hmsg⟩
        · intro hno
          rw [hstill] at hno
          cases hno
        · rw [haccepted, List.append_nil, List.map_append, List.map_append, List.flatten_append,
            ← hsent]
          exact hall.trans (by simp)
        · exact ⟨_, hall.symm⟩
        · exact performs_ask msg _ fun _ => ⟨hlost, hclosed⟩
      · have haccepted : (e.ask msg (false, ctx)).accepted = e.accepted :=
          (accepted_ask msg _).trans (List.append_nil _)
        have hlt : torn.length < (encoded host msg).data.length := by
          obtain hlt | heq := Nat.lt_or_eq_of_le hpre.length_le
          · exact hlt
          · exact absurd (hpre.eq_of_length heq) hne
        refine ⟨⟨haccepted ▸ h.sendable, fun _ => hdown, torn, ?_, ?_, ?_⟩, ⟨_, hpart.symm⟩, rfl,
          ?_⟩
        · rw [haccepted, ← hsent]
          exact hpart
        · exact Or.inr ⟨_, hmsg.whole, hpre, hlt⟩
        · exact fun hno => absurd hno hrefused
        · exact performs_ask msg _ fun hret => absurd hret Bool.false_ne_true

theorem performed_close (h : e.Sending sent down host limit) :
    Performed sent down host limit e [.close] (e.perform host .close) where
  sending :=
    ⟨h.sendable, fun _ => hsocket.down_shutdown _, by
      obtain ⟨torn, hsent, htorn, hwhole⟩ := h.sent
      exact ⟨torn, (hsocket.sent_shutdown _).trans hsent, htorn, hwhole⟩⟩
  grows := by
    change sent e.ctx <+: sent (SocketContext.shutdown e.ctx)
    rw [hsocket.sent_shutdown]
  arrived := rfl
  performs passed := .close (.done _)

include hlimit in
theorem performed_perform (h : e.Sending sent down host limit) {effect : Effect}
    (hmsg : ∀ msg, effect = .sendMessage msg → Sendable host limit msg) :
    Performed sent down host limit e [effect] (e.perform host effect) := by
  cases effect with
  | sendMessage msg => exact performed_ask hsocket hlimit h (hmsg msg rfl)
  | close => exact performed_close hsocket h
  | updateActiveTime => exact ⟨h, List.prefix_refl _, rfl, fun _ => .done _⟩
  | detach => exact ⟨h, List.prefix_refl _, rfl, fun _ => .done _⟩

include hlimit in
/-- **One reaction of the application.** -/
theorem performed_react (h : e.Sending sent down host limit) {reaction : List Effect × α}
    (hmsgs : ∀ msg, .sendMessage msg ∈ reaction.1 → Sendable host limit msg) :
    Performed sent down host limit { e with app := reaction.2 } reaction.1
      (e.react host reaction) := by
  obtain ⟨effects, app⟩ := reaction
  have hfold {e : Endpoint α κ} (h : e.Sending sent down host limit) :
      Performed sent down host limit e effects (effects.foldl (perform host) e) := by
    induction effects generalizing e with
    | nil => exact .refl h
    | cons effect effects ih =>
        have hfirst := performed_perform hsocket hlimit h
          fun msg heffect => hmsgs msg (heffect ▸ List.mem_cons_self)
        exact hfirst.trans
          (ih (fun msg hmsg => hmsgs msg (List.mem_cons_of_mem _ hmsg)) hfirst.sending)
  exact hfold (h.withApp app)

end

end Endpoint

/-! ### Receiving -/

namespace Endpoint

variable {α κ : Type}

theorem read_eq (e : Endpoint α κ) (len : Nat) :
    ∃ rest, (e.read len).2 = { e with arrived := rest }
      ∧ (e.read len).1.stored ++ rest = e.arrived := by
  unfold read
  by_cases hpos : 0 < (e.arrived.take (min len (2 ^ 31 - 1))).length
  · simp only [dif_pos hpos]
    exact ⟨_, rfl, List.take_append_drop _ _⟩
  · simp only [dif_neg hpos]
    exact ⟨_, rfl, rfl⟩

end Endpoint

section Receiving

variable {α α' τ β κ : Type} [BytesBuffer β] {host : Host} {limit : UInt32} {wire : Bytes}
  {sent : κ → Bytes} {down : κ → Prop} {s s' : Session β (Endpoint α κ)} {peer : Endpoint α' κ}

/-- What has arrived is the beginning of what the other side has sent. -/
structure Session.Receiving (host : Host) (limit : UInt32) (wire : Bytes)
    (s : Session β (Endpoint α κ)) : Prop where
  framed : s.Framed host limit
  begins : s.received ++ s.env.arrived <+: wire
  hasBuffer : ∃ xs, s.Holds xs

theorem Session.Receiving.mono {wire' : Bytes} (h : s.Receiving host limit wire)
    (hwire : wire <+: wire') : s.Receiving host limit wire' :=
  ⟨h.framed, h.begins.trans hwire, h.hasBuffer⟩

/-- **The frames passed on** are the first of the messages that the other side's socket has
accepted, and of those still to come nothing is lost. -/
theorem Session.Receiving.passed_begins (h : s.Receiving host limit (sent peer.ctx))
    (hpeer : peer.Sending sent down host limit) :
    ∃ later torn, peer.accepted.map (encoded host) = s.passed ++ later
      ∧ Torn (front host limit) torn ∧ (peer.lost = false → torn = [])
      ∧ (∀ frame ∈ later, Whole (front host limit) frame.data)
      ∧ s.unread ++ (sent peer.ctx).drop s.received.length
        = (later.map Frame.data).flatten ++ torn := by
  obtain ⟨torn, hsent, htorn, hnone⟩ := hpeer.sent
  obtain ⟨ys, hys⟩ := (List.prefix_append _ _).trans h.begins
  have hwhole := Session.Underway.whole hpeer.sendable
  have hdrop : (sent peer.ctx).drop s.received.length = ys := by rw [← hys, List.drop_left]
  obtain ⟨left, hframes, hleft⟩ := h.framed.cuts.of_torn (front_stable host limit) hwhole htorn
    (hys.trans hsent)
  -- the frames as the bytes of their data, then as frames
  have htake : s.passed.map Frame.data
      = ((peer.accepted.take s.passed.length).map (encoded host)).map Frame.data := by
    rw [List.map_take, List.map_take, hframes, List.take_left' (List.length_map _)]
  have hpassed := Session.Underway.passed_of_data h.framed
    (fun msg hmsg => hpeer.sendable msg (List.mem_of_mem_take hmsg)) htake
  have hlater : left
      = ((peer.accepted.drop s.passed.length).map (encoded host)).map Frame.data := by
    rw [List.map_drop, List.map_drop, hframes, List.drop_left' (List.length_map _)]
  refine ⟨(peer.accepted.drop s.passed.length).map (encoded host), torn, ?_, htorn, hnone, ?_, ?_⟩
  · calc peer.accepted.map (encoded host)
      _ = (peer.accepted.take s.passed.length).map (encoded host)
          ++ (peer.accepted.drop s.passed.length).map (encoded host) := by
        rw [← List.map_append, List.take_append_drop]
      _ = s.passed ++ (peer.accepted.drop s.passed.length).map (encoded host) := by
        rw [← hpassed]
  · intro frame hframe
    obtain ⟨msg, hmsg, rfl⟩ := List.mem_map.mp hframe
    exact (hpeer.sendable msg (List.mem_of_mem_drop hmsg)).whole
  · rw [hdrop, hleft, hlater]

end Receiving

/-! ### One move -/

/-- What the two processes are set up with: the session itself handles what the decoder passes on,
a receive unit and a limit that fit an `int`, and an application that sends what the other process
takes. -/
structure Process.Prepared {α τ κ : Type} (host : Host) (peerLimit : UInt32) (p : Process α τ κ) :
    Prop where
  next_ : p.decoder.next_ = none
  unit : p.decoder.recvUnitSize.toNat < 2 ^ 31
  limit : p.decoder.msgLenLimit.toNat < 2 ^ 31
  sends : p.app.Sends host peerLimit

section Moves

variable {α α' τ τ' β κ : Type} [BytesBuffer β] [FifoContract β] [SocketContext κ] {host : Host}
  {sent : κ → Bytes} {down : κ → Prop} {p : Process α τ κ} {peerLimit : UInt32}
  {t t' : Task β (Endpoint α κ)} {wire : Bytes}

/-- What one move does to a task: it goes on with what it has sent and received, and makes a move in
the conversation, or none. What arrives is taken from the wire. -/
structure Process.Moved (sent : κ → Bytes) (down : κ → Prop) (host : Host) (p : Process α τ κ)
    (peerLimit : UInt32) (wire : Bytes) (t t' : Task β (Endpoint α κ)) : Prop where
  sending : t'.session.env.Sending sent down host peerLimit
  grows : sent t.session.env.ctx <+: sent t'.session.env.ctx
  framed : t'.session.Framed host p.decoder.msgLenLimit
  hasBuffer : ∃ xs, t'.session.Holds xs
  arrives : t'.session.received ++ t'.session.env.arrived
      = t.session.received ++ t.session.env.arrived
    ∨ ∃ n, t'.session.received ++ t'.session.env.arrived
      = t.session.received ++ (wire.drop t.session.received.length).take n
  moves : t'.party host = t.party host
    ∨ Party.Moves (p.app.behaviour host) t'.session.passed (t.party host) (t'.party host)

omit [FifoContract β] [SocketContext κ] in
theorem Process.moved_env {e : Endpoint α κ} {phase : Phase}
    (hsending : e.Sending sent down host peerLimit)
    (hsent : sent t.session.env.ctx <+: sent e.ctx)
    (hframed : t.session.Framed host p.decoder.msgLenLimit) (hbuf : ∃ xs, t.session.Holds xs)
    (harrived : e.arrived = t.session.env.arrived
      ∨ ∃ n, e.arrived = (wire.drop t.session.received.length).take n)
    (hmoves : e.party host t.session.passed = t.party host
      ∨ Party.Moves (p.app.behaviour host) t.session.passed (t.party host)
        (e.party host t.session.passed)) :
    p.Moved sent down host peerLimit wire t
      { phase := phase, session := { t.session with env := e } } where
  sending := hsending
  grows := hsent
  framed := ⟨hframed.cuts, hframed.length_eq⟩
  hasBuffer := hbuf
  arrives := harrived.imp (congrArg _) fun ⟨n, hn⟩ => ⟨n, congrArg _ hn⟩
  moves := hmoves

variable (hsocket : SocketContract sent down) (hp : p.Prepared host peerLimit)
  (hpeerLimit : peerLimit.toNat < 2 ^ 31)
include hsocket hp hpeerLimit

theorem Process.moved_turn (hsending : t.session.env.Sending sent down host peerLimit)
    (hframed : t.session.Framed host p.decoder.msgLenLimit) (hbuf : ∃ xs, t.session.Holds xs) :
    p.Moved sent down host peerLimit wire t
      (t.step host p.decoder (Endpoint.methods host p.app)) := by
  obtain ⟨xs, hxs⟩ := id hbuf
  have hpreserved : Preserved host p.decoder (Endpoint.methods host p.app)
      (Session.Framed (β := β) host p.decoder.msgLenLimit) := preserved_framed
  generalize hstep : t.step host p.decoder (Endpoint.methods host p.app) = t'
  obtain hsame | htakes | ⟨frame, hhands⟩ :=
    Task.step_cases host (Endpoint.methods host p.app) hp.unit hxs
  · rw [hstep] at hsame
    refine ⟨hsame ▸ hsending, hsame ▸ List.prefix_refl _, hsame ▸ hframed, hsame ▸ hbuf,
      Or.inl (hsame ▸ rfl), Or.inl ?_⟩
    rw [Task.party, hsame]
    rfl
  · rw [hstep] at htakes
    obtain ⟨rest, hread, hstored⟩ :=
      t.session.env.read_eq p.decoder.recvUnitSize.toNat
    have henv : t'.session.env = { t.session.env with arrived := rest } := htakes.env.trans hread
    refine ⟨?_, ?_, hpreserved.takesIn hframed hxs htakes, htakes.hasBuffer, Or.inl ?_, Or.inl ?_⟩
    · rw [henv]
      exact ⟨hsending.sendable, hsending.down, hsending.sent⟩
    · rw [henv]
    · rw [htakes.received, henv, List.append_assoc, ← hstored]
      rfl
    · rw [Task.party, henv, htakes.passed]
      rfl
  · rw [hstep] at hhands
    have henv : t'.session.env
        = t.session.env.react host
          (p.app.onRead t.session.env.app (frame.data ++ t.session.env.beyond)) := by
      rw [hhands.env, BytesToMsgDecoder.next, hp.next_]
      rfl
    have hperformed := Endpoint.performed_react hsocket hpeerLimit hsending
      (hp.sends.onRead t.session.env.app (frame.data ++ t.session.env.beyond))
    rw [← henv] at hperformed
    refine ⟨hperformed.sending, hperformed.grows, hpreserved.handsOver hframed hxs hhands,
      hhands.hasBuffer, Or.inl ?_, Or.inr ?_⟩
    · rw [hhands.received, hperformed.arrived]
    · have hmoves : Party.Moves (p.app.behaviour host) (t.session.passed ++ [frame])
          (t.party host) (t'.session.env.party host (t.session.passed ++ [frame])) :=
        .receive (List.prefix_refl _) ⟨t.session.env.beyond, rfl, rfl⟩
          (hperformed.performs (t.session.passed ++ [frame]))
      rwa [← hhands.passed] at hmoves

variable (wire) in
/-- **The refinement, move by move.** -/
theorem Process.moved (hsending : t.session.env.Sending sent down host peerLimit)
    (hframed : t.session.Framed host p.decoder.msgLenLimit) (hbuf : ∃ xs, t.session.Holds xs)
    (move : Move τ) : p.Moved sent down host peerLimit wire t (p.move host wire t move) := by
  cases move with
  | turn => exact moved_turn hsocket hp hpeerLimit hsending hframed hbuf
  | event event =>
      cases hphase : t.phase with
      | idle =>
          simp only [Process.move, hphase]
          have hperformed := Endpoint.performed_react hsocket hpeerLimit hsending
            (hp.sends.onEvent t.session.env.app event)
          exact Process.moved_env hperformed.sending hperformed.grows hframed hbuf
            (Or.inl hperformed.arrived)
            (Or.inr (.act ⟨event, rfl, rfl⟩ (hperformed.performs t.session.passed)))
      | reading =>
          simp only [Process.move, hphase]
          exact ⟨hsending, List.prefix_refl _, hframed, hbuf, Or.inl rfl, Or.inl rfl⟩
      | parsing =>
          simp only [Process.move, hphase]
          exact ⟨hsending, List.prefix_refl _, hframed, hbuf, Or.inl rfl, Or.inl rfl⟩
  | arrive n =>
      exact Process.moved_env ⟨hsending.sendable, hsending.down, hsending.sent⟩
        (List.prefix_refl _) hframed hbuf (Or.inr ⟨n, rfl⟩) (Or.inl rfl)
  | shutdown =>
      refine Process.moved_env ⟨hsending.sendable, fun _ => hsocket.down_shutdown _, ?_⟩ ?_
        hframed hbuf (Or.inl rfl) (Or.inl rfl)
      · rw [hsocket.sent_shutdown]
        exact hsending.sent
      · rw [hsocket.sent_shutdown]
  | scribble bytes =>
      exact Process.moved_env ⟨hsending.sendable, hsending.down, hsending.sent⟩
        (List.prefix_refl _) hframed hbuf (Or.inl rfl) (Or.inl rfl)

omit [FifoContract β] [SocketContext κ] hsocket hp hpeerLimit in
/-- What has arrived from a wire is the beginning of it. -/
theorem Process.Moved.begins (h : p.Moved sent down host peerLimit wire t t')
    (hbegins : t.session.received ++ t.session.env.arrived <+: wire) :
    t'.session.received ++ t'.session.env.arrived <+: wire := by
  obtain hsame | ⟨n, harrived⟩ := h.arrives
  · rwa [hsame]
  · obtain ⟨ys, hys⟩ := (List.prefix_append _ _).trans hbegins
    rw [harrived, ← hys, List.drop_left, List.prefix_append_right_inj]
    exact List.take_prefix n ys

omit [FifoContract β] [SocketContext κ] hsocket hp hpeerLimit in
/-- On the wire from a peer that is a session of its own, the move is one that takes what the peer
has posted. -/
theorem Process.Moved.moves_peer {peer : Endpoint α' κ}
    (h : p.Moved sent down host peerLimit (sent peer.ctx) t t')
    (hreceiving : t'.session.Receiving host p.decoder.msgLenLimit (sent peer.ctx))
    (hpeer : peer.Sending sent down host p.decoder.msgLenLimit) :
    t'.party host = t.party host
      ∨ Party.Moves (p.app.behaviour host) (peer.accepted.map (encoded host)) (t.party host)
        (t'.party host) := by
  obtain ⟨later, _, hbegins, _⟩ := hreceiving.passed_begins hpeer
  exact h.moves.imp_right fun hmoves => hmoves.mono ⟨later, hbegins.symm⟩

end Moves

/-! ### Where a call of `Decode` stops -/

section Stops

variable {α α' τ β κ : Type} [BytesBuffer β] [FifoContract β] [SocketContext κ] {host : Host}
  {sent : κ → Bytes} {down : κ → Prop} {p : Process α τ κ} {s : Session β (Endpoint α κ)}
  {peer : Endpoint α' κ}

/-- `Decode` does not return `false` here, and if it returns when all that was sent has been read,
then every message accepted by the other side has been passed on. -/
def Process.Complete (host : Host) (sent : κ → Bytes) (p : Process α τ κ) (peer : Endpoint α' κ)
    (s : Session β (Endpoint α κ)) : Prop :=
  ∀ exit s', p.decoder.parsePass host (Endpoint.methods host p.app) s = .leave (exit, s') →
    exit = .incomplete ∧ s' = s
      ∧ (s.received = sent peer.ctx →
        s.passed = peer.accepted.map (encoded host) ∧ (peer.lost = false → s.unread = []))

/-- The parse loop of `Decode` has come to its end. -/
def Process.Stopped (host : Host) (p : Process α τ κ) (s : Session β (Endpoint α κ)) : Prop :=
  ∃ exit s', p.decoder.parsePass host (Endpoint.methods host p.app) s = .leave (exit, s')

instance (host : Host) (p : Process α τ κ) (s : Session β (Endpoint α κ)) :
    Decidable (p.Stopped host s) :=
  match h : p.decoder.parsePass host (Endpoint.methods host p.app) s with
  | .leave r => .isTrue ⟨r.1, r.2, h⟩
  | .again _ => .isFalse fun ⟨_, _, hleave⟩ => by
      rw [h] at hleave
      cases hleave

theorem Process.complete (hnext : p.decoder.next_ = none)
    (h : s.Receiving host p.decoder.msgLenLimit (sent peer.ctx))
    (hpeer : peer.Sending sent down host p.decoder.msgLenLimit) :
    p.Complete host sent peer s := by
  obtain ⟨xs, hxs⟩ := h.hasBuffer
  obtain ⟨later, torn, hposted, htorn, hnone, hwhole, hleft⟩ := h.passed_begins hpeer
  have hstable := front_stable host p.decoder.msgLenLimit
  have hwhole' : ∀ data ∈ later.map Frame.data, Whole (front host p.decoder.msgLenLimit) data := by
    intro data hdata
    obtain ⟨frame, hframe, rfl⟩ := List.mem_map.mp hdata
    exact hwhole frame hframe
  rw [hxs.unread_eq] at hleft
  intro exit s' hleave
  obtain ⟨hmore, hpass⟩ | ⟨why, hbad, _⟩ | ⟨frame, s'', _, hpass⟩ :=
    parsePass_cases host p.decoder (Endpoint.methods host p.app) hxs
  · rw [hpass] at hleave
    cases hleave
    refine ⟨rfl, rfl, fun hall => ?_⟩
    rw [hall, List.drop_length, List.append_nil] at hleft
    cases later with
    | nil =>
        rw [List.append_nil] at hposted
        refine ⟨hposted.symm, fun hlost => ?_⟩
        rw [hxs.unread_eq, hleft, hnone hlost]
        rfl
    | cons frame later =>
        -- a frame that has arrived whole would have been cut off
        have hframe := hstable.frame ((later.map Frame.data).flatten ++ torn)
          (hwhole frame List.mem_cons_self)
        rw [← List.append_assoc, ← List.flatten_cons, ← List.map_cons, ← hleft, hmore] at hframe
        cases hframe
  · obtain hmore | ⟨_, _, _, _, hframe⟩ := front_cases hstable hwhole' htorn ⟨_, hleft⟩
    · rw [hbad] at hmore
      cases hmore
    · rw [hbad] at hframe
      cases hframe
  · have hret : (p.decoder.next (Endpoint.methods host p.app) s.env frame).1.ret = true := by
      rw [BytesToMsgDecoder.next, hnext]
      rfl
    rw [hpass, if_pos hret] at hleave
    cases hleave

end Stops

/-! ### Whole runs -/

namespace Connection

variable {α α' τ τ' β κ : Type} [BytesBuffer β] {host : Host} {sent : κ → Bytes} {down : κ → Prop}
  {client : Process α τ κ} {server : Process α' τ' κ} {conn : Connection α α' β κ}

/-- Each side has transferred what it was accepted, and each has received a beginning of what the
other has transferred. -/
structure Joined (sent : κ → Bytes) (down : κ → Prop) (host : Host) (client : Process α τ κ)
    (server : Process α' τ' κ) (conn : Connection α α' β κ) : Prop where
  clientSends : conn.client.session.env.Sending sent down host server.decoder.msgLenLimit
  serverSends : conn.server.session.env.Sending sent down host client.decoder.msgLenLimit
  clientReceives : conn.client.session.Receiving host client.decoder.msgLenLimit
    (sent conn.server.session.env.ctx)
  serverReceives : conn.server.session.Receiving host server.decoder.msgLenLimit
    (sent conn.client.session.env.ctx)

theorem receiving_start {limit : UInt32} {buf : β} (hbuf : contents buf = []) (app : α) (ctx : κ)
    (wire : Bytes) : (Session.init buf (Endpoint.start app ctx)).Receiving host limit wire where
  framed := (Session.fresh_init hbuf _).toUnused.framed
  begins := List.nil_prefix
  hasBuffer := ⟨[], (Session.fresh_init hbuf _).holds⟩

theorem joined_start {app : α} {app' : α'} {buf buf' : β} {ctx ctx' : κ}
    (hbuf : contents buf = []) (hbuf' : contents buf' = []) (hctx : sent ctx = [])
    (hctx' : sent ctx' = []) :
    (start app app' buf buf' ctx ctx').Joined sent down host client server :=
  ⟨Endpoint.sending_start app hctx, Endpoint.sending_start app' hctx',
    receiving_start hbuf app ctx _, receiving_start hbuf' app' ctx' _⟩

variable [FifoContract β] [SocketContext κ] (hsocket : SocketContract sent down)
  (hclient : client.Prepared host server.decoder.msgLenLimit)
  (hserver : server.Prepared host client.decoder.msgLenLimit)
include hsocket hclient hserver

theorem Joined.step (h : conn.Joined sent down host client server) (turn : Turn τ τ') :
    (conn.step host sent client server turn).Joined sent down host client server
      ∧ ((conn.step host sent client server turn).config host = conn.config host
        ∨ Mailbox.Step (client.app.behaviour host) (server.app.behaviour host) (conn.config host)
          ((conn.step host sent client server turn).config host)) := by
  cases turn with
  | client move =>
      have hmoved := Process.moved (sent conn.server.session.env.ctx) hsocket hclient hserver.limit
        h.clientSends h.clientReceives.framed h.clientReceives.hasBuffer move
      have hreceiving : Session.Receiving _ _ _ _ :=
        ⟨hmoved.framed, hmoved.begins h.clientReceives.begins, hmoved.hasBuffer⟩
      refine ⟨⟨hmoved.sending, h.serverSends, hreceiving, h.serverReceives.mono hmoved.grows⟩, ?_⟩
      obtain hsame | hmoves := hmoved.moves_peer hreceiving h.serverSends
      · left
        simp only [config, Connection.step, hsame]
      · exact Or.inr (.left hmoves)
  | server move =>
      have hmoved := Process.moved (sent conn.client.session.env.ctx) hsocket hserver hclient.limit
        h.serverSends h.serverReceives.framed h.serverReceives.hasBuffer move
      have hreceiving : Session.Receiving _ _ _ _ :=
        ⟨hmoved.framed, hmoved.begins h.serverReceives.begins, hmoved.hasBuffer⟩
      refine ⟨⟨h.clientSends, hmoved.sending, h.clientReceives.mono hmoved.grows, hreceiving⟩, ?_⟩
      obtain hsame | hmoves := hmoved.moves_peer hreceiving h.clientSends
      · left
        simp only [config, Connection.step, hsame]
      · exact Or.inr (.right hmoves)

theorem Joined.run (h : conn.Joined sent down host client server) (turns : List (Turn τ τ')) :
    (conn.run host sent client server turns).Joined sent down host client server
      ∧ Mailbox.Reaches (client.app.behaviour host) (server.app.behaviour host) (conn.config host)
        ((conn.run host sent client server turns).config host) := by
  induction turns generalizing conn with
  | nil => exact ⟨h, .refl⟩
  | cons turn turns ih =>
      obtain ⟨hnext, hstep⟩ := h.step hsocket hclient hserver turn
      obtain ⟨hjoined, hreaches⟩ := ih hnext
      refine ⟨hjoined, ?_⟩
      obtain hsame | hstep := hstep
      · rwa [hsame] at hreaches
      · exact .head hstep hreaches

end Connection

/-- **Bytes refine messages.** For any two applications that send what the other side takes, every
run of the two sessions, their decoders and their sockets is a conversation in whole messages: each
side takes messages that the other side's socket has accepted, in their order, each once. -/
theorem connection_refines {α α' τ τ' β κ : Type} [BytesBuffer β] [FifoContract β]
    [SocketContext κ] (host : Host) (sent : κ → Bytes) (down : κ → Prop)
    (client : Process α τ κ) (server : Process α' τ' κ) (app : α) (app' : α') (buf buf' : β)
    (ctx ctx' : κ) (turns : List (Turn τ τ')) (hsocket : SocketContract sent down)
    (hclient : client.Prepared host server.decoder.msgLenLimit)
    (hserver : server.Prepared host client.decoder.msgLenLimit)
    (hbuf : contents buf = []) (hbuf' : contents buf' = [])
    (hctx : sent ctx = []) (hctx' : sent ctx' = []) :
    Mailbox.Reaches (client.app.behaviour host) (server.app.behaviour host)
      ⟨.start app, .start app'⟩
      (((Connection.start app app' buf buf' ctx ctx').run host sent client server turns).config
        host) :=
  ((Connection.joined_start hbuf hbuf' hctx hctx').run hsocket hclient hserver turns).2

/-! A login, over sockets that take each message whole. -/

theorem prepared_runTcpClient (host : Host) {κ : Type} {limit : UInt32}
    (hlimit : 88 ≤ limit.toNat) : (runTcpClient host : Process _ _ κ).Prepared host limit :=
  ⟨rfl, show (1024 * 16 : UInt32).toNat < 2 ^ 31 by decide,
    show (1024 * 64 : UInt32).toNat < 2 ^ 31 by decide, tcpClient_sends host hlimit⟩

theorem prepared_runTcpServer (host : Host) {κ : Type} {limit : UInt32}
    (hlimit : 28 ≤ limit.toNat) : (runTcpServer host : Process _ _ κ).Prepared host limit :=
  ⟨rfl, show (1024 * 16 : UInt32).toNat < 2 ^ 31 by decide,
    show (1024 * 64 : UInt32).toNat < 2 ^ 31 by decide, tcpServer_sends host hlimit⟩

def loginTurns : List (Turn ClientEvent Empty) :=
  [.client (.event (.addCtx 0)), .server (.arrive 68), .server .turn, .server .turn, .server .turn,
    .server .turn, .client (.arrive 21), .client .turn, .client .turn, .client .turn, .client .turn]

def beforeLogin : Connection (Option TcpClientSession) TcpServerSession (FlatBuffer 32768)
    ScriptedSocket :=
  .start none .new (.init 32768 (by decide)) (.init 32768 (by decide)) ⟨[68], [], false⟩
    ⟨[21], [], false⟩

theorem connection_refines_login :
    let conn := beforeLogin.run Host.little ScriptedSocket.sent (runTcpClient Host.little)
      (runTcpServer Host.little) loginTurns
    conn.client.session.env.app = some ⟨1, true⟩
      ∧ Mailbox.Reaches ((tcpClient Host.little).behaviour Host.little)
        ((tcpServer Host.little).behaviour Host.little) ⟨.start none, .start .new⟩
        (conn.config Host.little) :=
  ⟨by decide +kernel,
    connection_refines Host.little ScriptedSocket.sent (fun ctx => ctx.down = true)
      (runTcpClient Host.little) (runTcpServer Host.little) none .new _ _ _ _ loginTurns
      ScriptedSocket.contract (prepared_runTcpClient _ (by decide))
      (prepared_runTcpServer _ (by decide)) (FlatBuffer.contents_init (by decide))
      (FlatBuffer.contents_init (by decide)) rfl rfl⟩

/-- **Nothing is rejected and nothing stays behind.** In every state of every such run, `Decode`
does not return `false`, and where it returns with all that was sent read, every message that the
other side's socket has accepted has been handled. -/
theorem connection_complete {α α' τ τ' β κ : Type} [BytesBuffer β] [FifoContract β]
    [SocketContext κ] (host : Host) (sent : κ → Bytes) (down : κ → Prop)
    (client : Process α τ κ) (server : Process α' τ' κ) (app : α) (app' : α') (buf buf' : β)
    (ctx ctx' : κ) (turns : List (Turn τ τ')) (hsocket : SocketContract sent down)
    (hclient : client.Prepared host server.decoder.msgLenLimit)
    (hserver : server.Prepared host client.decoder.msgLenLimit)
    (hbuf : contents buf = []) (hbuf' : contents buf' = [])
    (hctx : sent ctx = []) (hctx' : sent ctx' = []) :
    let conn := (Connection.start app app' buf buf' ctx ctx').run host sent client server turns
    client.Complete host sent conn.server.session.env conn.client.session
      ∧ server.Complete host sent conn.client.session.env conn.server.session := by
  intro conn
  obtain ⟨hjoined, _⟩ :=
    (Connection.joined_start hbuf hbuf' hctx hctx').run hsocket hclient hserver turns
  exact ⟨Process.complete hclient.next_ hjoined.clientReceives hjoined.serverSends,
    Process.complete hserver.next_ hjoined.serverReceives hjoined.clientSends⟩

theorem connection_complete_login :
    let conn := beforeLogin.run Host.little ScriptedSocket.sent (runTcpClient Host.little)
      (runTcpServer Host.little) loginTurns
    conn.server.session.passed.length = 1
      ∧ (runTcpServer Host.little).Complete Host.little ScriptedSocket.sent conn.client.session.env
        conn.server.session :=
  ⟨by decide +kernel,
    (connection_complete Host.little ScriptedSocket.sent (fun ctx => ctx.down = true)
      (runTcpClient Host.little) (runTcpServer Host.little) none .new _ _ _ _ loginTurns
      ScriptedSocket.contract (prepared_runTcpClient _ (by decide))
      (prepared_runTcpServer _ (by decide)) (FlatBuffer.contents_init (by decide))
      (FlatBuffer.contents_init (by decide)) rfl rfl).2⟩

end BabelTrader
