import BabelTrader.Proof.Transport

/-!
# A client and a server in conversation

The example client against the example server, whole messages at a time. What the client asks is a
plan it keeps to by itself, what the server does to requests of such a plan is answer them, and the
order of the messages does the rest.
-/

namespace BabelTrader

open MachineWord BytesBuffer Mailbox

/-! ### The client's plan -/

namespace Planned

variable {session_ : Option TcpClientSession} {session : TcpClientSession} {reqs : List Request}

theorem none : Planned none [] where
  small req hreq := by cases hreq
  start _ := rfl
  login _ h := by cases h
  ids := rfl
  reqId _ h := by cases h
  sums _ h := by cases h

/-- One more request that is not a login. -/
theorem concat (h : Planned (some session) reqs) (req : Request) (hsmall : req.Small)
    (hlogin : req.isLogin = false) (hid : req.id? = .none ∨ req.id? = some session.reqId)
    (hauth : req.needsLogin = true → session.isLogined = true) :
    Planned (some { session with
      reqId := if req.id? = .none then session.reqId else session.reqId + 1 }) (reqs ++ [req]) := by
  have hreqId := h.reqId session rfl
  obtain ⟨first, rest, hreqs, hfirst, hrest⟩ := h.login session rfl
  refine ⟨List.forall_mem_append.mpr ⟨h.small, List.forall_mem_singleton.mpr hsmall⟩,
    fun hnone => absurd hnone (Option.some_ne_none _), ?_, ?_, ?_, ?_⟩
  · rintro _ -
    refine ⟨first, rest ++ [req], by rw [hreqs, List.cons_append], hfirst, ?_⟩
    exact List.forall_mem_append.mpr ⟨hrest, List.forall_mem_singleton.mpr hlogin⟩
  · obtain hid | hid := hid
    · simpa [List.filterMap_append, hid] using h.ids
    · rw [hreqId] at hid
      simp only [List.filterMap_append, List.filterMap_cons, hid, List.filterMap_nil,
        List.length_append, List.length_cons, List.length_nil, Nat.zero_add, List.range_succ,
        List.map_append, List.map_cons, List.map_nil]
      rw [← h.ids]
  · rintro _ hsome
    cases hsome
    obtain hid | hid := hid
    · simpa [List.filterMap_append, hid] using hreqId
    · simp only [List.filterMap_append, List.filterMap_cons, hid, List.filterMap_nil,
        List.length_append, List.length_cons, List.length_nil, Nat.zero_add, reduceCtorEq,
        if_false]
      rw [hreqId, UInt32.ofNat_add]
      rfl
  · rintro _ hsome
    cases hsome
    exact List.forall_mem_append.mpr ⟨h.sums session rfl, List.forall_mem_singleton.mpr hauth⟩

/-- **The client keeps to its plan.** -/
theorem next (h : Planned session_ reqs) (event : ClientEvent) :
    Planned (clientNext session_ event) (reqs ++ clientRequests session_ event) := by
  cases session_ with
  | none =>
      obtain rfl := h.start rfl
      cases event with
      | timer => exact h
      | addCtx rand =>
          rw [List.nil_append]
          refine ⟨fun req hreq => clientRequests_small hreq,
            fun hnone => absurd hnone (Option.some_ne_none _), ?_, rfl, ?_, ?_⟩
          · rintro _ -
            exact ⟨_, [], rfl, rfl, fun req hreq => absurd hreq List.not_mem_nil⟩
          · rintro _ hsome
            cases hsome
            rfl
          · rintro _ -
            exact List.forall_mem_singleton.mpr fun hneeds => Bool.noConfusion hneeds
  | some session =>
      cases event with
      | addCtx =>
          rw [clientRequests, List.append_nil]
          exact h
      | timer sec nsec count rands =>
          have hping : Planned (some session) (reqs ++ [.ping sec nsec]) :=
            h.concat (.ping sec nsec) trivial rfl (Or.inl rfl) fun hneeds => Bool.noConfusion hneeds
          simp only [clientNext, clientRequests]
          by_cases hlogined : session.isLogined = true
          · rw [if_pos hlogined, if_pos hlogined]
            have hsum := hping.concat (session.sumRequest count rands)
              (session.small_sumRequest count rands) rfl (Or.inr rfl) fun _ => hlogined
            rwa [List.append_assoc] at hsum
          · rwa [if_neg hlogined, if_neg hlogined]

end Planned

/-! ### The client as a party -/

section Client

variable {host : Host} {inbox : List Frame} {p p' : Party (Option TcpClientSession) Frame}

def ClientAsks (host : Host) (p : Party (Option TcpClientSession) Frame) : Prop :=
  ∃ reqs : List Request, p.asked = reqs.map (Request.frame host) ∧ Planned p.state reqs

theorem sends_acts_requests (reqs : List Request) :
    sends (Effect.acts host (reqs.map fun req => .sendMessage (req.msg host)))
      = reqs.map (Request.frame host) := by
  induction reqs with
  | nil => rfl
  | cons req reqs ih =>
      rw [List.map_cons, List.map_cons, ← ih]
      rfl

/-- Noting that it is logged in leaves a client with its plan. -/
theorem Planned.logined {session : TcpClientSession} {reqs : List Request}
    (h : Planned (some session) reqs) :
    Planned (some { session with isLogined := true }) reqs where
  small := h.small
  start := nofun
  login _ _ := h.login session rfl
  ids := h.ids
  reqId _ hsome := by
    cases hsome
    exact h.reqId session rfl
  sums _ hsome _ _ _ := by
    cases hsome
    rfl

theorem ClientAsks.moves (h : ClientAsks host p)
    (hmoves : Party.Moves ((tcpClient host).behaviour host) inbox p p') : ClientAsks host p' := by
  obtain ⟨reqs, hasked, hplanned⟩ := h
  cases hmoves with
  | act hact hperforms =>
      obtain ⟨event, rfl, rfl⟩ := hact
      have hextends := hperforms.extends
      refine ⟨reqs ++ clientRequests p.state event, ?_, ?_⟩
      · rw [hextends.asked, tcpClient_onEvent, sends_acts_requests, List.map_append, ← hasked]
      · rw [hextends.state, tcpClient_onEvent]
        exact hplanned.next event
  | @receive frame _ _ _ hreceive hperforms =>
      obtain ⟨beyond, rfl, rfl⟩ := hreceive
      have hextends := hperforms.extends
      obtain ⟨hsends, hstate⟩ := tcpClient_onRead host p.state (frame.data ++ beyond)
      refine ⟨reqs, ?_, ?_⟩
      · rw [hextends.asked, hsends, List.append_nil]
        exact hasked
      · rw [hextends.state]
        obtain hsame | ⟨session, hsome, hlogined⟩ := hstate
        · rwa [hsame]
        · rw [hlogined]
          rw [hsome] at hplanned
          exact hplanned.logined

/-- If what a client has been handed are the frames of responses that refuse no login, it has not
closed, and if it has noted that it is logged in, one of them has granted a login. -/
def ClientHears (host : Host) (p : Party (Option TcpClientSession) Frame) : Prop :=
  ∀ rsps : List Response, (∀ rsp ∈ rsps, ∀ reqId, rsp ≠ .login reqId 0) →
    p.taken = rsps.map (Response.frame host) →
      p.closed = false
        ∧ ∀ session, p.state = some session → session.isLogined = true →
          rsps.any Response.grants = true

theorem closes_acts_requests (reqs : List Request) :
    closes (Effect.acts host (reqs.map fun req => .sendMessage (req.msg host))) = false := by
  induction reqs with
  | nil => rfl
  | cons req reqs ih => exact ih

theorem logined_of_clientNext {session_ : Option TcpClientSession} {event : ClientEvent}
    {session : TcpClientSession} (hnext : clientNext session_ event = some session)
    (hlogined : session.isLogined = true) :
    ∃ before, session_ = some before ∧ before.isLogined = true := by
  cases session_ with
  | none =>
      cases event with
      | timer => cases hnext
      | addCtx =>
          cases hnext
          cases hlogined
  | some before =>
      refine ⟨before, rfl, ?_⟩
      cases event with
      | timer =>
          cases hnext
          exact hlogined
      | addCtx =>
          cases hnext
          exact hlogined

theorem ClientHears.moves (h : ClientHears host p)
    (hmoves : Party.Moves ((tcpClient host).behaviour host) inbox p p') : ClientHears host p' := by
  intro rsps hrsps htaken
  cases hmoves with
  | act hact hperforms =>
      obtain ⟨event, rfl, rfl⟩ := hact
      have hextends := hperforms.extends
      rw [tcpClient_onEvent] at hextends
      obtain ⟨hclosed, hgranted⟩ := h rsps hrsps (hextends.taken.symm.trans htaken)
      refine ⟨?_, fun session hsession hlogined => ?_⟩
      · rw [hextends.closed, closes_acts_requests]
        exact (Bool.or_false _).trans hclosed
      · obtain ⟨before, hbefore, hlogined'⟩ :=
          logined_of_clientNext (hextends.state.symm.trans hsession) hlogined
        exact hgranted before hbefore hlogined'
  | @receive frame _ _ _ hreceive hperforms =>
      obtain ⟨beyond, rfl, rfl⟩ := hreceive
      have hextends := hperforms.extends
      rw [hextends.taken] at htaken
      obtain ⟨before, last, rfl, hbefore, hlast⟩ := List.map_eq_append_iff.mp htaken.symm
      obtain ⟨rsp, rfl, rfl⟩ := List.map_eq_singleton_iff.mp hlast
      obtain ⟨hrsps, hrsp⟩ := List.forall_mem_append.mp hrsps
      obtain ⟨hclosed, hgranted⟩ := h before hrsps hbefore.symm
      cases hstate : p.state with
      | none =>
          rw [hstate] at hextends
          refine ⟨hextends.closed.trans ((Bool.or_false _).trans hclosed), ?_⟩
          intro session hsession
          rw [hextends.state] at hsession
          cases hsession
      | some session =>
          rw [hstate] at hextends
          obtain ⟨hacts, hnext⟩ :=
            tcpClient_response host session (hrsp rsp List.mem_cons_self) beyond
          rw [hacts, hnext] at hextends
          refine ⟨hextends.closed.trans ((Bool.or_false _).trans hclosed), ?_⟩
          intro session' hsession' hlogined
          rw [hextends.state] at hsession'
          cases hsession'
          rw [List.any_append]
          obtain hlogined | hgrants := Bool.or_eq_true_iff.mp hlogined
          · rw [hgranted session hstate hlogined, Bool.true_or]
          · rw [List.any_cons, hgrants, Bool.true_or, Bool.or_true]

end Client

/-! ### The server as a party -/

/-- Requests in the order of a plan: whatever needs a login comes after one. -/
structure Request.Ordered (reqs : List Request) : Prop where
  fits : ∀ req ∈ reqs, req.Fits
  login : ∀ req ∈ reqs.head?, req.isLogin = true

theorem Planned.ordered {session_ : Option TcpClientSession} {reqs : List Request}
    (h : Planned session_ reqs) (n : Nat) : Request.Ordered (reqs.take n) := by
  refine ⟨fun req hreq => (h.small req (List.mem_of_mem_take hreq)).fits, ?_⟩
  cases session_ with
  | none =>
      rw [h.start rfl, List.take_nil]
      exact nofun
  | some session =>
      obtain ⟨first, rest, rfl, hfirst, _⟩ := h.login session rfl
      intro req hreq
      cases n with
      | zero => cases hreq
      | succ n =>
          cases hreq
          exact hfirst

section Server

variable {host : Host} {inbox : List Frame} {p p' : Party TcpServerSession Frame}

/-- If what a server has been handed are the frames of requests in order, it has answered each of
them, and has not closed. -/
def ServerAnswers (host : Host) (p : Party TcpServerSession Frame) : Prop :=
  ∀ reqs, Request.Ordered reqs → p.taken = reqs.map (Request.frame host) →
    p.asked = reqs.map (fun req => req.respond.frame host) ∧ p.closed = false
      ∧ p.state.isLogined = reqs.any Request.isLogin

theorem ServerAnswers.moves (h : ServerAnswers host p)
    (hmoves : Party.Moves ((tcpServer host).behaviour host) inbox p p') :
    ServerAnswers host p' := by
  cases hmoves with
  | act hact _ =>
      obtain ⟨event, _⟩ := hact
      exact event.elim
  | @receive frame _ _ _ hreceive hperforms =>
      obtain ⟨beyond, rfl, rfl⟩ := hreceive
      have hextends := hperforms.extends
      intro reqs hordered htaken
      rw [hextends.taken] at htaken
      obtain ⟨before, last, rfl, hbefore, hlast⟩ := List.map_eq_append_iff.mp htaken.symm
      obtain ⟨req, rfl, rfl⟩ := List.map_eq_singleton_iff.mp hlast
      have hordered' : Request.Ordered before := by
        refine ⟨fun r hr => hordered.fits r (List.mem_append_left _ hr), ?_⟩
        intro r hr
        apply hordered.login
        rw [List.head?_append_of_ne_nil]
        · exact hr
        · rintro rfl
          cases hr
      obtain ⟨hasked, hclosed, hlogined⟩ := h before hordered' hbefore.symm
      have hauth : req.needsLogin = true → p.state.isLogined = true := by
        intro hneeds
        rw [hlogined]
        cases before with
        | nil =>
            -- the first request is a login
            have hfirst := hordered.login req rfl
            cases req <;> cases hneeds
            cases hfirst
        | cons first before =>
            have hfirst := hordered'.login first rfl
            rw [List.any_cons, hfirst, Bool.true_or]
      obtain ⟨hacts, hstate⟩ := tcpServer_request
        (hordered.fits req (List.mem_append_right _ List.mem_cons_self)) hauth beyond
      refine ⟨?_, ?_, ?_⟩
      · rw [hextends.asked, hacts, List.map_append, ← hasked]
        rfl
      · rw [hextends.closed, hacts]
        exact (Bool.or_false _).trans hclosed
      · rw [hextends.state, List.any_append, ← hlogined]
        exact hstate.trans (congrArg _ (Bool.or_false _).symm)

end Server

/-! ### Both sides -/

/-- No login is refused. -/
theorem Request.respond_ne (req : Request) (reqId : UInt32) : req.respond ≠ .login reqId 0 := by
  cases req with
  | login => exact fun h => absurd (Response.login.inj h).2 (by decide)
  | ping => exact nofun
  | sum => exact nofun

theorem eq_map_take {α β : Type} {f : α → β} {xs : List α} {ys : List β} (h : ys <+: xs.map f) :
    ys.length ≤ xs.length ∧ ys = (xs.take ys.length).map f := by
  refine ⟨?_, ?_⟩
  · have hle := h.length_le
    rwa [List.length_map] at hle
  · rw [List.map_take]
    exact List.prefix_iff_eq_take.mp h

theorem agree_of_reaches {host : Host}
    {conf : Mailbox.Config (Option TcpClientSession) TcpServerSession Frame}
    (h : Mailbox.Reaches ((tcpClient host).behaviour host) ((tcpServer host).behaviour host)
      ⟨.start none, .start .new⟩ conf) :
    ∃ reqs handled answered, Agree host conf reqs handled answered := by
  have hsound := h.sound (Mailbox.Config.sound_start none TcpServerSession.new)
  have hasks : ClientAsks host conf.left :=
    h.left_invariant ⟨[], rfl, .none⟩ ClientAsks.moves
  have hhears : ClientHears host conf.left :=
    h.left_invariant (fun _ _ _ => ⟨rfl, nofun⟩) ClientHears.moves
  have hanswers : ServerAnswers host conf.right := by
    refine h.right_invariant ?_ ServerAnswers.moves
    intro reqs _ htaken
    obtain rfl := List.map_eq_nil_iff.mp htaken.symm
    exact ⟨rfl, rfl, rfl⟩
  obtain ⟨reqs, hasked, hplanned⟩ := hasks
  have htaken := hsound.taken_right.trans hsound.left.posted
  rw [hasked] at htaken
  obtain ⟨hhandled, hright⟩ := eq_map_take htaken
  obtain ⟨hresponses, hopen, hlogined⟩ := hanswers _ (hplanned.ordered _) hright
  have htaken' := hsound.taken_left.trans hsound.right.posted
  rw [hresponses] at htaken'
  obtain ⟨hanswered, hleft⟩ := eq_map_take htaken'
  rw [List.length_take_of_le hhandled] at hanswered
  rw [List.take_take, Nat.min_eq_left hanswered] at hleft
  have hleft' : conf.left.taken
      = ((reqs.take conf.left.taken.length).map Request.respond).map (Response.frame host) := by
    rw [List.map_map]
    exact hleft
  have hgrants : ∀ rsp ∈ (reqs.take conf.left.taken.length).map Request.respond, ∀ reqId,
      rsp ≠ .login reqId 0 := by
    intro rsp hrsp reqId
    obtain ⟨req, _, rfl⟩ := List.mem_map.mp hrsp
    exact Request.respond_ne req reqId
  obtain ⟨hclient, hgranted⟩ := hhears _ hgrants hleft'
  exact ⟨reqs, conf.right.taken.length, conf.left.taken.length, hanswered, hhandled, hplanned,
    hasked, hright, hresponses, hleft, hclient, hopen, hlogined, hgranted⟩

/-- Responses are never added up wrongly: what the client asks for is too small to overflow. -/
theorem Planned.sum_eq {session_ : Option TcpClientSession} {reqs : List Request}
    (h : Planned session_ reqs) {reqId : UInt32} {arr : List UInt32}
    (hmem : .sum reqId arr ∈ reqs) :
    ∃ total, (Request.sum reqId arr).respond = .sum reqId total
      ∧ toInt total = (arr.map toInt).sum := by
  obtain ⟨hlen, hsmall⟩ := h.small _ hmem
  refine ⟨_, rfl, ?_⟩
  have hzero : toInt 0 = 0 := by decide
  rw [toInt_foldl_add hsmall (by omega) (by omega), hzero, Int.zero_add]

section Runs

variable {β κ : Type} [BytesBuffer β] [FifoContract β] [SocketContext κ] (host : Host)
  (sent : κ → Bytes) (down : κ → Prop) (buf buf' : β) (ctx ctx' : κ)
  (turns : List (Turn ClientEvent Empty))

/-- **Every request is answered once, in order.** However the example client and the example server
interleave, whatever pieces their bytes arrive in and whichever writes fail, the server has been
handed the first of the client's requests and has answered each, and the client has been handed the
first of these answers. -/
theorem demo_agreement (hsocket : SocketContract sent down) (hbuf : contents buf = [])
    (hbuf' : contents buf' = []) (hctx : sent ctx = []) (hctx' : sent ctx' = []) :
    ∃ reqs handled answered, Agree host
      (((Connection.start none .new buf buf' ctx ctx').run host sent (runTcpClient host)
        (runTcpServer host) turns).config host) reqs handled answered := by
  have hreaches := connection_refines host sent down (runTcpClient host) (runTcpServer host) none
    .new buf buf' ctx ctx' turns hsocket
    (prepared_runTcpClient host (show 88 ≤ (1024 * 64 : UInt32).toNat by decide))
    (prepared_runTcpServer host (show 28 ≤ (1024 * 64 : UInt32).toNat by decide)) hbuf hbuf' hctx
    hctx'
  exact agree_of_reaches hreaches

/-- **The sums are right.** Where the client is handed the answer to a request for a sum, at the
same place in the order, it is the response with the request's id and, as an `int32_t`, the sum of
the numbers over the unbounded integers. -/
theorem demo_sums_exact (hsocket : SocketContract sent down) (hbuf : contents buf = [])
    (hbuf' : contents buf' = []) (hctx : sent ctx = []) (hctx' : sent ctx' = []) :
    let conn := (Connection.start none .new buf buf' ctx ctx').run host sent (runTcpClient host)
      (runTcpServer host) turns
    ∃ reqs : List Request,
      conn.client.session.env.asked.map (fun p => encoded host p.1)
          = reqs.map (Request.frame host)
        ∧ ∀ i < conn.client.session.passed.length, ∀ reqId arr,
          reqs[i]? = some (.sum reqId arr) →
            ∃ total, conn.client.session.passed[i]? = some ((Response.sum reqId total).frame host)
              ∧ toInt total = (arr.map toInt).sum := by
  intro conn
  obtain ⟨reqs, handled, answered, hagree⟩ :=
    demo_agreement host sent down buf buf' ctx ctx' turns hsocket hbuf hbuf' hctx hctx'
  refine ⟨reqs, hagree.asked, fun i hi reqId arr hreq => ?_⟩
  have hpassed : conn.client.session.passed
      = (reqs.take answered).map fun req => req.respond.frame host := hagree.responses
  rw [hpassed, List.length_map, List.length_take] at hi
  obtain ⟨total, hrespond, htotal⟩ := hagree.planned.sum_eq (List.mem_of_getElem? hreq)
  refine ⟨total, ?_, htotal⟩
  rw [hpassed, List.getElem?_map, List.getElem?_take_of_lt (by omega), hreq, Option.map_some,
    hrespond]

/-- **Nothing is forgotten.** When no write has failed and either side has read all that the other
has sent and has nothing more to hand over, every request of the client has been answered, and every
answer has been handed to it. -/
theorem demo_all_answered (hsocket : SocketContract sent down) (hbuf : contents buf = [])
    (hbuf' : contents buf' = []) (hctx : sent ctx = []) (hctx' : sent ctx' = []) :
    let conn := (Connection.start none .new buf buf' ctx ctx').run host sent (runTcpClient host)
      (runTcpServer host) turns
    (runTcpClient host).Stopped host conn.client.session →
    (runTcpServer host).Stopped host conn.server.session →
    conn.client.session.received = sent conn.server.session.env.ctx →
    conn.server.session.received = sent conn.client.session.env.ctx →
    conn.client.session.env.lost = false → conn.server.session.env.lost = false →
      ∃ reqs : List Request, Agree host (conn.config host) reqs reqs.length reqs.length := by
  intro conn hclient hserver hread hread' hlost hlost'
  have hpreparedClient := prepared_runTcpClient (κ := κ) host
    (show 88 ≤ (1024 * 64 : UInt32).toNat by decide)
  have hpreparedServer := prepared_runTcpServer (κ := κ) host
    (show 28 ≤ (1024 * 64 : UInt32).toNat by decide)
  obtain ⟨reqs, handled, answered, hagree⟩ :=
    demo_agreement host sent down buf buf' ctx ctx' turns hsocket hbuf hbuf' hctx hctx'
  obtain ⟨hcompleteClient, hcompleteServer⟩ := connection_complete host sent down
    (runTcpClient host) (runTcpServer host) none .new buf buf' ctx ctx' turns hsocket
    hpreparedClient hpreparedServer hbuf hbuf' hctx hctx'
  obtain ⟨_, _, hstop⟩ := hclient
  obtain ⟨_, _, hstop'⟩ := hserver
  have hpassed := ((hcompleteClient _ _ hstop).2.2 hread).1
  have hpassed' := ((hcompleteServer _ _ hstop').2.2 hread').1
  rw [Endpoint.accepted_of_not_lost hlost', List.map_map] at hpassed
  rw [Endpoint.accepted_of_not_lost hlost, List.map_map] at hpassed'
  have hhandled : handled = reqs.length := by
    have hlen := congrArg List.length (hagree.requests.symm.trans (hpassed'.trans hagree.asked))
    have hle := hagree.handled_le
    simp only [List.length_map, List.length_take] at hlen
    omega
  subst hhandled
  have hanswered : answered = reqs.length := by
    have hlen := congrArg List.length (hagree.responses.symm.trans (hpassed.trans hagree.answers))
    have hle := hagree.answered_le
    simp only [List.length_map, List.length_take] at hlen
    omega
  exact ⟨reqs, hanswered ▸ hagree⟩

end Runs

/-- After the login, a ping and a request to add three times -100. -/
def sumTurns : List (Turn ClientEvent Empty) :=
  loginTurns ++ [.client (.event (.timer 1 2 2 fun _ => 0)), .server (.arrive 64), .server .turn,
    .server .turn, .server .turn, .server .turn, .server .turn, .client (.arrive 52), .client .turn,
    .client .turn, .client .turn, .client .turn, .client .turn]

theorem demo_sums_exact_three :
    let buf := FlatBuffer.init 32768 (by decide)
    let conn := (Connection.start none .new buf buf (⟨[68, 28, 36], [], false⟩ : ScriptedSocket)
      ⟨[21, 28, 24], [], false⟩).run Host.little ScriptedSocket.sent (runTcpClient Host.little)
        (runTcpServer Host.little) sumTurns
    conn.client.session.passed[2]? = some ((Response.sum 1 4294966996).frame Host.little)
      ∧ toInt 4294966996 = -300
      ∧ ∃ reqs : List Request,
        conn.client.session.env.asked.map (fun p => encoded Host.little p.1)
            = reqs.map (Request.frame Host.little)
          ∧ ∀ i < conn.client.session.passed.length, ∀ reqId arr,
            reqs[i]? = some (.sum reqId arr) →
              ∃ total, conn.client.session.passed[i]?
                  = some ((Response.sum reqId total).frame Host.little)
                ∧ toInt total = (arr.map toInt).sum :=
  ⟨by decide +kernel, by decide,
    demo_sums_exact Host.little ScriptedSocket.sent (fun ctx => ctx.down = true) _ _ _ _ sumTurns
      ScriptedSocket.contract (FlatBuffer.contents_init (by decide))
      (FlatBuffer.contents_init (by decide)) rfl rfl⟩

theorem demo_agreement_login :
    ∃ reqs handled answered, Agree Host.little
      ((beforeLogin.run Host.little ScriptedSocket.sent (runTcpClient Host.little)
        (runTcpServer Host.little) loginTurns).config Host.little) reqs handled answered :=
  demo_agreement Host.little ScriptedSocket.sent (fun ctx => ctx.down = true) _ _ _ _ loginTurns
    ScriptedSocket.contract (FlatBuffer.contents_init (by decide))
    (FlatBuffer.contents_init (by decide)) rfl rfl

theorem demo_all_answered_login :
    ∃ reqs : List Request, Agree Host.little
      ((beforeLogin.run Host.little ScriptedSocket.sent (runTcpClient Host.little)
        (runTcpServer Host.little) loginTurns).config Host.little) reqs reqs.length reqs.length :=
  demo_all_answered Host.little ScriptedSocket.sent (fun ctx => ctx.down = true) _ _ _ _ loginTurns
    ScriptedSocket.contract (FlatBuffer.contents_init (by decide))
    (FlatBuffer.contents_init (by decide)) rfl rfl ⟨_, _, rfl⟩ ⟨_, _, rfl⟩ (by decide +kernel)
    (by decide +kernel) (by decide +kernel) (by decide +kernel)

end BabelTrader
