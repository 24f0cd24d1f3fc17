import BabelTrader.Dispatcher

/-!
# The table of callbacks

The guard of `SetTotalMessage` is the total itself, so as long as it is zero the table can be
replaced or lost, but there is nothing in it. Once it is not, a slot is written until it is no
longer null, and then never again.
-/

namespace BabelTrader.Dispatcher

variable {κ : Type} {d : Dispatcher κ} {history : List (Setup κ × Bool)}

/-- The table is as large as the total says, and holds what the history has registered first. -/
structure Records (d : Dispatcher κ) (history : List (Setup κ × Bool)) : Prop where
  length_eq : (d.callbacks.getD []).length = d.totalMsg.toNat
  callback_eq : ∀ msgId, d.callback msgId = firstRegistered msgId history

theorem new_records : (new : Dispatcher κ).Records [] := ⟨rfl, fun _ => rfl⟩

theorem firstRegistered_snoc (history : List (Setup κ × Bool)) (call : Setup κ) (ret : Bool)
    (msgId : UInt32) :
    firstRegistered msgId (history ++ [(call, ret)])
      = (firstRegistered msgId history).or (firstRegistered msgId [(call, ret)]) := by
  rw [firstRegistered, List.findSome?_append]
  rfl

/-! ### One call -/

theorem callback_eq_none_of_le (hlen : (d.callbacks.getD []).length = d.totalMsg.toNat)
    {msgId : UInt32} (h : d.totalMsg ≤ msgId) : d.callback msgId = none := by
  rw [UInt32.le_iff_toNat_le] at h
  rw [callback, List.getElem?_eq_none (by omega)]
  rfl

theorem registerCallback_cases (hlen : (d.callbacks.getD []).length = d.totalMsg.toNat)
    (msgId : UInt32) (cb : Option κ) :
    d.registerCallback msgId cb = (false, d)
      ∨ (d.callback msgId = none
        ∧ ∃ slots, d.callbacks = some slots ∧ msgId.toNat < slots.length
          ∧ d.registerCallback msgId cb
            = (true, ⟨d.totalMsg, some (slots.set msgId.toNat cb)⟩)) := by
  by_cases hbeyond : d.totalMsg ≤ msgId
  · left
    rw [registerCallback, if_pos hbeyond]
  cases hcallback : d.callback msgId with
  | some registered =>
      left
      rw [registerCallback, if_neg hbeyond, hcallback]
  | none =>
      right
      refine ⟨rfl, ?_⟩
      have hlt : msgId.toNat < d.totalMsg.toNat := by
        rwa [UInt32.not_le, UInt32.lt_iff_toNat_lt] at hbeyond
      cases hslots : d.callbacks with
      | none =>
          rw [hslots, Option.getD_none, List.length_nil] at hlen
          omega
      | some slots =>
          rw [hslots, Option.getD_some] at hlen
          refine ⟨slots, rfl, by omega, ?_⟩
          rw [registerCallback, if_neg hbeyond, hcallback, hslots]
          rfl

theorem setTotalMessage_cases (d : Dispatcher κ) (allocates : Bool) (totalMsg : UInt32) :
    d.setTotalMessage allocates totalMsg = (false, d)
      ∨ (d.totalMsg = 0
        ∧ d.setTotalMessage allocates totalMsg
          = if allocates then (true, ⟨totalMsg, some (List.replicate totalMsg.toNat none)⟩)
            else (false, ⟨0, none⟩)) := by
  by_cases hset : d.totalMsg ≠ 0
  · left
    rw [setTotalMessage, if_pos hset]
  · right
    rw [not_not] at hset
    refine ⟨hset, ?_⟩
    rw [setTotalMessage, if_neg (not_not.mpr hset), hset]

theorem callback_set {slots : List (Option κ)} {msgId : UInt32} (h : msgId.toNat < slots.length)
    (total : UInt32) (cb : Option κ) (id : UInt32) :
    callback ⟨total, some (slots.set msgId.toNat cb)⟩ id
      = if msgId = id then cb else callback ⟨total, some slots⟩ id := by
  simp only [callback, Option.getD_some, List.getElem?_set]
  by_cases heq : msgId = id
  · subst heq
    simp [h]
  · have hne : msgId.toNat ≠ id.toNat := fun heq' => heq (UInt32.toNat_inj.mp heq')
    simp [heq, hne]

namespace Records

theorem unset (h : d.Records history) (hzero : d.totalMsg = 0) (msgId : UInt32) :
    firstRegistered msgId history = none := by
  rw [← h.callback_eq]
  apply callback_eq_none_of_le h.length_eq
  rw [hzero]
  exact UInt32.zero_le

theorem setup (h : d.Records history) (call : Setup κ) :
    (d.setup call).2.Records (history ++ [(call, (d.setup call).1)]) := by
  have hkeep (ret : Bool) (hret : ∀ id, firstRegistered id [(call, ret)] = none) :
      d.Records (history ++ [(call, ret)]) := by
    refine ⟨h.length_eq, fun id => ?_⟩
    rw [firstRegistered_snoc, hret, Option.or_none, h.callback_eq]
  cases call with
  | setTotalMessage totalMsg allocates =>
      simp only [Dispatcher.setup]
      obtain hcall | ⟨hzero, hcall⟩ := setTotalMessage_cases d allocates totalMsg
      · rw [hcall]
        exact hkeep false fun _ => rfl
      · rw [hcall]
        cases allocates with
        | true =>
            refine ⟨by simp, fun id => ?_⟩
            rw [firstRegistered_snoc, h.unset hzero]
            simp only [if_true, callback, Option.getD_some, List.getElem?_replicate]
            split <;> rfl
        | false =>
            refine ⟨rfl, fun id => ?_⟩
            rw [firstRegistered_snoc, h.unset hzero]
            rfl
  | registerCallback msgId cb =>
      simp only [Dispatcher.setup]
      obtain hcall | ⟨hnone, slots, hslots, hlt, hcall⟩ :=
        registerCallback_cases h.length_eq msgId cb
      · rw [hcall]
        exact hkeep false fun _ => rfl
      · rw [hcall]
        have hd : d = ⟨d.totalMsg, some slots⟩ := by rw [← hslots]
        have hlen := h.length_eq
        rw [hslots, Option.getD_some] at hlen
        refine ⟨by simpa using hlen, fun id => ?_⟩
        rw [firstRegistered_snoc, callback_set hlt, ← hd, ← h.callback_eq]
        by_cases heq : msgId = id
        · subst heq
          simp [firstRegistered, hnone]
        · simp [firstRegistered, heq]

/-- A call that fails may replace a table without slots by no table. -/
theorem dispatch_of_failed (h : d.Records history) {call : Setup κ}
    (hfailed : (d.setup call).1 = false) (hdr : MsgHdr) :
    (d.setup call).2.dispatch hdr = d.dispatch hdr := by
  cases call with
  | setTotalMessage totalMsg allocates =>
      simp only [Dispatcher.setup] at hfailed ⊢
      obtain hcall | ⟨hzero, hcall⟩ := setTotalMessage_cases d allocates totalMsg
      · rw [hcall]
      · rw [hcall] at hfailed ⊢
        cases allocates with
        | true => cases hfailed
        | false => simp [dispatch, hzero]
  | registerCallback msgId cb =>
      simp only [Dispatcher.setup] at hfailed ⊢
      obtain hcall | ⟨_, _, _, _, hcall⟩ := registerCallback_cases h.length_eq msgId cb
      · rw [hcall]
      · rw [hcall] at hfailed
        cases hfailed

theorem slot (h : d.Records history) {msgId : UInt32} (hlt : msgId < d.totalMsg) :
    ∃ slots, d.callbacks = some slots ∧ msgId.toNat < slots.length := by
  have hlen := h.length_eq
  rw [UInt32.lt_iff_toNat_lt] at hlt
  cases hslots : d.callbacks with
  | none =>
      rw [hslots, Option.getD_none, List.length_nil] at hlen
      omega
  | some slots =>
      rw [hslots, Option.getD_some] at hlen
      exact ⟨slots, rfl, by omega⟩

theorem dispatchAt_eq (h : d.Records history) (host : Host) (data : Nat) (memory : Bytes) :
    d.dispatchAt host data memory
      = match firstRegistered (MsgHdr.load host memory).msgId history with
        | some cb => ⟨[⟨cb, data, data + sizeofMsgHdr⟩], false⟩
        | none => ⟨[], decide (d.totalMsg ≤ (MsgHdr.load host memory).msgId)⟩ := by
  rw [← h.callback_eq, dispatchAt, dispatch]
  by_cases hlt : (MsgHdr.load host memory).msgId < d.totalMsg
  · rw [if_pos hlt]
    cases hcallback : d.callback (MsgHdr.load host memory).msgId with
    | some cb => rfl
    | none => simp [UInt32.not_le.mpr hlt]
  · rw [if_neg hlt, callback_eq_none_of_le h.length_eq (UInt32.not_lt.mp hlt)]
    simp [UInt32.not_lt.mp hlt]

end Records

/-! ### Any history -/

theorem records_setups (calls : List (Setup κ)) : (setups calls).2.Records (setups calls).1 := by
  apply List.foldlRecOn
    (motive := fun r : List (Setup κ × Bool) × Dispatcher κ => r.2.Records r.1)
  · exact new_records
  intro r hr call _
  exact hr.setup call

/-- **Which calls succeed.** After any calls, one that sets the total succeeds iff there is none yet
and there is memory for the table, and one that registers a callback iff its message id is below the
total and has none. -/
theorem setup_true_iff (calls : List (Setup κ)) (call : Setup κ) :
    ((setups calls).2.setup call).1 = true
      ↔ match call with
        | .setTotalMessage _ allocates => (setups calls).2.totalMsg = 0 ∧ allocates = true
        | .registerCallback msgId _ =>
            msgId < (setups calls).2.totalMsg ∧ firstRegistered msgId (setups calls).1 = none := by
  have h : (setups calls).2.Records (setups calls).1 := records_setups calls
  cases call with
  | setTotalMessage totalMsg allocates =>
      simp only [Dispatcher.setup, setTotalMessage]
      by_cases hset : (setups calls).2.totalMsg = 0
      · rw [if_neg (not_not.mpr hset)]
        cases allocates <;> simp [hset]
      · rw [if_pos hset]
        simp [hset]
  | registerCallback msgId cb =>
      simp only [Dispatcher.setup, registerCallback]
      rw [← h.callback_eq]
      by_cases hbeyond : (setups calls).2.totalMsg ≤ msgId
      · rw [if_pos hbeyond]
        simp [UInt32.not_lt.mpr hbeyond]
      · rw [if_neg hbeyond]
        cases (setups calls).2.callback msgId <;> simp [UInt32.not_le.mp hbeyond]

/-- **A table that is written once.** After any calls that set a dispatcher up, there are as many
slots as the total says, so a message id below it has one; a call that fails changes nothing for
`Dispatch`; and `Dispatch` invokes for a frame the callback that was first registered for its
message id and no other, with the two pointers into the frame. Without one it invokes nothing, and
closes the session iff the message id is not below the total. -/
theorem written_once (host : Host) (calls : List (Setup κ)) :
    let history := (setups calls).1
    let d := (setups calls).2
    (d.callbacks.getD []).length = d.totalMsg.toNat
      ∧ (∀ msgId < d.totalMsg, ∃ slots, d.callbacks = some slots ∧ msgId.toNat < slots.length)
      ∧ (∀ call, (d.setup call).1 = false → ∀ hdr, (d.setup call).2.dispatch hdr = d.dispatch hdr)
      ∧ ∀ (data : Nat) (frame beyond : Bytes), sizeofMsgHdr ≤ frame.length →
        d.dispatchAt host data (frame ++ beyond)
          = match firstRegistered (MsgHdr.load host frame).msgId history with
            | some cb => ⟨[⟨cb, data, data + sizeofMsgHdr⟩], false⟩
            | none => ⟨[], decide (d.totalMsg ≤ (MsgHdr.load host frame).msgId)⟩ := by
  intro history d
  have h : d.Records history := records_setups calls
  refine ⟨h.length_eq, fun _ hlt => h.slot hlt, fun _ hfailed => h.dispatch_of_failed hfailed, ?_⟩
  intro data frame beyond hframe
  rw [h.dispatchAt_eq, MsgHdr.load_append host beyond hframe]

end BabelTrader.Dispatcher
