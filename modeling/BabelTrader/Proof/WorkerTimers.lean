import BabelTrader.WorkerTimers
import BabelTrader.Proof.HandOver

/-!
# A session that is deleted behind a worker's back

The worker and the listening loop hold a context at the same time for a while after it has been
handed over. If the worker lets go first, it is the listening loop that deletes the session, and
that loop does not know the worker's set.
-/

namespace BabelTrader

open Runs

/-! ### One context -/

/-- **What holds of a context** and the sets that it is in. `wasFirst` says of a worker that it has
let go of the context while the listening loop still held it. -/
structure Ctx.Placed (ctx : Ctx) (extra : Nat) (inListen : Prop)
    (inWorkers wasFirst : Int32 → Prop) : Prop where
  ledger : ctx.Ledger extra
  listen : inListen → ctx.worker = none ∧ ctx.deleted = 0
  workers : ∀ idx, inWorkers idx →
    (∃ holding, ctx.worker = some (idx, holding) ∧ holding ≠ .given)
      ∨ (ctx.worker = none ∧ ctx.listen ≠ some .added ∧ (wasFirst idx ∨ 0 < extra))
  added : ∀ idx holding, ctx.worker = some (idx, holding) → holding ≠ .given → inWorkers idx
  first : ∀ idx, wasFirst idx → inWorkers idx ∧ ctx.worker = none ∧ ctx.listen ≠ some .added

namespace Ctx.Placed

variable {host : Host} {ctx ctx' : Ctx} {extra extra' : Nat} {listen : Prop}
  {workers first : Int32 → Prop} {idx : Int32}

theorem connected (h : ∀ idx, ¬ workers idx ∧ ¬ first idx) :
    Ctx.connected.Placed 0 listen workers first where
  ledger := connected_ledger
  listen _ := ⟨rfl, rfl⟩
  workers idx hidx := absurd hidx (h idx).1
  added idx holding hworker := by cases hworker
  first idx hidx := absurd hidx (h idx).2

/-- The worker is not concerned, and nothing is deleted. -/
theorem stay (h : ctx.Placed extra listen workers first) (hledger : ctx'.Ledger extra')
    (hextra : extra ≤ extra') (hworker : ctx'.worker = ctx.worker)
    (hlisten : ctx'.listen = some .added → ctx.listen = some .added)
    (hdeleted : ctx'.deleted = ctx.deleted) : ctx'.Placed extra' listen workers first where
  ledger := hledger
  listen hin := by
    rw [hworker, hdeleted]
    exact h.listen hin
  workers idx hidx := by
    rw [hworker]
    refine (h.workers idx hidx).imp_right ?_
    rintro ⟨hnone, hne, hgone⟩
    exact ⟨hnone, fun hadded => hne (hlisten hadded),
      hgone.imp_right fun hpos => Nat.lt_of_lt_of_le hpos hextra⟩
  added := by
    rw [hworker]
    exact h.added
  first idx hidx := by
    obtain ⟨hin, hnone, hne⟩ := h.first idx hidx
    exact ⟨hin, hworker.trans hnone, fun hadded => hne (hlisten hadded)⟩

/-- A context that is not in the set of the listening loop, whose worker goes on with it. -/
theorem hold (h : ctx.Placed extra listen workers first) (hledger : ctx'.Ledger extra)
    {holding holding' : Holding} (hbefore : ctx.worker = some (idx, holding))
    (hafter : ctx'.worker = some (idx, holding')) (hne : holding' ≠ .given)
    {workers' : Int32 → Prop} (hself : workers' idx)
    (hother : ∀ idx', idx' ≠ idx → (workers' idx' ↔ workers idx')) :
    ctx'.Placed extra listen workers' first where
  ledger := hledger
  listen hin := by
    rw [(h.listen hin).1] at hbefore
    cases hbefore
  workers idx' hidx' := by
    left
    by_cases heq : idx' = idx
    · exact ⟨holding', heq ▸ hafter, hne⟩
    · obtain ⟨_, hworker, _⟩ | ⟨hnone, _⟩ := h.workers idx' ((hother idx' heq).mp hidx')
      · rw [hbefore] at hworker
        cases hworker
        exact absurd rfl heq
      · rw [hbefore] at hnone
        cases hnone
  added idx' holding₁ hworker _ := by
    rw [hafter] at hworker
    cases hworker
    exact hself
  first idx' hidx' := by
    have hnone := (h.first idx' hidx').2.1
    rw [hbefore] at hnone
    cases hnone

theorem move (h : ctx.Placed extra listen workers first) (hlisten : ctx.listen = some .added)
    (hledger : ctx'.Ledger extra) (hworker : ctx'.worker = some (idx, .given)) :
    ctx'.Placed extra False workers first where
  ledger := hledger
  listen hin := hin.elim
  workers idx' hidx' := by
    -- no worker has had it before
    obtain ⟨_, hheld, _⟩ | ⟨_, hne, _⟩ := h.workers idx' hidx'
    · exact absurd hlisten (h.ledger.worker (by rw [hheld]; rfl))
    · exact absurd hlisten hne
  added idx' holding hheld hne := by
    rw [hworker] at hheld
    cases hheld
    exact absurd rfl hne
  first idx' hidx' := absurd hlisten (h.first idx' hidx').2.2

theorem releaseListen (h : ctx.Placed extra listen workers first)
    (hledger : Ctx.Ledger { ctx.release with listen := none } extra) {listen' : Prop}
    (hlisten' : listen' → listen ∧ ctx.refCnt - 1 ≠ 0) :
    Ctx.Placed { ctx.release with listen := none } extra listen' workers first where
  ledger := hledger
  listen hin := by
    obtain ⟨hbefore, hcount⟩ := hlisten' hin
    obtain ⟨hnone, hdeleted⟩ := h.listen hbefore
    refine ⟨hnone, ?_⟩
    simp only [Ctx.release, if_neg hcount, hdeleted]
  workers idx hidx := (h.workers idx hidx).imp_right fun hgone => ⟨hgone.1, by simp, hgone.2.2⟩
  added := h.added
  first idx hidx := ⟨(h.first idx hidx).1, (h.first idx hidx).2.1, by simp⟩

theorem releaseWorker (h : ctx.Placed extra listen workers first)
    (hworker : ctx.worker = some (idx, .closed))
    (hledger : Ctx.Ledger { ctx.release with worker := none } extra)
    {workers' first' : Int32 → Prop}
    (hworkers' : ∀ idx', workers' idx' ↔ workers idx' ∧ (idx' = idx → ctx.refCnt - 1 ≠ 0))
    (hfirst' : ∀ idx', first' idx' ↔ first idx' ∨ (idx' = idx ∧ ctx.listen = some .closed)) :
    Ctx.Placed { ctx.release with worker := none } extra listen workers' first' := by
  have hnotAdded : ctx.listen ≠ some .added := h.ledger.worker (by rw [hworker]; rfl)
  have hcount := hledger.refCnt
  have honly (idx' : Int32) (hin : workers idx') : idx' = idx := by
    obtain ⟨_, hheld, _⟩ | ⟨hnone, _⟩ := h.workers idx' hin
    · rw [hworker] at hheld
      cases hheld
      rfl
    · rw [hworker] at hnone
      cases hnone
  refine ⟨hledger, fun hin => ?_, fun idx' hidx' => ?_, fun idx' holding hheld _ => ?_,
    fun idx' hidx' => ?_⟩
  · rw [(h.listen hin).1] at hworker
    cases hworker
  · right
    refine ⟨rfl, hnotAdded, ?_⟩
    obtain ⟨hin, hkeeps⟩ := (hworkers' idx').mp hidx'
    have hrest := hkeeps (honly idx' hin)
    by_cases hclosed : ctx.listen = some .closed
    · exact Or.inl ((hfirst' idx').mpr (Or.inr ⟨honly idx' hin, hclosed⟩))
    · right
      have hreleased : ctx.listen = none := by
        cases hlisten : ctx.listen with
        | none => rfl
        | some holding =>
            cases holding with
            | given => exact absurd hlisten h.ledger.listen
            | added => exact absurd hlisten hnotAdded
            | closed => exact absurd hlisten hclosed
      simp [Ctx.release, holders, pending, hreleased] at hcount
      omega
  · cases hheld
  · obtain hbefore | ⟨rfl, hclosed⟩ := (hfirst' idx').mp hidx'
    · have hnone := (h.first idx' hbefore).2.1
      rw [hworker] at hnone
      cases hnone
    · refine ⟨(hworkers' idx').mpr ⟨h.added idx' _ hworker (by decide), fun _ => ?_⟩, rfl,
        hnotAdded⟩
      simp [Ctx.release, holders, hclosed] at hcount
      omega

/-- A context whose session has been deleted is still in the set of the worker that has let go of it
first, and in no other. -/
theorem deleted_iff (h : ctx.Placed extra listen workers first) :
    (workers idx ∧ ctx.deleted ≠ 0) ↔ (first idx ∧ extra = 0 ∧ ctx.listen = none) := by
  have hcount := h.ledger.refCnt
  have hdeleted := h.ledger.deleted
  constructor
  · rintro ⟨hin, hne⟩
    have hzero : ctx.refCnt = 0 := by
      by_contra hcount
      rw [if_neg hcount] at hdeleted
      exact hne hdeleted
    have hlisten : ctx.listen = none := by
      by_contra hsome
      simp only [holders, if_pos (Option.isSome_iff_ne_none.mpr hsome)] at hcount
      omega
    obtain ⟨_, hheld, _⟩ | ⟨_, _, hfirst | hpos⟩ := h.workers idx hin
    · simp only [holders, hheld, Option.isSome_some, if_true] at hcount
      omega
    · exact ⟨hfirst, by omega, hlisten⟩
    · omega
  · rintro ⟨hfirst, hextra, hlisten⟩
    obtain ⟨hin, hnone, _⟩ := h.first idx hfirst
    refine ⟨hin, ?_⟩
    have hzero : ctx.refCnt = 0 := by
      simp [holders, pending, hlisten, hnone, hextra] at hcount
      exact hcount
    rw [hdeleted, if_pos hzero]
    decide

/-- What a loop holds has a session. -/
theorem held (h : ctx.Placed extra listen workers first) (hheld : 0 < ctx.holders) :
    ctx.deleted = 0 := by
  have hcount := h.ledger.refCnt
  rw [h.ledger.deleted, if_neg (by omega)]

end Ctx.Placed

/-! ### The whole server -/

namespace WorkerHandles

variable {ι : Type} [DecidableEq ι] {host : Host} {size : Nat} {s s' : WorkerHandles ι} {i : ι}
  {ctx ctx' : Ctx} {idx : Int32} {before : List (WorkerHandles ι × HandlesEvent ι × Int)}

/-- What a run is to the server without its handles, apart from what the timers do to sockets. -/
def serverLog (before : List (WorkerHandles ι × HandlesEvent ι × Int)) :
    List (WorkerServer ι × WorkerEvent ι) :=
  before.filterMap fun
    | (s, .server event, _) => some (s.server, event)
    | (_, .timer _, _) => none

/-- The worker releases the context while the listening loop still holds it. -/
def LetsGoFirst (idx : Int32) (i : ι) (p : WorkerHandles ι × HandlesEvent ι × Int) : Prop :=
  p.2.1 = .server (.ctx i (.release .worker))
    ∧ ∃ ctx, p.1.server.ctxs i = some ctx ∧ ctx.worker = some (idx, .closed)
      ∧ ctx.listen = some .closed

/-- The worker has let go of the context first, then the listening loop, and there have been no
logins that keep it. -/
def Orphaned (host : Host) (before : List (WorkerHandles ι × HandlesEvent ι × Int))
    (s : WorkerHandles ι) (idx : Int32) (i : ι) : Prop :=
  (∃ p ∈ before, LetsGoFirst idx i p) ∧ superfluousLogins host i (serverLog before) = 0
    ∧ ∃ ctx, s.server.ctxs i = some ctx ∧ ctx.listen = none

structure Sound (host : Host) (before : List (WorkerHandles ι × HandlesEvent ι × Int))
    (s : WorkerHandles ι) : Prop where
  placed : ∀ i ctx, s.server.ctxs i = some ctx →
    ctx.Placed (superfluousLogins host i (serverLog before)) (i ∈ s.listen.ctxSet)
      (fun idx => i ∈ (s.workers idx).ctxSet) (fun idx => ∃ p ∈ before, LetsGoFirst idx i p)
  unborn : ∀ i, s.server.ctxs i = none → superfluousLogins host i (serverLog before) = 0
    ∧ i ∉ s.listen.ctxSet
    ∧ ∀ idx, i ∉ (s.workers idx).ctxSet ∧ ¬ ∃ p ∈ before, LetsGoFirst idx i p

theorem start_sound : (start : WorkerHandles ι).Sound host [] where
  placed i ctx hctx := by cases hctx
  unborn i _ := ⟨rfl, by simp [start, CtxSet.new], fun idx => by simp [start, CtxSet.new]⟩

/-- A step that is about one context. -/
theorem Sound.update (h : s.Sound host before) {event : WorkerEvent ι} {now : Int}
    (hctxs : s'.server.ctxs = Function.update s.server.ctxs i (some ctx'))
    (hlisten : ∀ j, j ≠ i → (j ∈ s'.listen.ctxSet ↔ j ∈ s.listen.ctxSet))
    (hworkers : ∀ j, j ≠ i → ∀ idx, j ∈ (s'.workers idx).ctxSet ↔ j ∈ (s.workers idx).ctxSet)
    (hevent : event = .connect i ∨ ∃ ctxEvent, event = .ctx i ctxEvent)
    (hself : ctx'.Placed (superfluousLogins host i (serverLog before)
        + superfluousLogins host i [(s.server, event)]) (i ∈ s'.listen.ctxSet)
      (fun idx => i ∈ (s'.workers idx).ctxSet)
      (fun idx => (∃ p ∈ before, LetsGoFirst idx i p)
        ∨ LetsGoFirst idx i (s, .server event, now))) :
    s'.Sound host (before ++ [(s, .server event, now)]) := by
  have hlog : serverLog (before ++ [(s, .server event, now)])
      = serverLog before ++ [(s.server, event)] := by
    rw [serverLog, List.filterMap_append]
    rfl
  have hmore (j : ι) (hji : j ≠ i) : superfluousLogins host j [(s.server, event)] = 0 := by
    obtain rfl | ⟨ctxEvent, rfl⟩ := hevent
    · rfl
    · simp [superfluousLogins, Ne.symm hji]
  have hfirst (j : ι) (hji : j ≠ i) (idx : Int32) :
      ¬ LetsGoFirst idx j (s, .server event, now) := by
    rintro ⟨heq, _⟩
    obtain rfl | ⟨ctxEvent, rfl⟩ := hevent
    · cases heq
    · cases heq
      exact hji rfl
  have hexists (j : ι) (idx : Int32) :
      (∃ p ∈ before ++ [(s, .server event, now)], LetsGoFirst idx j p)
        ↔ (∃ p ∈ before, LetsGoFirst idx j p) ∨ LetsGoFirst idx j (s, .server event, now) := by
    simp [or_and_right, exists_or]
  refine ⟨fun j ctx hj => ?_, fun j hj => ?_⟩
  · rw [hlog, superfluousLogins_snoc]
    simp only [hexists]
    by_cases hji : j = i
    · subst hji
      rw [hctxs, Function.update_self] at hj
      exact Option.some.inj hj ▸ hself
    · rw [hctxs, Function.update_of_ne hji] at hj
      simp only [hmore j hji, hfirst j hji, or_false, hlisten j hji, hworkers j hji]
      exact h.placed j ctx hj
  · have hji : j ≠ i := by
      rintro rfl
      rw [hctxs, Function.update_self] at hj
      cases hj
    rw [hctxs, Function.update_of_ne hji] at hj
    rw [hlog, superfluousLogins_snoc]
    simp only [hexists, hmore j hji, hfirst j hji, or_false, hlisten j hji, hworkers j hji]
    exact h.unborn j hj

omit [DecidableEq ι] in
theorem modifyWorker_workers (idx' : Int32) (f : CtxSet ι → CtxSet ι) :
    (s.modifyWorker idx f).workers idx'
      = if idx' = idx then f (s.workers idx) else s.workers idx' := Function.update_apply _ _ _ _

section Sets

variable (s i ctx) (event : CtxEvent)

theorem updateSets_of_ne {j : ι} (hji : j ≠ i) :
    (j ∈ (s.updateSets i ctx event).listen.ctxSet ↔ j ∈ s.listen.ctxSet)
      ∧ ∀ idx, j ∈ ((s.updateSets i ctx event).workers idx).ctxSet
        ↔ j ∈ (s.workers idx).ctxSet := by
  have hmodify (idx : Int32) (f : CtxSet ι → CtxSet ι)
      (hf : ∀ handle : CtxSet ι, j ∈ (f handle).ctxSet ↔ j ∈ handle.ctxSet) (idx' : Int32) :
      j ∈ ((s.modifyWorker idx f).workers idx').ctxSet ↔ j ∈ (s.workers idx').ctxSet := by
    rw [modifyWorker_workers]
    split_ifs with heq
    · rw [heq, hf]
    · rfl
  have herase (handle : CtxSet ι) : j ∈ (handle.erase i).ctxSet ↔ j ∈ handle.ctxSet :=
    Finset.mem_erase.trans (and_iff_right hji)
  have hinsert (handle : CtxSet ι) : j ∈ (handle.insert i).ctxSet ↔ j ∈ handle.ctxSet :=
    Finset.mem_insert.trans (or_iff_right hji)
  unfold updateSets
  split
  · split
    · exact ⟨Iff.rfl, hmodify _ _ hinsert⟩
    · exact ⟨Iff.rfl, fun _ => Iff.rfl⟩
  · split_ifs
    · exact ⟨herase _, fun _ => Iff.rfl⟩
    · exact ⟨Iff.rfl, fun _ => Iff.rfl⟩
  · split_ifs
    · exact ⟨herase _, fun _ => Iff.rfl⟩
    · exact ⟨Iff.rfl, fun _ => Iff.rfl⟩
  · split
    · split_ifs
      · exact ⟨Iff.rfl, hmodify _ _ herase⟩
      · exact ⟨Iff.rfl, fun _ => Iff.rfl⟩
    · exact ⟨Iff.rfl, fun _ => Iff.rfl⟩
  · exact ⟨Iff.rfl, fun _ => Iff.rfl⟩
  · exact ⟨Iff.rfl, fun _ => Iff.rfl⟩
  · exact ⟨Iff.rfl, fun _ => Iff.rfl⟩

end Sets

omit [DecidableEq ι] in
theorem letsGoFirst_iff (hctx : s.server.ctxs i = some ctx) {event : CtxEvent} {now : Int} :
    LetsGoFirst idx i (s, .server (.ctx i event), now)
      ↔ event = .release .worker ∧ ctx.worker = some (idx, .closed)
        ∧ ctx.listen = some .closed := by
  simp [LetsGoFirst, hctx]

/-- **One event of a context.** -/
theorem Sound.does (h : s.Sound host before) (hctx : s.server.ctxs i = some ctx) {event : CtxEvent}
    (hdoes : Ctx.Does host ctx event ctx') {now : Int}
    (hctxs : s'.server.ctxs = Function.update s.server.ctxs i (some ctx'))
    (hlisten : s'.listen = (s.updateSets i ctx event).listen)
    (hworkers : s'.workers = (s.updateSets i ctx event).workers) :
    s'.Sound host (before ++ [(s, .server (.ctx i event), now)]) := by
  have hplaced := h.placed i ctx hctx
  have hledger := hplaced.ledger.does hdoes
  have hmore : superfluousLogins host i [(s.server, .ctx i event)]
      = event.superfluous host ctx := by
    simp [superfluousLogins, hctx]
  refine h.update hctxs (fun j hji => ?_) (fun j hji => ?_) (Or.inr ⟨event, rfl⟩) ?_
  · rw [hlisten]
    exact (updateSets_of_ne s i ctx event hji).1
  · rw [hworkers]
    exact (updateSets_of_ne s i ctx event hji).2
  rw [hmore, hlisten, hworkers]
  simp only [letsGoFirst_iff hctx]
  generalize superfluousLogins host i (serverLog before) = extra at hplaced hledger
  cases hdoes with
  | addCtx hworker =>
      simp only [updateSets, hworker, modifyWorker_workers, reduceCtorEq, false_and, or_false]
      refine hplaced.hold hledger hworker rfl (by decide) ?_ fun idx' hne => ?_
      · rw [if_pos rfl]
        exact Finset.mem_insert_self _ _
      · rw [if_neg hne]
  | messageListen batch failed hadded =>
      have hretains := retains_onMessage host ctx batch failed
      simp only [updateSets, reduceCtorEq, false_and, or_false]
      exact hplaced.stay hledger (Nat.le_add_right _ _) hretains.worker
        (fun hin => hretains.listen ▸ hin) hretains.deleted
  | messageWorker batch failed hworker =>
      have hretains := retains_onMessage host ctx batch failed
      simp only [updateSets, reduceCtorEq, false_and, or_false]
      exact hplaced.stay hledger (Nat.le_add_right _ _) hretains.worker
        (fun hin => hretains.listen ▸ hin) hretains.deleted
  | down =>
      simp only [updateSets, reduceCtorEq, false_and, or_false]
      exact hplaced.stay hledger (Nat.le_refl _) rfl id rfl
  | move hadded hdetached =>
      have hout : i ∈ (s.listen.erase i).ctxSet ↔ False :=
        iff_false_intro (Finset.notMem_erase _ _)
      simp only [updateSets, if_pos hdetached, hout, reduceCtorEq, false_and, or_false]
      exact hplaced.move hadded hledger rfl
  | disconnect hadded hdetached =>
      have hnot : ¬ ctx.detached = true := Bool.eq_false_iff.mp hdetached
      simp only [updateSets, if_neg hnot, reduceCtorEq, false_and, or_false]
      exact hplaced.stay hledger (Nat.le_refl _) rfl (fun hin => by cases hin) rfl
  | closeWorker hworker =>
      simp only [updateSets, reduceCtorEq, false_and, or_false]
      exact hplaced.hold hledger hworker rfl (by decide) (hplaced.added _ _ hworker (by decide))
        fun _ _ => Iff.rfl
  | releaseListen hclosed =>
      simp only [updateSets, reduceCtorEq, CtxEvent.release.injEq, false_and, or_false]
      by_cases hzero : ctx.refCnt - 1 = 0
      · rw [if_pos hzero]
        exact hplaced.releaseListen hledger fun hin => absurd hin (Finset.notMem_erase _ _)
      · rw [if_neg hzero]
        exact hplaced.releaseListen hledger fun hin => ⟨hin, hzero⟩
  | @releaseWorker idx hworker =>
      have hsame : (s.updateSets i ctx (.release .worker)).listen = s.listen := by
        simp only [updateSets, hworker]
        split_ifs <;> rfl
      rw [hsame]
      refine hplaced.releaseWorker hworker hledger (fun idx' => ?_) fun idx' => ?_
      · simp only [updateSets, hworker]
        by_cases hzero : ctx.refCnt - 1 = 0
        · rw [if_pos hzero, modifyWorker_workers]
          split_ifs with heq
          · exact iff_of_false (Finset.notMem_erase _ _) fun h => h.2 heq hzero
          · exact (and_iff_left fun h => absurd h heq).symm
        · rw [if_neg hzero]
          exact (and_iff_left fun _ => hzero).symm
      · simp [hworker, eq_comm]

/-! ### The timers -/

omit [DecidableEq ι] in
theorem serverLog_timer (before : List (WorkerHandles ι × HandlesEvent ι × Int))
    (worker : Option Int32) (now : Int) :
    serverLog (before ++ [(s, .timer worker, now)]) = serverLog before := by
  rw [serverLog, List.filterMap_append]
  exact List.append_nil _

theorem onTimer_sets (s : WorkerHandles ι) (worker : Option Int32) (now : Int) :
    (s.onTimer worker now).listen.ctxSet = s.listen.ctxSet
      ∧ ∀ idx, ((s.onTimer worker now).workers idx).ctxSet = (s.workers idx).ctxSet := by
  cases worker with
  | none => exact ⟨CtxSet.onTimer_ctxSet, fun _ => rfl⟩
  | some idx =>
      refine ⟨rfl, fun idx' => ?_⟩
      simp only [onTimer, modifyWorker_workers]
      split_ifs with heq
      · rw [heq]
        exact CtxSet.onTimer_ctxSet
      · rfl

theorem onTimer_ctxs (s : WorkerHandles ι) (worker : Option Int32) (now : Int) (i : ι) :
    ∃ f : Ctx → Ctx, (s.onTimer worker now).server.ctxs i = (s.server.ctxs i).map f
      ∧ ∀ ctx, f ctx = ctx ∨ f ctx = { ctx with down := true } := by
  have hcases (looked : Prop) [Decidable looked] (ctx : Ctx) :
      (if looked then { ctx with down := true } else ctx) = ctx
        ∨ (if looked then { ctx with down := true } else ctx) = { ctx with down := true } := by
    split_ifs
    · exact Or.inr rfl
    · exact Or.inl rfl
  cases worker with
  | none => exact ⟨_, rfl, hcases _⟩
  | some idx => exact ⟨_, rfl, hcases _⟩

theorem Sound.timer (h : s.Sound host before) (worker : Option Int32) (now : Int) :
    (s.onTimer worker now).Sound host (before ++ [(s, .timer worker, now)]) := by
  obtain ⟨hlisten, hworkers⟩ := onTimer_sets s worker now
  have hexists (i : ι) (idx : Int32) :
      (∃ p ∈ before ++ [(s, HandlesEvent.timer worker, now)], LetsGoFirst idx i p)
        ↔ ∃ p ∈ before, LetsGoFirst idx i p := by
    simp [or_and_right, exists_or, LetsGoFirst]
  refine ⟨fun i ctx' hctx' => ?_, fun i hnone => ?_⟩
  · obtain ⟨f, hctxs, hf⟩ := onTimer_ctxs s worker now i
    rw [hctxs] at hctx'
    obtain ⟨ctx, hctx, rfl⟩ := Option.map_eq_some_iff.mp hctx'
    have hplaced := h.placed i ctx hctx
    simp only [serverLog_timer, hlisten, hworkers, hexists]
    obtain hsame | hdown := hf ctx
    · rwa [hsame]
    · rw [hdown]
      have hledger := hplaced.ledger
      exact hplaced.stay ⟨hledger.refCnt, hledger.deleted, hledger.listen, hledger.worker⟩
        (Nat.le_refl _) rfl id rfl
  · obtain ⟨f, hctxs, _⟩ := onTimer_ctxs s worker now i
    rw [hctxs, Option.map_eq_none_iff] at hnone
    simp only [serverLog_timer, hlisten, hworkers, hexists]
    exact h.unborn i hnone

theorem updateSets_misused (s : WorkerHandles ι) (i : ι) (ctx : Ctx) (event : CtxEvent)
    (misused : Bool) :
    ({ s with misused := misused } : WorkerHandles ι).updateSets i ctx event
      = { s.updateSets i ctx event with misused := misused } := by
  simp only [updateSets]
  split
  · split <;> rfl
  · split_ifs <;> rfl
  · split_ifs <;> rfl
  · split
    · split_ifs <;> rfl
    · rfl
  · rfl
  · rfl
  · rfl

/-- What a step about a context comes to. -/
theorem ctx_of_step {event : CtxEvent} {now : Int} (hctx : s.server.ctxs i = some ctx)
    (hstep : s.step host size (.server (.ctx i event), now) = some s') :
    ∃ ctx', Ctx.Does host ctx event ctx'
      ∧ s'.server.ctxs = Function.update s.server.ctxs i (some ctx')
      ∧ s'.listen = (s.updateSets i ctx event).listen
      ∧ s'.workers = (s.updateSets i ctx event).workers
      ∧ s'.misused = (s.misused || (event ≠ .down && !s.alive i)) := by
  simp only [WorkerHandles.step, hctx, WorkerServer.step, Option.map_map] at hstep
  obtain ⟨⟨handle', ctx'⟩, hctxStep, rfl⟩ := Option.map_eq_some_iff.mp hstep
  have hused : (if event = .down then s else s.use i)
      = { s with misused := s.misused || (event ≠ .down && !s.alive i) } := by
    split_ifs with hdown
    · simp [hdown]
    · simp [hdown, use]
  have hsigns (u : WorkerHandles ι) : (u.signs host i event now).listen = u.listen
      ∧ (u.signs host i event now).workers = u.workers
      ∧ (u.signs host i event now).misused = u.misused := by
    unfold signs
    split
    · split_ifs <;> exact ⟨rfl, rfl, rfl⟩
    all_goals exact ⟨rfl, rfl, rfl⟩
  refine ⟨ctx', Ctx.does_of_step hctxStep, rfl, ?_, ?_, ?_⟩
  · refine (hsigns _).1.trans ?_
    rw [hused, updateSets_misused]
  · refine (hsigns _).2.1.trans ?_
    rw [hused, updateSets_misused]
  · refine (hsigns _).2.2.trans ?_
    rw [hused, updateSets_misused]

/-- **One step.** -/
theorem Sound.step (h : s.Sound host before) {event : HandlesEvent ι} {now : Int}
    (hstep : s.step host size (event, now) = some s') :
    s'.Sound host (before ++ [(s, event, now)]) := by
  cases event with
  | timer worker =>
      cases hstep
      exact h.timer worker now
  | server event =>
      cases event with
      | connect i =>
          obtain ⟨server, hserver, rfl⟩ := Option.map_eq_some_iff.mp hstep
          cases hctx : s.server.ctxs i with
          | some ctx => simp [WorkerServer.step, hctx] at hserver
          | none =>
              simp only [WorkerServer.step, hctx, Option.some.injEq] at hserver
              subst hserver
              obtain ⟨hzero, _, hworkers⟩ := h.unborn i hctx
              refine h.update (i := i) rfl (fun j hji => ?_) (fun _ _ _ => Iff.rfl) (Or.inl rfl) ?_
              · exact Finset.mem_insert.trans (or_iff_right hji)
              · rw [hzero]
                refine Ctx.Placed.connected fun idx => ⟨(hworkers idx).1, ?_⟩
                rintro (hfirst | ⟨hevent, _⟩)
                · exact (hworkers idx).2 hfirst
                · cases hevent
      | ctx i event =>
          cases hctx : s.server.ctxs i with
          | none => simp [WorkerHandles.step, hctx] at hstep
          | some ctx =>
              obtain ⟨ctx', hdoes, hctxs, hlisten, hworkers, _⟩ := ctx_of_step hctx hstep
              exact h.does hctx hdoes hctxs hlisten hworkers

/-! ### What is used that is not there -/

omit [DecidableEq ι] in
theorem alive_eq_false_iff (hctx : s.server.ctxs i = some ctx) :
    s.alive i = false ↔ ctx.deleted ≠ 0 := by
  rw [alive, hctx, Option.any_some, decide_eq_false_iff_not]

theorem Sound.orphaned_iff (h : s.Sound host before) :
    Orphaned host before s idx i ↔ i ∈ (s.workers idx).ctxSet ∧ s.alive i = false := by
  cases hctx : s.server.ctxs i with
  | none =>
      refine iff_of_false ?_ fun hin => ((h.unborn i hctx).2.2 idx).1 hin.1
      rintro ⟨_, _, ctx, hsome, _⟩
      rw [hctx] at hsome
      cases hsome
  | some ctx =>
      rw [alive_eq_false_iff hctx, (h.placed i ctx hctx).deleted_iff, Orphaned, hctx]
      simp

/-- What the listening loop looks after is there. -/
theorem Sound.alive_of_listen (h : s.Sound host before) (hi : i ∈ s.listen.ctxSet) :
    s.alive i = true := by
  cases hctx : s.server.ctxs i with
  | none => exact absurd hi (h.unborn i hctx).2.1
  | some ctx =>
      rw [alive, hctx, Option.any_some, decide_eq_true_eq]
      exact ((h.placed i ctx hctx).listen hi).2

theorem holders_pos_of_does {event : CtxEvent} (hdoes : Ctx.Does host ctx event ctx')
    (hne : event ≠ .down) : 0 < ctx.holders := by
  cases hdoes with
  | down => exact absurd rfl hne
  | messageListen _ _ h | move h _ | disconnect h _ | releaseListen h =>
      rw [Ctx.holders, h]
      exact Nat.add_pos_left Nat.one_pos _
  | addCtx h | messageWorker _ _ h | closeWorker h | releaseWorker h =>
      rw [Ctx.holders, h]
      exact Nat.add_pos_right _ Nat.one_pos

/-- The timer of a worker has something to do, and looks at an orphan. -/
def MeetsOrphan (host : Host) (earlier : List (WorkerHandles ι × HandlesEvent ι × Int))
    (p : WorkerHandles ι × HandlesEvent ι × Int) : Prop :=
  ∃ idx i, p.2.1 = .timer (some idx) ∧ 5 ≤ p.2.2 - (p.1.workers idx).lastTimerTrigger
    ∧ Orphaned host earlier p.1 idx i

theorem Sound.misused_timer (h : s.Sound host before) (worker : Option Int32) (now : Int) :
    (s.onTimer worker now).misused = true
      ↔ s.misused = true ∨ MeetsOrphan host before (s, .timer worker, now) := by
  have hmisused : (s.onTimer worker now).misused
      = (s.misused || decide (∃ i ∈ ((worker.elim s.listen s.workers).onTimer now).1,
        s.alive i = false)) := by
    cases worker <;> rfl
  rw [hmisused, Bool.or_eq_true, decide_eq_true_eq]
  refine or_congr_right ?_
  simp only [CtxSet.mem_onTimer_iff]
  cases worker with
  | none =>
      refine iff_of_false ?_ ?_
      · rintro ⟨i, ⟨_, hi⟩, hdead⟩
        rw [h.alive_of_listen hi] at hdead
        cases hdead
      · rintro ⟨_, _, hevent, _⟩
        cases hevent
  | some idx =>
      constructor
      · rintro ⟨i, ⟨hlate, hi⟩, hdead⟩
        exact ⟨idx, i, rfl, hlate, h.orphaned_iff.mpr ⟨hi, hdead⟩⟩
      · rintro ⟨idx', i, hevent, hlate, horphan⟩
        cases hevent
        obtain ⟨hi, hdead⟩ := h.orphaned_iff.mp horphan
        exact ⟨i, ⟨hlate, hi⟩, hdead⟩

theorem Sound.misused_step (h : s.Sound host before) {event : HandlesEvent ι} {now : Int}
    (hstep : s.step host size (event, now) = some s') :
    s'.misused = true ↔ s.misused = true ∨ MeetsOrphan host before (s, event, now) := by
  cases event with
  | timer worker =>
      cases hstep
      exact h.misused_timer worker now
  | server event =>
      have hnot : ¬ MeetsOrphan host before (s, .server event, now) := by
        rintro ⟨_, _, hevent, _⟩
        cases hevent
      rw [or_iff_left hnot]
      cases event with
      | connect i =>
          obtain ⟨server, _, rfl⟩ := Option.map_eq_some_iff.mp hstep
          rfl
      | ctx i event =>
          cases hctx : s.server.ctxs i with
          | none => simp [WorkerHandles.step, hctx] at hstep
          | some ctx =>
              obtain ⟨ctx', hdoes, _, _, _, hmisused⟩ := ctx_of_step hctx hstep
              have hthere : (event ≠ .down && !s.alive i) = false := by
                by_cases hdown : event = .down
                · simp [hdown]
                · have hheld := (h.placed i ctx hctx).held (holders_pos_of_does hdoes hdown)
                  rw [alive, hctx, Option.any_some, hheld]
                  exact Bool.and_false _
              rw [hmisused, hthere, Bool.or_false]

theorem sound_of_run (hrun : Run (step host size) start before s) :
    s.Sound host before ∧ (s.misused = false
      ↔ Throughout (fun earlier p => ¬ MeetsOrphan host earlier p) before) := by
  apply hrun.invariant (I := fun before s => s.Sound host before ∧ (s.misused = false
    ↔ Throughout (fun earlier p => ¬ MeetsOrphan host earlier p) before))
  · exact ⟨start_sound, iff_of_true rfl throughout_nil⟩
  · rintro before s ⟨event, now⟩ s' ⟨hsound, hiff⟩ hstep
    refine ⟨hsound.step hstep, ?_⟩
    have hlast : Throughout (fun earlier p => ¬ MeetsOrphan host (before ++ earlier) p)
        [(s, event, now)] ↔ ¬ MeetsOrphan host before (s, event, now) := by
      rw [throughout_cons_iff, and_iff_left throughout_nil, List.append_nil]
    rw [throughout_append_iff, hlast, ← hiff, ← Bool.not_eq_true, hsound.misused_step hstep, not_or,
      Bool.not_eq_true]

/-- **Deleted behind a worker's back.** In every run of the loops and their timers, a session is
used that is not there iff the timer of a worker has something to do when there is an orphan of that
worker: a context of which it has let go while the listening loop still held it, and which that loop
has let go of as well, without a login that keeps it for ever. -/
theorem session_there_iff (host : Host) (size : Nat)
    (before : List (WorkerHandles ι × HandlesEvent ι × Int)) (s : WorkerHandles ι)
    (hrun : Run (step host size) start before s) :
    s.misused = false ↔ Throughout (fun earlier p => ¬ MeetsOrphan host earlier p) before :=
  (sound_of_run hrun).2

/-- A client that logs in and is gone before the listening loop has let go of it. -/
def goneEarly : List (HandlesEvent Unit × Int) :=
  [(.server (.connect ()), 100), (.server (.ctx () (.message .listen [loginFrame] false)), 100),
    (.server (.ctx () (.close .listen)), 100), (.server (.ctx () .addCtx), 100),
    (.server (.ctx () .down), 100), (.server (.ctx () (.close .worker)), 100),
    (.server (.ctx () (.release .worker)), 100), (.server (.ctx () (.release .listen)), 100),
    (.timer none, 103), (.timer (some 0), 103)]

theorem session_there_iff_goneEarly :
    ∃ before s, Run (step (ι := Unit) Host.little 2) start before s ∧ before.length = 10
      ∧ ¬ Throughout (fun earlier p => ¬ MeetsOrphan Host.little earlier p) before := by
  have hrun : (exec (step Host.little 2) start goneEarly).map
      (fun r => (r.1.length, r.2.misused)) = some (10, true) := by decide +kernel
  obtain ⟨⟨before, s⟩, hexec, hend⟩ := Option.map_eq_some_iff.mp hrun
  obtain ⟨hlen, hmisused⟩ := Prod.mk.inj hend
  have hbefore := run_of_exec hexec
  refine ⟨before, s, hbefore, hlen, fun hnone => ?_⟩
  have hthere := (session_there_iff Host.little 2 before s hbefore).mpr hnone
  rw [hmisused] at hthere
  cases hthere

end WorkerHandles

end BabelTrader
