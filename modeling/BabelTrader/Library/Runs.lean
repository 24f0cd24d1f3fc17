import BabelTrader.Library.WhileLoop
import Mathlib.Data.List.Basic

/-!
# Runs of a machine

A machine is a function that makes a step, or refuses it. A run keeps every step it has made
together with the state it was made in, so that a statement about a state can refer to its past.
-/

namespace Runs

variable {σ α : Type}

/-- A run from `start`: the steps behind it, and where it has arrived. -/
inductive Run (step : σ → α → Option σ) (start : σ) : List (σ × α) → σ → Prop where
  | start : Run step start [] start
  | step {before : List (σ × α)} {s s' : σ} {a : α} :
      Run step start before s → step s a = some s' → Run step start (before ++ [(s, a)]) s'

/-- One step after the other, as long as none is refused. -/
def exec (step : σ → α → Option σ) (start : σ) (steps : List α) : Option (List (σ × α) × σ) :=
  steps.foldl
    (fun r a => r.bind fun (before, s) => (step s a).map fun s' => (before ++ [(s, a)], s'))
    (some ([], start))

variable {step : σ → α → Option σ} {start s : σ} {before : List (σ × α)}

/-- **Invariant rule.** -/
theorem Run.invariant {I : List (σ × α) → σ → Prop} (h : Run step start before s)
    (hstart : I [] start)
    (hstep : ∀ before s a s', I before s → step s a = some s' → I (before ++ [(s, a)]) s') :
    I before s := by
  induction h with
  | start => exact hstart
  | step _ hs ih => exact hstep _ _ _ _ ih hs

/-- Every state that a run has gone through ends a shorter run. -/
theorem Run.exists_earlier (h : Run step start before s) {p : σ × α} (hp : p ∈ before) :
    ∃ earlier, earlier <+: before ∧ Run step start earlier p.1 := by
  induction h with
  | start => cases hp
  | @step before t t' a hrun _ ih =>
      obtain hmem | hlast := List.mem_append.mp hp
      · obtain ⟨earlier, hpre, hearlier⟩ := ih hmem
        exact ⟨earlier, hpre.trans (List.prefix_append _ _), hearlier⟩
      · obtain rfl := List.mem_singleton.mp hlast
        exact ⟨before, List.prefix_append _ _, hrun⟩

theorem Run.exists_step (h : Run step start before s) {p : σ × α} (hp : p ∈ before) :
    ∃ s', step p.1 p.2 = some s' := by
  induction h with
  | start => cases hp
  | step _ hstep ih =>
      obtain hmem | hlast := List.mem_append.mp hp
      · exact ih hmem
      · obtain rfl := List.mem_singleton.mp hlast
        exact ⟨_, hstep⟩

theorem run_of_exec {steps : List α} (h : exec step start steps = some (before, s)) :
    Run step start before s := by
  have hall : ∀ r ∈ exec step start steps, Run step start r.1 r.2 := by
    apply List.foldlRecOn
      (motive := fun r : Option (List (σ × α) × σ) => ∀ p ∈ r, Run step start p.1 p.2)
    · intro p hp
      cases hp
      exact .start
    intro r hr a _ p hp
    obtain ⟨⟨before', t⟩, ht, hmap⟩ := Option.bind_eq_some_iff.mp hp
    obtain ⟨t', ht', rfl⟩ := Option.map_eq_some_iff.mp hmap
    exact .step (hr _ ht) ht'
  exact hall _ h

/-! ### Clocks

A machine whose steps come with a time. -/

/-- The times of a run, which starts at zero. -/
def times {ω : Type} (before : List (σ × ω × Int)) : List Int := 0 :: before.map fun p => p.2.2

/-- Time does not go back. -/
def Clocked {ω : Type} (before : List (σ × ω × Int)) : Prop := (times before).Pairwise (· ≤ ·)

theorem clocked_concat_iff {ω : Type} {before : List (σ × ω × Int)} {p : σ × ω × Int} :
    Clocked (before ++ [p]) ↔ Clocked before ∧ ∀ t ∈ times before, t ≤ p.2.2 := by
  rw [Clocked, times, List.map_append, ← List.cons_append, List.pairwise_append]
  simp only [List.map_singleton, List.pairwise_singleton, List.forall_mem_singleton, true_and]
  rfl

/-- **Invariant rule for runs in time.** Each step is made at a time that is not before the time to
which the invariant belongs. -/
theorem Run.clocked_invariant {ω : Type} {step : σ → ω × Int → Option σ} {start s : σ}
    {before : List (σ × ω × Int)} {I : List (σ × ω × Int) → Int → σ → Prop}
    (h : Run step start before s) (hclocked : Clocked before) (hstart : I [] 0 start)
    (hstep : ∀ before t s a now s', I before t s → t ≤ now → step s (a, now) = some s' →
      I (before ++ [(s, a, now)]) now s') : ∃ t ∈ times before, I before t s := by
  induction h with
  | start => exact ⟨0, List.mem_cons_self, hstart⟩
  | @step before s s' a _ hs ih =>
      obtain ⟨hbefore, hnow⟩ := clocked_concat_iff.mp hclocked
      obtain ⟨t, ht, hI⟩ := ih hbefore
      refine ⟨a.2, ?_, hstep before t s a.1 a.2 s' hI (hnow t ht) hs⟩
      rw [times, List.map_append]
      exact List.mem_cons_of_mem _ (List.mem_append_right _ List.mem_cons_self)

/-! ### Loops

The passes of a loop as steps of the machine. -/

variable {ρ : Type} {body : σ → WhileLoop.Pass σ ρ} {r : ρ} {t : σ} {a : α}

theorem Run.append_tops (h : Run step start before s)
    (hagain : ∀ {u v}, body u = .again v → step u a = some v) (htop : WhileLoop.Tops body s t) :
    ∃ after, Run step start (before ++ after) t ∧ ∀ p ∈ after, p.2 = a := by
  induction htop with
  | start => exact ⟨[], by rwa [List.append_nil], nofun⟩
  | @again u v _ hbody ih =>
      obtain ⟨after, hafter, hall⟩ := ih
      refine ⟨after ++ [(u, a)], ?_, List.forall_mem_append.mpr ⟨hall, ?_⟩⟩
      · rw [← List.append_assoc]
        exact .step hafter (hagain hbody)
      · exact List.forall_mem_singleton.mpr rfl

/-- A loop that has ended makes a run longer. -/
theorem Run.append_loop (h : Run step start before s)
    (hagain : ∀ {u v}, body u = .again v → step u a = some v)
    (hleave : ∀ {u}, body u = .leave r → step u a = some t) (hends : WhileLoop.Ends body s r) :
    ∃ after, Run step start (before ++ after) t ∧ ∀ p ∈ after, p.2 = a := by
  obtain ⟨top, htop, hlast⟩ := hends.exists_top
  obtain ⟨after, hafter, hall⟩ := h.append_tops hagain htop
  refine ⟨after ++ [(top, a)], ?_, List.forall_mem_append.mpr ⟨hall, ?_⟩⟩
  · rw [← List.append_assoc]
    exact .step hafter (hleave hlast)
  · exact List.forall_mem_singleton.mpr rfl

/-! ### Logs

What the steps of a run have written down, one after the other. -/

variable {ω : Type} {P : List ω → ω → Prop} {xs ys : List ω} {x : ω}

/-- `P` holds of every entry of a log, together with the entries before it. -/
def Throughout (P : List ω → ω → Prop) (log : List ω) : Prop :=
  ∀ earlier entry later, log = earlier ++ entry :: later → P earlier entry

theorem throughout_nil : Throughout P [] := by
  intro earlier entry later h
  simp at h

theorem throughout_cons_iff :
    Throughout P (x :: xs) ↔ P [] x ∧ Throughout (fun earlier => P (x :: earlier)) xs := by
  constructor
  · intro h
    refine ⟨h [] x xs rfl, ?_⟩
    rintro earlier entry later rfl
    exact h (x :: earlier) entry later rfl
  · rintro ⟨hfirst, hrest⟩ earlier entry later h
    cases earlier with
    | nil =>
        obtain ⟨rfl, rfl⟩ := List.cons.inj h
        exact hfirst
    | cons y earlier =>
        obtain ⟨rfl, hsplit⟩ := List.cons.inj h
        exact hrest earlier entry later hsplit

theorem throughout_singleton (h : P [] x) : Throughout P [x] :=
  throughout_cons_iff.mpr ⟨h, throughout_nil⟩

theorem throughout_append_iff :
    Throughout P (xs ++ ys)
      ↔ Throughout P xs ∧ Throughout (fun earlier => P (xs ++ earlier)) ys := by
  induction xs generalizing P with
  | nil => exact (and_iff_right throughout_nil).symm
  | cons x xs ih =>
      rw [List.cons_append, throughout_cons_iff, throughout_cons_iff, ih, and_assoc]
      rfl

theorem Throughout.imp {Q : List ω → ω → Prop} (h : Throughout P xs)
    (himp : ∀ earlier entry, P earlier entry → Q earlier entry) : Throughout Q xs :=
  fun earlier entry later hsplit => himp _ _ (h earlier entry later hsplit)

/-- What each step writes can be judged by itself, if older entries make no judgement worse. -/
theorem throughout_flatMap {write : σ × α → List ω}
    (holder : ∀ older earlier entry, P earlier entry → P (older ++ earlier) entry)
    (hwrite : ∀ p ∈ before, Throughout P (write p)) : Throughout P (before.flatMap write) := by
  induction before with
  | nil => exact throughout_nil
  | cons p before ih =>
      obtain ⟨hp, hbefore⟩ := List.forall_mem_cons.mp hwrite
      rw [List.flatMap_cons, throughout_append_iff]
      exact ⟨hp, (ih hbefore).imp (holder (write p))⟩

end Runs
