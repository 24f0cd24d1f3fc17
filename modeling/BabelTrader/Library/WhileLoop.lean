import Mathlib.Logic.Basic

/-!
# Loops that only leave from the inside

A `while (true)` loop is a body that either starts over in a new state or leaves with a result. The
body is an ordinary function, so the loop may run forever: `run` gives it a number of passes, `Ends`
says that some number is enough, and `Tops` collects the states in which a pass begins, whether or
not the loop ever ends.
-/

namespace WhileLoop

variable {σ ρ : Type}

/-- What one pass through the body decides. -/
inductive Pass (σ ρ : Type) where
  | again (s : σ)
  | leave (r : ρ)

/-- Up to `passes` passes through the body. -/
def run (body : σ → Pass σ ρ) : Nat → σ → Option ρ
  | 0, _ => none
  | passes + 1, s =>
      match body s with
      | .again s' => run body passes s'
      | .leave r => some r

/-- The loop started in `s` leaves with `r`. -/
def Ends (body : σ → Pass σ ρ) (s : σ) (r : ρ) : Prop := ∃ passes, run body passes s = some r

/-- The states at the top of a pass, when the loop is started in `s`. -/
inductive Tops (body : σ → Pass σ ρ) (s : σ) : σ → Prop where
  | start : Tops body s s
  | again {t u : σ} : Tops body s t → body t = .again u → Tops body s u

variable {body : σ → Pass σ ρ} {s s' t : σ} {r : ρ}

theorem run_again (h : body s = .again s') (passes : Nat) :
    run body (passes + 1) s = run body passes s' := by
  simp only [run, h]

theorem run_leave (h : body s = .leave r) (passes : Nat) :
    run body (passes + 1) s = some r := by
  simp only [run, h]

theorem run_mono {passes more : Nat} (hle : passes ≤ more) (h : run body passes s = some r) :
    run body more s = some r := by
  induction passes generalizing s more with
  | zero => simp [run] at h
  | succ passes ih =>
      obtain ⟨more, rfl⟩ : ∃ m, more = m + 1 := ⟨more - 1, by omega⟩
      cases hbody : body s with
      | again s' =>
          rw [run_again hbody] at h ⊢
          exact ih (by omega) h
      | leave r' =>
          rw [run_leave hbody] at h ⊢
          exact h

theorem Ends.of_leave (h : body s = .leave r) : Ends body s r := ⟨1, run_leave h 0⟩

theorem ends_again_iff (h : body s = .again s') : Ends body s r ↔ Ends body s' r := by
  constructor
  · rintro ⟨passes, hrun⟩
    cases passes with
    | zero => simp [run] at hrun
    | succ passes => exact ⟨passes, by rwa [run_again h] at hrun⟩
  · rintro ⟨passes, hrun⟩
    exact ⟨passes + 1, by rwa [run_again h]⟩

theorem Ends.unique {r₁ r₂ : ρ} (h₁ : Ends body s r₁) (h₂ : Ends body s r₂) : r₁ = r₂ := by
  obtain ⟨n₁, h₁⟩ := h₁
  obtain ⟨n₂, h₂⟩ := h₂
  have hmax₁ := run_mono (Nat.le_max_left n₁ n₂) h₁
  have hmax₂ := run_mono (Nat.le_max_right n₁ n₂) h₂
  exact Option.some.inj (hmax₁.symm.trans hmax₂)

/-- **Rule for a loop that has ended.** What the last pass establishes, and every earlier pass hands
back to its start, holds between the start and the result. -/
theorem Ends.rule {P : σ → ρ → Prop} (h : Ends body s r)
    (hleave : ∀ s r, body s = .leave r → P s r)
    (hagain : ∀ s s' r, body s = .again s' → P s' r → P s r) : P s r := by
  obtain ⟨passes, hrun⟩ := h
  induction passes generalizing s with
  | zero => simp [run] at hrun
  | succ passes ih =>
      cases hbody : body s with
      | again s' =>
          rw [run_again hbody] at hrun
          exact hagain s s' r hbody (ih hrun)
      | leave r' =>
          rw [run_leave hbody] at hrun
          obtain rfl := Option.some.inj hrun
          exact hleave s r' hbody

/-- **Invariant rule.** -/
theorem Tops.invariant {I : σ → Prop} (h : Tops body s t) (hstart : I s)
    (hagain : ∀ t u, I t → body t = .again u → I u) : I t := by
  induction h with
  | start => exact hstart
  | again _ hbody ih => exact hagain _ _ ih hbody

theorem Tops.trans {u : σ} (h : Tops body s t) (h' : Tops body t u) : Tops body s u := by
  induction h' with
  | start => exact h
  | again _ hbody ih => exact .again ih hbody

theorem Tops.cons (h : body s = .again s') (h' : Tops body s' t) : Tops body s t :=
  Tops.trans (.again .start h) h'

theorem Ends.exists_top (h : Ends body s r) : ∃ t, Tops body s t ∧ body t = .leave r := by
  refine h.rule (P := fun s r => ∃ t, Tops body s t ∧ body t = .leave r) ?_ ?_
  · intro s r hleave
    exact ⟨s, .start, hleave⟩
  · rintro s s' r hagain ⟨t, htop, hleave⟩
    exact ⟨t, htop.cons hagain, hleave⟩

theorem Tops.ends_iff (h : Tops body s t) : Ends body s r ↔ Ends body t r := by
  induction h with
  | start => exact Iff.rfl
  | again _ hbody ih => exact ih.trans (ends_again_iff hbody)

/-- **Termination rule.** The loop ends when every pass that starts over lowers a measure, and the
measure bounds the passes. -/
theorem run_of_measure (μ : σ → Nat) {I : σ → Prop} (hstart : I s)
    (hagain : ∀ t u, I t → body t = .again u → I u ∧ μ u < μ t) {passes : Nat} (hμ : μ s < passes) :
    ∃ r, run body passes s = some r := by
  induction passes generalizing s with
  | zero => omega
  | succ passes ih =>
      cases hbody : body s with
      | leave r => exact ⟨r, run_leave hbody passes⟩
      | again s' =>
          obtain ⟨hinv, hlt⟩ := hagain s s' hstart hbody
          rw [run_again hbody]
          exact ih hinv (by omega)

theorem ends_of_measure (μ : σ → Nat) {I : σ → Prop} (hstart : I s)
    (hagain : ∀ t u, I t → body t = .again u → I u ∧ μ u < μ t) : ∃ r, Ends body s r := by
  obtain ⟨r, hrun⟩ := run_of_measure μ hstart hagain (Nat.lt_succ_self _)
  exact ⟨r, _, hrun⟩

/-- **Divergence rule.** A loop whose passes always start over within `I` never ends. -/
theorem not_ends_of_invariant {I : σ → Prop} (hstart : I s)
    (hagain : ∀ t, I t → ∃ u, body t = .again u ∧ I u) : ¬ Ends body s r := by
  intro hends
  refine hends.rule (P := fun s _ => ¬ I s) ?_ ?_ hstart
  · intro s r hleave hI
    obtain ⟨u, hbody, _⟩ := hagain s hI
    rw [hleave] at hbody
    cases hbody
  · intro s s' r hbody hnot hI
    obtain ⟨u, hbody', hIu⟩ := hagain s hI
    rw [hbody] at hbody'
    cases hbody'
    exact hnot hIu

/-! ### Two loops side by side -/

section Related

variable {σ₁ σ₂ ρ₁ ρ₂ : Type} {R : σ₁ → σ₂ → Prop} {Q : ρ₁ → ρ₂ → Prop}

/-- Two passes decide the same, up to `R` on states and `Q` on results. -/
inductive Pass.Related (R : σ₁ → σ₂ → Prop) (Q : ρ₁ → ρ₂ → Prop) :
    Pass σ₁ ρ₁ → Pass σ₂ ρ₂ → Prop where
  | again {s : σ₁} {t : σ₂} : R s t → Related R Q (.again s) (.again t)
  | leave {r : ρ₁} {q : ρ₂} : Q r q → Related R Q (.leave r) (.leave q)

/-- **Lockstep rule.** -/
theorem run_related {body₁ : σ₁ → Pass σ₁ ρ₁} {body₂ : σ₂ → Pass σ₂ ρ₂}
    (hbody : ∀ s t, R s t → Pass.Related R Q (body₁ s) (body₂ t)) {s : σ₁} {t : σ₂} (h : R s t)
    (passes : Nat) : Option.Rel Q (run body₁ passes s) (run body₂ passes t) := by
  induction passes generalizing s t with
  | zero => exact .none
  | succ passes ih =>
      have hpass := hbody s t h
      cases hs : body₁ s with
      | again s' =>
          cases ht : body₂ t with
          | again t' =>
              rw [hs, ht] at hpass
              cases hpass with
              | again hR =>
                  rw [run_again hs, run_again ht]
                  exact ih hR
          | leave q =>
              rw [hs, ht] at hpass
              cases hpass
      | leave r =>
          cases ht : body₂ t with
          | again t' =>
              rw [hs, ht] at hpass
              cases hpass
          | leave q =>
              rw [hs, ht] at hpass
              cases hpass with
              | leave hQ =>
                  rw [run_leave hs, run_leave ht]
                  exact .some hQ

end Related

end WhileLoop
