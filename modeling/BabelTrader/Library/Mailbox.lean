import Mathlib.Data.List.Infix
import Mathlib.Logic.Relation

/-!
# Two parties and their messages

Two parties send each other messages, each over a channel of its own that keeps their order. A
message that a party sends is posted, or it is lost: from then on the party posts nothing more, as
after closing. Between two moves any message posted may still be under way, so a party takes the
other's messages one after the other, and any number of them may still be to come.
-/

namespace Mailbox

inductive Act (μ : Type) where
  | send (msg : μ)
  | close

/-- The messages that are sent, in their order. -/
def sends {μ : Type} (acts : List (Act μ)) : List μ :=
  acts.filterMap fun
    | .send msg => some msg
    | .close => none

def closes {μ : Type} (acts : List (Act μ)) : Bool :=
  acts.any fun
    | .send _ => false
    | .close => true

theorem sends_append {μ : Type} (acts acts' : List (Act μ)) :
    sends (acts ++ acts') = sends acts ++ sends acts' := List.filterMap_append

theorem closes_append {μ : Type} (acts acts' : List (Act μ)) :
    closes (acts ++ acts') = (closes acts || closes acts') := List.any_append

/-- What a party may do of its own, and when it takes a message: its acts, and its next state. -/
structure Behaviour (σ μ : Type) where
  act : σ → List (Act μ) → σ → Prop
  receive : σ → μ → List (Act μ) → σ → Prop

/-- A party, with all it has sent, all of it that was posted, and all it has taken, and whether it
has lost a message or closed. -/
structure Party (σ μ : Type) where
  state : σ
  asked : List μ
  posted : List μ
  taken : List μ
  lost : Bool
  closed : Bool

namespace Party

variable {σ μ : Type}

def start (state : σ) : Party σ μ := ⟨state, [], [], [], false, false⟩

inductive Performs : Party σ μ → List (Act μ) → Party σ μ → Prop where
  | done (p : Party σ μ) : Performs p [] p
  | post {p p' : Party σ μ} {msg : μ} {acts : List (Act μ)} : p.lost = false →
      p.closed = false →
      Performs { p with asked := p.asked ++ [msg], posted := p.posted ++ [msg] } acts p' →
      Performs p (.send msg :: acts) p'
  | lose {p p' : Party σ μ} {msg : μ} {acts : List (Act μ)} :
      Performs { p with asked := p.asked ++ [msg], lost := true } acts p' →
      Performs p (.send msg :: acts) p'
  | close {p p' : Party σ μ} {acts : List (Act μ)} :
      Performs { p with closed := true } acts p' → Performs p (.close :: acts) p'

/-- A move of a party for which `inbox` has been posted. -/
inductive Moves (b : Behaviour σ μ) (inbox : List μ) (p : Party σ μ) : Party σ μ → Prop where
  | act {p' : Party σ μ} {acts : List (Act μ)} {state : σ} : b.act p.state acts state →
      Performs { p with state := state } acts p' → Moves b inbox p p'
  | receive {p' : Party σ μ} {msg : μ} {acts : List (Act μ)} {state : σ} :
      p.taken ++ [msg] <+: inbox → b.receive p.state msg acts state →
      Performs { p with state := state, taken := p.taken ++ [msg] } acts p' → Moves b inbox p p'

/-- What is posted is what was sent, up to the first loss. -/
structure Ordered (p : Party σ μ) : Prop where
  posted : p.posted <+: p.asked
  lost : p.lost = false → p.posted = p.asked

variable {b : Behaviour σ μ} {inbox : List μ} {p p' : Party σ μ} {acts acts' : List (Act μ)}

theorem ordered_start (state : σ) : (start state : Party σ μ).Ordered :=
  ⟨List.prefix_refl _, fun _ => rfl⟩

/-! ### What acting changes -/

theorem Performs.trans {p'' : Party σ μ} (h : Performs p acts p') (h' : Performs p' acts' p'') :
    Performs p (acts ++ acts') p'' := by
  induction h with
  | done => exact h'
  | post hlost hclosed _ ih => exact .post hlost hclosed (ih h')
  | lose _ ih => exact .lose (ih h')
  | close _ ih => exact .close (ih h')

/-- Acting leaves the party's state and what it has taken alone, and adds to the rest. -/
structure Extends (p : Party σ μ) (acts : List (Act μ)) (p' : Party σ μ) : Prop where
  state : p'.state = p.state
  taken : p'.taken = p.taken
  asked : p'.asked = p.asked ++ sends acts
  closed : p'.closed = (p.closed || closes acts)
  posted : p.posted <+: p'.posted

theorem Performs.extends (h : Performs p acts p') : Extends p acts p' := by
  induction h with
  | done => exact ⟨rfl, rfl, (List.append_nil _).symm, (Bool.or_false _).symm, List.prefix_refl _⟩
  | post _ _ _ ih =>
      refine ⟨ih.state, ih.taken, ?_, ih.closed, (List.prefix_append _ _).trans ih.posted⟩
      rw [ih.asked, List.append_assoc]
      rfl
  | lose _ ih =>
      refine ⟨ih.state, ih.taken, ?_, ih.closed, ih.posted⟩
      rw [ih.asked, List.append_assoc]
      rfl
  | close _ ih =>
      refine ⟨ih.state, ih.taken, ih.asked, ?_, ih.posted⟩
      rw [ih.closed, Bool.true_or]
      exact (Bool.or_true _).symm

theorem Performs.ordered (h : Performs p acts p') (hp : p.Ordered) : p'.Ordered := by
  induction h with
  | done => exact hp
  | post hlost _ _ ih =>
      apply ih
      have hall := hp.lost hlost
      refine ⟨?_, fun _ => ?_⟩
      · simp only [hall, List.prefix_refl]
      · simp only [hall]
  | lose _ ih =>
      apply ih
      refine ⟨hp.posted.trans (List.prefix_append _ _), ?_⟩
      intro hlost
      cases hlost
  | close _ ih => exact ih ⟨hp.posted, hp.lost⟩

/-! ### What a move changes -/

theorem Moves.ordered (h : Moves b inbox p p') (hp : p.Ordered) : p'.Ordered := by
  cases h with
  | act _ hperforms => exact hperforms.ordered ⟨hp.posted, hp.lost⟩
  | receive _ _ hperforms => exact hperforms.ordered ⟨hp.posted, hp.lost⟩

theorem Moves.posted (h : Moves b inbox p p') : p.posted <+: p'.posted := by
  cases h with
  | act _ hperforms => exact hperforms.extends.posted
  | receive _ _ hperforms => exact hperforms.extends.posted

theorem Moves.taken (h : Moves b inbox p p') (hp : p.taken <+: inbox) : p'.taken <+: inbox := by
  cases h with
  | act _ hperforms => rwa [hperforms.extends.taken]
  | receive hinbox _ hperforms => rwa [hperforms.extends.taken]

/-- A move depends on no more of the inbox than what has been taken after it. -/
theorem Moves.mono {inbox' : List μ} (h : Moves b inbox p p') (hp : p'.taken <+: inbox') :
    Moves b inbox' p p' := by
  cases h with
  | act hact hperforms => exact .act hact hperforms
  | receive _ hreceive hperforms =>
      refine .receive ?_ hreceive hperforms
      rwa [hperforms.extends.taken] at hp

/-! ### One party alone

Nothing is known of the other party, so anything may be in the inbox. -/

abbrev Reaches (b : Behaviour σ μ) : Party σ μ → Party σ μ → Prop :=
  Relation.ReflTransGen fun p p' => ∃ inbox, Moves b inbox p p'

/-- **Invariant rule for a party alone.** -/
theorem Reaches.invariant {I : Party σ μ → Prop} (h : Reaches b p p') (hp : I p)
    (hmoves : ∀ {inbox p p'}, I p → Moves b inbox p p' → I p') : I p' := by
  induction h with
  | refl => exact hp
  | tail _ hstep ih =>
      obtain ⟨_, hmove⟩ := hstep
      exact hmoves ih hmove

end Party

/-! ### Both parties -/

structure Config (σ τ μ : Type) where
  left : Party σ μ
  right : Party τ μ

section Runs

variable {σ τ μ : Type} (b : Behaviour σ μ) (c : Behaviour τ μ)

inductive Step (conf : Config σ τ μ) : Config σ τ μ → Prop where
  | left {p : Party σ μ} : Party.Moves b conf.right.posted conf.left p →
      Step conf { conf with left := p }
  | right {p : Party τ μ} : Party.Moves c conf.left.posted conf.right p →
      Step conf { conf with right := p }

abbrev Reaches : Config σ τ μ → Config σ τ μ → Prop := Relation.ReflTransGen (Step b c)

/-- Each party has taken some of what the other has posted, in the order of sending. -/
structure Config.Sound (conf : Config σ τ μ) : Prop where
  left : conf.left.Ordered
  right : conf.right.Ordered
  taken_left : conf.left.taken <+: conf.right.posted
  taken_right : conf.right.taken <+: conf.left.posted

variable {b c} {conf conf' : Config σ τ μ}

theorem Config.sound_start (s : σ) (t : τ) :
    (⟨.start s, .start t⟩ : Config σ τ μ).Sound :=
  ⟨Party.ordered_start s, Party.ordered_start t, List.prefix_refl _, List.prefix_refl _⟩

theorem Step.sound (h : Step b c conf conf') (hconf : conf.Sound) : conf'.Sound := by
  cases h with
  | left hmoves =>
      exact ⟨hmoves.ordered hconf.left, hconf.right, hmoves.taken hconf.taken_left,
        hconf.taken_right.trans hmoves.posted⟩
  | right hmoves =>
      exact ⟨hconf.left, hmoves.ordered hconf.right, hconf.taken_left.trans hmoves.posted,
        hmoves.taken hconf.taken_right⟩

theorem Reaches.sound (h : Reaches b c conf conf') (hconf : conf.Sound) : conf'.Sound := by
  induction h with
  | refl => exact hconf
  | tail _ hstep ih => exact hstep.sound ih

/-- **Invariant rule for one party.** What its moves keep, whatever has been posted for it, holds
whatever the other party does. -/
theorem Reaches.left_invariant {I : Party σ μ → Prop} (h : Reaches b c conf conf')
    (hstart : I conf.left) (hmoves : ∀ {inbox p p'}, I p → Party.Moves b inbox p p' → I p') :
    I conf'.left := by
  induction h with
  | refl => exact hstart
  | tail _ hstep ih =>
      cases hstep with
      | left hmove => exact hmoves ih hmove
      | right => exact ih

theorem Reaches.right_invariant {I : Party τ μ → Prop} (h : Reaches b c conf conf')
    (hstart : I conf.right) (hmoves : ∀ {inbox p p'}, I p → Party.Moves c inbox p p' → I p') :
    I conf'.right := by
  induction h with
  | refl => exact hstart
  | tail _ hstep ih =>
      cases hstep with
      | left => exact ih
      | right hmove => exact hmoves ih hmove

end Runs

end Mailbox
