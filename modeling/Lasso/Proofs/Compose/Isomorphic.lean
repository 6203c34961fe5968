import Lasso.Proofs.Compose.Merges
/-!
# Compositions up to the names of their states

In which order systems are put side by side does not matter, up to the names of the states.

* `IsIsomorphism` -- a renaming of states that carries one system over to another;
* `IsIsomorphism.of_reachable` -- systems that can be reached throughout are carried over as soon as
  their initial states and their steps are;
* `stepBeside_swap`, `stepBeside_assoc` -- the steps of two and of three systems side by side;
* `beside_comm_assoc` -- **putting systems side by side is commutative and associative**.
-/

namespace Lasso

/-! ## 1. Renamed systems -/

namespace Pair

variable {α β γ : Type}

/-- The pair the other way round. -/
def swap (p : Pair α β) : Pair β α := ⟨p.second, p.first⟩

/-- A pair and a third thing, as the first and a pair of the others. -/
def assoc (p : Pair (Pair α β) γ) : Pair α (Pair β γ) := ⟨p.first.first, p.first.second, p.second⟩

/-- The first thing and a pair of the others, as a pair and a third thing. -/
def unassoc (p : Pair α (Pair β γ)) : Pair (Pair α β) γ := ⟨⟨p.first, p.second.first⟩, p.second.second⟩

theorem eq_iff {p q : Pair α β} : p = q ↔ p.first = q.first ∧ p.second = q.second := by
  obtain ⟨_, _⟩ := p
  obtain ⟨_, _⟩ := q
  exact Pair.mk.injEq _ _ _ _ ▸ Iff.rfl

end Pair

namespace TransitionSystem

section Isomorphism

variable {S T A P : Type} [DecidableEq S] [Hashable S] [DecidableEq T] [Hashable T] [DecidableEq A]
  [Hashable A] [DecidableEq P] [Hashable P]

/-- **A renaming of states carries one system over to the other**: the states are renamed one to one,
    and initial states, transitions with their actions, and labels stay what they are. -/
structure IsIsomorphism (f : S → T) (m : TransitionSystem S A P) (n : TransitionSystem T A P) : Prop where
  injective : ∀ s ∈ m.states, ∀ t ∈ m.states, f s = f t → s = t
  states : ∀ t, t ∈ n.states ↔ ∃ s ∈ m.states, f s = t
  initial : ∀ s ∈ m.states, s ∈ m.initial ↔ f s ∈ n.initial
  transitions : ∀ s ∈ m.states, ∀ a, ∀ t ∈ m.states,
    ⟨s, a, t⟩ ∈ m.transitions ↔ ⟨f s, a, f t⟩ ∈ n.transitions
  label : ∀ s ∈ m.states, ∀ q, q ∈ m.label s ↔ q ∈ n.label (f s)

variable {f : S → T} {m : TransitionSystem S A P} {n : TransitionSystem T A P}

/-- **Where every state can be reached, initial states and steps decide.** The states are followed from
    the initial ones along the steps, in both systems. -/
theorem IsIsomorphism.of_reachable (hm : m.Consistent) (hn : n.Consistent)
    (hmr : ∀ s ∈ m.states, m.Reachable s) (hnr : ∀ t ∈ n.states, n.Reachable t)
    (hinj : ∀ s ∈ m.states, ∀ t ∈ m.states, f s = f t → s = t)
    (hinit : ∀ t, t ∈ n.initial ↔ ∃ s ∈ m.initial, f s = t)
    (hstep : ∀ s ∈ m.states, f s ∈ n.states → ∀ a t, ⟨s, a, t⟩ ∈ m.transitions →
      ⟨f s, a, f t⟩ ∈ n.transitions)
    (hback : ∀ s ∈ m.states, f s ∈ n.states → ∀ a t', ⟨f s, a, t'⟩ ∈ n.transitions →
      ∃ t, ⟨s, a, t⟩ ∈ m.transitions ∧ f t = t')
    (hlabel : ∀ s ∈ m.states, f s ∈ n.states → ∀ q, q ∈ m.label s ↔ q ∈ n.label (f s)) :
    IsIsomorphism f m n := by
  have himage : ∀ s ∈ m.states, f s ∈ n.states := by
    intro s hs
    obtain ⟨i, hi, his⟩ := hmr s hs
    clear hs
    have hends : s ∈ m.states ∧ f s ∈ n.states := by
      induction his with
      | refl => exact ⟨hm.starts i hi, hn.starts _ ((hinit _).mpr ⟨i, hi, rfl⟩)⟩
      | tail _ hst ih =>
        obtain ⟨a, ha⟩ := hst
        exact ⟨(hm.ends _ ha).2.1, (hn.ends _ (hstep _ ih.1 ih.2 a _ ha)).2.1⟩
    exact hends.2
  have honto : ∀ t ∈ n.states, ∃ s ∈ m.states, f s = t := by
    intro t ht
    obtain ⟨i, hi, hit⟩ := hnr t ht
    clear ht
    induction hit with
    | refl =>
      obtain ⟨s, hs, e⟩ := (hinit i).mp hi
      exact ⟨s, hm.starts s hs, e⟩
    | tail _ hst ih =>
      obtain ⟨a, ha⟩ := hst
      obtain ⟨s, hs, rfl⟩ := ih
      obtain ⟨t, ht, e⟩ := hback s hs (himage s hs) a _ ha
      exact ⟨t, (hm.ends _ ht).2.1, e⟩
  refine ⟨hinj, fun t => ⟨honto t, ?_⟩, fun s hs => ⟨fun h => (hinit _).mpr ⟨s, h, rfl⟩, fun h => ?_⟩,
    fun s hs a t ht => ⟨hstep s hs (himage s hs) a t, fun h => ?_⟩, fun s hs => hlabel s hs (himage s hs)⟩
  · rintro ⟨s, hs, rfl⟩
    exact himage s hs
  · obtain ⟨i, hi, e⟩ := (hinit _).mp h
    exact hinj i (hm.starts i hi) s hs e ▸ hi
  · obtain ⟨t', ht', e⟩ := hback s hs (himage s hs) a _ h
    exact hinj t' (hm.ends _ ht').2.1 t ht e ▸ ht'

/-- The two systems know the same actions and the same propositions. -/
def SameAlphabet (m : TransitionSystem S A P) (n : TransitionSystem T A P) : Prop :=
  (∀ a, a ∈ m.actions ↔ a ∈ n.actions) ∧ ∀ q, q ∈ m.props ↔ q ∈ n.props

end Isomorphism

/-! ## 2. The order of two systems -/

variable {S₁ S₂ S₃ A P : Type} [DecidableEq S₁] [Hashable S₁] [DecidableEq S₂] [Hashable S₂]
  [DecidableEq S₃] [Hashable S₃] [DecidableEq A] [Hashable A] [DecidableEq P] [Hashable P]

variable {handshake : A → Bool} {m₁ : TransitionSystem S₁ A P} {m₂ : TransitionSystem S₂ A P}
  {m₃ : TransitionSystem S₃ A P}

theorem stepBeside_of_true {a : A} (ha : handshake a = true) {s t : Pair S₁ S₂} :
    StepBeside handshake m₁ m₂ s a t ↔
      ⟨s.first, a, t.first⟩ ∈ m₁.transitions ∧ ⟨s.second, a, t.second⟩ ∈ m₂.transitions := by
  constructor
  · intro h
    cases h with
    | both s₁ t₁ s₂ t₂ a _ h₁ h₂ => exact ⟨h₁, h₂⟩
    | left _ _ _ _ ha' _ => rw [ha] at ha'; cases ha'
    | right _ _ _ _ ha' _ => rw [ha] at ha'; cases ha'
  · rintro ⟨h₁, h₂⟩
    exact .both s.first t.first s.second t.second a ha h₁ h₂

theorem stepBeside_of_false {a : A} (ha : handshake a = false) {s t : Pair S₁ S₂} :
    StepBeside handshake m₁ m₂ s a t ↔
      (⟨s.first, a, t.first⟩ ∈ m₁.transitions ∧ t.second = s.second) ∨
        (⟨s.second, a, t.second⟩ ∈ m₂.transitions ∧ t.first = s.first) := by
  constructor
  · intro h
    cases h with
    | both _ _ _ _ _ ha' _ _ => rw [ha] at ha'; cases ha'
    | left s₁ t₁ s₂ a _ h₁ => exact Or.inl ⟨h₁, rfl⟩
    | right s₁ s₂ t₂ a _ h₂ => exact Or.inr ⟨h₂, rfl⟩
  · obtain ⟨t₁, t₂⟩ := t
    rintro (⟨h₁, e⟩ | ⟨h₂, e⟩)
    · obtain rfl : t₂ = s.second := e
      exact .left s.first t₁ s.second a ha h₁
    · obtain rfl : t₁ = s.first := e
      exact .right s.first s.second t₂ a ha h₂

/-- A step of two systems is one of them the other way round. -/
theorem stepBeside_swap {s t : Pair S₁ S₂} {a : A} :
    StepBeside handshake m₁ m₂ s a t ↔ StepBeside handshake m₂ m₁ s.swap a t.swap := by
  cases ha : handshake a with
  | true => rw [stepBeside_of_true ha, stepBeside_of_true ha, and_comm]; rfl
  | false => rw [stepBeside_of_false ha, stepBeside_of_false ha, or_comm]; rfl

theorem Composed.swap {p : TransitionSystem (Pair S₁ S₂) A P} {q : TransitionSystem (Pair S₂ S₁) A P}
    (hp : Composed handshake m₁ m₂ p) (hq : Composed handshake m₂ m₁ q) : IsIsomorphism Pair.swap p q := by
  refine .of_reachable hp.consistent hq.consistent hp.reachable hq.reachable
    (fun s _ t _ e => congrArg Pair.swap e) (fun t => ?_) (fun s hs hs' a t h => ?_)
    (fun s hs hs' a t' h => ⟨t'.swap, ?_, rfl⟩) (fun s hs hs' x => ?_)
  · constructor
    · intro ht
      exact ⟨t.swap, (hp.initial _).mpr ((hq.initial t).mp ht).symm, rfl⟩
    · rintro ⟨s, hs, rfl⟩
      exact (hq.initial _).mpr ((hp.initial s).mp hs).symm
  · exact (hq.transitions _ _ _).mpr ⟨hs', stepBeside_swap.mp ((hp.transitions _ _ _).mp h).2⟩
  · exact (hp.transitions _ _ _).mpr ⟨hs, stepBeside_swap.mpr ((hq.transitions _ _ _).mp h).2⟩
  · rw [hp.label s hs, hq.label _ hs', or_comm]
    rfl

theorem Composed.sameAlphabet_swap {p : TransitionSystem (Pair S₁ S₂) A P}
    {q : TransitionSystem (Pair S₂ S₁) A P} (hp : Composed handshake m₁ m₂ p)
    (hq : Composed handshake m₂ m₁ q) : SameAlphabet p q :=
  ⟨fun a => by rw [hp.actions, hq.actions, or_comm], fun x => by rw [hp.props, hq.props, or_comm]⟩

/-! ## 3. Three systems -/

section Three

variable {p₁₂ : TransitionSystem (Pair S₁ S₂) A P} {p₂₃ : TransitionSystem (Pair S₂ S₃) A P}
  (hp₁₂ : Composed handshake m₁ m₂ p₁₂) (hp₂₃ : Composed handshake m₂ m₃ p₂₃)
include hp₁₂ hp₂₃

/-- **A step of three systems does not depend on which two are composed first**, as far as they are in
    states that these two can reach. -/
theorem stepBeside_assoc {s t : Pair (Pair S₁ S₂) S₃} {a : A} (hs : s.first ∈ p₁₂.states)
    (hs' : s.assoc.second ∈ p₂₃.states) :
    StepBeside handshake p₁₂ m₃ s a t ↔ StepBeside handshake m₁ p₂₃ s.assoc a t.assoc := by
  have h₁₂ := hp₁₂.transitions s.first a t.first
  have h₂₃ := hp₂₃.transitions s.assoc.second a t.assoc.second
  rw [and_iff_right hs] at h₁₂
  rw [and_iff_right hs'] at h₂₃
  cases ha : handshake a with
  | true =>
    rw [stepBeside_of_true ha, stepBeside_of_true ha, h₁₂, h₂₃, stepBeside_of_true ha,
      stepBeside_of_true ha, and_assoc]
    rfl
  | false =>
    rw [stepBeside_of_false ha, stepBeside_of_false ha, h₁₂, h₂₃, stepBeside_of_false ha,
      stepBeside_of_false ha, Pair.eq_iff, Pair.eq_iff]
    -- one of the three moves, and the two others stay
    constructor
    · rintro (⟨⟨h₁, e₂⟩ | ⟨h₂, e₁⟩, e₃⟩ | ⟨h₃, e₁, e₂⟩)
      · exact Or.inl ⟨h₁, e₂, e₃⟩
      · exact Or.inr ⟨Or.inl ⟨h₂, e₃⟩, e₁⟩
      · exact Or.inr ⟨Or.inr ⟨h₃, e₂⟩, e₁⟩
    · rintro (⟨h₁, e₂, e₃⟩ | ⟨⟨h₂, e₃⟩ | ⟨h₃, e₂⟩, e₁⟩)
      · exact Or.inl ⟨Or.inl ⟨h₁, e₂⟩, e₃⟩
      · exact Or.inl ⟨Or.inr ⟨h₂, e₁⟩, e₃⟩
      · exact Or.inr ⟨h₃, e₁, e₂⟩

variable {p : TransitionSystem (Pair (Pair S₁ S₂) S₃) A P}
  {q : TransitionSystem (Pair S₁ (Pair S₂ S₃)) A P} (hp : Composed handshake p₁₂ m₃ p)
  (hq : Composed handshake m₁ p₂₃ q)
include hp hq

theorem Composed.assoc : IsIsomorphism Pair.assoc p q := by
  -- a state of one of the two composes a state of each pair that was composed first
  have hsteps : ∀ s ∈ p.states, s.assoc ∈ q.states → ∀ a t,
      StepBeside handshake p₁₂ m₃ s a t ↔ StepBeside handshake m₁ p₂₃ s.assoc a t.assoc :=
    fun s hs hs' a t => stepBeside_assoc hp₁₂ hp₂₃ (hp.declared s hs).1 (hq.declared _ hs').2
  have hinitial : ∀ s, s ∈ p.initial ↔ s.assoc ∈ q.initial := fun s => by
    rw [hp.initial, hq.initial, hp₁₂.initial, hp₂₃.initial, and_assoc]
    rfl
  refine .of_reachable hp.consistent hq.consistent hp.reachable hq.reachable
    (fun s _ t _ e => congrArg Pair.unassoc e) (fun t => ?_) (fun s hs hs' a t h => ?_)
    (fun s hs hs' a t' h => ⟨t'.unassoc, ?_, rfl⟩) (fun s hs hs' x => ?_)
  · constructor
    · intro ht
      exact ⟨t.unassoc, (hinitial _).mpr ht, rfl⟩
    · rintro ⟨s, hs, rfl⟩
      exact (hinitial s).mp hs
  · exact (hq.transitions _ _ _).mpr ⟨hs', (hsteps s hs hs' a t).mp ((hp.transitions _ _ _).mp h).2⟩
  · exact (hp.transitions _ _ _).mpr
      ⟨hs, (hsteps s hs hs' a t'.unassoc).mpr ((hq.transitions _ _ _).mp h).2⟩
  · rw [hp.label s hs, hq.label _ hs', hp₁₂.label _ (hp.declared s hs).1,
      hp₂₃.label _ (hq.declared _ hs').2, or_assoc]
    rfl

theorem Composed.sameAlphabet_assoc : SameAlphabet p q :=
  ⟨fun a => by rw [hp.actions, hq.actions, hp₁₂.actions, hp₂₃.actions, or_assoc],
    fun x => by rw [hp.props, hq.props, hp₁₂.props, hp₂₃.props, or_assoc]⟩

end Three

variable [Display S₁] [Display S₂] [Display S₃] [Display A] [Display P]

/-- **Putting systems side by side is commutative and associative**, up to the names of the states and
    for every handshake. What cannot be reached is dropped before the third system comes; the third
    would not have reached it either. -/
theorem beside_comm_assoc (m₁ : TransitionSystem S₁ A P) (m₂ : TransitionSystem S₂ A P)
    (m₃ : TransitionSystem S₃ A P) (h₁ : m₁.Built) (h₂ : m₂.Built) (h₃ : m₃.Built)
    (handshake : A → Bool) :
    (IsIsomorphism Pair.swap (m₁.beside m₂ handshake) (m₂.beside m₁ handshake) ∧
      SameAlphabet (m₁.beside m₂ handshake) (m₂.beside m₁ handshake)) ∧
    IsIsomorphism Pair.assoc ((m₁.beside m₂ handshake).beside m₃ handshake)
        (m₁.beside (m₂.beside m₃ handshake) handshake) ∧
      SameAlphabet ((m₁.beside m₂ handshake).beside m₃ handshake)
        (m₁.beside (m₂.beside m₃ handshake) handshake) := by
  have h₁₂ := composed_beside handshake h₁.consistent h₂.consistent
  have h₂₁ := composed_beside handshake h₂.consistent h₁.consistent
  have h₂₃ := composed_beside handshake h₂.consistent h₃.consistent
  have hp := composed_beside handshake h₁₂.consistent h₃.consistent
  have hq := composed_beside handshake h₁.consistent h₂₃.consistent
  exact ⟨⟨h₁₂.swap h₂₁, h₁₂.sameAlphabet_swap h₂₁⟩, h₁₂.assoc h₂₃ hp hq,
    h₁₂.sameAlphabet_assoc h₂₃ hp hq⟩

theorem beside_comm_assoc_worker :
    worker.Built ∧
    (IsIsomorphism Pair.swap (worker.beside worker (· == 1)) (worker.beside worker (· == 1)) ∧
      SameAlphabet (worker.beside worker (· == 1)) (worker.beside worker (· == 1))) ∧
    IsIsomorphism Pair.assoc ((worker.beside worker (· == 1)).beside worker (· == 1))
        (worker.beside (worker.beside worker (· == 1)) (· == 1)) ∧
      SameAlphabet ((worker.beside worker (· == 1)).beside worker (· == 1))
        (worker.beside (worker.beside worker (· == 1)) (· == 1)) :=
  ⟨worker_built, beside_comm_assoc worker worker worker worker_built worker_built worker_built (· == 1)⟩

end TransitionSystem

end Lasso
