import Lasso.Proofs.Compose.Beside
import Lasso.Proofs.System.Path
/-!
# The runs of a composition

Two systems side by side run as their two sides do, merged: a step of the handshake is one step of both,
any other step is one of a single side, and the other side stays where it is.

* `Merges` -- the merges of the steps of two sides;
* `handshakes_eq_of_merges`, `exists_merges` -- steps have a merge exactly if they agree on the
  handshake;
* `Composed.exists_merges_of_follows`, `Composed.follows_of_merges` -- the steps of a composition are
  the merges of steps of its sides;
* `beside_runs` -- **the runs of a composition are the merges of the runs of its sides, and its states
  are those in which merges end**.
-/

namespace Lasso.TransitionSystem

/-! ## 1. Merges -/

section Merges

variable {S S₁ S₂ A : Type}

/-- **A merge of the steps of two sides.** The steps of the handshake are taken at once, all others one
    at a time; the side that takes no step keeps its state. -/
inductive Merges (handshake : A → Bool) :
    S₁ → S₂ → List (A × S₁) → List (A × S₂) → List (A × Pair S₁ S₂) → Prop where
  | done (s₁ : S₁) (s₂ : S₂) : Merges handshake s₁ s₂ [] [] []
  | both (s₁ t₁ : S₁) (s₂ t₂ : S₂) (a : A) (u : List (A × S₁)) (v : List (A × S₂))
      (w : List (A × Pair S₁ S₂)) (ha : handshake a = true) (h : Merges handshake t₁ t₂ u v w) :
      Merges handshake s₁ s₂ ((a, t₁) :: u) ((a, t₂) :: v) ((a, ⟨t₁, t₂⟩) :: w)
  | left (s₁ t₁ : S₁) (s₂ : S₂) (a : A) (u : List (A × S₁)) (v : List (A × S₂))
      (w : List (A × Pair S₁ S₂)) (ha : handshake a = false) (h : Merges handshake t₁ s₂ u v w) :
      Merges handshake s₁ s₂ ((a, t₁) :: u) v ((a, ⟨t₁, s₂⟩) :: w)
  | right (s₁ : S₁) (s₂ t₂ : S₂) (a : A) (u : List (A × S₁)) (v : List (A × S₂))
      (w : List (A × Pair S₁ S₂)) (ha : handshake a = false) (h : Merges handshake s₁ t₂ u v w) :
      Merges handshake s₁ s₂ u ((a, t₂) :: v) ((a, ⟨s₁, t₂⟩) :: w)

/-- The actions of the handshake among the steps, in their order. -/
def handshakes (handshake : A → Bool) (u : List (A × S)) : List A :=
  (u.map (·.1)).filter handshake

theorem handshakes_cons_of_true {handshake : A → Bool} {a : A} (ha : handshake a = true) (t : S)
    (u : List (A × S)) : handshakes handshake ((a, t) :: u) = a :: handshakes handshake u :=
  List.filter_cons_of_pos ha

theorem handshakes_cons_of_false {handshake : A → Bool} {a : A} (ha : handshake a = false) (t : S)
    (u : List (A × S)) : handshakes handshake ((a, t) :: u) = handshakes handshake u :=
  List.filter_cons_of_neg (by rw [ha]; exact Bool.false_ne_true)

variable {handshake : A → Bool} {s₁ : S₁} {s₂ : S₂} {u : List (A × S₁)} {v : List (A × S₂)}
  {w : List (A × Pair S₁ S₂)}

theorem handshakes_eq_of_merges (h : Merges handshake s₁ s₂ u v w) :
    handshakes handshake u = handshakes handshake v := by
  induction h with
  | done => rfl
  | both s₁ t₁ s₂ t₂ a u v w ha _ ih =>
    rw [handshakes_cons_of_true ha, handshakes_cons_of_true ha, ih]
  | left s₁ t₁ s₂ a u v w ha _ ih => rw [handshakes_cons_of_false ha, ih]
  | right s₁ s₂ t₂ a u v w ha _ ih => rw [handshakes_cons_of_false ha, ih]

/-- Steps of the second side alone have a merge with none of the first. -/
theorem exists_merges_nil (s₁ : S₁) (s₂ : S₂) (v : List (A × S₂)) (h : handshakes handshake v = []) :
    ∃ w, Merges handshake s₁ s₂ [] v w := by
  induction v generalizing s₂ with
  | nil => exact ⟨[], .done s₁ s₂⟩
  | cons y v ih =>
    obtain ⟨b, t₂⟩ := y
    cases hb : handshake b with
    | true => rw [handshakes_cons_of_true hb] at h; cases h
    | false =>
      rw [handshakes_cons_of_false hb] at h
      obtain ⟨w, hw⟩ := ih t₂ h
      exact ⟨_, .right s₁ s₂ t₂ b [] v w hb hw⟩

/-- A step of the handshake is met as soon as the second side comes to its own. -/
theorem exists_merges_both {a : A} (ha : handshake a = true) (s₁ t₁ : S₁) (s₂ : S₂)
    (u : List (A × S₁)) (v : List (A × S₂))
    (hu : ∀ (t₂ : S₂) (v' : List (A × S₂)), handshakes handshake u = handshakes handshake v' →
      ∃ w, Merges handshake t₁ t₂ u v' w)
    (h : a :: handshakes handshake u = handshakes handshake v) :
    ∃ w, Merges handshake s₁ s₂ ((a, t₁) :: u) v w := by
  induction v generalizing s₂ with
  | nil => cases h
  | cons y v ih =>
    obtain ⟨b, t₂⟩ := y
    cases hb : handshake b with
    | true =>
      rw [handshakes_cons_of_true hb, List.cons.injEq] at h
      obtain ⟨rfl, h⟩ := h
      obtain ⟨w, hw⟩ := hu t₂ v h
      exact ⟨_, .both s₁ t₁ s₂ t₂ a u v w ha hw⟩
    | false =>
      rw [handshakes_cons_of_false hb] at h
      obtain ⟨w, hw⟩ := ih t₂ h
      exact ⟨_, .right s₁ s₂ t₂ b _ v w hb hw⟩

/-- **Steps that agree on the handshake have a merge.** -/
theorem exists_merges (s₁ : S₁) (s₂ : S₂) (u : List (A × S₁)) (v : List (A × S₂))
    (h : handshakes handshake u = handshakes handshake v) : ∃ w, Merges handshake s₁ s₂ u v w := by
  induction u generalizing s₁ s₂ v with
  | nil => exact exists_merges_nil s₁ s₂ v h.symm
  | cons x u ih =>
    obtain ⟨a, t₁⟩ := x
    cases ha : handshake a with
    | true =>
      rw [handshakes_cons_of_true ha] at h
      exact exists_merges_both ha s₁ t₁ s₂ u v (fun t₂ v' => ih t₁ t₂ v') h
    | false =>
      rw [handshakes_cons_of_false ha] at h
      obtain ⟨w, hw⟩ := ih t₁ s₂ v h
      exact ⟨_, .left s₁ t₁ s₂ a u v w ha hw⟩

end Merges

/-! ## 2. The steps of a composition -/

variable {S₁ S₂ A P : Type} [DecidableEq S₁] [Hashable S₁] [DecidableEq S₂] [Hashable S₂]
  [DecidableEq A] [Hashable A] [DecidableEq P] [Hashable P]

section Composed

variable {handshake : A → Bool} {m₁ : TransitionSystem S₁ A P} {m₂ : TransitionSystem S₂ A P}
  {p : TransitionSystem (Pair S₁ S₂) A P}

/-- **Steps of a composition are a merge of steps of its sides.** -/
theorem Composed.exists_merges_of_follows (hp : Composed handshake m₁ m₂ p) {s : Pair S₁ S₂}
    {w : List (A × Pair S₁ S₂)} (h : p.Follows s w) :
    ∃ u v, Merges handshake s.first s.second u v w ∧ m₁.Follows s.first u ∧ m₂.Follows s.second v := by
  induction w generalizing s with
  | nil => exact ⟨[], [], .done _ _, trivial, trivial⟩
  | cons x w ih =>
    obtain ⟨a, t⟩ := x
    obtain ⟨hst, hw⟩ := h
    obtain ⟨-, hstep⟩ := (hp.transitions s a t).mp hst
    obtain ⟨u, v, hm, hu, hv⟩ := ih hw
    -- what the step adds to the two sides is read off the way it came about
    cases hstep with
    | both s₁ t₁ s₂ t₂ a ha h₁ h₂ =>
      exact ⟨_, _, .both s₁ t₁ s₂ t₂ a u v w ha hm, ⟨h₁, hu⟩, ⟨h₂, hv⟩⟩
    | left s₁ t₁ s₂ a ha h₁ => exact ⟨_, _, .left s₁ t₁ s₂ a u v w ha hm, ⟨h₁, hu⟩, hv⟩
    | right s₁ s₂ t₂ a ha h₂ => exact ⟨_, _, .right s₁ s₂ t₂ a u v w ha hm, hu, ⟨h₂, hv⟩⟩

/-- A step from a state of the composition is one of its transitions, and leads to one of its states. -/
theorem Composed.step (hp : Composed handshake m₁ m₂ p) {s t : Pair S₁ S₂} {a : A} (hs : s ∈ p.states)
    (h : StepBeside handshake m₁ m₂ s a t) : ⟨s, a, t⟩ ∈ p.transitions ∧ t ∈ p.states := by
  have ht := (hp.transitions s a t).mpr ⟨hs, h⟩
  exact ⟨ht, (hp.consistent.ends _ ht).2.1⟩

/-- **Every merge of steps of the two sides is one of steps of the composition.** -/
theorem Composed.follows_of_merges (hp : Composed handshake m₁ m₂ p) {s₁ : S₁} {s₂ : S₂}
    {u : List (A × S₁)} {v : List (A × S₂)} {w : List (A × Pair S₁ S₂)}
    (hm : Merges handshake s₁ s₂ u v w) (hs : ⟨s₁, s₂⟩ ∈ p.states) (hu : m₁.Follows s₁ u)
    (hv : m₂.Follows s₂ v) : p.Follows ⟨s₁, s₂⟩ w := by
  induction hm with
  | done => trivial
  | both s₁ t₁ s₂ t₂ a u v w ha _ ih =>
    obtain ⟨hst, ht⟩ := hp.step hs (.both s₁ t₁ s₂ t₂ a ha hu.1 hv.1)
    exact ⟨hst, ih ht hu.2 hv.2⟩
  | left s₁ t₁ s₂ a u v w ha _ ih =>
    obtain ⟨hst, ht⟩ := hp.step hs (.left s₁ t₁ s₂ a ha hu.1)
    exact ⟨hst, ih ht hu.2 hv⟩
  | right s₁ s₂ t₂ a u v w ha _ ih =>
    obtain ⟨hst, ht⟩ := hp.step hs (.right s₁ s₂ t₂ a ha hv.1)
    exact ⟨hst, ih ht hu hv.2⟩

end Composed

/-! ## 3. The runs of a composition -/

section Runs

variable [Display S₁] [Display S₂] [Display A]

/-- **A composition that runs as its two sides do, merged.** -/
structure RunsMerged (handshake : A → Bool) (m₁ : TransitionSystem S₁ A P)
    (m₂ : TransitionSystem S₂ A P) (p : TransitionSystem (Pair S₁ S₂) A P) : Prop where
  /-- Every run is a merge of runs of the two sides, which agree on the handshake. -/
  projects : ∀ s w, p.Runs s w → ∃ u v, m₁.Runs s.first u ∧ m₂.Runs s.second v ∧
    handshakes handshake u = handshakes handshake v ∧ Merges handshake s.first s.second u v w
  /-- Runs that agree on the handshake can be merged, and each of their merges is a run. -/
  merges : ∀ s₁ s₂ u v, m₁.Runs s₁ u → m₂.Runs s₂ v →
    handshakes handshake u = handshakes handshake v →
      (∃ w, Merges handshake s₁ s₂ u v w) ∧
        ∀ w, Merges handshake s₁ s₂ u v w → p.Runs ⟨s₁, s₂⟩ w
  /-- The states are those in which merges of runs end. -/
  states : ∀ s, s ∈ p.states ↔ ∃ s₁ s₂ u v w, m₁.Runs s₁ u ∧ m₂.Runs s₂ v ∧
    Merges handshake s₁ s₂ u v w ∧ endOf ⟨s₁, s₂⟩ w = s
  label : ∀ s, s ∈ p.states → ∀ q, q ∈ p.label s ↔ q ∈ m₁.label s.first ∨ q ∈ m₂.label s.second

theorem Composed.runs_of_merges {handshake : A → Bool} {m₁ : TransitionSystem S₁ A P}
    {m₂ : TransitionSystem S₂ A P} {p : TransitionSystem (Pair S₁ S₂) A P}
    (hp : Composed handshake m₁ m₂ p) (h₁ : m₁.Consistent) (h₂ : m₂.Consistent) {s₁ : S₁} {s₂ : S₂}
    {u : List (A × S₁)} {v : List (A × S₂)} {w : List (A × Pair S₁ S₂)} (hu : m₁.Runs s₁ u)
    (hv : m₂.Runs s₂ v) (hm : Merges handshake s₁ s₂ u v w) : p.Runs ⟨s₁, s₂⟩ w := by
  obtain ⟨hs₁, hu⟩ := h₁.runs_iff.mp hu
  obtain ⟨hs₂, hv⟩ := h₂.runs_iff.mp hv
  have hinit := (hp.initial ⟨s₁, s₂⟩).mpr ⟨hs₁, hs₂⟩
  exact hp.consistent.runs_iff.mpr
    ⟨hinit, hp.follows_of_merges hm (hp.consistent.starts _ hinit) hu hv⟩

theorem Composed.runsMerged {handshake : A → Bool} {m₁ : TransitionSystem S₁ A P}
    {m₂ : TransitionSystem S₂ A P} {p : TransitionSystem (Pair S₁ S₂) A P}
    (hp : Composed handshake m₁ m₂ p) (h₁ : m₁.Consistent) (h₂ : m₂.Consistent) :
    RunsMerged handshake m₁ m₂ p := by
  have hprojects : ∀ s w, p.Runs s w → ∃ u v, m₁.Runs s.first u ∧ m₂.Runs s.second v ∧
      handshakes handshake u = handshakes handshake v ∧ Merges handshake s.first s.second u v w := by
    intro s w hw
    obtain ⟨hs, hw⟩ := hp.consistent.runs_iff.mp hw
    obtain ⟨hs₁, hs₂⟩ := (hp.initial s).mp hs
    obtain ⟨u, v, hm, hu, hv⟩ := hp.exists_merges_of_follows hw
    exact ⟨u, v, h₁.runs_iff.mpr ⟨hs₁, hu⟩, h₂.runs_iff.mpr ⟨hs₂, hv⟩, handshakes_eq_of_merges hm, hm⟩
  refine ⟨hprojects, fun s₁ s₂ u v hu hv h => ⟨exists_merges s₁ s₂ u v h, fun w hm =>
    hp.runs_of_merges h₁ h₂ hu hv hm⟩, fun s => ⟨fun hs => ?_, ?_⟩, hp.label⟩
  · obtain ⟨i, w, hi, hw, hend⟩ := reachable_iff_exists_follows.mp (hp.reachable s hs)
    obtain ⟨u, v, hu, hv, -, hm⟩ := hprojects i w (hp.consistent.runs_iff.mpr ⟨hi, hw⟩)
    exact ⟨i.first, i.second, u, v, w, hu, hv, hm, hend⟩
  · rintro ⟨s₁, s₂, u, v, w, hu, hv, hm, hend⟩
    obtain ⟨hi, hw⟩ := hp.consistent.runs_iff.mp (hp.runs_of_merges h₁ h₂ hu hv hm)
    exact (reachable_iff_exists_follows.mpr ⟨_, w, hi, hw, hend⟩).declared hp.consistent

variable [Display P]

/-- **Two systems side by side run as their sides do, merged.** No change that composes them is
    refused; the runs are exactly the merges of runs of both, the states those in which merges end, and
    the label of a state is that of both its parts. -/
theorem beside_runs (m₁ : TransitionSystem S₁ A P) (m₂ : TransitionSystem S₂ A P) (h₁ : m₁.Built)
    (h₂ : m₂.Built) (handshake : A → Bool) :
    m₁.checkedBeside m₂ handshake = .ok (m₁.beside m₂ handshake) ∧
      RunsMerged handshake m₁ m₂ (m₁.beside m₂ handshake) :=
  ⟨checkedBeside_eq_ok h₁.consistent h₂.consistent,
    (composed_beside handshake h₁.consistent h₂.consistent).runsMerged h₁.consistent h₂.consistent⟩

end Runs

def workerParts : Parts Int Int Int where
  states := [0, 1]
  starts := [0]
  actions := [0, 1]
  props := [1]
  steps := [⟨0, 0, 1⟩, ⟨1, 1, 0⟩]
  labels := [(1, 1)]

/-- A system that works by itself, and then has to meet another one before it works again. -/
def worker : TransitionSystem Int Int Int := workerParts.system "worker"

theorem worker_built : worker.Built := by
  have hclosed : workerParts.Closed := ⟨by decide, by decide, by decide⟩
  exact (hclosed.labeled _).2

theorem beside_runs_worker :
    worker.Built ∧ worker.checkedBeside worker (· == 1) = .ok (worker.beside worker (· == 1)) ∧
      RunsMerged (· == 1) worker worker (worker.beside worker (· == 1)) :=
  ⟨worker_built, beside_runs worker worker worker_built worker_built (· == 1)⟩

end Lasso.TransitionSystem
