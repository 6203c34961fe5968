import Lasso.Program.Graph
import Lasso.Proofs.Automaton.Acceptance
/-!
# What every program graph keeps

* `Consistent` -- a program starts in its own locations, and its steps stand between them;
* `Built` -- the programs that the operations lead to, all of them consistent (`Built.consistent`);
* `Consistent.foldlM_addStep` -- **steps between declared locations are not refused**.
-/

namespace Lasso.ProgramGraph

variable {L : Type} [DecidableEq L] [Hashable L]

/-! ## 1. The invariant -/

/-- What every program keeps. -/
structure Consistent (g : ProgramGraph L) : Prop where
  locations : g.locations.Valid
  initial : g.initial.Valid
  steps : g.steps.Valid
  initializations : g.initializations.Valid
  starts : ∀ l, l ∈ g.initial → l ∈ g.locations
  ends : ∀ t, t ∈ g.steps → t.source ∈ g.locations ∧ t.target ∈ g.locations

theorem consistent_empty (name : String) : (empty name : ProgramGraph L).Consistent where
  locations := Ordered.valid_empty
  initial := Ordered.valid_empty
  steps := Ordered.valid_empty
  initializations := Ordered.valid_empty
  starts l hl := absurd hl (Ordered.not_mem_empty l)
  ends t ht := absurd ht (Ordered.not_mem_empty t)

variable {g : ProgramGraph L}

theorem Consistent.addLocation (h : g.Consistent) (l : L) : (g.addLocation l).Consistent := by
  have hsub : ∀ k, k ∈ g.locations → k ∈ g.locations.insert l :=
    fun k hk => h.locations.mem_insert.mpr (Or.inl hk)
  exact { h with
    locations := h.locations.insert l
    starts := fun k hk => hsub k (h.starts k hk)
    ends := fun t ht => ⟨hsub _ (h.ends t ht).1, hsub _ (h.ends t ht).2⟩ }

theorem Consistent.insertStep (h : g.Consistent) {t : ProgramStep L}
    (ht : t.source ∈ g.locations ∧ t.target ∈ g.locations) : (g.insertStep t).Consistent :=
  { h with
    steps := h.steps.insert t
    ends := fun u hu => (h.steps.mem_insert.mp hu).elim (h.ends u) fun e => e ▸ ht }

theorem Consistent.addInitialization (h : g.Consistent) (stmts : List String) :
    (g.addInitialization stmts).Consistent :=
  { h with initializations := h.initializations.insert stmts }

theorem Consistent.withoutSteps (h : g.Consistent) : { g with steps := ∅ }.Consistent :=
  { h with
    steps := Ordered.valid_empty
    ends := fun t ht => absurd ht (Ordered.not_mem_empty t) }

theorem Consistent.withoutInitial (h : g.Consistent) : { g with initial := ∅ }.Consistent :=
  { h with
    initial := Ordered.valid_empty
    starts := fun l hl => absurd hl (Ordered.not_mem_empty l) }

theorem foldl_addLocation (g : ProgramGraph L) (ls : List L) :
    ls.foldl ProgramGraph.addLocation g = { g with locations := g.locations.insertMany ls } := by
  induction ls generalizing g with
  | nil => rfl
  | cons l ls ih => exact ih (g.addLocation l)

theorem foldl_addInitialization (g : ProgramGraph L) (cs : List (List String)) :
    cs.foldl ProgramGraph.addInitialization g =
      { g with initializations := g.initializations.insertMany cs } := by
  induction cs generalizing g with
  | nil => rfl
  | cons c cs ih => exact ih (g.addInitialization c)

/-! ## 2. Checked changes -/

section Checked

variable [Display L]

theorem Consistent.needLocation_eq_ok (h : g.Consistent) {l : L} :
    g.needLocation l = .ok () ↔ l ∈ g.locations := by
  unfold needLocation
  rw [← h.locations.contains_iff]
  by_cases hl : g.locations.contains l = true <;> simp [hl]

theorem Consistent.setInitial_eq_ok (h : g.Consistent) {l : L} {on : Bool} {g' : ProgramGraph L} :
    g.setInitial l on = .ok g' ↔ l ∈ g.locations ∧
      g' = { g with initial := if on then g.initial.insert l else g.initial.erase l } := by
  unfold setInitial
  rw [← h.needLocation_eq_ok]
  cases g.needLocation l with
  | error c => simp [bind, Except.bind]
  | ok u => cases on <;> simp [bind, Except.bind, pure, Except.pure, insertInitial, eq_comm]

theorem Consistent.addStep_eq_ok (h : g.Consistent) {t : ProgramStep L} {g' : ProgramGraph L} :
    g.addStep t = .ok g' ↔ (t.source ∈ g.locations ∧ t.target ∈ g.locations) ∧ g' = g.insertStep t := by
  unfold addStep
  rw [← h.needLocation_eq_ok, ← h.needLocation_eq_ok]
  cases g.needLocation t.source with
  | error c => simp [bind, Except.bind]
  | ok u =>
    cases g.needLocation t.target with
    | error c => simp [bind, Except.bind]
    | ok u => simp [bind, Except.bind, pure, Except.pure, eq_comm]

theorem Consistent.setInitial (h : g.Consistent) {l : L} {on : Bool} {g' : ProgramGraph L}
    (he : g.setInitial l on = .ok g') : g'.Consistent := by
  obtain ⟨hl, rfl⟩ := h.setInitial_eq_ok.mp he
  obtain ⟨hv, hs⟩ := Automaton.mark_declared h.initial h.starts hl on
  exact { h with initial := hv, starts := hs }

/-- Declared locations become initial without refusal. -/
theorem Consistent.foldlM_setInitial (h : g.Consistent) {ls : List L}
    (hl : ∀ l ∈ ls, l ∈ g.locations) :
    ls.foldlM (·.setInitial · true) g = .ok { g with initial := g.initial.insertMany ls } := by
  induction ls generalizing g with
  | nil => rfl
  | cons l ls ih =>
    have hset : g.setInitial l true = .ok _ :=
      h.setInitial_eq_ok.mpr ⟨hl l List.mem_cons_self, rfl⟩
    rw [List.foldlM_cons, hset]
    exact ih (h.setInitial hset) fun k hk => hl k (List.mem_cons_of_mem _ hk)

/-- **Steps between declared locations are not refused.** -/
theorem Consistent.foldlM_addStep (h : g.Consistent) {ts : List (ProgramStep L)}
    (ht : ∀ t ∈ ts, t.source ∈ g.locations ∧ t.target ∈ g.locations) :
    ts.foldlM ProgramGraph.addStep g = .ok { g with steps := g.steps.insertMany ts } := by
  induction ts generalizing g with
  | nil => rfl
  | cons t ts ih =>
    have ht₀ := ht t List.mem_cons_self
    rw [List.foldlM_cons, h.addStep_eq_ok.mpr ⟨ht₀, rfl⟩]
    exact ih (h.insertStep ht₀) fun u hu => ht u (List.mem_cons_of_mem _ hu)

/-- **A program that is built by the operations**; a refused change leaves it as it was. -/
inductive Built : ProgramGraph L → Prop where
  | empty (name : String) : Built (.empty name)
  | addLocation (g : ProgramGraph L) (l : L) (h : Built g) : Built (g.addLocation l)
  | setInitial (g g' : ProgramGraph L) (l : L) (on : Bool) (h : Built g)
      (he : g.setInitial l on = .ok g') : Built g'
  | addStep (g g' : ProgramGraph L) (t : ProgramStep L) (h : Built g) (he : g.addStep t = .ok g') :
      Built g'
  | addInitialization (g : ProgramGraph L) (stmts : List String) (h : Built g) :
      Built (g.addInitialization stmts)

/-- **Every program that is built is consistent.** -/
theorem Built.consistent (hb : g.Built) : g.Consistent := by
  induction hb with
  | empty name => exact consistent_empty name
  | addLocation g l _ ih => exact ih.addLocation l
  | setInitial g g' l on _ he ih => exact ih.setInitial he
  | addStep g g' t _ he ih =>
    obtain ⟨ht, rfl⟩ := ih.addStep_eq_ok.mp he
    exact ih.insertStep ht
  | addInitialization g stmts _ ih => exact ih.addInitialization stmts

theorem Built.insertInitial (hb : g.Built) {l : L} (hl : l ∈ g.locations) : (g.insertInitial l).Built :=
  .setInitial g _ l true hb (hb.consistent.setInitial_eq_ok.mpr ⟨hl, rfl⟩)

theorem Built.insertStep (hb : g.Built) {t : ProgramStep L}
    (ht : t.source ∈ g.locations ∧ t.target ∈ g.locations) : (g.insertStep t).Built :=
  .addStep g _ t hb (hb.consistent.addStep_eq_ok.mpr ⟨ht, rfl⟩)

end Checked

end Lasso.ProgramGraph
