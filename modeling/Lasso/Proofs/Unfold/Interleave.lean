import Lasso.Proofs.Compose.Isomorphic
import Lasso.Proofs.Compose.System
import Lasso.Proofs.Unfold.Finite
import Lasso.Proofs.Unfold.Names
/-!
# Unfolding programs side by side

Two programs that share no state can be put side by side before or after they are unfolded.

* `moves_interleave`, `fails_interleave` -- what two programs do side by side, in one environment;
* `moves_merge` -- what a program does in an environment with variables that it does not mention;
* `Apart` -- programs that share no state: no name that one of them writes occurs in the other;
* `Apart.starts_iff`, `Apart.moves_combine`, `Apart.exists_combine` -- so **they start, move and get side
  by side as each of them does alone**;
* `unfold_interleave` -- **unfolding them side by side gives the two unfoldings side by side**.
-/

namespace Lasso.ProgramGraph

variable {L L₁ L₂ : Type} [DecidableEq L] [Hashable L] [DecidableEq L₁] [Hashable L₁] [DecidableEq L₂]
  [Hashable L₂]

/-! ## 1. Programs side by side in one environment -/

section Beside

variable {g₁ : ProgramGraph L₁} {g₂ : ProgramGraph L₂} {ev : Evaluators}

/-- A step of two programs that do nothing together is one of either. -/
theorem mem_steps_interleave {t : ProgramStep (Pair L₁ L₂)} :
    t ∈ (interleave none g₁ g₂).steps ↔
      (∃ u l, u ∈ g₁.steps ∧ l ∈ g₂.locations ∧ t = besideLeft Pair.mk u l) ∨
        ∃ l w, l ∈ g₁.locations ∧ w ∈ g₂.steps ∧ t = besideRight Pair.mk l w := by
  unfold interleave
  rw [mem_steps_interleaveWith]
  constructor
  · rintro (⟨u, l, hu, hl, -, e⟩ | ⟨l, w, hl, hw, -, e⟩ | ⟨sync, -, -, hsync, -⟩)
    · exact Or.inl ⟨u, l, hu, hl, e⟩
    · exact Or.inr ⟨l, w, hl, hw, e⟩
    · cases hsync
  · rintro (⟨u, l, hu, hl, e⟩ | ⟨l, w, hl, hw, e⟩)
    · exact Or.inl ⟨u, l, hu, hl, Or.inr rfl, e⟩
    · exact Or.inr (Or.inl ⟨l, w, hl, hw, Or.inr rfl, e⟩)

/-- **Two programs move side by side** as one of them does, while the other stays. -/
theorem moves_interleave {s t : State (Pair L₁ L₂)} {a : String} :
    (interleave none g₁ g₂).Moves ev s a t ↔
      (g₁.Moves ev ⟨s.first.first, s.second⟩ a ⟨t.first.first, t.second⟩ ∧
        s.first.second ∈ g₂.locations ∧ t.first.second = s.first.second) ∨
      g₂.Moves ev ⟨s.first.second, s.second⟩ a ⟨t.first.second, t.second⟩ ∧
        s.first.first ∈ g₁.locations ∧ t.first.first = s.first.first := by
  obtain ⟨⟨l₁, l₂⟩, e⟩ := s
  obtain ⟨⟨k₁, k₂⟩, e'⟩ := t
  constructor
  · rintro ⟨cond, hmem, hholds, heffect⟩
    rcases mem_steps_interleave.mp hmem with ⟨u, l, hu, hl, hstep⟩ | ⟨l, w, hl, hw, hstep⟩
    · cases hstep
      exact Or.inl ⟨⟨u.condition, hu, hholds, heffect⟩, hl, rfl⟩
    · cases hstep
      exact Or.inr ⟨⟨w.condition, hw, hholds, heffect⟩, hl, rfl⟩
  · rintro (⟨⟨cond, hmem, hholds, heffect⟩, hl, hstay⟩ | ⟨⟨cond, hmem, hholds, heffect⟩, hl, hstay⟩)
    · obtain rfl : k₂ = l₂ := hstay
      exact ⟨cond, mem_steps_interleave.mpr (Or.inl ⟨_, k₂, hmem, hl, rfl⟩), hholds, heffect⟩
    · obtain rfl : k₁ = l₁ := hstay
      exact ⟨cond, mem_steps_interleave.mpr (Or.inr ⟨k₁, _, hl, hmem, rfl⟩), hholds, heffect⟩

theorem fails_interleave {s : State (Pair L₁ L₂)} {c : EvalError}
    (h : (interleave none g₁ g₂).Fails ev s c) :
    g₁.Fails ev ⟨s.first.first, s.second⟩ c ∨ g₂.Fails ev ⟨s.first.second, s.second⟩ c := by
  obtain ⟨t, ht, hsource, hfails⟩ := h
  rcases mem_steps_interleave.mp ht with ⟨u, l, hu, -, rfl⟩ | ⟨l, w, -, hw, rfl⟩
  · exact Or.inl ⟨u, hu, congrArg Pair.first hsource, hfails⟩
  · exact Or.inr ⟨w, hw, congrArg Pair.second hsource, hfails⟩

/-- The initializations of two programs, one behind the other. -/
theorem mem_initializations_interleave {c : List String} :
    c ∈ (interleave none g₁ g₂).initializations ↔
      (∃ x y, x ∈ g₁.initializations ∧ y ∈ g₂.initializations ∧ c = x ++ y) ∨
      (g₁.initializations.toList = [] ∧ c ∈ g₂.initializations) ∨
        g₂.initializations.toList = [] ∧ c ∈ g₁.initializations := by
  show c ∈ Ordered.ofList (joinInitializations _ _) ↔ _
  rw [Ordered.mem_ofList, mem_joinInitializations]
  rfl

theorem initializations_interleave_eq_nil :
    (interleave none g₁ g₂).initializations.toList = [] ↔
      g₁.initializations.toList = [] ∧ g₂.initializations.toList = [] := by
  have hjoin : ∀ xs ys : List (List String), joinInitializations xs ys = [] ↔ xs = [] ∧ ys = [] := by
    intro xs ys
    unfold joinInitializations
    cases xs <;> cases ys <;> simp
  rw [← hjoin, List.eq_nil_iff_forall_not_mem, List.eq_nil_iff_forall_not_mem]
  exact forall_congr' fun c => not_congr Ordered.mem_toList_ofList

end Beside

/-! ## 2. Programs inside a frame -/

section Frame

variable {g : ProgramGraph L} {capacity : Int} {e f : Env}

theorem avoids_action (h : f.Avoids g.names) {t : ProgramStep L} (ht : t ∈ g.steps) :
    f.Avoids (Action.ofText t.action).names :=
  h.mono (names_subset_of_mem (action_mem_actionTexts ht))

/-- **A program moves inside a frame as it does without**, and the frame stays. -/
theorem moves_merge (he : e.Canonical) (hf : f.Canonical) (h : f.Avoids g.names) {l l' : L}
    {a : String} {e' : Env} :
    g.Moves (.standard capacity) ⟨l, e.merge f⟩ a ⟨l', e'⟩ ↔
      ∃ e₁, g.Moves (.standard capacity) ⟨l, e⟩ a ⟨l', e₁⟩ ∧ e₁.merge f = e' := by
  constructor
  · rintro ⟨cond, hmem, hholds, heffect⟩
    rw [Evaluators.holds_merge he hf (h.mono (textNames_subset_of_mem hmem))] at hholds
    rw [Evaluators.effect_merge he hf (avoids_action h hmem)] at heffect
    cases hr : (Evaluators.standard capacity).effect e a with
    | error c => rw [hr] at heffect; cases heffect
    | ok r =>
      rw [hr] at heffect
      cases r with
      | none => cases heffect
      | some e₁ =>
        exact ⟨e₁, ⟨cond, hmem, hholds, hr⟩, Option.some.inj (Except.ok.inj heffect)⟩
  · rintro ⟨e₁, ⟨cond, hmem, hholds, heffect⟩, rfl⟩
    refine ⟨cond, hmem, ?_, ?_⟩
    · rw [Evaluators.holds_merge he hf (h.mono (textNames_subset_of_mem hmem))]
      exact hholds
    · rw [Evaluators.effect_merge he hf (avoids_action h hmem), heffect]
      rfl

/-- What fails inside a frame fails without. -/
theorem fails_merge (he : e.Canonical) (hf : f.Canonical) (h : f.Avoids g.names) {l : L} {c : EvalError}
    (hfails : g.Fails (.standard capacity) ⟨l, e.merge f⟩ c) :
    g.Fails (.standard capacity) ⟨l, e⟩ c := by
  obtain ⟨t, ht, hsource, hfail⟩ := hfails
  refine ⟨t, ht, hsource, ?_⟩
  unfold StepFails at hfail
  rw [Evaluators.holds_merge he hf (h.mono (textNames_subset_of_mem ht)),
    Evaluators.effect_merge he hf (avoids_action h ht)] at hfail
  refine hfail.imp_right fun hright => ⟨hright.1, ?_⟩
  cases hr : (Evaluators.standard capacity).effect e t.action with
  | error c' =>
    have herror := hright.2
    rw [hr] at herror
    exact congrArg Except.error (Except.error.inj herror)
  | ok r =>
    have herror := hright.2
    rw [hr] at herror
    cases herror

/-- An initialization of a program behind one that leaves a frame. -/
theorem initial_append {x y : List String} (hf : f.Canonical) (h : f.Avoids g.names)
    (hy : y ∈ g.initializations) (hx : (Evaluators.standard capacity).initial x = .ok f) :
    (Evaluators.standard capacity).initial (x ++ y) =
      ((Evaluators.standard capacity).initial y).map (·.merge f) := by
  have havoids : ∀ a ∈ y, f.Avoids (Action.ofText a).names := fun a ha =>
    h.mono (names_subset_of_mem (mem_actionTexts_of_mem hy ha))
  have hempty : (∅ : Env).merge f = f := Env.empty_merge hf
  unfold Evaluators.initial at hx ⊢
  rw [List.foldlM_append, hx]
  calc y.foldlM (Evaluators.standard capacity).initStep f
      = y.foldlM (Evaluators.standard capacity).initStep ((∅ : Env).merge f) := by rw [hempty]
    _ = _ := Evaluators.foldlM_initStep_merge capacity Env.canonical_empty hf havoids

end Frame

/-! ## 3. Programs that share no state -/

/-- **Two programs share no state**: no name that one of them may write occurs in the other. -/
structure Apart (g₁ : ProgramGraph L₁) (g₂ : ProgramGraph L₂) : Prop where
  left : ∀ n ∈ g₁.writes, n ∉ g₂.names
  right : ∀ n ∈ g₂.writes, n ∉ g₁.names

/-- A state of two programs side by side: both locations, and the values of both. -/
def combine (s : Pair (State L₁) (State L₂)) : State (Pair L₁ L₂) :=
  ⟨⟨s.first.first, s.second.first⟩, s.first.second.merge s.second.second⟩

section Apart

variable {g₁ : ProgramGraph L₁} {g₂ : ProgramGraph L₂} {capacity : Int} {e₁ e₂ : Env}

theorem Apart.symm (h : Apart g₁ g₂) : Apart g₂ g₁ := ⟨h.right, h.left⟩

theorem Apart.writes (h : Apart g₁ g₂) : ∀ n ∈ g₁.writes, n ∉ g₂.writes := fun n hn hn' =>
  h.left n hn (g₂.writes_subset_names hn')

theorem Apart.merge_comm (h : Apart g₁ g₂) (h₁ : e₁.Over g₁.writes) (h₂ : e₂.Over g₂.writes) :
    e₁.merge e₂ = e₂.merge e₁ :=
  Env.merge_comm h₁.canonical h₂.canonical (h₁.apart h₂ h.writes)

/-- What one program holds is a frame for the other. -/
theorem Apart.avoids (h : Apart g₁ g₂) (h₁ : e₁.Over g₁.writes) : e₁.Avoids g₂.names := h₁.avoids h.left

theorem Apart.initial_append (h : Apart g₁ g₂) {x y : List String} (hx : x ∈ g₁.initializations)
    (hy : y ∈ g₂.initializations) (he : (Evaluators.standard capacity).initial x = .ok e₁) :
    (Evaluators.standard capacity).initial (x ++ y) =
      ((Evaluators.standard capacity).initial y).map (·.merge e₁) := by
  have hstart : g₁.StartsWith (.standard capacity) e₁ := Or.inr ⟨x, hx, he⟩
  have h₁ := hstart.over
  exact ProgramGraph.initial_append h₁.canonical (h.avoids h₁) hy he

/-- **Programs that share no state start side by side as each of them does.** -/
theorem Apart.startsWith_iff (h : Apart g₁ g₂) {e : Env} :
    (interleave none g₁ g₂).StartsWith (.standard capacity) e ↔
      ∃ e₁ e₂, g₁.StartsWith (.standard capacity) e₁ ∧ g₂.StartsWith (.standard capacity) e₂ ∧
        e₁.merge e₂ = e := by
  constructor
  · rintro (⟨hnone, rfl⟩ | ⟨c, hc, hinit⟩)
    · obtain ⟨hnone₁, hnone₂⟩ := initializations_interleave_eq_nil.mp hnone
      exact ⟨∅, ∅, Or.inl ⟨hnone₁, rfl⟩, Or.inl ⟨hnone₂, rfl⟩, Env.merge_empty ∅⟩
    · rcases mem_initializations_interleave.mp hc with
        ⟨x, y, hx, hy, rfl⟩ | ⟨hnone₁, hc⟩ | ⟨hnone₂, hc⟩
      · obtain ⟨e₁, he₁, -⟩ : ∃ e₁, (Evaluators.standard capacity).initial x = .ok e₁ ∧ _ := by
          unfold Evaluators.initial at hinit
          rw [List.foldlM_append] at hinit
          exact bind_eq_ok.mp hinit
        rw [h.initial_append hx hy he₁] at hinit
        obtain ⟨e₂, he₂, rfl⟩ := map_eq_ok.mp hinit
        have h₁ : g₁.StartsWith (.standard capacity) e₁ := Or.inr ⟨x, hx, he₁⟩
        have h₂ : g₂.StartsWith (.standard capacity) e₂ := Or.inr ⟨y, hy, he₂⟩
        exact ⟨e₁, e₂, h₁, h₂, h.merge_comm h₁.over h₂.over⟩
      · have h₂ : g₂.StartsWith (.standard capacity) e := Or.inr ⟨c, hc, hinit⟩
        exact ⟨∅, e, Or.inl ⟨hnone₁, rfl⟩, h₂, Env.empty_merge h₂.over.canonical⟩
      · exact ⟨e, ∅, Or.inr ⟨c, hc, hinit⟩, Or.inl ⟨hnone₂, rfl⟩, Env.merge_empty e⟩
  · rintro ⟨e₁, e₂, h₁, h₂, rfl⟩
    have hover₁ := h₁.over
    have hover₂ := h₂.over
    rcases h₁ with ⟨hnone₁, rfl⟩ | ⟨x, hx, he₁⟩
    · rw [Env.empty_merge hover₂.canonical]
      rcases h₂ with ⟨hnone₂, rfl⟩ | ⟨y, hy, he₂⟩
      · exact Or.inl ⟨initializations_interleave_eq_nil.mpr ⟨hnone₁, hnone₂⟩, rfl⟩
      · exact Or.inr ⟨y, mem_initializations_interleave.mpr (Or.inr (Or.inl ⟨hnone₁, hy⟩)), he₂⟩
    · rcases h₂ with ⟨hnone₂, rfl⟩ | ⟨y, hy, he₂⟩
      · rw [Env.merge_empty]
        exact Or.inr ⟨x, mem_initializations_interleave.mpr (Or.inr (Or.inr ⟨hnone₂, hx⟩)), he₁⟩
      · refine Or.inr ⟨x ++ y, mem_initializations_interleave.mpr (Or.inl ⟨x, y, hx, hy, rfl⟩), ?_⟩
        rw [h.initial_append hx hy he₁, he₂, h.merge_comm hover₁ hover₂]
        rfl

/-- The initializations of both programs can be run one behind the other. -/
theorem Apart.exists_initial (h : Apart g₁ g₂)
    (h₁ : ∀ x, x ∈ g₁.initializations → ∃ e, (Evaluators.standard capacity).initial x = .ok e)
    (h₂ : ∀ y, y ∈ g₂.initializations → ∃ e, (Evaluators.standard capacity).initial y = .ok e)
    {c : List String} (hc : c ∈ (interleave none g₁ g₂).initializations) :
    ∃ e, (Evaluators.standard capacity).initial c = .ok e := by
  rcases mem_initializations_interleave.mp hc with ⟨x, y, hx, hy, rfl⟩ | ⟨-, hc⟩ | ⟨-, hc⟩
  · obtain ⟨e₁, he₁⟩ := h₁ x hx
    obtain ⟨e₂, he₂⟩ := h₂ y hy
    refine ⟨e₂.merge e₁, ?_⟩
    rw [h.initial_append hx hy he₁, he₂]
    rfl
  · exact h₂ c hc
  · exact h₁ c hc

/-- **Programs that share no state move side by side as each of them does.** -/
theorem Apart.moves_combine (h : Apart g₁ g₂) {s : Pair (State L₁) (State L₂)}
    (h₁ : s.first.second.Over g₁.writes) (h₂ : s.second.second.Over g₂.writes)
    (hl₁ : s.first.first ∈ g₁.locations) (hl₂ : s.second.first ∈ g₂.locations) {a : String}
    {t' : State (Pair L₁ L₂)} :
    (interleave none g₁ g₂).Moves (.standard capacity) (combine s) a t' ↔
      ∃ t, combine t = t' ∧
        ((g₁.Moves (.standard capacity) s.first a t.first ∧ t.second = s.second) ∨
          g₂.Moves (.standard capacity) s.second a t.second ∧ t.first = s.first) := by
  obtain ⟨⟨l₁, e₁⟩, ⟨l₂, e₂⟩⟩ := s
  obtain ⟨⟨k₁, k₂⟩, e'⟩ := t'
  have hcomm := h.merge_comm h₁ h₂
  have hleft : g₁.Moves (.standard capacity) ⟨l₁, e₁.merge e₂⟩ a ⟨k₁, e'⟩ ↔
      ∃ f, g₁.Moves (.standard capacity) ⟨l₁, e₁⟩ a ⟨k₁, f⟩ ∧ f.merge e₂ = e' :=
    moves_merge h₁.canonical h₂.canonical (h.symm.avoids h₂)
  have hright : g₂.Moves (.standard capacity) ⟨l₂, e₂.merge e₁⟩ a ⟨k₂, e'⟩ ↔
      ∃ f, g₂.Moves (.standard capacity) ⟨l₂, e₂⟩ a ⟨k₂, f⟩ ∧ f.merge e₁ = e' :=
    moves_merge h₂.canonical h₁.canonical (h.avoids h₁)
  rw [moves_interleave]
  constructor
  · rintro (⟨hmove, -, hstay⟩ | ⟨hmove, -, hstay⟩)
    · obtain ⟨f₁, hinner, hmerge⟩ := hleft.mp hmove
      obtain rfl : k₂ = l₂ := hstay
      exact ⟨⟨⟨k₁, f₁⟩, ⟨k₂, e₂⟩⟩, Pair.eq_iff.mpr ⟨rfl, hmerge⟩, Or.inl ⟨hinner, rfl⟩⟩
    · have hmove' : g₂.Moves (.standard capacity) ⟨l₂, e₂.merge e₁⟩ a ⟨k₂, e'⟩ := hcomm ▸ hmove
      obtain ⟨f₂, hinner, hmerge⟩ := hright.mp hmove'
      obtain rfl : k₁ = l₁ := hstay
      have hcombine : e₁.merge f₂ = e' := (h.merge_comm h₁ (hinner.over h₂)).trans hmerge
      exact ⟨⟨⟨k₁, e₁⟩, ⟨k₂, f₂⟩⟩, Pair.eq_iff.mpr ⟨rfl, hcombine⟩, Or.inr ⟨hinner, rfl⟩⟩
  · rintro ⟨⟨⟨j₁, f₁⟩, ⟨j₂, f₂⟩⟩, hcombine, ⟨hmove, hstay⟩ | ⟨hmove, hstay⟩⟩
    · cases hcombine
      cases hstay
      exact Or.inl ⟨hleft.mpr ⟨f₁, hmove, rfl⟩, hl₂, rfl⟩
    · cases hcombine
      cases hstay
      refine Or.inr ⟨?_, hl₁, rfl⟩
      have hmove' := hright.mpr ⟨f₂, hmove, (h.merge_comm h₁ (hmove.over h₂)).symm⟩
      rw [← hcomm] at hmove'
      exact hmove'

theorem Apart.fails_combine (h : Apart g₁ g₂) {s : Pair (State L₁) (State L₂)}
    (h₁ : s.first.second.Over g₁.writes) (h₂ : s.second.second.Over g₂.writes) {c : EvalError}
    (hfails : (interleave none g₁ g₂).Fails (.standard capacity) (combine s) c) :
    g₁.Fails (.standard capacity) s.first c ∨ g₂.Fails (.standard capacity) s.second c := by
  rcases fails_interleave hfails with hfails | hfails
  · exact Or.inl (fails_merge h₁.canonical h₂.canonical (h.symm.avoids h₂) hfails)
  · rw [combine, h.merge_comm h₁ h₂] at hfails
    exact Or.inr (fails_merge h₂.canonical h₁.canonical (h.avoids h₁) hfails)

/-- States that are combined can be told apart. -/
theorem Apart.combine_inj (h : Apart g₁ g₂) {s t : Pair (State L₁) (State L₂)}
    (hs₁ : s.first.second.Over g₁.writes) (hs₂ : s.second.second.Over g₂.writes)
    (ht₁ : t.first.second.Over g₁.writes) (ht₂ : t.second.second.Over g₂.writes)
    (e : combine s = combine t) : s = t := by
  obtain ⟨hlocations, hmerge⟩ := Pair.eq_iff.mp e
  obtain ⟨hl₁, hl₂⟩ := Pair.eq_iff.mp hlocations
  obtain ⟨he₁, he₂⟩ := hs₁.merge_inj hs₂ ht₁ ht₂ h.writes hmerge
  exact Pair.eq_iff.mpr ⟨Pair.eq_iff.mpr ⟨hl₁, he₁⟩, Pair.eq_iff.mpr ⟨hl₂, he₂⟩⟩

/-- The propositions of a combined state are those of both its parts. -/
theorem Apart.mem_stateProps_combine [Display L₁] [Display L₂] (h : Apart g₁ g₂)
    {s : Pair (State L₁) (State L₂)} (h₁ : s.first.second.Over g₁.writes)
    (h₂ : s.second.second.Over g₂.writes) {q : String} :
    q ∈ stateProps (combine s) ↔ q ∈ stateProps s.first ∨ q ∈ stateProps s.second := by
  have htexts : q ∈ (s.first.second.merge s.second.second).entryTexts ↔
      q ∈ s.first.second.entryTexts ∨ q ∈ s.second.second.entryTexts :=
    Env.mem_entryTexts_merge h₁.canonical h₂.canonical (h₁.apart h₂ h.writes)
  unfold stateProps
  rw [List.mem_append, List.mem_append, List.mem_append, or_or_or_comm, ← htexts]
  exact or_congr_left List.mem_append

theorem Reached.declared {g : ProgramGraph L} {ev : Evaluators} (hg : g.Consistent) {s : State L}
    (h : g.Reached ev s) : s.first ∈ g.locations := by
  cases h with
  | start _ hs => exact hg.starts _ hs.1
  | step s a _ _ hmove =>
    obtain ⟨cond, hmem, -⟩ := hmove
    exact (hg.ends _ hmem).2

variable (hg₁ : g₁.Consistent) (hg₂ : g₂.Consistent)
include hg₁ hg₂

theorem Apart.starts_iff (h : Apart g₁ g₂) {s : State (Pair L₁ L₂)} :
    (interleave none g₁ g₂).Starts (.standard capacity) s ↔
      ∃ t : Pair (State L₁) (State L₂), g₁.Starts (.standard capacity) t.first ∧
        g₂.Starts (.standard capacity) t.second ∧ combine t = s := by
  unfold Starts interleave
  rw [mem_initial_interleaveWith hg₁ hg₂]
  constructor
  · rintro ⟨⟨l₁, l₂, hl₁, hl₂, hl⟩, hstart⟩
    obtain ⟨e₁, e₂, he₁, he₂, he⟩ := h.startsWith_iff.mp hstart
    exact ⟨⟨⟨l₁, e₁⟩, ⟨l₂, e₂⟩⟩, ⟨hl₁, he₁⟩, ⟨hl₂, he₂⟩, Pair.eq_iff.mpr ⟨hl.symm, he⟩⟩
  · rintro ⟨t, ⟨hl₁, he₁⟩, ⟨hl₂, he₂⟩, rfl⟩
    exact ⟨⟨_, _, hl₁, hl₂, rfl⟩, h.startsWith_iff.mpr ⟨_, _, he₁, he₂, rfl⟩⟩

/-- **Programs that share no state come side by side to what each of them comes to.** -/
theorem Apart.exists_combine (h : Apart g₁ g₂) {s : State (Pair L₁ L₂)}
    (hs : (interleave none g₁ g₂).Reached (.standard capacity) s) :
    ∃ t : Pair (State L₁) (State L₂), g₁.Reached (.standard capacity) t.first ∧
      g₂.Reached (.standard capacity) t.second ∧ combine t = s := by
  induction hs with
  | start s hs =>
    obtain ⟨t, h₁, h₂, rfl⟩ := (h.starts_iff hg₁ hg₂).mp hs
    exact ⟨t, .start _ h₁, .start _ h₂, rfl⟩
  | step s a s' _ hmove ih =>
    obtain ⟨t, h₁, h₂, rfl⟩ := ih
    obtain ⟨t', rfl, ⟨hmove, hstay⟩ | ⟨hmove, hstay⟩⟩ :=
      (h.moves_combine h₁.over h₂.over (h₁.declared hg₁) (h₂.declared hg₂)).mp hmove
    · exact ⟨t', .step _ a _ h₁ hmove, hstay ▸ h₂, rfl⟩
    · exact ⟨t', hstay ▸ h₁, .step _ a _ h₂ hmove, rfl⟩

/-! ## 4. Unfoldings side by side -/

section Unfold

variable {T₁ : TransitionSystem (State L₁) String String} {T₂ : TransitionSystem (State L₂) String String}
  [Display L₁] [Display L₂]

/-- **Programs that share no state can be unfolded side by side if each of them can.** -/
theorem Apart.exists_unfold (h : Apart g₁ g₂) {o : UnfoldOptions}
    (ho : o.evaluators = .standard capacity) (hcanceled : o.canceled = false) (hlimit : o.maxStates ≤ 0)
    (e₁ : g₁.unfold o = .ok T₁) (e₂ : g₂.unfold o = .ok T₂) :
    ∃ T, (interleave none g₁ g₂).unfold o = .ok T := by
  have hu₁ := unfolded_of_unfold e₁
  have hu₂ := unfolded_of_unfold e₂
  have hinit₁ : ∀ x, x ∈ g₁.initializations → _ := fun x hx => exists_initial_of_unfold e₁ hx
  have hinit₂ : ∀ y, y ∈ g₂.initializations → _ := fun y hy => exists_initial_of_unfold e₂ hy
  rw [ho] at hu₁ hu₂ hinit₁ hinit₂
  -- there are no more states than pairs of states
  refine ProgramGraph.exists_unfold
    ((TransitionSystem.pairs T₁.states.toList T₂.states.toList).map combine).toFinset hcanceled hlimit ?_ ?_ ?_
  · intro c hc
    rw [ho]
    exact h.exists_initial hinit₁ hinit₂ hc
  · intro s hs c hfails
    rw [ho] at hs hfails
    obtain ⟨t, h₁, h₂, rfl⟩ := h.exists_combine hg₁ hg₂ hs
    rcases h.fails_combine h₁.over h₂.over hfails with hfails | hfails
    · exact hu₁.sound _ ((hu₁.states _).mpr h₁) c hfails
    · exact hu₂.sound _ ((hu₂.states _).mpr h₂) c hfails
  · intro s hs
    rw [ho] at hs
    obtain ⟨t, h₁, h₂, rfl⟩ := h.exists_combine hg₁ hg₂ hs
    refine List.mem_toFinset.mpr (List.mem_map.mpr ⟨t, TransitionSystem.mem_pairs.mpr ?_, rfl⟩)
    exact ⟨(hu₁.states _).mpr h₁, (hu₂.states _).mpr h₂⟩

/-- **What programs that share no state unfold to side by side** is their unfoldings side by side. -/
theorem Apart.isIsomorphism_combine (h : Apart g₁ g₂) (hu₁ : Unfolded g₁ (.standard capacity) T₁)
    (hu₂ : Unfolded g₂ (.standard capacity) T₂) {T : TransitionSystem (State (Pair L₁ L₂)) String String}
    (hu : Unfolded (interleave none g₁ g₂) (.standard capacity) T) :
    TransitionSystem.IsIsomorphism combine (T₁.interleave T₂) T := by
  have hp := TransitionSystem.composed_beside (fun _ : String => false) hu₁.consistent hu₂.consistent
  have hreached : ∀ s ∈ (T₁.interleave T₂).states,
      g₁.Reached (.standard capacity) s.first ∧ g₂.Reached (.standard capacity) s.second := fun s hs =>
    ⟨(hu₁.states _).mp (hp.declared s hs).1, (hu₂.states _).mp (hp.declared s hs).2⟩
  -- steps on either side are steps of either program
  have hsteps : ∀ s ∈ (T₁.interleave T₂).states, ∀ a t, ⟨s, a, t⟩ ∈ (T₁.interleave T₂).transitions ↔
      (g₁.Moves (.standard capacity) s.first a t.first ∧ t.second = s.second) ∨
        g₂.Moves (.standard capacity) s.second a t.second ∧ t.first = s.first := by
    intro s hs a t
    obtain ⟨hs₁, hs₂⟩ := hp.declared s hs
    refine (hp.transitions s a t).trans ?_
    rw [TransitionSystem.stepBeside_of_false rfl, hu₁.transitions, hu₂.transitions, and_iff_right hs₁,
      and_iff_right hs₂]
    exact and_iff_right hs
  have hmoves : ∀ s ∈ (T₁.interleave T₂).states, ∀ a t',
      (interleave none g₁ g₂).Moves (.standard capacity) (combine s) a t' ↔
        ∃ t, combine t = t' ∧ ⟨s, a, t⟩ ∈ (T₁.interleave T₂).transitions := by
    intro s hs a t'
    obtain ⟨h₁, h₂⟩ := hreached s hs
    rw [h.moves_combine h₁.over h₂.over (h₁.declared hg₁) (h₂.declared hg₂)]
    exact exists_congr fun t => and_congr_right fun _ => (hsteps s hs a t).symm
  refine .of_reachable hp.consistent hu.consistent hp.reachable hu.reachable ?_ ?_ ?_ ?_ ?_
  · intro s hs t ht
    exact h.combine_inj (hreached s hs).1.over (hreached s hs).2.over (hreached t ht).1.over
      (hreached t ht).2.over
  · intro t
    rw [hu.initial, h.starts_iff hg₁ hg₂]
    refine exists_congr fun s => ?_
    rw [← and_assoc, ← hu₁.initial, ← hu₂.initial]
    exact and_congr_left fun _ => (hp.initial s).symm
  · intro s hs hs' a t ht
    exact (hu.transitions _ _ _).mpr ⟨hs', (hmoves s hs a _).mpr ⟨t, rfl, ht⟩⟩
  · intro s hs _ a t' ht'
    obtain ⟨t, hcombine, ht⟩ := (hmoves s hs a t').mp ((hu.transitions _ _ _).mp ht').2
    exact ⟨t, ht, hcombine⟩
  · intro s hs hs' q
    obtain ⟨h₁, h₂⟩ := hreached s hs
    obtain ⟨hs₁, hs₂⟩ := hp.declared s hs
    rw [hu.label, and_iff_right hs', h.mem_stateProps_combine h₁.over h₂.over]
    refine (hp.label s hs q).trans ?_
    rw [hu₁.label, hu₂.label, and_iff_right hs₁, and_iff_right hs₂]

end Unfold

end Apart

/-- **Unfolding commutes with putting programs side by side**, where the programs share no state. If both
    are unfolded, so are they side by side, and what comes of it is their unfoldings side by side: a
    state is that of both programs, with the values of both. -/
theorem unfold_interleave [Display L₁] [Display L₂] (g₁ : ProgramGraph L₁) (g₂ : ProgramGraph L₂)
    (h₁ : g₁.Built) (h₂ : g₂.Built) (hleft : ∀ n ∈ g₁.writes, n ∉ g₂.names)
    (hright : ∀ n ∈ g₂.writes, n ∉ g₁.names) (T₁ : TransitionSystem (State L₁) String String)
    (T₂ : TransitionSystem (State L₂) String String) (e₁ : g₁.unfold {} = .ok T₁)
    (e₂ : g₂.unfold {} = .ok T₂) :
    ∃ T, (interleave none g₁ g₂).unfold {} = .ok T ∧
      TransitionSystem.IsIsomorphism combine (T₁.interleave T₂) T := by
  have h : Apart g₁ g₂ := ⟨hleft, hright⟩
  obtain ⟨T, e⟩ := h.exists_unfold h₁.consistent h₂.consistent Evaluators.standard_zero.symm rfl
    (Int.le_refl 0) e₁ e₂
  have hu₁ : Unfolded g₁ (.standard 0) T₁ := unfolded_of_unfold e₁
  have hu₂ : Unfolded g₂ (.standard 0) T₂ := unfolded_of_unfold e₂
  have hu : Unfolded (interleave none g₁ g₂) (.standard 0) T := unfolded_of_unfold e
  exact ⟨T, e, h.isIsomorphism_combine h₁.consistent h₂.consistent hu₁ hu₂ hu⟩

/-- A program that sends one value. -/
def sender : ProgramGraph String := stepper "sender" ⟨"q", "", "c!1", "r"⟩

theorem steps_sender : sender.steps.toList = [⟨"q", "", "c!1", "r"⟩] :=
  Ordered.toList_ofList_of_nodup (List.nodup_singleton _)

theorem exists_unfold_sender : ∃ T, sender.unfold {} = .ok T := by
  refine exists_unfold_of_leadsWithin [⟨"q", ∅⟩, ⟨"r", (∅ : Env).set "c" (.ofList [.int 1])⟩] rfl
    (Int.le_refl 0) (fun stmts hstmts => absurd hstmts (Ordered.not_mem_empty stmts)) (fun s hs => ?_) ?_ ?_
  · obtain ⟨hl, ⟨-, he⟩ | ⟨stmts, hstmts, -⟩⟩ := hs
    · have hs : s = ⟨"q", ∅⟩ := Pair.eq_iff.mpr ⟨List.mem_singleton.mp (Ordered.mem_ofList.mp hl), he⟩
      exact hs ▸ List.mem_cons_self
    · exact absurd hstmts (Ordered.not_mem_empty stmts)
  · rw [steps_sender]
    decide +kernel
  · rw [steps_sender]
    decide +kernel

theorem built_counter : counter.Built := by
  have hlocation : "p" ∈ Ordered.ofList ["p"] := Ordered.mem_ofList.mpr List.mem_cons_self
  have hstarted := (Built.addLocation _ "p" (.empty "counter")).insertInitial hlocation
  have hcounts := hstarted.insertStep (t := ⟨"p", "x < 2", "x++", "p"⟩) ⟨hlocation, hlocation⟩
  have hresets := hcounts.insertStep (t := ⟨"p", "x == 2", "x = 0", "p"⟩) ⟨hlocation, hlocation⟩
  have hreceives := hresets.insertStep (t := ⟨"p", "", "d?y", "p"⟩) ⟨hlocation, hlocation⟩
  exact .addInitialization _ ["x := 0"] hreceives

theorem unfold_interleave_counter :
    counter.Built ∧ sender.Built ∧ (∀ n ∈ counter.writes, n ∉ sender.names) ∧
      (∀ n ∈ sender.writes, n ∉ counter.names) ∧
      ∃ T₁ T₂ T, counter.unfold {} = .ok T₁ ∧ sender.unfold {} = .ok T₂ ∧
        (interleave none counter sender).unfold {} = .ok T ∧
        TransitionSystem.IsIsomorphism combine (T₁.interleave T₂) T := by
  have hcounter : counter.initializations.toList = [["x := 0"]] :=
    Ordered.toList_ofList_of_nodup (List.nodup_singleton _)
  have hsender : sender.initializations.toList = [] := rfl
  have hleft : ∀ n ∈ counter.writes, n ∉ sender.names := by
    unfold writes names actionTexts
    rw [hcounter, hsender, steps_sender, counter, steps_counting]
    decide +kernel
  have hright : ∀ n ∈ sender.writes, n ∉ counter.names := by
    unfold writes names actionTexts
    rw [hcounter, hsender, steps_sender, counter, steps_counting]
    decide +kernel
  obtain ⟨T₁, e₁⟩ := exists_unfold_counter
  obtain ⟨T₂, e₂⟩ := exists_unfold_sender
  obtain ⟨T, e, hiso⟩ :=
    unfold_interleave counter sender built_counter (built_stepper _ _) hleft hright T₁ T₂ e₁ e₂
  exact ⟨built_counter, built_stepper _ _, hleft, hright, T₁, T₂, T, e₁, e₂, e, hiso⟩

end Lasso.ProgramGraph
