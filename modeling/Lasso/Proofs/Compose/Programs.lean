import Lasso.Compose.Programs
import Lasso.Proofs.Program.Graph
/-!
# Two programs side by side

What two programs become side by side, part by part: the locations, where they start, the
initializations, and the steps (`mem_steps_interleaveWith`). A step is one of the first program or one
of the second while the other stays, or two waiting steps that agree, at once.

`checkedInterleave` composes them by changes that may be refused, and
`Consistent.checkedInterleave_eq_ok` says that **none of them is**.
-/

namespace Lasso.ProgramGraph

variable {L₁ L₂ L : Type} [DecidableEq L₁] [Hashable L₁] [DecidableEq L₂] [Hashable L₂]
  [DecidableEq L] [Hashable L]

/-! ## 1. The parts of the composition -/

section Parts

variable {join : L₁ → L₂ → L} {sync? : Option Synchronizer} {keep : Bool} {g₁ : ProgramGraph L₁}
  {g₂ : ProgramGraph L₂}

/-- An action that a program may take while the other stays: it waits for no partner, or it is kept
    until one comes. -/
def Free (sync? : Option Synchronizer) (keep : Bool) (action : String) : Prop :=
  keep = true ∨ waits sync? action = false

/-- A step of the first program while the second stays. -/
def besideLeft (join : L₁ → L₂ → L) (u : ProgramStep L₁) (l : L₂) : ProgramStep L :=
  ⟨join u.source l, u.condition, u.action, join u.target l⟩

/-- A step of the second program while the first stays. -/
def besideRight (join : L₁ → L₂ → L) (l : L₁) (w : ProgramStep L₂) : ProgramStep L :=
  ⟨join l w.source, w.condition, w.action, join l w.target⟩

/-- A step of both programs at once. -/
def together (join : L₁ → L₂ → L) (sync : Synchronizer) (u : ProgramStep L₁) (w : ProgramStep L₂) :
    ProgramStep L :=
  ⟨join u.source w.source, sync.conjoin u.condition w.condition, sync.combine u.action w.action,
    join u.target w.target⟩

/-- Two actions that happen at once: both wait for a partner, and they fit. -/
structure Meets (sync : Synchronizer) (a b : String) : Prop where
  left : sync.isOneSided a = true
  right : sync.isOneSided b = true
  agree : sync.agree a b = true

omit [DecidableEq L₁] [Hashable L₁] [DecidableEq L] [Hashable L] in
theorem mem_partnerSteps {sync : Synchronizer} {u : ProgramStep L₁} {t : ProgramStep L}
    (hu : sync.isOneSided u.action = true) :
    t ∈ partnerSteps join sync u g₂.steps.toList ↔
      ∃ w, w ∈ g₂.steps ∧ Meets sync u.action w.action ∧ t = together join sync u w := by
  unfold partnerSteps
  simp only [List.mem_map, List.mem_filter, Bool.and_eq_true]
  constructor
  · rintro ⟨w, ⟨hw, hone, hagree⟩, rfl⟩
    exact ⟨w, hw, ⟨hu, hone, hagree⟩, rfl⟩
  · rintro ⟨w, hw, hmeets, rfl⟩
    exact ⟨w, ⟨hw, hmeets.right, hmeets.agree⟩, rfl⟩

omit [DecidableEq L₁] [Hashable L₁] [DecidableEq L] [Hashable L] in
/-- What comes of one step of the first program. -/
theorem mem_leftSteps {u : ProgramStep L₁} {t : ProgramStep L} :
    t ∈ leftSteps join sync? keep g₂ u ↔
      (Free sync? keep u.action ∧ ∃ l, l ∈ g₂.locations ∧ t = besideLeft join u l) ∨
      ∃ sync, sync? = some sync ∧
        ∃ w, w ∈ g₂.steps ∧ Meets sync u.action w.action ∧ t = together join sync u w := by
  have halone : t ∈ (g₂.locations.toList.map fun l =>
      (⟨join u.source l, u.condition, u.action, join u.target l⟩ : ProgramStep L)) ↔
        ∃ l, l ∈ g₂.locations ∧ t = besideLeft join u l := by
    rw [List.mem_map]
    exact exists_congr fun l => and_congr_right fun _ => eq_comm
  unfold leftSteps
  cases sync? with
  | none =>
    have hfree : Free none keep u.action := Or.inr rfl
    simp [halone, hfree]
  | some sync =>
    cases hu : sync.isOneSided u.action with
    | false =>
      have hfree : Free (some sync) keep u.action := Or.inr hu
      have hno : ∀ b, ¬ Meets sync u.action b := fun b hb => by
        rw [hb.left] at hu
        cases hu
      simp [hu, halone, hfree, hno]
    | true =>
      have hfree : Free (some sync) keep u.action ↔ keep = true := by
        refine or_iff_left fun hw => ?_
        have hw' : sync.isOneSided u.action = false := hw
        rw [hu] at hw'
        cases hw'
      simp only [hu, if_true, List.mem_append, mem_partnerSteps hu, hfree, Option.some.injEq,
        exists_eq_left']
      cases keep with
      | false => simp
      | true => simp only [if_true, halone, true_and, or_comm]

omit [DecidableEq L₂] [Hashable L₂] [DecidableEq L] [Hashable L] in
/-- What comes of one step of the second program. -/
theorem mem_rightSteps {w : ProgramStep L₂} {t : ProgramStep L} :
    t ∈ rightSteps join sync? keep g₁ w ↔
      Free sync? keep w.action ∧ ∃ l, l ∈ g₁.locations ∧ t = besideRight join l w := by
  unfold rightSteps
  have hfree : Free sync? keep w.action ↔ ¬ (waits sync? w.action && !keep) = true := by
    unfold Free
    cases keep <;> cases waits sync? w.action <;> simp
  rw [hfree]
  split
  · rename_i h
    simp [h]
  · rename_i h
    rw [List.mem_map, and_iff_right h]
    exact exists_congr fun l => and_congr_right fun _ => eq_comm

/-- **The steps of two programs side by side.** -/
theorem mem_steps_interleaveWith {t : ProgramStep L} :
    t ∈ (interleaveWith join sync? keep g₁ g₂).steps ↔
      (∃ u l, u ∈ g₁.steps ∧ l ∈ g₂.locations ∧ Free sync? keep u.action ∧
        t = besideLeft join u l) ∨
      (∃ l w, l ∈ g₁.locations ∧ w ∈ g₂.steps ∧ Free sync? keep w.action ∧
        t = besideRight join l w) ∨
      ∃ sync u w, sync? = some sync ∧ u ∈ g₁.steps ∧ w ∈ g₂.steps ∧
        Meets sync u.action w.action ∧ t = together join sync u w := by
  show t ∈ Ordered.ofList _ ↔ _
  rw [Ordered.mem_ofList, List.mem_append, List.mem_flatMap, List.mem_flatMap]
  simp only [mem_leftSteps, mem_rightSteps]
  constructor
  · rintro (⟨u, hu, ⟨hfree, l, hl, rfl⟩ | ⟨sync, hsync, w, hw, hmeets, rfl⟩⟩ | ⟨w, hw, hfree, l, hl, rfl⟩)
    · exact Or.inl ⟨u, l, hu, hl, hfree, rfl⟩
    · exact Or.inr (Or.inr ⟨sync, u, w, hsync, hu, hw, hmeets, rfl⟩)
    · exact Or.inr (Or.inl ⟨l, w, hl, hw, hfree, rfl⟩)
  · rintro (⟨u, l, hu, hl, hfree, rfl⟩ | ⟨l, w, hl, hw, hfree, rfl⟩ |
      ⟨sync, u, w, hsync, hu, hw, hmeets, rfl⟩)
    · exact Or.inl ⟨u, hu, Or.inl ⟨hfree, l, hl, rfl⟩⟩
    · exact Or.inr ⟨w, hw, hfree, l, hl, rfl⟩
    · exact Or.inl ⟨u, hu, Or.inr ⟨sync, hsync, w, hw, hmeets, rfl⟩⟩

/-- The pairs of locations, in order. -/
def places (g₁ : ProgramGraph L₁) (g₂ : ProgramGraph L₂) : List (L₁ × L₂) :=
  g₁.locations.toList.flatMap fun x => g₂.locations.toList.map fun y => (x, y)

theorem mem_places {p : L₁ × L₂} : p ∈ places g₁ g₂ ↔ p.1 ∈ g₁.locations ∧ p.2 ∈ g₂.locations := by
  unfold places
  rw [List.mem_flatMap]
  constructor
  · rintro ⟨x, hx, hp⟩
    obtain ⟨y, hy, rfl⟩ := List.mem_map.mp hp
    exact ⟨hx, hy⟩
  · rintro ⟨hx, hy⟩
    exact ⟨p.1, hx, List.mem_map.mpr ⟨p.2, hy, rfl⟩⟩

theorem mem_locations_interleaveWith {l : L} :
    l ∈ (interleaveWith join sync? keep g₁ g₂).locations ↔
      ∃ x y, x ∈ g₁.locations ∧ y ∈ g₂.locations ∧ l = join x y := by
  show l ∈ Ordered.ofList ((places g₁ g₂).map fun p => join p.1 p.2) ↔ _
  rw [Ordered.mem_ofList, List.mem_map]
  constructor
  · rintro ⟨p, hp, rfl⟩
    exact ⟨p.1, p.2, (mem_places.mp hp).1, (mem_places.mp hp).2, rfl⟩
  · rintro ⟨x, y, hx, hy, rfl⟩
    exact ⟨(x, y), mem_places.mpr ⟨hx, hy⟩, rfl⟩

theorem mem_initial_interleaveWith (h₁ : g₁.Consistent) (h₂ : g₂.Consistent) {l : L} :
    l ∈ (interleaveWith join sync? keep g₁ g₂).initial ↔
      ∃ x y, x ∈ g₁.initial ∧ y ∈ g₂.initial ∧ l = join x y := by
  show l ∈ Ordered.ofList (((places g₁ g₂).filter fun p =>
    g₁.initial.contains p.1 && g₂.initial.contains p.2).map fun p => join p.1 p.2) ↔ _
  rw [Ordered.mem_ofList, List.mem_map]
  simp only [List.mem_filter, Bool.and_eq_true, h₁.initial.contains_iff, h₂.initial.contains_iff]
  constructor
  · rintro ⟨p, ⟨-, hx, hy⟩, rfl⟩
    exact ⟨p.1, p.2, hx, hy, rfl⟩
  · rintro ⟨x, y, hx, hy, rfl⟩
    exact ⟨(x, y), ⟨mem_places.mpr ⟨h₁.starts x hx, h₂.starts y hy⟩, hx, hy⟩, rfl⟩

theorem mem_joinInitializations {xs ys : List (List String)} {c : List String} :
    c ∈ joinInitializations xs ys ↔
      (∃ x y, x ∈ xs ∧ y ∈ ys ∧ c = x ++ y) ∨ (xs = [] ∧ c ∈ ys) ∨ (ys = [] ∧ c ∈ xs) := by
  have hpairs : c ∈ xs.flatMap (fun x => ys.map (x ++ ·)) ↔ ∃ x y, x ∈ xs ∧ y ∈ ys ∧ c = x ++ y := by
    rw [List.mem_flatMap]
    constructor
    · rintro ⟨x, hx, hc⟩
      obtain ⟨y, hy, rfl⟩ := List.mem_map.mp hc
      exact ⟨x, y, hx, hy, rfl⟩
    · rintro ⟨x, y, hx, hy, rfl⟩
      exact ⟨x, hx, List.mem_map.mpr ⟨y, hy, rfl⟩⟩
  unfold joinInitializations
  rw [List.mem_append, List.mem_append, hpairs, or_assoc]
  cases xs <;> cases ys <;> simp

/-- The composition starts in its own locations, and its steps stand between them. -/
theorem Consistent.interleaveWith (h₁ : g₁.Consistent) (h₂ : g₂.Consistent) :
    (interleaveWith join sync? keep g₁ g₂).Consistent where
  locations := Ordered.valid_ofList _
  initial := Ordered.valid_ofList _
  steps := Ordered.valid_ofList _
  initializations := Ordered.valid_ofList _
  starts l hl := by
    obtain ⟨x, y, hx, hy, rfl⟩ := (mem_initial_interleaveWith h₁ h₂).mp hl
    exact mem_locations_interleaveWith.mpr ⟨x, y, h₁.starts x hx, h₂.starts y hy, rfl⟩
  ends t ht := by
    have hplace : ∀ {x y}, x ∈ g₁.locations → y ∈ g₂.locations →
        join x y ∈ (ProgramGraph.interleaveWith join sync? keep g₁ g₂).locations :=
      fun hx hy => mem_locations_interleaveWith.mpr ⟨_, _, hx, hy, rfl⟩
    rcases mem_steps_interleaveWith.mp ht with
      ⟨u, l, hu, hl, -, rfl⟩ | ⟨l, w, hl, hw, -, rfl⟩ | ⟨sync, u, w, -, hu, hw, -, rfl⟩
    · exact ⟨hplace (h₁.ends u hu).1 hl, hplace (h₁.ends u hu).2 hl⟩
    · exact ⟨hplace hl (h₂.ends w hw).1, hplace hl (h₂.ends w hw).2⟩
    · exact ⟨hplace (h₁.ends u hu).1 (h₂.ends w hw).1, hplace (h₁.ends u hu).2 (h₂.ends w hw).2⟩

end Parts

/-! ## 2. The composition by checked changes -/

section Checked

variable [Display L] {join : L₁ → L₂ → L} {sync? : Option Synchronizer} {keep : Bool}
  {g₁ : ProgramGraph L₁} {g₂ : ProgramGraph L₂}

/-- Declares a pair of locations, and makes it initial if both are. -/
def enterPlace (join : L₁ → L₂ → L) (g₁ : ProgramGraph L₁) (g₂ : ProgramGraph L₂)
    (g : ProgramGraph L) (p : L₁ × L₂) : Except LocationError (ProgramGraph L) :=
  if g₁.initial.contains p.1 && g₂.initial.contains p.2 then
    (g.addLocation (join p.1 p.2)).setInitial (join p.1 p.2) true
  else .ok (g.addLocation (join p.1 p.2))

/-- **Two programs side by side, by changes that are checked.** It fails as soon as one of them is
    refused. -/
def checkedInterleave (join : L₁ → L₂ → L) (sync? : Option Synchronizer) (keep : Bool)
    (g₁ : ProgramGraph L₁) (g₂ : ProgramGraph L₂) : Except LocationError (ProgramGraph L) := do
  let g ← (places g₁ g₂).foldlM (enterPlace join g₁ g₂) (.empty (g₁.name ++ "||" ++ g₂.name))
  let g := (joinInitializations g₁.initializations.toList g₂.initializations.toList).foldl
    ProgramGraph.addInitialization g
  (g₁.steps.toList.flatMap (leftSteps join sync? keep g₂) ++
    g₂.steps.toList.flatMap (rightSteps join sync? keep g₁)).foldlM ProgramGraph.addStep g

theorem Consistent.foldlM_enterPlace {g : ProgramGraph L} (h : g.Consistent) (ps : List (L₁ × L₂)) :
    ps.foldlM (enterPlace join g₁ g₂) g = .ok { g with
      locations := g.locations.insertMany (ps.map fun p => join p.1 p.2)
      initial := g.initial.insertMany ((ps.filter fun p =>
        g₁.initial.contains p.1 && g₂.initial.contains p.2).map fun p => join p.1 p.2) } := by
  induction ps generalizing g with
  | nil => rfl
  | cons p ps ih =>
    have hadd := h.addLocation (join p.1 p.2)
    rw [List.foldlM_cons, enterPlace, List.filter_cons]
    by_cases hp : (g₁.initial.contains p.1 && g₂.initial.contains p.2) = true
    · have hmem : join p.1 p.2 ∈ (g.addLocation (join p.1 p.2)).locations :=
        h.locations.mem_insert.mpr (Or.inr rfl)
      have hset : (g.addLocation (join p.1 p.2)).setInitial (join p.1 p.2) true = .ok _ :=
        hadd.setInitial_eq_ok.mpr ⟨hmem, rfl⟩
      rw [if_pos hp, if_pos hp, hset]
      exact ih (hadd.setInitial hset)
    · rw [if_neg hp, if_neg hp]
      exact ih hadd

/-- **No change that composes two programs is refused.** -/
theorem Consistent.checkedInterleave_eq_ok (h₁ : g₁.Consistent) (h₂ : g₂.Consistent) :
    checkedInterleave join sync? keep g₁ g₂ =
      .ok (ProgramGraph.interleaveWith join sync? keep g₁ g₂) := by
  have h : (ProgramGraph.interleaveWith join sync? keep g₁ g₂).Consistent := h₁.interleaveWith h₂
  unfold checkedInterleave
  rw [(consistent_empty _).foldlM_enterPlace]
  simp only [bind, Except.bind]
  rw [foldl_addInitialization]
  exact h.withoutSteps.foldlM_addStep fun t ht => h.ends t (Ordered.mem_ofList.mpr ht)

end Checked

end Lasso.ProgramGraph
