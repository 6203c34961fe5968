import Lasso.Proofs.Compose.Programs
import Lasso.Proofs.Eval.Handshake
import Lasso.Proofs.Program.Vector
import Lasso.Proofs.Yields
/-!
# Any number of programs side by side

A system of programs is put together two at a time, and a waiting action is kept until the last program
has come. What comes out speaks of all programs at once:

* `StepsAlone`, `StepTogether` -- one program takes a step, or two of them take waiting steps that
  agree, while the others stay where they are;
* `IsSystem` -- what a system of programs is, part by part;
* `Joint` -- the same while programs are still to come, and `Joint.interleaveWith` the step to one
  program more. It turns on combined actions not waiting again (`Settles`);
* `checkedSystem` -- the system by changes that may be refused;
* `system_channels` -- **the system of two or more programs is what `IsSystem` says, and no change on
  the way is refused**.
-/

namespace Lasso

/-! ## 1. Lists with one element more -/

theorem forall₂_concat {α β : Type} {R : α → β → Prop} {as : List α} {a : α} {bs : List β} :
    List.Forall₂ R (as ++ [a]) bs ↔ ∃ bs' b, List.Forall₂ R as bs' ∧ R a b ∧ bs = bs' ++ [b] := by
  induction as generalizing bs with
  | nil =>
    rw [List.nil_append, List.forall₂_cons_left_iff]
    constructor
    · rintro ⟨b, u, hab, hu, rfl⟩
      rw [List.forall₂_nil_left_iff] at hu
      exact ⟨[], b, .nil, hab, by rw [hu]; rfl⟩
    · rintro ⟨bs', b, hnil, hab, rfl⟩
      rw [List.forall₂_nil_left_iff] at hnil
      exact ⟨b, [], hab, .nil, by rw [hnil]; rfl⟩
  | cons c as ih =>
    rw [List.cons_append, List.forall₂_cons_left_iff]
    constructor
    · rintro ⟨d, u, hcd, hu, rfl⟩
      obtain ⟨bs', b, hrest, hab, rfl⟩ := ih.mp hu
      exact ⟨d :: bs', b, .cons hcd hrest, hab, rfl⟩
    · rintro ⟨bs', b, hall, hab, rfl⟩
      obtain ⟨d, u, hcd, hu, rfl⟩ := List.forall₂_cons_left_iff.mp hall
      exact ⟨d, u ++ [b], hcd, ih.mpr ⟨u, b, hu, hab, rfl⟩, rfl⟩

/-- An element of the longer list is one of the shorter, or the last. -/
theorem getElem?_concat_eq_some {α : Type} {as : List α} {a b : α} {i : Nat} :
    (as ++ [a])[i]? = some b ↔ as[i]? = some b ∨ i = as.length ∧ b = a := by
  rcases Nat.lt_trichotomy i as.length with hlt | heq | hgt
  · rw [List.getElem?_append_left hlt]
    exact ⟨Or.inl, fun h => h.elim id fun e => absurd e.1 (Nat.ne_of_lt hlt)⟩
  · subst heq
    have hout : as[as.length]? = none := List.getElem?_eq_none (Nat.le_refl _)
    rw [List.getElem?_concat_length, hout]
    simp [eq_comm]
  · have hout : as[i]? = none := List.getElem?_eq_none (Nat.le_of_lt hgt)
    have hout' : (as ++ [a])[i]? = none := List.getElem?_eq_none (by rw [List.length_append]; exact hgt)
    rw [hout, hout']
    simp [Nat.ne_of_gt hgt]

namespace ProgramGraph

open LocationVector

/-! ## 2. What a system is -/

/-- One choice for each program. -/
abbrev Each (R : ProgramGraph String → String → Prop) (gs : List (ProgramGraph String))
    (v : LocationVector) : Prop :=
  ∃ ls, List.Forall₂ R gs ls ∧ v = .ofList ls

/-- One location of each program. -/
abbrev Located (gs : List (ProgramGraph String)) (ls : List String) : Prop :=
  List.Forall₂ (fun g l => l ∈ g.locations) gs ls

/-- **One program takes a step while the others stay**, wherever they are. -/
inductive StepsAlone (gs : List (ProgramGraph String)) (u : ProgramStep String) :
    ProgramStep LocationVector → Prop where
  | move (i : Nat) (g : ProgramGraph String) (ls : List String) (hg : gs[i]? = some g)
      (hu : u ∈ g.steps) (hls : Located gs ls) (hi : ls[i]? = some u.source) :
      StepsAlone gs u ⟨.ofList ls, u.condition, u.action, .ofList (ls.set i u.target)⟩

/-- **Two programs take a step at once while the others stay**, wherever they are. The action of the
    program that comes first stands first. -/
inductive StepTogether (sync : Synchronizer) (gs : List (ProgramGraph String))
    (u w : ProgramStep String) : ProgramStep LocationVector → Prop where
  | move (i j : Nat) (g h : ProgramGraph String) (ls : List String) (hij : i < j)
      (hg : gs[i]? = some g) (hh : gs[j]? = some h) (hu : u ∈ g.steps) (hw : w ∈ h.steps)
      (hls : Located gs ls) (hi : ls[i]? = some u.source) (hj : ls[j]? = some w.source) :
      StepTogether sync gs u w ⟨.ofList ls, sync.conjoin u.condition w.condition,
        sync.combine u.action w.action, .ofList ((ls.set i u.target).set j w.target)⟩

/-- What a program brings to an initialization of the system: one of its own, or nothing if it declares
    none. -/
def Contributes (g : ProgramGraph String) (c : List String) : Prop :=
  c ∈ g.initializations ∨ (g.initializations.toList = [] ∧ c = [])

/-- An initialization of the system: what each program brings, one behind the other, if any program
    declares one. -/
def Initializes (gs : List (ProgramGraph String)) (c : List String) : Prop :=
  (∃ g ∈ gs, g.initializations.toList ≠ []) ∧
    ∃ cs, List.Forall₂ Contributes gs cs ∧ c = cs.flatten

/-- **The system of some programs**, part by part. Its locations list one of each program, and can be
    told apart; no step stands twice, and none is left waiting for a partner. -/
structure IsSystem (sync? : Option Synchronizer) (gs : List (ProgramGraph String))
    (s : ProgramGraph LocationVector) : Prop where
  elements : ∀ ls, Located gs ls → (ofList ls).elements = ls
  locations : ∀ v, v ∈ s.locations ↔ Each (fun g l => l ∈ g.locations) gs v
  initial : ∀ v, v ∈ s.initial ↔ Each (fun g l => l ∈ g.initial) gs v
  steps : ∀ t, t ∈ s.steps ↔
    (∃ u, waits sync? u.action = false ∧ StepsAlone gs u t) ∨
    ∃ sync u w, sync? = some sync ∧ Meets sync u.action w.action ∧ StepTogether sync gs u w t
  once : s.steps.toList.Nodup
  accompanied : ∀ t, t ∈ s.steps → waits sync? t.action = false
  initializations : ∀ c, c ∈ s.initializations ↔ Initializes gs c

/-! ## 3. One program more -/

section Concat

variable {gs : List (ProgramGraph String)} {h : ProgramGraph String}

theorem each_concat {R : ProgramGraph String → String → Prop} {v : LocationVector} :
    Each R (gs ++ [h]) v ↔ ∃ x y, Each R gs x ∧ R h y ∧ v = x.append y := by
  constructor
  · rintro ⟨ls, hls, rfl⟩
    obtain ⟨ls', y, hall, hy, rfl⟩ := forall₂_concat.mp hls
    exact ⟨.ofList ls', y, ⟨ls', hall, rfl⟩, hy, ofList_concat ls' y⟩
  · rintro ⟨x, y, ⟨ls, hall, rfl⟩, hy, rfl⟩
    exact ⟨ls ++ [y], forall₂_concat.mpr ⟨ls, y, hall, hy, rfl⟩, (ofList_concat ls y).symm⟩

theorem ofList_set_concat {ls : List String} {i : Nat} (hi : i < ls.length) (l x : String) :
    ofList ((ls ++ [l]).set i x) = (ofList (ls.set i x)).append l := by
  rw [List.set_append_left _ _ hi, ofList_concat]

theorem ofList_set_length (ls : List String) (l x : String) :
    ofList ((ls ++ [l]).set ls.length x) = (ofList ls).append x := by
  rw [List.set_append_right _ _ (Nat.le_refl _), Nat.sub_self, List.set_cons_zero,
    ofList_concat]

variable {sync : Synchronizer} {u w : ProgramStep String} {t : ProgramStep LocationVector}

/-- A step of one program stays one beside the last program. -/
theorem StepsAlone.beside (ht : StepsAlone gs u t) {l : String} (hl : l ∈ h.locations) :
    StepsAlone (gs ++ [h]) u (besideLeft LocationVector.append t l) := by
  obtain ⟨i, g, ls, hg, hu, hls, hi⟩ := ht
  have hilt : i < ls.length := (List.getElem?_eq_some_iff.mp hi).1
  have hmove := StepsAlone.move i g (ls ++ [l]) (getElem?_concat_eq_some.mpr (Or.inl hg)) hu
    (forall₂_concat.mpr ⟨ls, l, hls, hl, rfl⟩) (getElem?_concat_eq_some.mpr (Or.inl hi))
  rw [ofList_set_concat hilt, ofList_concat] at hmove
  exact hmove

/-- The last program takes a step. -/
theorem StepsAlone.last {v : LocationVector} (hv : Each (fun g l => l ∈ g.locations) gs v)
    (hu : u ∈ h.steps) (hs : u.source ∈ h.locations) :
    StepsAlone (gs ++ [h]) u (besideRight LocationVector.append v u) := by
  obtain ⟨ls, hls, rfl⟩ := hv
  have hmove := StepsAlone.move ls.length h (ls ++ [u.source])
    (getElem?_concat_eq_some.mpr (Or.inr ⟨hls.length_eq.symm, rfl⟩)) hu
    (forall₂_concat.mpr ⟨ls, u.source, hls, hs, rfl⟩) (getElem?_concat_eq_some.mpr (Or.inr ⟨rfl, rfl⟩))
  rw [ofList_set_length, ofList_concat] at hmove
  exact hmove

/-- There are no other steps of one program. -/
theorem StepsAlone.of_concat (ht : StepsAlone (gs ++ [h]) u t) :
    (∃ t' l, StepsAlone gs u t' ∧ l ∈ h.locations ∧ t = besideLeft LocationVector.append t' l) ∨
    ∃ v, Each (fun g l => l ∈ g.locations) gs v ∧ u ∈ h.steps ∧
      t = besideRight LocationVector.append v u := by
  obtain ⟨i, g, ls, hg, hu, hls, hi⟩ := ht
  obtain ⟨ls', l, hls', hl, rfl⟩ := forall₂_concat.mp hls
  have hlen := hls'.length_eq
  rcases getElem?_concat_eq_some.mp hg with hg' | ⟨rfl, rfl⟩
  · have hilt : i < ls'.length := hlen ▸ (List.getElem?_eq_some_iff.mp hg').1
    rw [List.getElem?_append_left hilt] at hi
    refine Or.inl ⟨_, l, .move i g ls' hg' hu hls' hi, hl, ?_⟩
    rw [ofList_set_concat hilt, ofList_concat]
    rfl
  · rw [hlen, List.getElem?_concat_length, Option.some.injEq] at hi
    subst hi
    refine Or.inr ⟨.ofList ls', ⟨ls', hls', rfl⟩, hu, ?_⟩
    rw [hlen, ofList_set_length, ofList_concat]
    rfl

/-- A common step of two programs stays one beside the last program. -/
theorem StepTogether.beside (ht : StepTogether sync gs u w t) {l : String} (hl : l ∈ h.locations) :
    StepTogether sync (gs ++ [h]) u w (besideLeft LocationVector.append t l) := by
  obtain ⟨i, j, g, k, ls, hij, hg, hk, hu, hw, hls, hi, hj⟩ := ht
  have hilt : i < ls.length := (List.getElem?_eq_some_iff.mp hi).1
  have hjlt : j < (ls.set i u.target).length := by
    rw [List.length_set]
    exact (List.getElem?_eq_some_iff.mp hj).1
  have hmove : StepTogether sync (gs ++ [h]) u w _ := .move i j g k (ls ++ [l]) hij
    (getElem?_concat_eq_some.mpr (Or.inl hg)) (getElem?_concat_eq_some.mpr (Or.inl hk)) hu hw
    (forall₂_concat.mpr ⟨ls, l, hls, hl, rfl⟩) (getElem?_concat_eq_some.mpr (Or.inl hi))
    (getElem?_concat_eq_some.mpr (Or.inl hj))
  rw [List.set_append_left _ _ hilt, ofList_set_concat hjlt, ofList_concat] at hmove
  exact hmove

/-- A program takes a step together with the last one. -/
theorem StepTogether.last (ht : StepsAlone gs u t) (hw : w ∈ h.steps) (hs : w.source ∈ h.locations) :
    StepTogether sync (gs ++ [h]) u w (together LocationVector.append sync t w) := by
  obtain ⟨i, g, ls, hg, hu, hls, hi⟩ := ht
  have hilt : i < ls.length := (List.getElem?_eq_some_iff.mp hi).1
  have hset : ls.length = (ls.set i u.target).length := List.length_set.symm
  have hmove : StepTogether sync (gs ++ [h]) u w _ := .move i ls.length g h (ls ++ [w.source]) hilt
    (getElem?_concat_eq_some.mpr (Or.inl hg))
    (getElem?_concat_eq_some.mpr (Or.inr ⟨hls.length_eq.symm, rfl⟩)) hu hw
    (forall₂_concat.mpr ⟨ls, w.source, hls, hs, rfl⟩) (getElem?_concat_eq_some.mpr (Or.inl hi))
    (getElem?_concat_eq_some.mpr (Or.inr ⟨rfl, rfl⟩))
  rw [List.set_append_left _ _ hilt, hset, ofList_set_length, ofList_concat] at hmove
  exact hmove

/-- There are no other common steps of two programs. -/
theorem StepTogether.of_concat (ht : StepTogether sync (gs ++ [h]) u w t) :
    (∃ t' l, StepTogether sync gs u w t' ∧ l ∈ h.locations ∧
      t = besideLeft LocationVector.append t' l) ∨
    ∃ t', StepsAlone gs u t' ∧ w ∈ h.steps ∧ t = together LocationVector.append sync t' w := by
  obtain ⟨i, j, g, k, ls, hij, hg, hk, hu, hw, hls, hi, hj⟩ := ht
  obtain ⟨ls', l, hls', hl, rfl⟩ := forall₂_concat.mp hls
  have hlen := hls'.length_eq
  -- The first of the two is never the last program.
  have hjle : j < (gs ++ [h]).length := (List.getElem?_eq_some_iff.mp hk).1
  rw [List.length_append, List.length_singleton] at hjle
  have hilt : i < ls'.length := by omega
  rw [List.getElem?_append_left (hlen ▸ hilt)] at hg
  rw [List.getElem?_append_left hilt] at hi
  rcases getElem?_concat_eq_some.mp hk with hk' | ⟨rfl, rfl⟩
  · have hjlt : j < ls'.length := hlen ▸ (List.getElem?_eq_some_iff.mp hk').1
    have hjset : j < (ls'.set i u.target).length := by rwa [List.length_set]
    rw [List.getElem?_append_left hjlt] at hj
    refine Or.inl ⟨_, l, .move i j g k ls' hij hg hk' hu hw hls' hi hj, hl, ?_⟩
    rw [List.set_append_left _ _ hilt, ofList_set_concat hjset, ofList_concat]
    rfl
  · have hset : gs.length = (ls'.set i u.target).length := by rw [List.length_set, hlen]
    rw [hlen, List.getElem?_concat_length, Option.some.injEq] at hj
    subst hj
    refine Or.inr ⟨_, .move i g ls' hg hu hls' hi, hw, ?_⟩
    rw [List.set_append_left _ _ hilt, hset, ofList_set_length, ofList_concat]
    rfl

end Concat

/-! ## 4. Programs that are still to come -/

/-- A synchronizer whose combined actions do not wait for a partner again. -/
def Settles (sync? : Option Synchronizer) : Prop :=
  ∀ sync, sync? = some sync → ∀ a b, waits sync? (sync.combine a b) = false

theorem settles_none : Settles none := fun _ he => nomatch he

theorem settles_handshake : Settles (some .handshake) := by
  intro sync he a b
  obtain rfl : Synchronizer.handshake = sync := Option.some.inj he
  exact Handshake.isOneSided_combine a b

/-- **The programs so far side by side.** Their waiting steps are still there if `keep` is set. -/
structure Joint (sync? : Option Synchronizer) (keep : Bool) (gs : List (ProgramGraph String))
    (s : ProgramGraph LocationVector) : Prop where
  consistent : s.Consistent
  locations : ∀ v, v ∈ s.locations ↔ Each (fun g l => l ∈ g.locations) gs v
  initial : ∀ v, v ∈ s.initial ↔ Each (fun g l => l ∈ g.initial) gs v
  steps : ∀ t, t ∈ s.steps ↔
    (∃ u, Free sync? keep u.action ∧ StepsAlone gs u t) ∨
    ∃ sync u w, sync? = some sync ∧ Meets sync u.action w.action ∧ StepTogether sync gs u w t
  initializations : ∀ c, c ∈ s.initializations ↔ Initializes gs c

theorem StepsAlone.action_eq {gs : List (ProgramGraph String)} {u : ProgramStep String}
    {t : ProgramStep LocationVector} (h : StepsAlone gs u t) : t.action = u.action := by
  cases h
  rfl

theorem StepTogether.action_eq {sync : Synchronizer} {gs : List (ProgramGraph String)}
    {u w : ProgramStep String} {t : ProgramStep LocationVector} (h : StepTogether sync gs u w t) :
    t.action = sync.combine u.action w.action := by
  cases h
  rfl

section Steps

variable {sync? : Option Synchronizer} {keep : Bool} {gs : List (ProgramGraph String)}
  {s : ProgramGraph LocationVector} {h : ProgramGraph String}

/-- **The steps of one program more.** A step that was combined before stays as it is: it does not
    wait, so it finds no second partner and is not dropped. -/
theorem Joint.mem_steps_interleaveWith (hs : Settles sync?) (hj : Joint sync? true gs s)
    (hh : h.Consistent) {t : ProgramStep LocationVector} :
    t ∈ (interleaveWith LocationVector.append sync? keep s h).steps ↔
      (∃ u, Free sync? keep u.action ∧ StepsAlone (gs ++ [h]) u t) ∨
      ∃ sync u w, sync? = some sync ∧ Meets sync u.action w.action ∧
        StepTogether sync (gs ++ [h]) u w t := by
  rw [ProgramGraph.mem_steps_interleaveWith]
  constructor
  · rintro (⟨t', l, ht', hl, hfree, rfl⟩ | ⟨v, w, hv, hw, hfree, rfl⟩ |
      ⟨sync, t', w, hsync, ht', hw, hmeets, rfl⟩)
    · rcases (hj.steps t').mp ht' with ⟨u, -, hu⟩ | ⟨sync, u, w, hsync, hmeets, huw⟩
      · rw [hu.action_eq] at hfree
        exact Or.inl ⟨u, hfree, hu.beside hl⟩
      · exact Or.inr ⟨sync, u, w, hsync, hmeets, huw.beside hl⟩
    · exact Or.inl ⟨w, hfree, .last ((hj.locations v).mp hv) hw (hh.ends w hw).1⟩
    · rcases (hj.steps t').mp ht' with ⟨u, -, hu⟩ | ⟨sync', u, w', hsync', -, huw⟩
      · rw [hu.action_eq] at hmeets
        exact Or.inr ⟨sync, u, w, hsync, hmeets, .last hu hw (hh.ends w hw).1⟩
      · have hwaits : waits sync? t'.action = true := by
          rw [hsync]
          exact hmeets.left
        rw [huw.action_eq, hs sync' hsync'] at hwaits
        cases hwaits
  · rintro (⟨u, hfree, hu⟩ | ⟨sync, u, w, hsync, hmeets, huw⟩)
    · rcases hu.of_concat with ⟨t', l, hu', hl, rfl⟩ | ⟨v, hv, hu', rfl⟩
      · have ht' : t' ∈ s.steps := (hj.steps t').mpr (Or.inl ⟨u, Or.inl rfl, hu'⟩)
        rw [← hu'.action_eq] at hfree
        exact Or.inl ⟨t', l, ht', hl, hfree, rfl⟩
      · exact Or.inr (Or.inl ⟨v, u, (hj.locations v).mpr hv, hu', hfree, rfl⟩)
    · rcases huw.of_concat with ⟨t', l, huw', hl, rfl⟩ | ⟨t', hu', hw, rfl⟩
      · have ht' : t' ∈ s.steps := (hj.steps t').mpr (Or.inr ⟨sync, u, w, hsync, hmeets, huw'⟩)
        have hfree : Free sync? keep t'.action := by
          rw [huw'.action_eq]
          exact Or.inr (hs sync hsync u.action w.action)
        exact Or.inl ⟨t', l, ht', hl, hfree, rfl⟩
      · have ht' : t' ∈ s.steps := (hj.steps t').mpr (Or.inl ⟨u, Or.inl rfl, hu'⟩)
        rw [← hu'.action_eq] at hmeets
        exact Or.inr (Or.inr ⟨sync, t', w, hsync, ht', hw, hmeets, rfl⟩)

/-! ### Initializations -/

theorem exists_contributes (gs : List (ProgramGraph String)) :
    ∃ cs, List.Forall₂ Contributes gs cs := by
  induction gs with
  | nil => exact ⟨[], .nil⟩
  | cons g gs ih =>
    obtain ⟨cs, hcs⟩ := ih
    cases hg : g.initializations.toList with
    | nil => exact ⟨[] :: cs, .cons (Or.inr ⟨hg, rfl⟩) hcs⟩
    | cons c rest =>
      have hc : c ∈ g.initializations.toList := hg ▸ List.mem_cons_self
      exact ⟨c :: cs, .cons (Or.inl hc) hcs⟩

/-- Where no program declares an initialization, nothing comes together. -/
theorem flatten_eq_nil_of_contributes {cs : List (List String)} (hcs : List.Forall₂ Contributes gs cs)
    (hnone : ¬ ∃ g ∈ gs, g.initializations.toList ≠ []) : cs.flatten = [] := by
  induction hcs with
  | nil => rfl
  | @cons g c gs cs hc _ ih =>
    have hg : g.initializations.toList = [] := by
      by_contra hne
      exact hnone ⟨g, List.mem_cons_self, hne⟩
    have hc' : c = [] := by
      rcases hc with hmem | ⟨-, hc⟩
      · have hmem' : c ∈ g.initializations.toList := hmem
        rw [hg] at hmem'
        cases hmem'
      · exact hc
    rw [List.flatten_cons, hc', List.nil_append]
    exact ih fun ⟨k, hk, hne⟩ => hnone ⟨k, List.mem_cons_of_mem _ hk, hne⟩

/-- The programs so far have no initialization just if none of them declares one. -/
theorem Joint.initializations_eq_nil (hj : Joint sync? keep gs s) :
    s.initializations.toList = [] ↔ ¬ ∃ g ∈ gs, g.initializations.toList ≠ [] := by
  constructor
  · intro hnil hsome
    obtain ⟨cs, hcs⟩ := exists_contributes gs
    have hmem : cs.flatten ∈ s.initializations.toList :=
      (hj.initializations _).mpr ⟨hsome, cs, hcs, rfl⟩
    rw [hnil] at hmem
    cases hmem
  · intro hnone
    refine List.eq_nil_iff_forall_not_mem.mpr fun c hc => ?_
    exact hnone ((hj.initializations c).mp hc).1

theorem Joint.mem_initializations_interleaveWith (hj : Joint sync? true gs s) {c : List String} :
    c ∈ (interleaveWith LocationVector.append sync? keep s h).initializations ↔
      Initializes (gs ++ [h]) c := by
  show c ∈ Ordered.ofList (joinInitializations s.initializations.toList h.initializations.toList) ↔ _
  rw [Ordered.mem_ofList, mem_joinInitializations]
  constructor
  · rintro (⟨x, y, hx, hy, rfl⟩ | ⟨hnil, hc⟩ | ⟨hnil, hc⟩)
    · obtain ⟨⟨g, hg, hne⟩, cs, hcs, rfl⟩ := (hj.initializations x).mp hx
      refine ⟨⟨g, List.mem_append_left _ hg, hne⟩, cs ++ [y], ?_, List.flatten_concat.symm⟩
      exact forall₂_concat.mpr ⟨cs, y, hcs, Or.inl hy, rfl⟩
    · obtain ⟨cs, hcs⟩ := exists_contributes gs
      have hempty := flatten_eq_nil_of_contributes hcs (hj.initializations_eq_nil.mp hnil)
      refine ⟨⟨h, by simp, List.ne_nil_of_mem hc⟩, cs ++ [c], ?_, ?_⟩
      · exact forall₂_concat.mpr ⟨cs, c, hcs, Or.inl hc, rfl⟩
      · rw [List.flatten_concat, hempty, List.nil_append]
    · obtain ⟨⟨g, hg, hne⟩, cs, hcs, rfl⟩ := (hj.initializations c).mp hc
      refine ⟨⟨g, List.mem_append_left _ hg, hne⟩, cs ++ [[]], ?_, ?_⟩
      · exact forall₂_concat.mpr ⟨cs, [], hcs, Or.inr ⟨hnil, rfl⟩, rfl⟩
      · rw [List.flatten_concat, List.append_nil]
  · rintro ⟨⟨g, hg, hne⟩, cs', hcs', rfl⟩
    obtain ⟨cs, y, hcs, hy, rfl⟩ := forall₂_concat.mp hcs'
    rw [List.flatten_concat]
    rcases hy with hy | ⟨hnil, rfl⟩
    · by_cases hsome : ∃ g ∈ gs, g.initializations.toList ≠ []
      · exact Or.inl ⟨_, y, (hj.initializations _).mpr ⟨hsome, cs, hcs, rfl⟩, hy, rfl⟩
      · rw [flatten_eq_nil_of_contributes hcs hsome, List.nil_append]
        exact Or.inr (Or.inl ⟨hj.initializations_eq_nil.mpr hsome, hy⟩)
    · have hg' : g ∈ gs := by
        rcases List.mem_append.mp hg with hg | hg
        · exact hg
        · rw [List.mem_singleton.mp hg] at hne
          exact absurd hnil hne
      rw [List.append_nil]
      exact Or.inr (Or.inr ⟨hnil, (hj.initializations _).mpr ⟨⟨g, hg', hne⟩, cs, hcs, rfl⟩⟩)

/-- **One program more.** -/
theorem Joint.interleaveWith (hs : Settles sync?) (hj : Joint sync? true gs s) (hh : h.Consistent) :
    Joint sync? keep (gs ++ [h]) (interleaveWith LocationVector.append sync? keep s h) where
  consistent := hj.consistent.interleaveWith hh
  locations v := by
    rw [mem_locations_interleaveWith, each_concat]
    simp only [hj.locations]
  initial v := by
    rw [mem_initial_interleaveWith hj.consistent hh, each_concat]
    simp only [hj.initial]
  steps _ := hj.mem_steps_interleaveWith hs hh
  initializations _ := hj.mem_initializations_interleaveWith

theorem mem_ofList_map_singleton {o : Ordered String} {R : ProgramGraph String → String → Prop}
    (hR : ∀ l, l ∈ o ↔ R h l) {v : LocationVector} :
    v ∈ Ordered.ofList (o.toList.map fun l => ofList [l]) ↔ Each R [h] v := by
  rw [Ordered.mem_ofList, List.mem_map]
  constructor
  · rintro ⟨l, hl, rfl⟩
    exact ⟨[l], .cons ((hR l).mp hl) .nil, rfl⟩
  · rintro ⟨ls, hls, rfl⟩
    obtain ⟨l, rest, hl, hrest, rfl⟩ := List.forall₂_cons_left_iff.mp hls
    rw [List.forall₂_nil_left_iff.mp hrest]
    exact ⟨l, (hR l).mpr hl, rfl⟩

theorem not_stepTogether_singleton {sync : Synchronizer} {u w : ProgramStep String}
    {t : ProgramStep LocationVector} : ¬ StepTogether sync [h] u w t := by
  rintro ⟨i, j, g, k, ls, hij, hg, hk, -, -, -, -, -⟩
  have hj : j < [h].length := (List.getElem?_eq_some_iff.mp hk).1
  rw [List.length_singleton] at hj
  omega

/-- A step of the only program. -/
theorem stepsAlone_singleton (hh : h.Consistent) {u : ProgramStep String}
    {t : ProgramStep LocationVector} :
    StepsAlone [h] u t ↔
      u ∈ h.steps ∧ t = ⟨.ofList [u.source], u.condition, u.action, .ofList [u.target]⟩ := by
  constructor
  · rintro ⟨i, g, ls, hg, hu, hls, hi⟩
    obtain ⟨rfl, rfl⟩ : i = 0 ∧ g = h := by simpa [List.getElem?_singleton, eq_comm] using hg
    obtain ⟨l, rest, -, hrest, rfl⟩ := List.forall₂_cons_left_iff.mp hls
    rw [List.forall₂_nil_left_iff.mp hrest] at hi ⊢
    obtain rfl : l = u.source := Option.some.inj hi
    exact ⟨hu, rfl⟩
  · rintro ⟨hu, rfl⟩
    exact .move 0 h [u.source] rfl hu (.cons (hh.ends u hu).1 .nil) rfl

theorem initializes_singleton {c : List String} : Initializes [h] c ↔ c ∈ h.initializations := by
  constructor
  · rintro ⟨⟨g, hg, hne⟩, cs, hcs, rfl⟩
    rw [List.mem_singleton.mp hg] at hne
    obtain ⟨d, ds, hd, hds, rfl⟩ := List.forall₂_cons_left_iff.mp hcs
    rw [List.forall₂_nil_left_iff.mp hds, List.flatten_singleton]
    exact hd.resolve_right fun e => hne e.1
  · intro hc
    refine ⟨⟨h, List.mem_singleton_self h, List.ne_nil_of_mem hc⟩, [c], ?_, List.flatten_singleton.symm⟩
    exact .cons (Or.inl hc) .nil

theorem mem_steps_vectorize {t : ProgramStep LocationVector} :
    t ∈ h.vectorize.steps ↔ ∃ u, u ∈ h.steps ∧
      t = ⟨.ofList [u.source], u.condition, u.action, .ofList [u.target]⟩ := by
  show t ∈ Ordered.ofList _ ↔ _
  rw [Ordered.mem_ofList, List.mem_map]
  exact exists_congr fun u => and_congr_right fun _ => eq_comm

theorem Consistent.vectorize (hh : h.Consistent) : h.vectorize.Consistent where
  locations := Ordered.valid_ofList _
  initial := Ordered.valid_ofList _
  steps := Ordered.valid_ofList _
  initializations := hh.initializations
  starts v hv := by
    obtain ⟨l, hl, rfl⟩ := List.mem_map.mp (Ordered.mem_ofList.mp hv)
    exact Ordered.mem_ofList.mpr (List.mem_map_of_mem (hh.starts l hl))
  ends t ht := by
    obtain ⟨u, hu, rfl⟩ := mem_steps_vectorize.mp ht
    exact ⟨Ordered.mem_ofList.mpr (List.mem_map_of_mem (hh.ends u hu).1),
      Ordered.mem_ofList.mpr (List.mem_map_of_mem (hh.ends u hu).2)⟩

/-- **The first program**, alone. -/
theorem joint_vectorize (hh : h.Consistent) : Joint sync? true [h] h.vectorize where
  consistent := hh.vectorize
  locations v := mem_ofList_map_singleton fun _ => Iff.rfl
  initial v := mem_ofList_map_singleton fun _ => Iff.rfl
  steps t := by
    rw [mem_steps_vectorize]
    constructor
    · rintro ⟨u, hu⟩
      exact Or.inl ⟨u, Or.inl rfl, (stepsAlone_singleton hh).mpr hu⟩
    · rintro (⟨u, -, hu⟩ | ⟨sync, u, w, -, -, huw⟩)
      · exact ⟨u, (stepsAlone_singleton hh).mp hu⟩
      · exact absurd huw not_stepTogether_singleton
  initializations _ := initializes_singleton.symm

/-- **All programs.** Waiting steps are kept just if no program came behind the first. -/
theorem Joint.joinAll (hs : Settles sync?) {rest : List (ProgramGraph String)}
    (hj : Joint sync? true gs s) (hrest : ∀ g ∈ rest, g.Consistent) :
    Joint sync? rest.isEmpty (gs ++ rest) (joinAll sync? s rest) := by
  induction rest generalizing gs s with
  | nil =>
    rw [List.append_nil]
    exact hj
  | cons g rest ih =>
    have hstep : Joint sync? (!rest.isEmpty) (gs ++ [g])
        (ProgramGraph.interleaveWith LocationVector.append sync? (!rest.isEmpty) s g) :=
      hj.interleaveWith hs (hrest g List.mem_cons_self)
    cases rest with
    | nil => exact hstep
    | cons g' rest =>
      have hall := ih hstep fun k hk => hrest k (List.mem_cons_of_mem _ hk)
      rw [List.append_assoc] at hall
      exact hall

/-- Once the last program has come, the programs are a system. -/
theorem Joint.isSystem (hs : Settles sync?) (hj : Joint sync? false gs s) : IsSystem sync? gs s where
  elements ls _ := elements_ofList ls
  locations := hj.locations
  initial := hj.initial
  steps t := by
    have hfree : ∀ a, Free sync? false a ↔ waits sync? a = false := fun a =>
      or_iff_right Bool.false_ne_true
    simp only [hj.steps, hfree]
  once := hj.consistent.steps.nodup
  accompanied t ht := by
    rcases (hj.steps t).mp ht with ⟨u, hfree, hu⟩ | ⟨sync, u, w, hsync, -, huw⟩
    · rw [hu.action_eq]
      exact hfree.resolve_left Bool.false_ne_true
    · rw [huw.action_eq]
      exact hs sync hsync u.action w.action
  initializations := hj.initializations

theorem isSystem_system (hs : Settles sync?) (hn : 2 ≤ gs.length) (hgs : ∀ g ∈ gs, g.Consistent) :
    IsSystem sync? gs (system sync? gs) := by
  match gs, hn, hgs with
  | g :: g' :: rest, _, hgs =>
    have hfirst : Joint sync? true [g] g.vectorize := joint_vectorize (hgs g List.mem_cons_self)
    have hrest : ∀ k ∈ g' :: rest, k.Consistent := fun k hk => hgs k (List.mem_cons_of_mem g hk)
    exact (hfirst.joinAll hs hrest).isSystem hs

end Steps

/-! ## 5. The system by checked changes -/

/-- **A program with vectors for its locations, by changes that are checked.** -/
def checkedVectorize (g : ProgramGraph String) : Except LocationError (ProgramGraph LocationVector) := do
  let v := (g.locations.toList.map fun l => ofList [l]).foldl ProgramGraph.addLocation
    { ProgramGraph.empty g.name with initializations := g.initializations }
  let v ← (g.initial.toList.map fun l => ofList [l]).foldlM (·.setInitial · true) v
  (g.steps.toList.map fun t => ⟨.ofList [t.source], t.condition, t.action, .ofList [t.target]⟩).foldlM
    ProgramGraph.addStep v

/-- Adds programs to a system one by one, by changes that are checked. -/
def checkedJoinAll (sync? : Option Synchronizer) (g : ProgramGraph LocationVector) :
    List (ProgramGraph String) → Except LocationError (ProgramGraph LocationVector)
  | [] => .ok g
  | h :: rest => do
    let g ← checkedInterleave LocationVector.append sync? (!rest.isEmpty) g h
    checkedJoinAll sync? g rest

/-- **Any number of programs side by side, by changes that are checked.** It fails as soon as one of
    them is refused. -/
def checkedSystem (sync? : Option Synchronizer) :
    List (ProgramGraph String) → Except LocationError (ProgramGraph LocationVector)
  | [] => .ok (.empty "")
  | g :: rest => do
    let v ← g.checkedVectorize
    checkedJoinAll sync? v rest

theorem Consistent.checkedVectorize_eq_ok {g : ProgramGraph String} (h : g.Consistent) :
    g.checkedVectorize = .ok g.vectorize := by
  have hv : g.vectorize.Consistent := h.vectorize
  -- First the locations are there, then the initial ones, and then the steps.
  have hlocated := hv.withoutSteps.withoutInitial
  have hinitial := hlocated.foldlM_setInitial fun l hl => hv.starts l (Ordered.mem_ofList.mpr hl)
  have hsteps := hv.withoutSteps.foldlM_addStep fun t ht => hv.ends t (Ordered.mem_ofList.mpr ht)
  unfold checkedVectorize
  simp only [foldl_addLocation]
  exact bind_eq_ok.mpr ⟨_, hinitial, hsteps⟩

theorem Consistent.checkedJoinAll_eq_ok {sync? : Option Synchronizer} {s : ProgramGraph LocationVector}
    {rest : List (ProgramGraph String)} (hs : s.Consistent) (hrest : ∀ g ∈ rest, g.Consistent) :
    checkedJoinAll sync? s rest = .ok (ProgramGraph.joinAll sync? s rest) := by
  induction rest generalizing s with
  | nil => rfl
  | cons g rest ih =>
    have hg := hrest g List.mem_cons_self
    rw [checkedJoinAll, hs.checkedInterleave_eq_ok hg]
    exact ih (hs.interleaveWith hg) fun k hk => hrest k (List.mem_cons_of_mem _ hk)

theorem checkedSystem_eq_ok {sync? : Option Synchronizer} {gs : List (ProgramGraph String)}
    (hgs : ∀ g ∈ gs, g.Consistent) : checkedSystem sync? gs = .ok (system sync? gs) := by
  cases gs with
  | nil => rfl
  | cons g rest =>
    have hg := hgs g List.mem_cons_self
    rw [checkedSystem, hg.checkedVectorize_eq_ok]
    exact hg.vectorize.checkedJoinAll_eq_ok fun k hk => hgs k (List.mem_cons_of_mem _ hk)

/-! ## 6. Channels -/

/-- **The system of two or more programs.** With rendezvous, a step is one that waits for no partner, or
    two ends of one channel in any two programs; without a synchronizer, it is any step of one program.
    No change on the way is refused. -/
theorem system_channels {gs : List (ProgramGraph String)} (hn : 2 ≤ gs.length)
    (hgs : ∀ g ∈ gs, g.Built) :
    (checkedSystem (some .handshake) gs = .ok (system (some .handshake) gs) ∧
      IsSystem (some .handshake) gs (system (some .handshake) gs)) ∧
    checkedSystem none gs = .ok (system none gs) ∧ IsSystem none gs (system none gs) ∧
      ∀ t, t ∈ (system none gs).steps ↔ ∃ u, StepsAlone gs u t := by
  have hcs : ∀ g ∈ gs, g.Consistent := fun g hg => (hgs g hg).consistent
  have hmute : IsSystem none gs (system none gs) := isSystem_system settles_none hn hcs
  refine ⟨⟨checkedSystem_eq_ok hcs, isSystem_system settles_handshake hn hcs⟩,
    checkedSystem_eq_ok hcs, hmute, fun t => ?_⟩
  rw [hmute.steps]
  constructor
  · rintro (⟨u, -, hu⟩ | ⟨sync, u, w, hsync, -⟩)
    · exact ⟨u, hu⟩
    · cases hsync
  · rintro ⟨u, hu⟩
    exact Or.inl ⟨u, rfl, hu⟩

/-- A program that takes one step. -/
def stepper (name : String) (u : ProgramStep String) : ProgramGraph String :=
  ((((empty name).addLocation u.source).addLocation u.target).insertInitial u.source).insertStep u

theorem source_mem_stepper (name : String) (u : ProgramStep String) :
    u.source ∈ (stepper name u).locations := by
  have hfirst : ((empty name).addLocation u.source).Consistent := (consistent_empty name).addLocation _
  refine hfirst.locations.mem_insert.mpr (Or.inl ?_)
  exact (consistent_empty name).locations.mem_insert.mpr (Or.inr rfl)

theorem target_mem_stepper (name : String) (u : ProgramStep String) :
    u.target ∈ (stepper name u).locations := by
  have hfirst : ((empty name).addLocation u.source).Consistent := (consistent_empty name).addLocation _
  exact hfirst.locations.mem_insert.mpr (Or.inr rfl)

theorem mem_steps_stepper (name : String) (u : ProgramStep String) : u ∈ (stepper name u).steps :=
  (consistent_empty name).steps.mem_insert.mpr (Or.inr rfl)

theorem built_stepper (name : String) (u : ProgramStep String) : (stepper name u).Built := by
  have hlocated := Built.addLocation _ u.target (.addLocation _ u.source (.empty name))
  have hstarted := hlocated.insertInitial (source_mem_stepper name u)
  exact hstarted.insertStep ⟨source_mem_stepper name u, target_mem_stepper name u⟩

/-- A sender, a program that has nothing to do with its channel, and a receiver. -/
def relayed : List (ProgramGraph String) :=
  [(stepper "sender" ⟨"s0", "", "_c!x", "s1"⟩).addInitialization ["x := 1"],
    stepper "relay" ⟨"m", "", "z := 1", "m"⟩, stepper "receiver" ⟨"r0", "", "_c?y", "r1"⟩]

/-- The sender and the receiver meet although a program stands between them. -/
theorem system_channels_relayed :
    2 ≤ relayed.length ∧ (∀ g ∈ relayed, g.Built) ∧
      ⟨.ofList ["s0", "m", "r0"], "", "_c!x|_c?y", .ofList ["s1", "m", "r1"]⟩ ∈
        (system (some .handshake) relayed).steps ∧
      ∀ t, t ∈ (system (some .handshake) relayed).steps → Handshake.isOneSided t.action = false := by
  have hn : 2 ≤ relayed.length := by decide
  have hgs : ∀ g ∈ relayed, g.Built := by
    simp [relayed, built_stepper, Built.addInitialization]
  have hsystem := (system_channels hn hgs).1.2
  have hmeets : Meets .handshake "_c!x" "_c?y" :=
    ⟨by decide +kernel, by decide +kernel, by decide +kernel⟩
  have hls : Located relayed ["s0", "m", "r0"] :=
    .cons (source_mem_stepper _ _) (.cons (source_mem_stepper _ _) (.cons (source_mem_stepper _ _) .nil))
  have hcond : Handshake.conjoin "" "" = "" := by decide +kernel
  have haction : Handshake.combine "_c!x" "_c?y" = "_c!x|_c?y" := by decide +kernel
  have htogether : StepTogether .handshake relayed ⟨"s0", "", "_c!x", "s1"⟩ ⟨"r0", "", "_c?y", "r1"⟩
      ⟨.ofList ["s0", "m", "r0"], Handshake.conjoin "" "", Handshake.combine "_c!x" "_c?y",
        .ofList ["s1", "m", "r1"]⟩ :=
    .move 0 2 _ _ _ (by decide) rfl rfl (mem_steps_stepper _ _) (mem_steps_stepper _ _) hls rfl rfl
  rw [hcond, haction] at htogether
  exact ⟨hn, hgs, (hsystem.steps _).mpr (Or.inr ⟨.handshake, _, _, rfl, hmeets, htogether⟩),
    hsystem.accompanied⟩

end ProgramGraph

end Lasso
