import Lasso.Document.Verify
import Lasso.Proofs.Compose.System
import Lasso.Proofs.Document.Property
import Lasso.Proofs.Unfold.Finite
import Lasso.Proofs.Verify
/-!
# Verified documents

* `exists_observed` -- restricting the labels to what a document observes never fails, and leaves the
  paths of the system as they are;
* `exists_check_eq_ok` -- the reports on a system decide the properties of a document, one by one;
* `exists_verify_of_unfoldSystem` -- there are reports on programs that can be unfolded;
* `verify_document_decides` -- **a document that is not refused is verified as it says**: a property
  holds exactly when no infinite path of the system shows the behaviour it describes.
-/

namespace Lasso.Document

/-! ## 1. What is observed -/

/-- The propositions of a label that a document observes: all of them if it does not name any. -/
def seen (d : Document) (l : Ordered String) : Set String :=
  { x | x ∈ l ∧ (d.observe = [] ∨ x ∈ d.observe) }

section System

variable {S : Type} [DecidableEq S] [Hashable S] [Display S] {d : Document}
  {m m' : TransitionSystem S String String}

/-- A system with the labels that a document observes in another one. -/
structure Observes (d : Document) (m m' : TransitionSystem S String String) : Prop where
  consistent : m'.Consistent
  initial : m'.initial = m.initial
  transitions : m'.transitions = m.transitions
  label : ∀ s, members (m'.label s) = d.seen (m.label s)

omit [Display S] in
theorem Observes.isPath_iff (h : d.Observes m m') {x : Nat → S} : m'.IsPath x ↔ m.IsPath x := by
  constructor
  · intro hx
    refine ⟨h.initial ▸ hx.start, fun i => ?_⟩
    obtain ⟨a, ha⟩ := hx.step i
    exact ⟨a, h.transitions ▸ ha⟩
  · intro hx
    refine ⟨h.initial.symm ▸ hx.start, fun i => ?_⟩
    obtain ⟨a, ha⟩ := hx.step i
    exact ⟨a, h.transitions.symm ▸ ha⟩

theorem exists_restrictLabels_eq_ok (hm : m.Consistent) (props : List String) :
    ∃ m', restrictLabels props m = .ok m' ∧ m'.Consistent ∧ m'.initial = m.initial ∧
      m'.transitions = m.transitions ∧ ∀ s p, p ∈ m'.label s ↔ p ∈ m.label s ∧ p ∈ props := by
  obtain ⟨m', e, hc, hinitial, htransitions, hlabel⟩ :=
    hm.relabel_eq props (fun s => props.filter (m.label s).contains) fun s p hp =>
      List.mem_of_mem_filter hp
  refine ⟨m', by rw [restrictLabels, e], hc, hinitial, htransitions, fun s p => ?_⟩
  rw [hlabel, List.mem_filter, (hm.labeled s).valid.contains_iff]
  constructor
  · rintro ⟨-, hp, hl⟩
    exact ⟨hl, hp⟩
  · rintro ⟨hl, hp⟩
    refine ⟨?_, hp, hl⟩
    -- a state that is not declared has no label
    by_contra hs
    rw [hm.label_of_not_mem hs] at hl
    exact Ordered.not_mem_empty p hl

/-- Checks the properties of a document against a system with the labels that it observes. -/
def checkObserved (o : VerifyOptions) (d : Document) (as : List (Lasso.Automaton String String))
    (m : TransitionSystem S String String) : Except DocumentFailure Outcome := do
  let (vs, trees) ← (m.verifyAll o as).mapError .failed
  return ⟨List.zipWith (reportOf d) d.properties vs, trees.map (·.newick)⟩

theorem exists_observed (d : Document) (hm : m.Consistent) :
    ∃ m', d.Observes m m' ∧ ∀ o as, check o d as m = checkObserved o d as m' := by
  by_cases ho : d.observe = []
  · refine ⟨m, ⟨hm, rfl, rfl, fun s => Set.ext fun x => ?_⟩, fun o as => ?_⟩
    · exact (and_iff_left (Or.inl ho)).symm
    · rw [check, if_pos (List.isEmpty_iff.mpr ho)]
      rfl
  · obtain ⟨m', e, hc, hinitial, htransitions, hlabel⟩ := exists_restrictLabels_eq_ok hm d.observe
    refine ⟨m', ⟨hc, hinitial, htransitions, fun s => Set.ext fun x => ?_⟩, fun o as => ?_⟩
    · exact (hlabel s x).trans (and_congr_right fun _ => (or_iff_right ho).symm)
    · rw [check, if_neg (by simpa using ho), e]
      rfl

/-! ## 2. Reports -/

/-- **A report decides a property**: it is positive exactly when no infinite path of the system shows
    the behaviour that the property describes. -/
structure Decides (d : Document) (m : TransitionSystem S String String) (p : Property)
    (r : Report) : Prop where
  property : r.property = p.name
  holds : r.holds = true ↔ ¬ ∃ x, m.IsPath x ∧ p.Shows fun i => d.seen (m.label (x i))

variable {o : VerifyOptions} {p : Property} {a : Lasso.Automaton String String}
  {as : List (Lasso.Automaton String String)}

theorem decides_reportOf (hm : d.Observes m m') (ha : p.Realizes a)
    {r : TransitionSystem.Checked S String} (e : m'.verify o a = .ok r) :
    d.Decides m p (reportOf d p r.verdict) := by
  have hholds : (reportOf d p r.verdict).holds = true ↔ r.verdict = .holds := by
    cases hv : r.verdict <;> simp [reportOf, Verdict.isHolds]
  refine ⟨rfl, ?_⟩
  rw [hholds, hm.consistent.verdict_eq_holds_iff ha.consistent e]
  refine not_congr (exists_congr fun x => and_congr hm.isPath_iff ?_)
  rw [ha.accepts _ fun i => (hm.consistent.labeled (x i)).valid]
  simp only [hm.label]

/-- Each automaton has its own search. -/
theorem exists_verifyAll_eq_ok (m : TransitionSystem S String String) (hc : o.canceled = false)
    (as : List (Lasso.Automaton String String)) :
    ∃ rs trees, m.verifyAll o as = .ok (rs.map (·.verdict), trees) ∧
      List.Forall₂ (fun a r => m.verify o a = .ok r) as rs := by
  have hall : Yields (List.Forall₂ (fun a r => m.verify o a = .ok r) as) (fun _ => False)
      (as.mapM (m.verify o)) := by
    refine Yields.mapM fun a _ => Yields.of_exists ?_
    obtain ⟨r, e⟩ := TransitionSystem.exists_verify_eq_ok m a hc
    exact ⟨r, e, e⟩
  obtain ⟨rs, e, hrs⟩ := hall.exists_ok
  refine ⟨rs, if o.concurrency ≠ 1 && as.length > 1 then [] else rs.map (·.trees), ?_, hrs⟩
  rw [TransitionSystem.verifyAll, e]
  rfl

/-- The reports follow the properties in their order. -/
theorem forall₂_decides (hm : d.Observes m m') {ps : List Property}
    {rs : List (TransitionSystem.Checked S String)} (has : List.Forall₂ Property.Realizes ps as)
    (hrs : List.Forall₂ (fun a r => m'.verify o a = .ok r) as rs) :
    List.Forall₂ (d.Decides m) ps (List.zipWith (reportOf d) ps (rs.map (·.verdict))) := by
  induction has generalizing rs with
  | nil => exact .nil
  | cons ha _ ih =>
    cases hrs with
    | cons hr hrs => exact .cons (decides_reportOf hm ha hr) (ih hrs)

theorem exists_check_eq_ok (hm : m.Consistent) (hc : o.canceled = false)
    (has : List.Forall₂ Property.Realizes d.properties as) :
    ∃ out, check o d as m = .ok out ∧ List.Forall₂ (d.Decides m) d.properties out.reports := by
  obtain ⟨m', hobs, eobs⟩ := exists_observed d hm
  obtain ⟨rs, trees, eall, hrs⟩ := exists_verifyAll_eq_ok m' hc as
  refine ⟨⟨List.zipWith (reportOf d) d.properties (rs.map (·.verdict)), trees.map (·.newick)⟩, ?_,
    forall₂_decides hobs has hrs⟩
  rw [eobs, checkObserved, eall]
  rfl

/-- Every report is one on a verdict. -/
theorem exists_verdicts (hm : m.Consistent) {out : Outcome} (e : check o d as m = .ok out) :
    ∃ vs : List (Verdict S), out.reports = List.zipWith (reportOf d) d.properties vs := by
  obtain ⟨m', -, eobs⟩ := exists_observed d hm
  rw [eobs] at e
  obtain ⟨r, -, e⟩ := bind_eq_ok.mp e
  cases e
  exact ⟨r.1, rfl⟩

omit [DecidableEq S] [Hashable S] in
/-- A positive report says no more than that. -/
theorem reportOf_of_holds {v : Verdict S} (h : (reportOf d p v).holds = true) :
    reportOf d p v = ⟨d.name, d.fingerprint, p.name, true, "Verification succeeded", [], []⟩ := by
  cases v with
  | holds => rfl
  | violated stem cycle => cases h

end System

/-! ## 3. Documents -/

section Documents

variable {d : Document} {o : VerifyOptions}

/-- Every property of a document that is not refused has an automaton. -/
theorem exists_automata (hv : d.validate = .ok ()) :
    ∃ as, d.properties.mapM Property.build = .ok as ∧
      List.Forall₂ Property.Realizes d.properties as := by
  have hall : Yields (List.Forall₂ Property.Realizes d.properties) (fun _ => False)
      (d.properties.mapM Property.build) :=
    Yields.mapM fun p hp => Yields.of_exists ((formed_of_validate hv).2 p hp).build
  exact hall.exists_ok

/-- Unfolded programs form a consistent system. -/
theorem consistent_of_unfoldSystem {gs : List (ProgramGraph String)}
    {m : TransitionSystem (ProgramGraph.State LocationVector) String String}
    (e : unfoldSystem o gs = .ok m) : m.Consistent := by
  unfold unfoldSystem at e
  split at e
  · cases e
  · exact (ProgramGraph.unfolded_of_unfold (mapError_eq_ok.mp e)).consistent

/-- The options that the programs of a document run with. -/
def programOptions (d : Document) (o : VerifyOptions) (evaluators? : Option Evaluators) :
    VerifyOptions :=
  { o with evaluators := evaluators?.getD d.evaluators }

section Parts

variable {as : List (Lasso.Automaton String String)} {evaluators? : Option Evaluators}

theorem verify_of_system (hv : d.validate = .ok ())
    (eas : d.properties.mapM Property.build = .ok as) {s : System} (hs : d.system? = some s)
    {m : TransitionSystem String String String} (em : s.build d.name = .ok m) :
    d.verify o evaluators? = check (d.programOptions o evaluators?) d as m := by
  simp only [verify, hv, eas, hs, em, Except.mapError, bind, Except.bind]
  rfl

theorem verify_of_programs (hv : d.validate = .ok ())
    (eas : d.properties.mapM Property.build = .ok as) (hnone : d.system? = none) :
    d.verify o evaluators? = d.buildPrograms.mapError .refused >>= fun gs =>
      (unfoldSystem (d.programOptions o evaluators?) gs).mapError .failed >>=
        check (d.programOptions o evaluators?) d as := by
  rw [verify, hv, eas, hnone]
  rfl

/-- Of documents with programs, only those that are not unfolded have no reports. -/
theorem exists_verify_of_unfoldSystem (evaluators? : Option Evaluators) (hv : d.validate = .ok ())
    (hnone : d.system? = none) (hc : o.canceled = false)
    {m : TransitionSystem (ProgramGraph.State LocationVector) String String}
    (em : unfoldSystem (d.programOptions o evaluators?) (d.programs.map Program.drawn) = .ok m) :
    ∃ out, d.verify o evaluators? = .ok out := by
  obtain ⟨as, eas, has⟩ := exists_automata hv
  obtain ⟨out, eout, -⟩ := exists_check_eq_ok (o := d.programOptions o evaluators?)
    (consistent_of_unfoldSystem em) hc has
  refine ⟨out, ?_⟩
  rw [verify_of_programs hv eas hnone]
  exact bind_eq_ok.mpr ⟨_, mapError_eq_ok.mpr (buildPrograms_of_validate hv),
    bind_eq_ok.mpr ⟨m, mapError_eq_ok.mpr em, eout⟩⟩

end Parts

/-- **A document that is not refused is verified as it says.** There is one report for each property,
    in their order and with their names, and it is positive exactly when no infinite path of the system
    shows the behaviour that the property describes, as far as the document observes it. The system is
    the one that the document describes, and then there are always reports; or it comes from unfolding
    the programs of the document. -/
theorem verify_document_decides (evaluators? : Option Evaluators) (hv : d.validate = .ok ())
    (hc : o.canceled = false) :
    (∀ s, d.system? = some s → ∃ m out, s.build d.name = .ok m ∧ s.Describes m ∧
        d.verify o evaluators? = .ok out ∧ List.Forall₂ (d.Decides m) d.properties out.reports) ∧
      (d.system? = none → ∀ out, d.verify o evaluators? = .ok out →
        ∃ gs m, d.buildPrograms = .ok gs ∧
          unfoldSystem (d.programOptions o evaluators?) gs = .ok m ∧
          List.Forall₂ (d.Decides m) d.properties out.reports) := by
  obtain ⟨as, eas, has⟩ := exists_automata hv
  have ho : (d.programOptions o evaluators?).canceled = false := hc
  constructor
  · intro s hs
    obtain ⟨m, em, hm⟩ := ((formed_of_validate hv).1 s hs).assemble d.name
    have ebuild : s.build d.name = .ok m := mapError_eq_ok.mpr em
    obtain ⟨out, eout, hout⟩ := exists_check_eq_ok hm.consistent ho has
    exact ⟨m, out, ebuild, hm, (verify_of_system hv eas hs ebuild).trans eout, hout⟩
  · intro hnone out e
    rw [verify_of_programs hv eas hnone] at e
    obtain ⟨gs, egs, e⟩ := bind_eq_ok.mp e
    obtain ⟨m, em, e⟩ := bind_eq_ok.mp e
    have eunfold := mapError_eq_ok.mp em
    obtain ⟨out', eout, hout⟩ := exists_check_eq_ok (consistent_of_unfoldSystem eunfold) ho has
    have hsame : out' = out := Except.ok.inj (eout.symm.trans e)
    exact ⟨gs, m, mapError_eq_ok.mp egs, eunfold, hsame ▸ hout⟩

/-- A lamp that shines until it burns out. -/
def lampSystem : System where
  states := ["on", "dark"]
  initial := ["on"]
  actions := ["stay", "burn"]
  propositions := ["lit", "warm"]
  transitions := [⟨"on", "stay", "on"⟩, ⟨"on", "burn", "dark"⟩, ⟨"dark", "stay", "dark"⟩]
  labels := [("on", ["lit", "warm"])]

/-- The lamp, of which the light is observed and the warmth is not. -/
def lamp : Document where
  name := "lamp"
  system? := some lampSystem
  observe := ["lit"]
  properties := [{ name := "starts", never := ["lit"] }, { name := "fails", infinitelyOften := ["lit"] },
    { name := "cools", eventually := ["warm"] }]

theorem validate_lamp : lamp.validate = .ok () := validate_eq_ok.mpr (by decide +kernel)

section Lamp

variable {m : TransitionSystem String String String} (hm : lampSystem.Describes m)

include hm

theorem lit_lamp : "lit" ∈ lamp.seen (m.label "on") :=
  ⟨(hm.label _ _).mpr ⟨["lit", "warm"], by decide, by decide⟩, Or.inr (by decide)⟩

theorem not_shows_never_lit : ¬ ∃ x, m.IsPath x ∧
    Property.Shows { name := "starts", never := ["lit"] } fun i => lamp.seen (m.label (x i)) := by
  rintro ⟨x, hx, hs⟩
  have hstart : x 0 = "on" := by simpa [lampSystem] using (hm.initial _).mp hx.start
  cases hs with
  | never _ hno => exact hno 0 (by simpa [hstart] using lit_lamp hm)
  | _ => simp_all

theorem shows_infinitelyOften_lit : ∃ x, m.IsPath x ∧
    Property.Shows { name := "fails", infinitelyOften := ["lit"] }
      fun i => lamp.seen (m.label (x i)) := by
  have hx : m.IsPath fun _ => "on" :=
    ⟨(hm.initial _).mpr (by decide), fun _ => ⟨"stay", (hm.transitions _).mpr (by decide)⟩⟩
  refine ⟨_, hx, .infinitelyOften (by decide) fun n => ⟨n + 1, by omega, ?_⟩⟩
  simpa using lit_lamp hm

omit hm in
theorem not_shows_eventually_warm : ¬ ∃ x, m.IsPath x ∧
    Property.Shows { name := "cools", eventually := ["warm"] }
      fun i => lamp.seen (m.label (x i)) := by
  rintro ⟨x, -, hs⟩
  cases hs with
  | eventually _ _ i hi => exact absurd (hi "warm" (by decide)).2 (by decide)
  | _ => simp_all

end Lamp

/-- A program that goes to a place of its own if the way is not taken, and leaves it again. -/
def contender (name place : String) (initializations : List (List String)) : Program where
  name := name
  locations := ["out", place]
  initial := ["out"]
  initializations := initializations
  steps := [⟨"out", "taken == 0", "taken = 1", place⟩, ⟨place, "", "taken = 0", "out"⟩]

def leftContender : Program := contender "a" "left" [["taken := 0"]]

def rightContender : Program := contender "b" "right" []

/-- Two programs that contend for one way. -/
def contest : Document where
  name := "contest"
  programs := [leftContender, rightContender]
  properties := [{ name := "collide", eventually := ["left", "right"] },
    { name := "repeat", infinitelyOften := ["taken = 1"] }]

theorem validate_contest : contest.validate = .ok () := validate_eq_ok.mpr (by decide)

section Contest

open ProgramGraph

/-- The programs side by side. -/
def contestants : ProgramGraph LocationVector :=
  ProgramGraph.system (some .handshake) (contest.programs.map Program.drawn)

def contestSteps : List (ProgramStep LocationVector) :=
  [⟨.ofList ["out", "out"], "taken == 0", "taken = 1", .ofList ["left", "out"]⟩,
    ⟨.ofList ["out", "right"], "taken == 0", "taken = 1", .ofList ["left", "right"]⟩,
    ⟨.ofList ["left", "out"], "", "taken = 0", .ofList ["out", "out"]⟩,
    ⟨.ofList ["left", "right"], "", "taken = 0", .ofList ["out", "right"]⟩,
    ⟨.ofList ["out", "out"], "taken == 0", "taken = 1", .ofList ["out", "right"]⟩,
    ⟨.ofList ["left", "out"], "taken == 0", "taken = 1", .ofList ["left", "right"]⟩,
    ⟨.ofList ["out", "right"], "", "taken = 0", .ofList ["out", "out"]⟩,
    ⟨.ofList ["left", "right"], "", "taken = 0", .ofList ["left", "out"]⟩]

theorem steps_contestants : contestants.steps = .ofList contestSteps := by
  have hplaces : rightContender.drawn.locations.toList = ["out", "right"] :=
    Ordered.toList_ofList_of_nodup (by decide)
  have hsteps : rightContender.drawn.steps.toList = rightContender.steps.map Step.drawn :=
    Ordered.toList_ofList_of_nodup (by decide)
  have hvectors : leftContender.drawn.vectorize.locations.toList = [.ofList ["out"], .ofList ["left"]] := by
    have hlocations : leftContender.drawn.locations.toList = ["out", "left"] :=
      Ordered.toList_ofList_of_nodup (by decide)
    rw [vectorize, hlocations]
    exact Ordered.toList_ofList_of_nodup (by simp [LocationVector.ofList_inj])
  have hvectorSteps : leftContender.drawn.vectorize.steps.toList =
      [⟨.ofList ["out"], "taken == 0", "taken = 1", .ofList ["left"]⟩,
        ⟨.ofList ["left"], "", "taken = 0", .ofList ["out"]⟩] := by
    have hleft : leftContender.drawn.steps.toList = leftContender.steps.map Step.drawn :=
      Ordered.toList_ofList_of_nodup (by decide)
    rw [vectorize, hleft]
    exact Ordered.toList_ofList_of_nodup (by
      simp [leftContender, contender, Step.drawn, LocationVector.ofList_inj])
  -- the lists behind the sets are known now, and the rest is computed
  refine congrArg Ordered.ofList ?_
  simp only [hvectorSteps, hsteps, List.flatMap_cons, List.flatMap_nil, List.flatMap_map,
    leftSteps, rightSteps, partnerSteps, hvectors, hplaces]
  rfl

theorem toList_steps_contestants : contestants.steps.toList = contestSteps := by
  rw [steps_contestants]
  exact Ordered.toList_ofList_of_nodup (by simp [contestSteps, LocationVector.ofList_inj])

theorem initial_contestants {l : LocationVector} :
    l ∈ contestants.initial ↔ l = .ofList ["out", "out"] := by
  have hclosed : ∀ p ∈ contest.programs, p.Closed := fun p hp =>
    Program.closed_of_problems ((by decide : ∀ p ∈ contest.programs, p.problems = []) p hp)
  have hleft : ∀ x, x ∈ leftContender.drawn.vectorize.initial ↔ x = .ofList ["out"] := fun x => by
    have hout : leftContender.drawn.initial.toList = ["out"] := Ordered.toList_ofList_of_nodup (by decide)
    rw [vectorize, hout]
    exact Ordered.mem_ofList.trans List.mem_singleton
  have hright : ∀ y, y ∈ rightContender.drawn.initial ↔ y = "out" := fun y =>
    Ordered.mem_ofList.trans List.mem_singleton
  refine (mem_initial_interleaveWith (hclosed _ List.mem_cons_self).consistent.vectorize
    (hclosed _ (List.mem_cons_of_mem _ List.mem_cons_self)).consistent).trans ?_
  simp only [hleft, hright]
  constructor
  · rintro ⟨x, y, rfl, rfl, rfl⟩
    rfl
  · rintro rfl
    exact ⟨_, _, rfl, rfl, rfl⟩

theorem initializations_contestants : contestants.initializations = .ofList [["taken := 0"]] := by
  refine congrArg Ordered.ofList ?_
  show joinInitializations (Ordered.ofList [["taken := 0"]]).toList
    (Ordered.ofList []).toList = _
  rw [Ordered.toList_ofList_of_nodup (by decide), Ordered.toList_ofList_of_nodup (by decide)]
  rfl

/-- Where the programs are, and whether the way is taken. -/
def standing (l r : String) (n : Int64) : State LocationVector :=
  ⟨.ofList [l, r], (∅ : Env).set "taken" (.int n)⟩

/-- One of them at most has left. -/
def standings : List (State LocationVector) :=
  [standing "out" "out" 0, standing "left" "out" 1, standing "out" "right" 1]

theorem initial_taken :
    contest.evaluators.initial ["taken := 0"] = .ok (standing "out" "out" 0).second := by decide +kernel

theorem starts_contestants {s : State LocationVector} :
    contestants.Starts contest.evaluators s ↔ s = standing "out" "out" 0 :=
  starts_iff_eq (fun _ => initial_contestants) initializations_contestants initial_taken

theorem contestants_within :
    leadsWithin contest.evaluators contestants.steps.toList standings = true ∧
      failsNowhere contest.evaluators contestants.steps.toList standings = true := by
  rw [toList_steps_contestants]
  decide +kernel

theorem exists_unfold_contestants :
    ∃ m, unfoldSystem (contest.programOptions {} none) (contest.programs.map Program.drawn) = .ok m := by
  have hinitial : ∀ stmts, stmts ∈ contestants.initializations →
      ∃ e, contest.evaluators.initial stmts = .ok e := fun stmts h => by
    rw [initializations_contestants, Ordered.mem_ofList, List.mem_singleton] at h
    subst h
    exact ⟨_, initial_taken⟩
  obtain ⟨hleads, hfails⟩ := contestants_within
  obtain ⟨m, hm⟩ := exists_unfold_of_leadsWithin
    (o := (contest.programOptions {} none).toUnfoldOptions) standings rfl (Int.le_refl 0) hinitial
    (fun s hs => starts_contestants.mp hs ▸ List.mem_cons_self) hleads hfails
  exact ⟨m, mapError_eq_ok.mpr hm⟩

variable {m : TransitionSystem (State LocationVector) String String}
  (hm : Unfolded contestants contest.evaluators m)

include hm

theorem not_shows_collision : ¬ ∃ x, m.IsPath x ∧
    Property.Shows { name := "collide", eventually := ["left", "right"] }
      fun i => contest.seen (m.label (x i)) := by
  rintro ⟨x, hx, hs⟩
  have hapart : ∀ s ∈ standings, ¬ ("left" ∈ stateProps s ∧
      "right" ∈ stateProps s) := by decide +kernel
  cases hs with
  | eventually _ _ i hi =>
    obtain ⟨hstate, hleft⟩ := (hm.label _ _).mp (hi "left" (by decide)).1
    obtain ⟨-, hright⟩ := (hm.label _ _).mp (hi "right" (by decide)).1
    have hstanding := mem_of_reached (fun s hs => starts_contestants.mp hs ▸ List.mem_cons_self)
      contestants_within.1 ((hm.states _).mp hstate)
    exact hapart _ hstanding ⟨hleft, hright⟩
  | _ => simp_all

theorem shows_repetition : ∃ x, m.IsPath x ∧
    Property.Shows { name := "repeat", infinitelyOften := ["taken = 1"] }
      fun i => contest.seen (m.label (x i)) := by
  have hstep : ∀ t ∈ contestSteps, t ∈ contestants.steps := fun t ht =>
    steps_contestants ▸ Ordered.mem_ofList.mpr ht
  have hstart : standing "out" "out" 0 ∈ m.initial := (hm.initial _).mpr (starts_contestants.mpr rfl)
  have hthere : m.Step (standing "out" "out" 0) (standing "left" "out" 1) :=
    ⟨"taken = 1", (hm.transitions _ _ _).mpr ⟨hm.consistent.starts _ hstart, "taken == 0",
      hstep _ (by decide +kernel), by decide +kernel, by decide +kernel⟩⟩
  have htaken : standing "left" "out" 1 ∈ m.states :=
    ((TransitionSystem.Reachable.start hstart).step hthere).declared hm.consistent
  have hback : m.Step (standing "left" "out" 1) (standing "out" "out" 0) :=
    ⟨"taken = 0", (hm.transitions _ _ _).mpr ⟨htaken, "", hstep _ (by decide +kernel),
      by decide +kernel, by decide +kernel⟩⟩
  have hlabel : "taken = 1" ∈ contest.seen (m.label (standing "left" "out" 1)) :=
    ⟨(hm.label _ _).mpr ⟨htaken, by decide +kernel⟩, Or.inl rfl⟩
  refine ⟨_, TransitionSystem.isPath_alternating hstart hthere hback,
    .infinitelyOften (by decide) fun n => ⟨2 * n + 1, by omega, ?_⟩⟩
  rw [if_neg (by omega)]
  simpa using hlabel

end Contest

/-- The lamp is a system, and the contest is one of programs. -/
theorem verify_document_decides_lamp_contest :
    (lamp.validate = .ok () ∧ ∃ out, lamp.verify {} none = .ok out ∧
      out.reports.map (fun r => (r.property, r.holds)) =
        [("starts", true), ("fails", false), ("cools", true)]) ∧
    contest.validate = .ok () ∧ ∃ out, contest.verify {} none = .ok out ∧
      out.reports.map (fun r => (r.property, r.holds)) = [("collide", true), ("repeat", false)] := by
  constructor
  · obtain ⟨m, ⟨reports, trees⟩, -, hm, e, hout⟩ :=
      (verify_document_decides (o := {}) none validate_lamp rfl).1 lampSystem rfl
    refine ⟨validate_lamp, _, e, ?_⟩
    cases hout with
    | cons hstarts hout =>
      cases hout with
      | cons hfails hout =>
        cases hout with
        | cons hcools hout =>
          cases hout
          have h₁ := hstarts.holds.mpr (not_shows_never_lit hm)
          have h₂ := Bool.eq_false_iff.mpr fun h => hfails.holds.mp h (shows_infinitelyOften_lit hm)
          have h₃ := hcools.holds.mpr not_shows_eventually_warm
          simp [hstarts.property, hfails.property, hcools.property, h₁, h₂, h₃]
  · obtain ⟨m, em⟩ := exists_unfold_contestants
    obtain ⟨⟨reports, trees⟩, e⟩ :=
      exists_verify_of_unfoldSystem (o := {}) none validate_contest rfl rfl em
    obtain ⟨gs, m', egs, em', hout⟩ :=
      (verify_document_decides (o := {}) none validate_contest rfl).2 rfl _ e
    obtain rfl : gs = contest.programs.map Program.drawn :=
      Except.ok.inj (egs.symm.trans (buildPrograms_of_validate validate_contest))
    have hm : ProgramGraph.Unfolded contestants contest.evaluators m' :=
      ProgramGraph.unfolded_of_unfold (mapError_eq_ok.mp em')
    refine ⟨validate_contest, _, e, ?_⟩
    cases hout with
    | cons hcollide hout =>
      cases hout with
      | cons hrepeat hout =>
        cases hout
        have h₁ := hcollide.holds.mpr (not_shows_collision hm)
        have h₂ := Bool.eq_false_iff.mpr fun h => hrepeat.holds.mp h (shows_repetition hm)
        simp [hcollide.property, hrepeat.property, h₁, h₂]

end Documents

end Lasso.Document
