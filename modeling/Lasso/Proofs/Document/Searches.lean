import Lasso.Proofs.Document.Verify
import Lasso.Proofs.Emptiness
/-!
# The search trees of a document

* `SearchText` -- the text of a property's search trees: those of the outer search through the product of a system
  with the property's automaton;
* `Searches` -- the texts of all properties of a document, in their order, for the system that it describes or that
  its programs unfold to;
* `searches_of_verify` -- **a document that is checked one property after the other yields these texts**.
-/

namespace Lasso.Document

section System

variable {S : Type} [DecidableEq S] [Hashable S] [Display S] {d : Document} {o : VerifyOptions}
  {m : TransitionSystem S String String} {as : List (Lasso.Automaton String String)} {out : Outcome}

/-! ## 1. Systems -/

/-- The system with the labels that a document observes. -/
def observed (d : Document) (m : TransitionSystem S String String) :
    Except SystemError (TransitionSystem S String String) :=
  if d.observe.isEmpty then .ok m else restrictLabels d.observe m

theorem check_eq (o : VerifyOptions) (d : Document) (as : List (Lasso.Automaton String String))
    (m : TransitionSystem S String String) :
    check o d as m = (d.observed m).mapError (.refused ∘ .system) >>= checkObserved o d as := by
  unfold check observed
  split
  · rfl
  · rfl

/-- **The text of a property's search trees**, those of the outer search of its check. -/
def SearchText (m : TransitionSystem S String String) (p : Property) (text : String) : Prop :=
  ∃ a, p.build = .ok a ∧ text = ((m.product a).outerSearch a.accepting.contains).forest.newick

/-- A check gives the forest of the outer search, whatever its verdict. -/
theorem trees_of_verify {a : Lasso.Automaton String String} {r : TransitionSystem.Checked S String}
    (h : m.verify o a = .ok r) : r.trees = ((m.product a).outerSearch a.accepting.contains).forest := by
  have hcheck := mapError_eq_ok.mp h
  unfold TransitionSystem.checkEmptiness at hcheck
  simp only at hcheck
  split at hcheck
  · cases hcheck
  · split at hcheck
    · cases hcheck
    · cases hcheck
      rfl

/-- **A behaviour that a path shows has search trees**: the path starts at a root. -/
theorem SearchText.ne_empty {p : Property} {text : String} (h : SearchText m p text) (hm : m.Consistent)
    (hp : p.Formed) {x : Nat → S} (hx : m.IsPath x) (hshows : p.Shows fun i => members (m.label (x i))) :
    text ≠ "" := by
  obtain ⟨a, ha, rfl⟩ := h
  obtain ⟨a', ha', hrealizes⟩ := hp.build
  obtain rfl : a' = a := Except.ok.inj (ha'.symm.trans ha)
  have haccepts := (hrealizes.accepts (fun i => m.label (x i)) fun i => (hm.labeled (x i)).valid).mpr hshows
  obtain ⟨y, hy, -⟩ := (TransitionSystem.exists_accepted_iff hm hrealizes.consistent).mp ⟨x, hx, haccepts⟩
  have hforest : (m.product a').IsSearchForest ((m.product a').outerSearch a'.accepting.contains).forest :=
    (TransitionSystem.consistent_product hm hrealizes.consistent).isSearchForest_sweep _
  have hfound := (hforest.reached (y 0)).mpr (hy.reachable 0)
  rw [← hforest.inOrder] at hfound
  intro hempty
  rw [Forest.newick, ← String.toList_inj, String.toList_join] at hempty
  cases htrees : ((m.product a').outerSearch a'.accepting.contains).forest.trees with
  | nil =>
    rw [htrees] at hfound
    cases hfound
  | cons t ts => simp [htrees] at hempty

theorem forall₂_searchText {ps : List Property} {rs : List (TransitionSystem.Checked S String)}
    (has : List.Forall₂ (fun p a => Property.build p = .ok a) ps as)
    (hrs : List.Forall₂ (fun a r => m.verify o a = .ok r) as rs) :
    List.Forall₂ (SearchText m) ps (rs.map fun r => r.trees.newick) := by
  induction has generalizing rs with
  | nil =>
    cases hrs
    exact .nil
  | cons ha _ ih =>
    cases hrs with
    | cons hr hrs => exact .cons ⟨_, ha, congrArg Forest.newick (trees_of_verify hr)⟩ (ih hrs)

/-- **Checks that run one after the other yield the texts of all properties.** -/
theorem searchTexts_of_checkObserved (ho : o.concurrency = 1) (eas : d.properties.mapM Property.build = .ok as)
    (h : checkObserved o d as m = .ok out) : List.Forall₂ (SearchText m) d.properties out.trees := by
  obtain ⟨⟨vs, trees⟩, hall, h⟩ := bind_eq_ok.mp h
  obtain ⟨rs, hrs, hall⟩ := bind_eq_ok.mp (mapError_eq_ok.mp hall)
  have htrees : out.trees = rs.map fun r => r.trees.newick := by
    cases h
    cases hall
    simp [ho]
  rw [htrees]
  exact forall₂_searchText (forall₂_of_mapM_eq_ok eas) (forall₂_of_mapM_eq_ok hrs)

end System

/-! ## 2. Documents -/

/-- **The texts of the search trees of a document's properties**, in their order. -/
inductive Searches (d : Document) (o : VerifyOptions) (texts : List String) : Prop where
  | system (s : System) (m m' : TransitionSystem String String String) (hs : d.system? = some s)
      (hm : s.build d.name = .ok m) (hm' : d.observed m = .ok m')
      (h : List.Forall₂ (SearchText m') d.properties texts)
  | programs (gs : List (ProgramGraph String))
      (m m' : TransitionSystem (ProgramGraph.State LocationVector) String String) (hs : d.system? = none)
      (hgs : d.buildPrograms = .ok gs) (hm : unfoldSystem (d.programOptions o none) gs = .ok m)
      (hm' : d.observed m = .ok m') (h : List.Forall₂ (SearchText m') d.properties texts)

/-- **A document that is checked one property after the other yields these texts.** -/
theorem searches_of_verify {d : Document} {o : VerifyOptions} {out : Outcome} (ho : o.concurrency = 1)
    (h : d.verify o none = .ok out) : d.Searches o out.trees := by
  have hinv := h
  obtain ⟨⟨⟩, hv, hinv⟩ := bind_eq_ok.mp hinv
  obtain ⟨as, has, hinv⟩ := bind_eq_ok.mp hinv
  have eas := mapError_eq_ok.mp has
  cases hs : d.system? with
  | some s =>
    rw [hs] at hinv
    obtain ⟨m, hm, hcheck⟩ := bind_eq_ok.mp hinv
    rw [check_eq] at hcheck
    obtain ⟨m', hm', hcheck⟩ := bind_eq_ok.mp hcheck
    exact .system s m m' hs (mapError_eq_ok.mp hm) (mapError_eq_ok.mp hm')
      (searchTexts_of_checkObserved ho eas hcheck)
  | none =>
    rw [hs] at hinv
    obtain ⟨gs, hgs, hinv⟩ := bind_eq_ok.mp hinv
    obtain ⟨m, hm, hcheck⟩ := bind_eq_ok.mp hinv
    rw [check_eq] at hcheck
    obtain ⟨m', hm', hcheck⟩ := bind_eq_ok.mp hcheck
    exact .programs gs m m' hs (mapError_eq_ok.mp hgs) (mapError_eq_ok.mp hm) (mapError_eq_ok.mp hm')
      (searchTexts_of_checkObserved ho eas hcheck)

end Lasso.Document
