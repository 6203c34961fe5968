import Mathlib.Data.Set.Defs
import Lasso.Proofs.Document.Build
/-!
# The meaning of properties

A property is described by the runs that violate it. This file says what such a run shows, in terms
of the propositions that hold one after the other, without automata for the common shapes:

* `Edge.Reads`, `Automaton.Accepts` -- the words that a described automaton accepts;
* `Property.Shows` -- **the behaviour that a property describes**;
* `Property.Formed.build` -- the automaton of a property accepts the words that show its behaviour.
-/

namespace Lasso

/-! ## 1. Guards -/

namespace Guard

variable {P : Type} [DecidableEq P] [Hashable P] {l : Ordered P} {ps : List P}

theorem accepts_all_iff (h : l.Valid) : (Guard.all ps).accepts l = true ↔ ∀ p ∈ ps, p ∈ l := by
  rw [Guard.accepts, List.all_eq_true]
  exact forall₂_congr fun p _ => h.contains_iff

theorem accepts_exactly_iff (h : l.Valid) :
    (Guard.exactly ps).accepts l = true ↔ ∀ p, p ∈ l ↔ p ∈ ps := by
  rw [Guard.accepts, (Ordered.valid_ofList ps).sameMembers_iff h]
  refine forall_congr' fun p => ?_
  rw [Ordered.mem_ofList]
  exact Iff.comm

end Guard

namespace Document

/-! ## 2. Behaviours -/

/-- Whether an edge is taken on a label. -/
def Edge.Reads (e : Edge) (l : Set String) : Prop :=
  if e.any = true then True
  else if e.empty = true then ∀ p, p ∉ l
  else if e.label ≠ [] then ∀ p, p ∈ l ↔ p ∈ e.label
  else ∀ p ∈ e.holds, p ∈ l

/-- A described automaton accepts a word when some way along its edges reads the labels of the word
    one after the other and meets accepting states again and again. -/
def Automaton.Accepts (a : Automaton) (w : Nat → Set String) : Prop :=
  ∃ q : Nat → String, q 0 ∈ a.initial ∧
    (∀ i, ∃ e ∈ a.edges, e.source = q i ∧ e.Reads (w i) ∧ e.target = q (i + 1)) ∧
    ∀ n, ∃ i, n < i ∧ q i ∈ a.accepting

/-- **What a run shows** that a property describes: the labels of its states are `w`. -/
inductive Property.Shows (p : Property) (w : Nat → Set String) : Prop where
  | eventually (h : p.eventually ≠ []) (halone : p.thenAlways = []) (i : Nat)
      (hi : ∀ x ∈ p.eventually, x ∈ w i)
  | eventuallyThenAlways (h : p.eventually ≠ []) (hthen : p.thenAlways ≠ []) (i : Nat)
      (hi : ∀ x ∈ p.eventually, x ∈ w i) (hlater : ∀ j > i, ∀ x ∈ p.thenAlways, x ∈ w j)
  | infinitelyOften (h : p.infinitelyOften ≠ [])
      (hoften : ∀ n, ∃ i, n < i ∧ ∀ x ∈ p.infinitelyOften, x ∈ w i)
  | never (h : p.never ≠ []) (hno : ∀ i, ¬ ∀ x ∈ p.never, x ∈ w i)
  | automaton (a : Automaton) (h : p.automaton? = some a) (hw : a.Accepts w)

/-! ## 3. Automata -/

section

variable {w : Nat → Ordered String}

/-- The propositions of a label. -/
def members (l : Ordered String) : Set String := { x | x ∈ l }

theorem Edge.guard_accepts_iff {e : Edge} {l : Ordered String} (h : l.Valid) :
    e.guard.accepts l = true ↔ e.Reads (members l) := by
  unfold Edge.guard Edge.Reads
  split
  · exact iff_of_true rfl trivial
  · split
    · rw [Guard.accepts_exactly_iff h]
      exact forall_congr' fun p => iff_false_right List.not_mem_nil
    · by_cases hl : e.label = []
      · rw [hl, if_neg (by simp), if_neg (by simp), Guard.accepts_all_iff h]
        rfl
      · rw [if_pos (by simpa using hl), if_pos hl, Guard.accepts_exactly_iff h]
        rfl

theorem Automaton.mem_next_drawn {a : Automaton} {q r : String} {l : Ordered String} (h : l.Valid) :
    r ∈ a.drawn.next q l ↔
      ∃ e ∈ a.edges, e.source = q ∧ e.Reads (members l) ∧ e.target = r := by
  rw [Lasso.Automaton.mem_next]
  constructor
  · rintro ⟨_, hmem, hsource, hguard, htarget⟩
    obtain ⟨e, he, rfl⟩ := List.mem_map.mp hmem
    exact ⟨e, he, hsource, (Edge.guard_accepts_iff h).mp hguard, htarget⟩
  · rintro ⟨e, he, hsource, hreads, htarget⟩
    exact ⟨e.arc, List.mem_map.mpr ⟨e, he, rfl⟩, hsource, (Edge.guard_accepts_iff h).mpr hreads,
      htarget⟩

theorem Automaton.accepts_drawn_iff {a : Automaton} (hw : ∀ i, (w i).Valid) :
    a.drawn.Accepts w ↔ a.Accepts fun i => members (w i) := by
  constructor
  · rintro ⟨q, hq, hoften⟩
    refine ⟨q, Ordered.mem_ofList.mp hq.start, fun i => (mem_next_drawn (hw i)).mp (hq.step i),
      fun n => ?_⟩
    obtain ⟨i, hi, hqi⟩ := hoften n
    exact ⟨i, hi, Ordered.mem_ofList.mp hqi⟩
  · rintro ⟨q, hstart, hstep, hoften⟩
    refine ⟨q, ⟨Ordered.mem_ofList.mpr hstart, fun i => (mem_next_drawn (hw i)).mpr (hstep i)⟩,
      fun n => ?_⟩
    obtain ⟨i, hi, hqi⟩ := hoften n
    exact ⟨i, hi, Ordered.mem_ofList.mpr hqi⟩

/-- A property with one shape and no other. -/
inductive Property.Single (p : Property) : Prop where
  | eventually (h : p.eventually ≠ []) (hi : p.infinitelyOften = []) (hn : p.never = [])
      (ha : p.automaton? = none)
  | infinitelyOften (he : p.eventually = []) (h : p.infinitelyOften ≠ []) (hn : p.never = [])
      (ha : p.automaton? = none)
  | never (he : p.eventually = []) (hi : p.infinitelyOften = []) (h : p.never ≠ [])
      (ha : p.automaton? = none)
  | automaton (a : Automaton) (he : p.eventually = []) (hi : p.infinitelyOften = [])
      (hn : p.never = []) (h : p.automaton? = some a)

theorem Property.single_of_shapes {p : Property} (h : p.shapes = 1) : p.Single := by
  simp only [Property.shapes, List.count_cons, List.count_nil, beq_iff_eq, Bool.not_eq_true',
    List.isEmpty_eq_false_iff] at h
  by_cases he : p.eventually = []
  · by_cases hi : p.infinitelyOften = []
    · by_cases hn : p.never = []
      · cases ha : p.automaton? with
        | none => simp [he, hi, hn, ha] at h
        | some a => exact .automaton a he hi hn ha
      · exact .never he hi hn (by simpa [he, hi, hn] using h)
    · obtain ⟨ha, hn⟩ : p.automaton? = none ∧ p.never = [] := by simpa [he, hi] using h
      exact .infinitelyOften he hi hn ha
  · obtain ⟨⟨ha, hn⟩, hi⟩ : (p.automaton? = none ∧ p.never = []) ∧ p.infinitelyOften = [] := by
      simpa [he] using h
    exact .eventually he hi hn ha

/-- An automaton accepts the words that show the behaviour of a property, and no other. -/
structure Property.Realizes (p : Property) (a : Lasso.Automaton String String) : Prop where
  consistent : a.Consistent
  accepts : ∀ w : Nat → Ordered String, (∀ i, (w i).Valid) →
    (a.Accepts w ↔ p.Shows fun i => members (w i))

-- In the proofs below a property has one shape only, so all but one case of what it shows are void.

section Shapes

variable {p : Property}

theorem Property.realizes_eventually (h : p.eventually ≠ []) (hthen : p.thenAlways = [])
    (hi : p.infinitelyOften = []) (hn : p.never = []) (ha : p.automaton? = none) :
    p.Realizes (.eventually (.all p.eventually)) := by
  refine ⟨(Lasso.Automaton.built_eventually _).consistent, fun w hw => ?_⟩
  rw [Lasso.Automaton.accepts_eventually_iff]
  simp only [Guard.accepts_all_iff (hw _)]
  constructor
  · rintro ⟨i, hi⟩
    exact .eventually h hthen i hi
  · intro hs
    cases hs with
    | eventually _ _ i hi => exact ⟨i, hi⟩
    | _ => simp_all

theorem Property.realizes_eventuallyThenAlways (h : p.eventually ≠ []) (hthen : p.thenAlways ≠ [])
    (hi : p.infinitelyOften = []) (hn : p.never = []) (ha : p.automaton? = none) :
    p.Realizes (.eventuallyThenAlways (.all p.eventually) (.all p.thenAlways)) := by
  refine ⟨(Lasso.Automaton.built_eventuallyThenAlways _ _).consistent, fun w hw => ?_⟩
  rw [Lasso.Automaton.accepts_eventuallyThenAlways_iff]
  simp only [Guard.accepts_all_iff (hw _)]
  constructor
  · rintro ⟨i, hi, hlater⟩
    exact .eventuallyThenAlways h hthen i hi hlater
  · intro hs
    cases hs with
    | eventuallyThenAlways _ _ i hi hlater => exact ⟨i, hi, hlater⟩
    | _ => simp_all

theorem Property.realizes_infinitelyOften (he : p.eventually = []) (h : p.infinitelyOften ≠ [])
    (hn : p.never = []) (ha : p.automaton? = none) :
    p.Realizes (.infinitelyOften (.all p.infinitelyOften)) := by
  refine ⟨(Lasso.Automaton.built_infinitelyOften _).consistent, fun w hw => ?_⟩
  rw [Lasso.Automaton.accepts_infinitelyOften_iff]
  simp only [Guard.accepts_all_iff (hw _)]
  constructor
  · exact .infinitelyOften h
  · intro hs
    cases hs with
    | infinitelyOften _ hoften => exact hoften
    | _ => simp_all

theorem Property.realizes_never (he : p.eventually = []) (hi : p.infinitelyOften = [])
    (h : p.never ≠ []) (ha : p.automaton? = none) : p.Realizes (.never (.all p.never)) := by
  refine ⟨(Lasso.Automaton.built_never _).consistent, fun w hw => ?_⟩
  rw [Lasso.Automaton.accepts_never_iff]
  simp only [← Bool.not_eq_true, Guard.accepts_all_iff (hw _)]
  constructor
  · exact .never h
  · intro hs
    cases hs with
    | never _ hno => exact hno
    | _ => simp_all

theorem Property.realizes_automaton {a : Automaton} (hbuilt : a.drawn.Built)
    (he : p.eventually = []) (hi : p.infinitelyOften = []) (hn : p.never = [])
    (h : p.automaton? = some a) : p.Realizes a.drawn := by
  refine ⟨hbuilt.consistent, fun w hw => ?_⟩
  rw [Automaton.accepts_drawn_iff hw]
  constructor
  · exact .automaton a h
  · intro hs
    cases hs with
    | automaton b hb hw => exact Option.some.inj (h.symm.trans hb) ▸ hw
    | _ => simp_all

/-- **A property without flaws has an automaton**, which accepts the words that show its behaviour. -/
theorem Property.Formed.build (hp : p.Formed) : ∃ a, p.build = .ok a ∧ p.Realizes a := by
  cases Property.single_of_shapes hp.shapes with
  | eventually h hi hn ha =>
    by_cases hthen : p.thenAlways = []
    · exact ⟨_, by simp [Property.build, h, hthen], realizes_eventually h hthen hi hn ha⟩
    · exact ⟨_, by simp [Property.build, h, hthen], realizes_eventuallyThenAlways h hthen hi hn ha⟩
  | infinitelyOften he h hn ha =>
    exact ⟨_, by simp [Property.build, he, h], realizes_infinitelyOften he h hn ha⟩
  | never he hi h ha =>
    exact ⟨_, by simp [Property.build, he, hi, h], realizes_never he hi h ha⟩
  | automaton a he hi hn h =>
    obtain ⟨e, hbuilt⟩ := (hp.automaton a h).assemble
    refine ⟨a.drawn, ?_, realizes_automaton hbuilt he hi hn h⟩
    simp [Property.build, he, hi, hn, h, Automaton.build, e, Except.mapError]

end Shapes

end

end Document

end Lasso
