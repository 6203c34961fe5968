import Mathlib.Order.Nat
import Lasso.Automaton.Shapes
import Lasso.Proofs.Automaton.Acceptance
/-!
# The languages of the common shapes

* `Closed.enter_eq_ok` -- an automaton that is written down with its parts is one that the operations
  lead to; so the automata of the common shapes are (`built_eventually` and the others);
* `accepts_eventually_iff`, `accepts_eventuallyThenAlways_iff`, `accepts_infinitelyOften_iff`,
  `accepts_never_iff` -- **each shape accepts the words that show its behaviour**.
-/

namespace Lasso.Guard

variable {P : Type} [DecidableEq P] [Hashable P] (l : Ordered P)

@[simp]
theorem accepts_always : (always : Guard P).accepts l = true := rfl

@[simp]
theorem accepts_not (g : Guard P) : g.not.accepts l = !g.accepts l := rfl

end Lasso.Guard

namespace Lasso.Automaton

/-! ## 1. Automata that are written down -/

section Built

variable {Q P : Type} [DecidableEq Q] [Hashable Q] [Display Q]

theorem Built.addStates {a : Automaton Q P} (h : a.Built) (qs : List Q) :
    a.addStates qs = { a with states := a.states.insertMany qs } ∧ (a.addStates qs).Built := by
  induction qs generalizing a with
  | nil => exact ⟨rfl, h⟩
  | cons q qs ih => exact ih (.addState a q h)

theorem Built.foldlM_setInitial {a : Automaton Q P} (h : a.Built) {qs : List Q}
    (hqs : ∀ q ∈ qs, q ∈ a.states) :
    qs.foldlM (fun a q => a.setInitial q true) a =
        .ok { a with initial := a.initial.insertMany qs } ∧
      ({ a with initial := a.initial.insertMany qs } : Automaton Q P).Built := by
  induction qs generalizing a with
  | nil => exact ⟨rfl, h⟩
  | cons q qs ih =>
    have hq : a.setInitial q true = .ok { a with initial := a.initial.insert q } :=
      h.consistent.setInitial_eq_ok.mpr ⟨hqs q List.mem_cons_self, rfl⟩
    rw [List.foldlM_cons, hq]
    exact ih (.setInitial a _ q true h hq) fun r hr => hqs r (List.mem_cons_of_mem _ hr)

theorem Built.foldlM_setAccepting {a : Automaton Q P} (h : a.Built) {qs : List Q}
    (hqs : ∀ q ∈ qs, q ∈ a.states) :
    qs.foldlM (fun a q => a.setAccepting q true) a =
        .ok { a with accepting := a.accepting.insertMany qs } ∧
      ({ a with accepting := a.accepting.insertMany qs } : Automaton Q P).Built := by
  induction qs generalizing a with
  | nil => exact ⟨rfl, h⟩
  | cons q qs ih =>
    have hq : a.setAccepting q true = .ok { a with accepting := a.accepting.insert q } :=
      h.consistent.setAccepting_eq_ok.mpr ⟨hqs q List.mem_cons_self, rfl⟩
    rw [List.foldlM_cons, hq]
    exact ih (.setAccepting a _ q true h hq) fun r hr => hqs r (List.mem_cons_of_mem _ hr)

theorem Built.foldlM_addEdge {a : Automaton Q P} (h : a.Built) {es : List (Edge Q P)}
    (hes : ∀ e ∈ es, e.source ∈ a.states ∧ e.target ∈ a.states) :
    es.foldlM Automaton.addEdge a = .ok { a with edges := a.edges ++ es.toArray } ∧
      ({ a with edges := a.edges ++ es.toArray } : Automaton Q P).Built := by
  induction es generalizing a with
  | nil => simpa using ⟨rfl, h⟩
  | cons e es ih =>
    have he : a.addEdge e = .ok { a with edges := a.edges.push e } :=
      h.consistent.addEdge_eq_ok.mpr ⟨hes e List.mem_cons_self, rfl⟩
    have hpush : a.edges ++ (e :: es).toArray = a.edges.push e ++ es.toArray := by simp
    rw [List.foldlM_cons, he, hpush]
    exact ih (.addEdge a _ e h he) fun e' he' => hes e' (List.mem_cons_of_mem _ he')

/-- The parts of an automaton speak of its own states only. -/
structure Closed (qs starts marked : List Q) (es : List (Edge Q P)) : Prop where
  starts : ∀ q ∈ starts, q ∈ qs
  marked : ∀ q ∈ marked, q ∈ qs
  edges : ∀ e ∈ es, e.source ∈ qs ∧ e.target ∈ qs

/-- The operations that lead to an automaton with given parts. -/
def enter (qs starts marked : List Q) (es : List (Edge Q P)) :
    Except AutomatonError (Automaton Q P) := do
  let a : Automaton Q P := Automaton.empty.addStates qs
  let a ← starts.foldlM (fun a q => Automaton.setInitial a q true) a
  let a ← marked.foldlM (fun a q => Automaton.setAccepting a q true) a
  es.foldlM Automaton.addEdge a

/-- **An automaton that is written down with its parts** is the one that the operations lead to, when
    it speaks of its own states only. -/
theorem Closed.enter_eq_ok {qs starts marked : List Q} {es : List (Edge Q P)}
    (h : Closed qs starts marked es) :
    enter qs starts marked es = .ok ⟨.ofList qs, .ofList starts, .ofList marked, es.toArray⟩ ∧
      (⟨.ofList qs, .ofList starts, .ofList marked, es.toArray⟩ : Automaton Q P).Built := by
  obtain ⟨eqs, hqs⟩ := (Built.empty : (Automaton.empty : Automaton Q P).Built).addStates qs
  rw [eqs] at hqs
  obtain ⟨estarts, hstarts⟩ :=
    hqs.foldlM_setInitial fun q hq => Ordered.mem_ofList.mpr (h.starts q hq)
  obtain ⟨emarked, hmarked⟩ :=
    hstarts.foldlM_setAccepting fun q hq => Ordered.mem_ofList.mpr (h.marked q hq)
  obtain ⟨ees, hes⟩ := hmarked.foldlM_addEdge fun e he =>
    ⟨Ordered.mem_ofList.mpr (h.edges e he).1, Ordered.mem_ofList.mpr (h.edges e he).2⟩
  rw [show (Automaton.empty : Automaton Q P).edges ++ es.toArray = es.toArray from
    Array.empty_append] at ees hes
  refine ⟨?_, hes⟩
  simp only [enter, eqs, estarts, emarked, ees, bind, Except.bind]
  rfl

end Built

section Shapes

variable {P : Type}

theorem built_eventually (phi : Guard P) : (eventually phi).Built :=
  (Closed.enter_eq_ok ⟨by simp, by simp, by simp⟩).2

theorem built_eventuallyThenAlways (phi psi : Guard P) : (eventuallyThenAlways phi psi).Built :=
  (Closed.enter_eq_ok ⟨by simp, by simp, by simp⟩).2

theorem built_infinitelyOften (phi : Guard P) : (infinitelyOften phi).Built :=
  (Closed.enter_eq_ok ⟨by simp, by simp, by simp⟩).2

theorem built_never (phi : Guard P) : (never phi).Built :=
  (Closed.enter_eq_ok ⟨by simp, by simp, by simp⟩).2

/-! ## 2. Runs that switch once -/

variable [DecidableEq P] [Hashable P] {chi phi psi : Guard P} {w : Nat → Ordered P} {s t : String}
  {l : Ordered P} {a : Automaton String P}

theorem mem_singleton_ofList : s ∈ (.ofList [t] : Ordered String) ↔ s = t := by
  rw [Ordered.mem_ofList, List.mem_singleton]

/-- **An automaton that switches once**: it waits in `q0` along labels that `chi` accepts, goes to `q1`
    by one that `phi` accepts, and stays there along those that `psi` accepts. -/
structure Switches (a : Automaton String P) (chi phi psi : Guard P) : Prop where
  initial : a.initial = .ofList ["q0"]
  accepting : a.accepting = .ofList ["q1"]
  next : ∀ s t l, t ∈ a.next s l ↔
    s = "q0" ∧ chi.accepts l = true ∧ t = "q0" ∨ s = "q0" ∧ phi.accepts l = true ∧ t = "q1" ∨
      s = "q1" ∧ psi.accepts l = true ∧ t = "q1"

/-- The run that goes from `q0` to `q1` at the `n`th label. -/
def switching (n i : Nat) : String := if i ≤ n then "q0" else "q1"

/-- A run that is accepted is in `q0` up to some label, and in `q1` behind it. -/
theorem Switches.exists_eq_switching (h : a.Switches chi phi psi) {q : Nat → String} (hq : a.Reads w q)
    (hcomes : ∃ i, q i = "q1") : ∃ n, ∀ i, q i = switching n i := by
  have hstart : q 0 = "q0" := mem_singleton_ofList.mp (h.initial ▸ hq.start)
  obtain ⟨n, hn⟩ : ∃ n, Nat.find hcomes = n + 1 := by
    refine Nat.exists_eq_succ_of_ne_zero fun h0 => ?_
    have hfirst := Nat.find_spec hcomes
    rw [h0, hstart] at hfirst
    exact absurd hfirst (by decide)
  have hafter : ∀ i, n + 1 ≤ i → q i = "q1" := by
    intro i hi
    induction i, hi using Nat.le_induction with
    | base => exact hn ▸ Nat.find_spec hcomes
    | succ i _ ih =>
      have hstep : psi.accepts (w i) = true ∧ q (i + 1) = "q1" := by
        simpa [ih] using (h.next _ _ _).mp (hq.step i)
      exact hstep.2
  refine ⟨n, fun i => ?_⟩
  unfold switching
  split
  · have hne : q i ≠ "q1" := Nat.find_min hcomes (by omega)
    rcases (h.next _ _ _).mp (hq.step i) with ⟨e, -⟩ | ⟨e, -⟩ | ⟨e, -⟩
    · exact e
    · exact e
    · exact absurd e hne
  · exact hafter i (by omega)

theorem Switches.accepts_iff (h : a.Switches chi phi psi) :
    a.Accepts w ↔ ∃ n, phi.accepts (w n) = true ∧ (∀ i < n, chi.accepts (w i) = true) ∧
      ∀ i > n, psi.accepts (w i) = true := by
  constructor
  · rintro ⟨q, hq, hoften⟩
    obtain ⟨i, -, hi⟩ := hoften 0
    rw [h.accepting, mem_singleton_ofList] at hi
    obtain ⟨n, hn⟩ := h.exists_eq_switching hq ⟨i, hi⟩
    have hstep := fun i => (h.next _ _ _).mp (hq.step i)
    simp only [hn, switching] at hstep
    refine ⟨n, ?_, fun i hi => ?_, fun i hi => ?_⟩
    · simpa using hstep n
    · simpa [Nat.le_of_lt hi, Nat.succ_le_of_lt hi] using hstep i
    · simpa [Nat.not_le_of_lt hi, Nat.not_le_of_lt (Nat.lt_succ_of_lt hi)] using hstep i
  · rintro ⟨n, hswitch, hwait, hstay⟩
    refine ⟨switching n, ⟨?_, fun i => (h.next _ _ _).mpr ?_⟩, fun k => ⟨n + k + 1, by omega, ?_⟩⟩
    · rw [h.initial]
      exact mem_singleton_ofList.mpr rfl
    · unfold switching
      rcases Nat.lt_trichotomy i n with hi | rfl | hi
      · rw [if_pos (by omega), if_pos (by omega)]
        exact Or.inl ⟨rfl, hwait i hi, rfl⟩
      · rw [if_pos (Nat.le_refl i), if_neg (by omega)]
        exact Or.inr (Or.inl ⟨rfl, hswitch, rfl⟩)
      · rw [if_neg (by omega), if_neg (by omega)]
        exact Or.inr (Or.inr ⟨rfl, hstay i hi, rfl⟩)
    · rw [h.accepting, switching, if_neg (by omega)]
      exact mem_singleton_ofList.mpr rfl

/-! ## 3. The languages -/

theorem switches_eventually : (eventually phi).Switches phi.not phi .always :=
  ⟨rfl, rfl, fun s t l => by rw [mem_next]; simp [eventually, eq_comm (b := s), eq_comm (b := t)]⟩

/-- The first accepted label is the one to switch at, as those before it are refused. -/
theorem accepts_eventually_iff :
    (eventually phi).Accepts w ↔ ∃ i, phi.accepts (w i) = true := by
  rw [switches_eventually.accepts_iff]
  refine ⟨fun ⟨n, hn, _⟩ => ⟨n, hn⟩, fun h => ⟨Nat.find h, Nat.find_spec h, fun i hi => ?_, fun _ _ => rfl⟩⟩
  simpa using Nat.find_min h hi

theorem switches_eventuallyThenAlways : (eventuallyThenAlways phi psi).Switches .always phi psi :=
  ⟨rfl, rfl, fun s t l => by
    rw [mem_next]; simp [eventuallyThenAlways, eq_comm (b := s), eq_comm (b := t)]⟩

theorem accepts_eventuallyThenAlways_iff :
    (eventuallyThenAlways phi psi).Accepts w ↔
      ∃ i, phi.accepts (w i) = true ∧ ∀ j > i, psi.accepts (w j) = true := by
  rw [switches_eventuallyThenAlways.accepts_iff]
  simp

theorem mem_next_infinitelyOften :
    t ∈ (infinitelyOften phi).next s l ↔
      (s = "q0" ∨ s = "q1") ∧ t = if phi.accepts l then "q1" else "q0" := by
  rw [mem_next, or_and_right]
  cases h : phi.accepts l <;>
    simp [infinitelyOften, h, eq_comm (b := s), eq_comm (b := t)]

/-- The run that is in `q1` behind each label that the guard accepts. -/
def noting (phi : Guard P) (w : Nat → Ordered P) : Nat → String
  | 0 => "q0"
  | i + 1 => if phi.accepts (w i) then "q1" else "q0"

theorem accepts_infinitelyOften_iff :
    (infinitelyOften phi).Accepts w ↔ ∀ n, ∃ i, n < i ∧ phi.accepts (w i) = true := by
  constructor
  · rintro ⟨q, hq, hoften⟩ n
    obtain ⟨i, hi, hqi⟩ := hoften (n + 1)
    obtain ⟨j, rfl⟩ : ∃ j, i = j + 1 := ⟨i - 1, by omega⟩
    refine ⟨j, by omega, ?_⟩
    obtain ⟨-, hj⟩ := mem_next_infinitelyOften.mp (hq.step j)
    rw [mem_singleton_ofList.mp hqi] at hj
    by_contra hno
    rw [if_neg hno] at hj
    exact absurd hj (by decide)
  · intro hoften
    refine ⟨noting phi w, ⟨mem_singleton_ofList.mpr rfl, fun i => ?_⟩, fun n => ?_⟩
    · refine mem_next_infinitelyOften.mpr ⟨?_, rfl⟩
      cases i with
      | zero => exact Or.inl rfl
      | succ i =>
        rw [noting]
        split
        · exact Or.inr rfl
        · exact Or.inl rfl
    · obtain ⟨i, hi, hphi⟩ := hoften n
      refine ⟨i + 1, by omega, ?_⟩
      rw [noting, if_pos hphi]
      exact mem_singleton_ofList.mpr rfl

theorem mem_next_never :
    t ∈ (never phi).next s l ↔ s = "q0" ∧ phi.accepts l = false ∧ t = "q0" := by
  rw [mem_next]
  simp [never, eq_comm (b := s), eq_comm (b := t)]

theorem accepts_never_iff : (never phi).Accepts w ↔ ∀ i, phi.accepts (w i) = false := by
  constructor
  · rintro ⟨q, hq, -⟩ i
    exact (mem_next_never.mp (hq.step i)).2.1
  · intro h
    refine ⟨fun _ => "q0", ⟨mem_singleton_ofList.mpr rfl, fun i => ?_⟩, fun n => ⟨n + 1, by omega, ?_⟩⟩
    · exact mem_next_never.mpr ⟨rfl, h i, rfl⟩
    · exact mem_singleton_ofList.mpr rfl

end Shapes

end Lasso.Automaton
