import Mathlib.Data.List.Forall2
/-!
# What computations yield

A computation that may fail is described by two statements: one on the values it may return, one on
the failures it may report. `Yields Q J r` says both of a result; the rules of this file carry it
through the ways in which computations are put together, so that a whole computation is described by
what its steps do.
-/

namespace Lasso

variable {ε ε' α β : Type}

/-- The value of a result satisfies `Q`, and its failure satisfies `J`. -/
def Yields (Q : β → Prop) (J : ε → Prop) : Except ε β → Prop
  | .ok b => Q b
  | .error c => J c

theorem mapError_eq_ok {r : Except ε β} {f : ε → ε'} {b : β} : r.mapError f = .ok b ↔ r = .ok b := by
  cases r <;> simp [Except.mapError]

theorem map_eq_ok {r : Except ε β} {f : β → α} {a : α} :
    r.map f = .ok a ↔ ∃ b, r = .ok b ∧ f b = a := by
  cases r <;> simp [Except.map]

theorem bind_eq_ok {r : Except ε β} {f : β → Except ε α} {a : α} :
    r >>= f = .ok a ↔ ∃ b, r = .ok b ∧ f b = .ok a := by
  cases r <;> simp [bind, Except.bind]

/-- **A loop whose turns are loops** is one loop over all that the turns go through. -/
theorem foldlM_eq_foldlM_flatMap {γ : Type} {f : α → List β} {step : γ → β → Except ε γ}
    {turn : γ → α → Except ε γ} {l : List α}
    (h : ∀ a ∈ l, ∀ c, turn c a = (f a).foldlM step c) (c : γ) :
    l.foldlM turn c = (l.flatMap f).foldlM step c := by
  induction l generalizing c with
  | nil => rfl
  | cons a l ih =>
    rw [List.foldlM_cons, List.flatMap_cons, List.foldlM_append, h a List.mem_cons_self]
    exact bind_congr fun c' => ih (fun a' ha' => h a' (List.mem_cons_of_mem _ ha')) c'

/-- A loop that succeeds does so whatever its failures are turned into. -/
theorem foldlM_mapError_eq_ok {f : β → α → Except ε β} {l : List α} {b b' : β}
    (h : l.foldlM f b = .ok b') (g : ε → ε') : l.foldlM (fun b a => (f b a).mapError g) b = .ok b' := by
  induction l generalizing b with
  | nil =>
    cases h
    rfl
  | cons a l ih =>
    rw [List.foldlM_cons] at h ⊢
    obtain ⟨b₁, hb₁, h⟩ := bind_eq_ok.mp h
    exact bind_eq_ok.mpr ⟨b₁, mapError_eq_ok.mpr hb₁, ih h⟩

namespace Yields

variable {Q : β → Prop} {J : ε → Prop} {r : Except ε β}

theorem of_ok (h : Yields Q J r) {b : β} (e : r = .ok b) : Q b := by
  subst e
  exact h

theorem of_error (h : Yields Q J r) {c : ε} (e : r = .error c) : J c := by
  subst e
  exact h

theorem of_exists (h : ∃ b, r = .ok b ∧ Q b) : Yields Q J r := by
  obtain ⟨b, rfl, hb⟩ := h
  exact hb

/-- A computation that cannot fail returns a value. -/
theorem exists_ok (h : Yields Q (fun _ => False) r) : ∃ b, r = .ok b ∧ Q b := by
  cases r with
  | ok b => exact ⟨b, rfl, h⟩
  | error c => exact h.elim

theorem imp {Q' : β → Prop} {J' : ε → Prop} (h : Yields Q J r) (hQ : ∀ b, Q b → Q' b)
    (hJ : ∀ c, J c → J' c) : Yields Q' J' r := by
  cases r with
  | ok b => exact hQ b h
  | error c => exact hJ c h

/-- **A computation behind another one** starts from what the first one leaves. -/
theorem bind {Q' : α → Prop} {f : β → Except ε α} (h : Yields Q J r)
    (hf : ∀ b, Q b → Yields Q' J (f b)) : Yields Q' J (r >>= f) := by
  cases r with
  | ok b => exact hf b h
  | error c => exact h

/-- **A fold keeps what each of its steps keeps**; `I` speaks of the elements that are still ahead. -/
theorem foldlM {f : β → α → Except ε β} {I : List α → β → Prop}
    (hstep : ∀ a rest b, I (a :: rest) b → Yields (I rest) J (f b a)) {l : List α} {b : β}
    (h : I l b) : Yields (I []) J (l.foldlM f b) := by
  induction l generalizing b with
  | nil => exact h
  | cons a l ih =>
    rw [List.foldlM_cons]
    exact (hstep a l b h).bind fun b' h' => ih h'

/-- The same where `I` does not change along the list. -/
theorem foldlM_of_mem {f : β → α → Except ε β} {I : β → Prop} {l : List α}
    (hstep : ∀ a ∈ l, ∀ b, I b → Yields I J (f b a)) {b : β} (h : I b) :
    Yields I J (l.foldlM f b) := by
  induction l generalizing b with
  | nil => exact h
  | cons a l ih =>
    rw [List.foldlM_cons]
    refine (hstep a List.mem_cons_self b h).bind fun b' h' => ?_
    exact ih (fun a' ha' => hstep a' (List.mem_cons_of_mem _ ha')) h'

/-- The values of a list of computations, each with its own description. -/
theorem mapM {f : α → Except ε β} {I : α → β → Prop} {l : List α}
    (hf : ∀ a ∈ l, Yields (I a) J (f a)) : Yields (List.Forall₂ I l) J (l.mapM f) := by
  induction l with
  | nil => exact List.Forall₂.nil
  | cons a l ih =>
    rw [List.mapM_cons]
    refine (hf a List.mem_cons_self).bind fun b hb => ?_
    refine (ih fun a' ha' => hf a' (List.mem_cons_of_mem _ ha')).bind fun bs hbs => ?_
    exact List.Forall₂.cons hb hbs

/-- The values of a list of computations that all have the same description. -/
theorem forall_mapM {f : α → Except ε β} {l : List α} (hf : ∀ a ∈ l, Yields Q J (f a)) :
    Yields (fun bs => ∀ b ∈ bs, Q b) J (l.mapM f) := by
  refine (mapM (I := fun _ b => Q b) hf).imp (fun bs hbs => ?_) fun _ hc => hc
  clear hf
  induction hbs with
  | nil => exact fun b hb => absurd hb List.not_mem_nil
  | cons hb _ ih => exact List.forall_mem_cons.mpr ⟨hb, ih⟩

end Yields

section MapM

variable {f : α → Except ε β} {l : List α} {bs : List β} {b : β}

/-- Where all computations of a list succeed, the values are theirs, in their order. -/
theorem forall₂_of_mapM_eq_ok (h : l.mapM f = .ok bs) :
    List.Forall₂ (fun a b => f a = .ok b) l bs := by
  refine (Yields.mapM (J := fun _ => True) (fun a _ => ?_)).of_ok h
  cases f a with
  | ok b => exact rfl
  | error c => exact trivial

theorem exists_of_mapM_eq_ok (h : l.mapM f = .ok bs) {a : α} (ha : a ∈ l) : ∃ b, f a = .ok b := by
  have hpairs := forall₂_of_mapM_eq_ok h
  clear h
  induction hpairs with
  | nil => cases ha
  | cons hab _ ih => exact (List.mem_cons.mp ha).elim (fun e => ⟨_, e ▸ hab⟩) ih

/-- The values of a list of computations are those of its members. -/
theorem mem_of_forall₂ (h : List.Forall₂ (fun a b => f a = .ok b) l bs) :
    b ∈ bs ↔ ∃ a ∈ l, f a = .ok b := by
  induction h with
  | nil => simp
  | cons hab _ ih =>
    rw [List.mem_cons, ih]
    simp [hab, eq_comm]

theorem mem_of_mapM_eq_ok (h : l.mapM f = .ok bs) : b ∈ bs ↔ ∃ a ∈ l, f a = .ok b :=
  mem_of_forall₂ (forall₂_of_mapM_eq_ok h)

end MapM

end Lasso
