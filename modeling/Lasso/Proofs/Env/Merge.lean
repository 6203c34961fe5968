import Lasso.Proofs.Env
/-!
# Environments put together

`Env.merge` puts the entries of one environment into another. Where the two give values to different
names (`Apart`) nothing is overwritten, and it does not matter which of them goes into the other:

* `find?_merge` -- **what a merged environment gives**;
* `merge_comm`, `empty_merge`, `merge_empty` -- the order does not matter, and the empty environment
  adds nothing;
* `Over` -- a canonical environment that gives values to certain names only;
* `mem_entryTexts_merge` -- the texts of merged entries.
-/

namespace Lasso

namespace Env

variable {e f e₁ e₂ f₁ f₂ : Env} {ns ns' : List String} {n : Bytes}

/-! ## 1. Merging -/

/-- The environment with the entries of another one put in. -/
def merge (e f : Env) : Env := f.bindings.foldl (fun e x => e.put x.1 x.2) e

theorem Canonical.foldl_put (h : e.Canonical) (xs : List (Bytes × Value)) :
    (xs.foldl (fun e x => e.put x.1 x.2) e).Canonical := by
  induction xs generalizing e with
  | nil => exact h
  | cons x xs ih => exact ih (h.put x.1 x.2)

theorem Canonical.merge (h : e.Canonical) (f : Env) : (e.merge f).Canonical := h.foldl_put f.bindings

/-- Ascending entries that are put in are found before what was there. -/
theorem Canonical.find?_foldl_put (h : e.Canonical) {xs : List (Bytes × Value)} (hs : Sorted xs) :
    (xs.foldl (fun e x => e.put x.1 x.2) e).find? n = (lookup n xs).or (e.find? n) := by
  induction xs generalizing e with
  | nil => rfl
  | cons x xs ih =>
    have hput := h.find?_put x.1 x.2 n
    rw [List.foldl_cons, ih (h.put x.1 x.2) hs.tail, hput]
    by_cases hn : n = x.1
    · -- the entry stands once, so the ones behind it do not overwrite it
      have hrest : lookup n xs = none := by
        rw [Option.eq_none_iff_forall_ne_some]
        intro v hv
        have hlt := hs.head_lt (hs.tail.lookup_eq_some_iff.mp hv)
        rw [hn] at hlt
        exact List.lt_irrefl x.1 hlt
      have hfirst : lookup n (x :: xs) = some x.2 :=
        hs.lookup_eq_some_iff.mpr (hn ▸ List.mem_cons_self)
      rw [hrest, hfirst, if_pos hn]
      rfl
    · have hskip : lookup n (x :: xs) = lookup n xs := by
        refine Option.ext fun v => ?_
        rw [hs.lookup_eq_some_iff, hs.tail.lookup_eq_some_iff, List.mem_cons]
        exact or_iff_right fun hx => hn (congrArg Prod.fst hx)
      rw [hskip, if_neg hn]

/-- **What a merged environment gives**: the entries put in go before those that were there. -/
theorem find?_merge (he : e.Canonical) (hf : f.Canonical) (n : Bytes) :
    (e.merge f).find? n = (f.find? n).or (e.find? n) := he.find?_foldl_put hf.sorted

theorem merge_empty (e : Env) : e.merge ∅ = e := by
  have hno : (∅ : Env).bindings = [] := bindings_ofSorted []
  rw [merge, hno]
  rfl

theorem empty_merge (hf : f.Canonical) : (∅ : Env).merge f = f := by
  refine (canonical_empty.merge f).ext hf fun n => ?_
  have hmerge := find?_merge canonical_empty hf n
  have hempty : Env.empty.find? n = none := find?_empty n
  rw [hempty, Option.or_none] at hmerge
  exact hmerge

/-- No name has a value in both environments. -/
def Apart (e f : Env) : Prop := ∀ n, e.find? n = none ∨ f.find? n = none

/-- **Of environments that give values to different names, either may go into the other.** -/
theorem merge_comm (he : e.Canonical) (hf : f.Canonical) (h : e.Apart f) : e.merge f = f.merge e := by
  refine (he.merge f).ext (hf.merge e) fun n => ?_
  rw [find?_merge he hf, find?_merge hf he]
  rcases h n with hn | hn
  · rw [hn, Option.or_none, Option.none_or]
  · rw [hn, Option.or_none, Option.none_or]

/-- Putting in a name that the other environment does not give is done before or after merging. -/
theorem merge_put (he : e.Canonical) (hf : f.Canonical) (hn : f.find? n = none) (v : Value) :
    (e.put n v).merge f = (e.merge f).put n v := by
  refine ((he.put n v).merge f).ext ((he.merge f).put n v) fun m => ?_
  rw [find?_merge (he.put n v) hf, he.find?_put, (he.merge f).find?_put, find?_merge he hf]
  by_cases hm : m = n
  · rw [if_pos hm, if_pos hm, hm, hn, Option.none_or]
  · rw [if_neg hm, if_neg hm]

/-! ## 2. Environments over names -/

/-- **A canonical environment that gives values to these names only.** -/
structure Over (ns : List String) (e : Env) : Prop where
  canonical : e.Canonical
  named : ∀ n v, e.find? n = some v → ∃ m ∈ ns, Bytes.ofString m = n

theorem over_empty (ns : List String) : Over ns ∅ where
  canonical := canonical_empty
  named n v h := by
    rw [find?_empty] at h
    cases h

theorem Over.set (h : e.Over ns) {name : String} (hname : name ∈ ns) (v : Value) :
    (e.set name v).Over ns where
  canonical := h.canonical.put _ v
  named n w hw := by
    rw [Env.set, h.canonical.find?_put] at hw
    split at hw
    · rename_i hn
      exact ⟨name, hname, hn.symm⟩
    · exact h.named n w hw

/-- A name that is none of these has no value. -/
theorem Over.get?_eq_none (h : e.Over ns) {name : String} (hname : name ∉ ns) : e.get? name = none := by
  rw [Option.eq_none_iff_forall_ne_some]
  intro v hv
  obtain ⟨m, hm, heq⟩ := h.named _ v hv
  exact hname (Bytes.ofString_injective heq ▸ hm)

/-- Environments over different names are apart. -/
theorem Over.apart (he : e.Over ns) (hf : f.Over ns') (h : ∀ n ∈ ns, n ∉ ns') : e.Apart f := by
  intro n
  cases hn : e.find? n with
  | none => exact Or.inl rfl
  | some v =>
    obtain ⟨m, hm, rfl⟩ := he.named n v hn
    exact Or.inr (hf.get?_eq_none (h m hm))

/-- **Merged environments over different names are known by their parts.** -/
theorem Over.merge_inj (he₁ : e₁.Over ns) (hf₁ : f₁.Over ns') (he₂ : e₂.Over ns) (hf₂ : f₂.Over ns')
    (h : ∀ n ∈ ns, n ∉ ns') (heq : e₁.merge f₁ = e₂.merge f₂) : e₁ = e₂ ∧ f₁ = f₂ := by
  have hfind : ∀ n, (f₁.find? n).or (e₁.find? n) = (f₂.find? n).or (e₂.find? n) := fun n => by
    rw [← find?_merge he₁.canonical hf₁.canonical, heq, find?_merge he₂.canonical hf₂.canonical]
  -- at each name one of the two sides is silent, in both environments
  have hside : ∀ n, (e₁.find? n = none ∧ e₂.find? n = none) ∨ (f₁.find? n = none ∧ f₂.find? n = none) := by
    intro n
    by_cases hn : ∃ m ∈ ns, Bytes.ofString m = n
    · obtain ⟨m, hm, rfl⟩ := hn
      exact Or.inr ⟨hf₁.get?_eq_none (h m hm), hf₂.get?_eq_none (h m hm)⟩
    · refine Or.inl ⟨?_, ?_⟩
      · exact Option.eq_none_iff_forall_ne_some.mpr fun v hv => hn (he₁.named n v hv)
      · exact Option.eq_none_iff_forall_ne_some.mpr fun v hv => hn (he₂.named n v hv)
  refine ⟨he₁.canonical.ext he₂.canonical fun n => ?_, hf₁.canonical.ext hf₂.canonical fun n => ?_⟩
  · rcases hside n with ⟨h₁, h₂⟩ | ⟨h₁, h₂⟩
    · rw [h₁, h₂]
    · have hn := hfind n
      rw [h₁, h₂, Option.none_or, Option.none_or] at hn
      exact hn
  · rcases hside n with ⟨h₁, h₂⟩ | ⟨h₁, h₂⟩
    · have hn := hfind n
      rw [h₁, h₂, Option.or_none, Option.or_none] at hn
      exact hn
    · rw [h₁, h₂]

/-! ## 3. Texts -/

theorem Canonical.mem_entryTexts (h : e.Canonical) {x : String} :
    x ∈ e.entryTexts ↔ ∃ n v, e.find? n = some v ∧ (equation n v).text = x := by
  unfold entryTexts equations
  rw [List.map_map, List.mem_map]
  constructor
  · rintro ⟨⟨n, v⟩, hmem, hx⟩
    exact ⟨n, v, h.sorted.lookup_eq_some_iff.mpr hmem, hx⟩
  · rintro ⟨n, v, hfind, hx⟩
    exact ⟨(n, v), h.sorted.lookup_eq_some_iff.mp hfind, hx⟩

/-- The texts of merged entries are those of both environments. -/
theorem mem_entryTexts_merge (he : e.Canonical) (hf : f.Canonical) (h : e.Apart f) {x : String} :
    x ∈ (e.merge f).entryTexts ↔ x ∈ e.entryTexts ∨ x ∈ f.entryTexts := by
  have hfind : ∀ n v, (e.merge f).find? n = some v ↔ e.find? n = some v ∨ f.find? n = some v := by
    intro n v
    rw [find?_merge he hf]
    rcases h n with hn | hn
    · rw [hn, Option.or_none]
      simp
    · rw [hn, Option.none_or]
      simp
  rw [(he.merge f).mem_entryTexts, he.mem_entryTexts, hf.mem_entryTexts]
  simp only [hfind, or_and_right, exists_or]

end Env

end Lasso
