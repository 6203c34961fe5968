import Mathlib.Data.List.Nodup
import Lasso.Text.Order
/-!
# The order of names

* `Bytes.lt_iff_lt`, `nameLt_iff` -- the bytewise order is the lexicographic one, and so is that of names;
* `Ascending` -- entries in strictly ascending order of their names;
* `sortedTable_of_ascending` -- such entries are the table of themselves;
* `sort_eq_of_perm` -- **sorting finds them again**, whatever their order has become.
-/

namespace Lasso

/-- The bytewise order is the lexicographic order of the bytes. -/
theorem Bytes.lt_iff_lt {a b : Bytes} : a.lt b = true ↔ a < b := by
  fun_induction Bytes.lt a b with
  | case1 a => simp
  | case2 b bs => simp
  | case3 a as b bs ih => simp [List.cons_lt_cons_iff, ih]

theorem Bytes.lt_of_not_lt {a b : Bytes} (hne : a ≠ b) (h : ¬ a.lt b = true) : b < a := by
  have hle : b ≤ a := List.not_lt.mp fun h' => h (Bytes.lt_iff_lt.mpr h')
  exact Classical.byContradiction fun hno => hne (List.le_antisymm (List.not_lt.mp hno) hle)

/-- Texts are known by their bytes. -/
theorem Bytes.ofString_injective {s t : String} (h : Bytes.ofString s = .ofString t) : s = t := by
  have hs := Bytes.toString?_ofString s
  rw [h, Bytes.toString?_ofString] at hs
  exact (Option.some.inj hs).symm

theorem nameLt_iff {a b : String} : nameLt a b = true ↔ Bytes.ofString a < .ofString b := Bytes.lt_iff_lt

theorem nameLt_irrefl (a : String) : ¬ nameLt a a = true := fun h => List.lt_irrefl _ (nameLt_iff.mp h)

theorem nameLt_asymm {a b : String} (h : nameLt a b = true) : nameLt b a = false :=
  Bool.eq_false_iff.mpr fun h' => List.lt_irrefl _ (List.lt_trans (nameLt_iff.mp h) (nameLt_iff.mp h'))

/-- One of two names comes first, or they are the same. -/
theorem eq_of_not_nameLt {a b : String} (h : nameLt a b = false) (h' : nameLt b a = false) : a = b := by
  refine Bytes.ofString_injective (Classical.byContradiction fun hne => ?_)
  have hlt := Bytes.lt_of_not_lt hne (Bool.eq_false_iff.mp h)
  exact Bool.eq_false_iff.mp h' (nameLt_iff.mpr hlt)

theorem not_nameLt_trans {a b c : String} (hab : nameLt b a = false) (hbc : nameLt c b = false) :
    nameLt c a = false := by
  rw [Bool.eq_false_iff, ne_eq, nameLt_iff, List.not_lt] at *
  exact List.le_trans hab hbc

variable {α : Type} {entries : List (String × α)}

/-- **The names ascend**, so none of them stands twice. -/
def Ascending (entries : List (String × α)) : Prop := entries.Pairwise fun a b => nameLt a.1 b.1 = true

theorem Ascending.nodup (h : Ascending entries) : (entries.map Prod.fst).Nodup := by
  refine List.pairwise_map.mpr (h.imp ?_)
  rintro a b hlt heq
  rw [heq] at hlt
  exact nameLt_irrefl _ hlt

/-- What comes behind all other names is put at the end. -/
theorem putSorted_of_forall_lt {name : String} (h : ∀ e ∈ entries, nameLt e.1 name = true) (a : α) :
    putSorted name a entries = entries ++ [(name, a)] := by
  induction entries with
  | nil => rfl
  | cons e entries ih =>
    obtain ⟨he, hentries⟩ := List.forall_mem_cons.mp h
    have hne : e.1 ≠ name := fun heq => nameLt_irrefl name (heq ▸ he)
    rw [putSorted, if_neg hne, nameLt_asymm he, if_neg Bool.false_ne_true, ih hentries]
    rfl

theorem sortedTable_of_ascending (h : Ascending entries) : sortedTable entries = entries := by
  have hfold : ∀ es t : List (String × α), Ascending (t ++ es) →
      es.foldl (fun t e => putSorted e.1 e.2 t) t = t ++ es := by
    intro es
    induction es with
    | nil => exact fun t _ => (List.append_nil t).symm
    | cons e es ih =>
      intro t ht
      have hlt : ∀ x ∈ t, nameLt x.1 e.1 = true := fun x hx =>
        (List.pairwise_append.mp ht).2.2 x hx e List.mem_cons_self
      rw [List.append_cons] at ht ⊢
      rw [List.foldl_cons, putSorted_of_forall_lt hlt]
      exact ih _ ht
  exact hfold entries [] h

/-- **Sorting finds ascending entries again.** -/
theorem sort_eq_of_perm (h : Ascending entries) {es : List (String × α)} (hperm : es.Perm entries) :
    (es.mergeSort fun a b => !nameLt b.1 a.1) = entries := by
  have hsorted : (es.mergeSort fun a b => !nameLt b.1 a.1).Pairwise fun a b => (!nameLt b.1 a.1) = true := by
    refine List.pairwise_mergeSort (fun a b c hab hbc => ?_) (fun a b => ?_) es
    · rw [Bool.not_eq_true'] at *
      exact not_nameLt_trans hab hbc
    · cases hab : nameLt b.1 a.1 with
      | false => rfl
      | true => rw [nameLt_asymm hab]; rfl
  have hascending : entries.Pairwise fun a b => (!nameLt b.1 a.1) = true := h.imp fun hlt => by
    rw [nameLt_asymm hlt]
    rfl
  refine List.Perm.eq_of_pairwise ?_ hsorted hascending ((List.mergeSort_perm es _).trans hperm)
  intro a b ha hb hab hba
  rw [Bool.not_eq_true'] at hab hba
  have hmem : a ∈ entries := hperm.mem_iff.mp (List.mem_mergeSort.mp ha)
  exact List.inj_on_of_nodup_map h.nodup hmem hb (eq_of_not_nameLt hba hab)

end Lasso
