import Mathlib.Data.List.DropRight
import Lasso.Text.Blank
/-!
# Cutting texts at classes of characters

A class of characters is skipped at the start of a text (`dropWhile`) or at its end (`trimEnd`). What is
left is what a reader finds between the spaces:

* `dropWhile_append_stop`, `takeWhile_append_stop` -- skipping ends at the first other character;
* `trimEnd_append_stop` -- and from the end at the last one;
* `exists_skipped`, `exists_trimmed` -- what is skipped is of the class;
* `intercalate_cons` -- what stands behind the first part of a text stands behind separators.
-/

namespace Lasso.Text

variable {p : Char → Bool} {s cs : List Char}

theorem dropWhile_append_stop (hs : ∀ c ∈ s, p c = true) (hc : ∀ c ∈ cs.head?, p c = false) :
    (s ++ cs).dropWhile p = cs := by
  rw [List.dropWhile_append_of_pos hs]
  cases cs with
  | nil => rfl
  | cons c cs => exact List.dropWhile_cons_of_neg (by simp [hc c rfl])

theorem takeWhile_append_stop (hs : ∀ c ∈ s, p c = true) (hc : ∀ c ∈ cs.head?, p c = false) :
    (s ++ cs).takeWhile p = s := by
  rw [List.takeWhile_append_of_pos hs]
  cases cs with
  | nil => simp
  | cons c cs => simp [hc c rfl]

theorem trimEnd_append_stop (hs : ∀ c ∈ s, p c = true) (hc : ∀ c ∈ cs.getLast?, p c = false) :
    trimEnd p (cs ++ s) = cs := by
  unfold trimEnd
  rw [List.reverse_append, dropWhile_append_stop, List.reverse_reverse]
  · exact fun c hmem => hs c (List.mem_reverse.mp hmem)
  · exact fun c hmem => hc c (by rwa [List.head?_reverse] at hmem)

theorem exists_skipped (p : Char → Bool) (cs : List Char) :
    ∃ s, (∀ c ∈ s, p c = true) ∧ cs = s ++ cs.dropWhile p :=
  ⟨cs.takeWhile p, fun _ => List.mem_takeWhile_imp, List.takeWhile_append_dropWhile.symm⟩

theorem exists_trimmed (p : Char → Bool) (cs : List Char) :
    ∃ s, (∀ c ∈ s, p c = true) ∧ cs = trimEnd p cs ++ s :=
  ⟨cs.rtakeWhile p, fun _ => List.mem_rtakeWhile_imp, List.rdropWhile_append_rtakeWhile.symm⟩

theorem head?_dropWhile {c : Char} (h : c ∈ (cs.dropWhile p).head?) : p c = false := by
  have hne : cs.dropWhile p ≠ [] := by
    rintro hnil
    rw [hnil] at h
    cases h
  have hhead := List.head_dropWhile_not p hne
  rw [List.head?_eq_some_head hne] at h
  cases h
  exact hhead

theorem getLast?_trimEnd {c : Char} (h : c ∈ (trimEnd p cs).getLast?) : p c = false := by
  unfold trimEnd at h
  rw [List.getLast?_reverse] at h
  exact head?_dropWhile h

/-- Trimming the end of a text that starts with another character leaves that character. -/
theorem head?_trimEnd (hc : ∀ c ∈ cs.head?, p c = false) : (trimEnd p cs).head? = cs.head? := by
  obtain ⟨s, hs, e⟩ := exists_trimmed p cs
  cases ht : trimEnd p cs with
  | cons c rest =>
    rw [e, ht]
    rfl
  | nil =>
    rw [ht, List.nil_append] at e
    cases cs with
    | nil => rfl
    | cons c rest =>
      have hpos : p c = true := hs c (e ▸ List.mem_cons_self)
      rw [hc c rfl] at hpos
      cases hpos

theorem intercalate_cons {α : Type} (sep l : List α) (ls : List (List α)) :
    sep.intercalate (l :: ls) = l ++ ls.flatMap (sep ++ ·) := by
  induction ls generalizing l with
  | nil => simp
  | cons m ls ih => rw [List.intercalate_cons_cons, ih, List.flatMap_cons, List.append_assoc]; simp

end Lasso.Text
