import Mathlib.Data.List.TakeWhile
import Lasso.Eval.Handshake
/-!
# The ends of a rendezvous have no bar

An action that is one end of a rendezvous is read without a bar in it (`not_mem_of_isOneSided`). A bar
joins the two ends of a combined action, so that **no combined action is an end again**
(`isOneSided_combine`).
-/

namespace Lasso

/-! ## 1. What is read is all there is -/

section Reading

variable {c : Char} {cs rest : List Char}

/-- A character that is not skipped is behind what is skipped. -/
theorem mem_dropWhile_of_mem {p : Char → Bool} (hc : c ∈ cs) (hp : p c = false) :
    c ∈ cs.dropWhile p := by
  rw [← List.takeWhile_append_dropWhile (p := p) (l := cs)] at hc
  rcases List.mem_append.mp hc with hc | hc
  · rw [List.mem_takeWhile_imp hc] at hp
    cases hp
  · exact hc

theorem mem_trimEnd_of_mem {p : Char → Bool} (hc : c ∈ cs) (hp : p c = false) :
    c ∈ Text.trimEnd p cs :=
  List.mem_reverse.mpr (mem_dropWhile_of_mem (List.mem_reverse.mpr hc) hp)

/-- In front of the rest there are spaces, the name and the mark only. -/
theorem mem_rest_of_splitAction? {mark : Char} {isName : List Char → Bool} {name : List Char}
    (h : splitAction? mark isName cs = some (name, rest)) (hc : c ∈ cs)
    (hs : Text.isSpace c = false) (hw : isWordChar c = false) (hm : c ≠ mark) : c ∈ rest := by
  have hmem : c ∈ ((cs.dropWhile Text.isSpace).dropWhile isWordChar).dropWhile Text.isSpace :=
    mem_dropWhile_of_mem (mem_dropWhile_of_mem (mem_dropWhile_of_mem hc hs) hw) hs
  unfold splitAction? at h
  simp only at h
  split at h
  · rename_i d tail hd
    split at h
    · rename_i hmark
      simp only [Option.some.injEq, Prod.mk.injEq] at h
      rw [hd] at hmem
      rcases List.mem_cons.mp hmem with e | hmem
      · exact absurd (e.trans hmark.1) hm
      · exact h.2 ▸ hmem
    · cases h
  · cases h

theorem allowed_of_payload? {allowed : Char → Bool} {body : List Char}
    (h : payload? allowed cs = some body) (hc : c ∈ cs) (hs : Text.isSpace c = false) :
    allowed c = true := by
  have hmem : c ∈ cs.dropWhile Text.isSpace := mem_dropWhile_of_mem hc hs
  unfold payload? at h
  split at h
  · rename_i hnil
    rw [hnil] at hmem
    exact absurd hmem List.not_mem_nil
  · simp only at h
    split at h
    · rename_i hall
      exact List.all_eq_true.mp hall c (mem_trimEnd_of_mem hmem hs)
    · cases h

theorem isWordChar_of_receiver? {name : List Char} (h : receiver? cs = some name) (hc : c ∈ cs)
    (hs : Text.isSpace c = false) : isWordChar c = true := by
  unfold receiver? at h
  simp only at h
  split at h
  · rename_i hname
    exact List.all_eq_true.mp hname.2 c (mem_trimEnd_of_mem (mem_dropWhile_of_mem hc hs) hs)
  · cases h

end Reading

/-! ## 2. Bars -/

namespace Handshake

theorem not_mem_of_readSend? {action : String} {r : String × String} (h : readSend? action = some r) :
    '|' ∉ action.toList := by
  intro hbar
  unfold readSend? Lasso.readSend? at h
  simp only [Option.bind_eq_bind, Option.bind_eq_some_iff] at h
  obtain ⟨⟨name, rest⟩, hsplit, body, hbody, -⟩ := h
  have hrest : '|' ∈ rest :=
    mem_rest_of_splitAction? hsplit hbar (by decide) (by decide) (by decide)
  have hno := allowed_of_payload? hbody hrest (by decide)
  exact absurd hno (by decide)

theorem not_mem_of_readReceive? {action : String} {r : String × String}
    (h : readReceive? action = some r) : '|' ∉ action.toList := by
  intro hbar
  unfold readReceive? Lasso.readReceive? at h
  simp only [Option.bind_eq_bind, Option.bind_eq_some_iff] at h
  obtain ⟨⟨name, rest⟩, hsplit, body, hbody, -⟩ := h
  have hrest : '|' ∈ rest :=
    mem_rest_of_splitAction? hsplit hbar (by decide) (by decide) (by decide)
  have hno := isWordChar_of_receiver? hbody hrest (by decide)
  exact absurd hno (by decide)

/-- **One end of a rendezvous has no bar.** -/
theorem not_mem_of_isOneSided {action : String} (h : isOneSided action = true) :
    '|' ∉ action.toList := by
  unfold isOneSided at h
  rcases Bool.or_eq_true_iff.mp h with hs | hr
  · obtain ⟨r, hr⟩ := Option.isSome_iff_exists.mp hs
    exact not_mem_of_readSend? hr
  · obtain ⟨r, hr⟩ := Option.isSome_iff_exists.mp hr
    exact not_mem_of_readReceive? hr

/-- **A combined action is not one end of a rendezvous**, whatever it is combined of. -/
theorem isOneSided_combine (a₁ a₂ : String) : isOneSided (combine a₁ a₂) = false := by
  have hbar : '|' ∈ (combine a₁ a₂).toList := by simp [combine]
  exact Bool.eq_false_iff.mpr fun h => not_mem_of_isOneSided h hbar

end Handshake

end Lasso
