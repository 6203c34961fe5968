import Lasso.Proofs.Eval.Words
import Lasso.Proofs.Unfold.Capacity
/-!
# What the labels of an unfolded program say

A state is labeled with the parts of its location and with the texts `name = value` of its entries.

* `Reached.valued`, `Reached.plainNames`, `Reached.textNames` -- wherever a program comes to, values can be
  told apart, and names are plain and are texts;
* `mem_label_iff_get?` -- so **a label says exactly which variable has which value**;
* `labels_determine_environments` -- and states with the same labels have the same environment.
-/

namespace Lasso.ProgramGraph

open Env (sign rightSide)

variable {L : Type} [DecidableEq L] [Hashable L] {g : ProgramGraph L} {capacity : Int} {s t : State L}

/-! ## 1. Environments -/

theorem Reached.valued (h : g.Reached (.standard capacity) s) : s.second.Valued := fun x hx =>
  (h.bounded.within x.1 x.2 (h.bounded.canonical.sorted.lookup_eq_some_iff.mpr hx)).formed

theorem Reached.textNames (h : g.Reached (.standard capacity) s) : s.second.TextNames := by
  intro n v hfind
  obtain ⟨m, -, hm⟩ := h.over.named n v hfind
  exact ⟨m, hm⟩

theorem Reached.plainNames (h : g.Reached (.standard capacity) s) : s.second.PlainNames := by
  intro n v hfind
  obtain ⟨m, hm, rfl⟩ := h.over.named n v hfind
  obtain ⟨a, -, ha⟩ := List.mem_flatMap.mp hm
  exact Env.signless_of_unbroken (Action.unbroken_of_mem_writes ha)

/-! ## 2. Labels -/

/-- No part of the location could be taken for an entry. -/
def State.Signless [Display L] (s : State L) : Prop := ∀ p ∈ Display.parts s.first, ¬ sign <:+: p.toList

theorem sign_isInfix_of_mem_entryTexts (h : g.Reached (.standard capacity) s) {p : String}
    (hp : p ∈ s.second.entryTexts) : sign <:+: p.toList := by
  obtain ⟨n, v, hfind, rfl⟩ := h.over.canonical.mem_entryTexts.mp hp
  obtain ⟨m, rfl⟩ := h.textNames n v hfind
  rw [Env.equation_ofString, Bytes.text_ofString, String.toList_append, Env.toList_rightSide]
  exact ⟨m.toList, v.chars, List.append_assoc ..⟩

section Labels

variable [Display L] {o : UnfoldOptions} {m : TransitionSystem (State L) String String}

theorem mem_label_iff_of_sign (hm : g.unfold o = .ok m) (hs : s ∈ m.states) (hplain : s.Signless) {p : String}
    (hp : sign <:+: p.toList) : p ∈ m.label s ↔ p ∈ s.second.entryTexts := by
  rw [(unfolded_of_unfold hm).label, stateProps, List.mem_append]
  exact ⟨fun h => h.2.resolve_left fun hpart => hplain p hpart hp, fun h => ⟨hs, Or.inr h⟩⟩

/-- **A label says exactly which variable has which value.** -/
theorem mem_label_iff_get? (ho : o.evaluators = .standard capacity) (hm : g.unfold o = .ok m)
    (hs : s ∈ m.states) (hplain : s.Signless) (name : String) {v : Value} (hv : v.Formed) :
    name ++ " = " ++ v.text ∈ m.label s ↔ s.second.get? name = some v := by
  have hr : g.Reached (.standard capacity) s := ho ▸ ((unfolded_of_unfold hm).states s).mp hs
  have htext : name ++ " = " ++ v.text = name ++ rightSide v := String.append_assoc ..
  have hsign : sign <:+: (name ++ rightSide v).toList := by
    rw [String.toList_append, Env.toList_rightSide]
    exact ⟨name.toList, v.chars, List.append_assoc ..⟩
  rw [htext, mem_label_iff_of_sign hm hs hplain hsign,
    ← hr.over.canonical.ofString_mem_equations hr.textNames, ← Env.equation_ofString]
  exact hr.over.canonical.equation_mem_iff hr.valued hr.plainNames hv

/-- **The labels determine the environment**: of two states of an unfolded program that have the same labels,
    the variables have the same values. -/
theorem labels_determine_environments (ho : o.evaluators = .standard capacity) (hm : g.unfold o = .ok m)
    (hs : s ∈ m.states) (ht : t ∈ m.states) (hps : s.Signless) (hpt : t.Signless)
    (h : ∀ p, p ∈ m.label s ↔ p ∈ m.label t) : s.second = t.second := by
  have hreached : ∀ {s}, s ∈ m.states → g.Reached (.standard capacity) s := fun hs =>
    ho ▸ ((unfolded_of_unfold hm).states _).mp hs
  have hrs := hreached hs
  have hrt := hreached ht
  have hlabel : ∀ p, sign <:+: p.toList → (p ∈ s.second.entryTexts ↔ p ∈ t.second.entryTexts) := fun p hp =>
    (mem_label_iff_of_sign hm hs hps hp).symm.trans ((h p).trans (mem_label_iff_of_sign hm ht hpt hp))
  refine hrs.over.canonical.eq_of_entryTexts hrt.over.canonical hrs.valued hrt.valued hrs.plainNames
    hrt.plainNames hrs.textNames hrt.textNames fun p => ⟨fun hp => ?_, fun hp => ?_⟩
  · exact (hlabel p (sign_isInfix_of_mem_entryTexts hrs hp)).mp hp
  · exact (hlabel p (sign_isInfix_of_mem_entryTexts hrt hp)).mpr hp

end Labels

end Lasso.ProgramGraph
