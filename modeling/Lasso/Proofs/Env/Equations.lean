import Lasso.Proofs.Env.Merge
import Lasso.Proofs.Value.Text
/-!
# Environments are known by their equations

Properties see an environment through the equations `name = value` of its entries. These are bytes in which a
name of any bytes, the sign ` = ` and the text of a value follow each other, so a name that holds the sign
itself could be taken for a shorter one.

* `PlainNames` -- no name with a value holds the sign;
* `equation_inj` -- **an equation with a plain name says the name and the value**, also against an equation
  whose name is not plain;
* `Canonical.equation_mem_iff` -- so the equations say exactly which name has which value, and environments
  with the same equations are equal (`Canonical.eq_of_equations`);
* `Canonical.equations_eq` -- where the names are texts, **the texts of the entries are the equations**.
-/

namespace Lasso

namespace Env

variable {e e₁ e₂ : Env} {n x : Bytes} {v w : Value}

/-! ## 1. One equation -/

/-- The sign between a name and its value. -/
def sign : List Char := [' ', '=', ' ']

/-- The name does not hold the sign. -/
def Signless (n : Bytes) : Prop := ¬ Bytes.ofString (.ofList sign) <:+: n

instance (n : Bytes) : Decidable (Signless n) := inferInstanceAs (Decidable ¬ _)

/-- What follows the name in an equation. -/
def rightSide (v : Value) : String := " = " ++ v.text

theorem toList_rightSide (v : Value) : (rightSide v).toList = sign ++ v.chars := String.toList_append

theorem head?_rightSide (v : Value) : (Bytes.ofString (rightSide v)).head? = some 32 := by
  rw [rightSide, Bytes.ofString_append]
  rfl

/-- The right side of one equation may end in that of another one, behind a part of the value. No value
    starts with an equals sign, so no other part of the sign can be in front. -/
theorem eq_nil_or_sign_prefix {us : List Char} (h : sign ++ v.chars = us ++ (sign ++ w.chars)) :
    us = [] ∨ ∃ rest, us = sign ++ rest ∧ v.chars = rest ++ (sign ++ w.chars) := by
  match us with
  | [] => exact .inl rfl
  | [a] =>
    obtain ⟨-, h⟩ := List.cons.inj h
    cases (List.cons.inj h).1
  | [a, b] =>
    obtain ⟨-, h⟩ := List.cons.inj (List.cons.inj (List.cons.inj h).2).2
    obtain ⟨c, hc, hk⟩ := v.exists_head?_text
    have hhead : v.chars.head? = some '=' := congrArg List.head? h
    cases hc.symm.trans hhead
    cases hk
  | a :: b :: c :: rest =>
    obtain ⟨rfl, h₁⟩ := List.cons.inj h
    obtain ⟨rfl, h₂⟩ := List.cons.inj h₁
    obtain ⟨rfl, h₃⟩ := List.cons.inj h₂
    exact .inr ⟨rest, rfl, h₃⟩

/-- What one right side has in front of another one is a text, and either empty or starts with the sign. -/
theorem eq_nil_or_sign_of_rightSide {m : Bytes}
    (h : Bytes.ofString (rightSide v) = m ++ Bytes.ofString (rightSide w)) :
    (m = [] ∧ v.text = w.text) ∨
      ∃ rest, m = Bytes.ofString (.ofList (sign ++ rest)) ∧ v.chars = rest ++ (sign ++ w.chars) := by
  have hplain : ∀ a ∈ (Bytes.ofString (rightSide w)).head?, a.toNat < 128 := by
    rw [head?_rightSide]
    rintro a ⟨⟩
    decide
  obtain ⟨u, rfl, hu⟩ := Bytes.exists_of_ofString_eq_append hplain h
  have hchars := congrArg String.toList hu
  rw [String.toList_append, toList_rightSide, toList_rightSide] at hchars
  rcases eq_nil_or_sign_prefix hchars with hnil | ⟨rest, hrest, hv⟩
  · rw [hnil] at hchars
    refine .inl ⟨?_, String.toList_inj.mp (List.append_cancel_left hchars)⟩
    rw [String.toList_eq_nil_iff.mp hnil]
    rfl
  · refine .inr ⟨rest, ?_, hv⟩
    rw [← hrest, String.ofList_toList]

/-- **An equation with a plain name says the name and the value.** Were the plain name the longer one, it
    would hold the sign of the other equation; were it the shorter one, its value would hold the other
    equation's sign and value. -/
theorem equation_inj (hn : Signless n) (hv : v.Formed) (hw : w.Formed) (h : equation n v = equation x w) :
    n = x ∧ v = w := by
  have hcases : n ++ Bytes.ofString (rightSide v) = x ++ Bytes.ofString (rightSide w) := h
  rcases List.append_eq_append_iff.mp hcases with ⟨m, rfl, hm⟩ | ⟨m, rfl, hm⟩
  · rcases eq_nil_or_sign_of_rightSide hm with ⟨rfl, htext⟩ | ⟨rest, -, hvalue⟩
    · exact ⟨(List.append_nil n).symm, (hv.text_inj hw).mp htext⟩
    · exact absurd hvalue (hv.ne_append_equals hw rest)
  · rcases eq_nil_or_sign_of_rightSide hm with ⟨rfl, htext⟩ | ⟨rest, rfl, -⟩
    · exact ⟨List.append_nil x, (hv.text_inj hw).mp htext.symm⟩
    · refine absurd ⟨x, Bytes.ofString (.ofList rest), ?_⟩ hn
      rw [String.ofList_append, Bytes.ofString_append, List.append_assoc]

/-! ## 2. All equations -/

/-- No name with a value holds the sign. -/
def PlainNames (e : Env) : Prop := ∀ n v, e.find? n = some v → Signless n

theorem Canonical.mem_equations (h : e.Canonical) {b : Bytes} :
    b ∈ e.equations ↔ ∃ n v, e.find? n = some v ∧ equation n v = b := by
  constructor
  · intro hb
    obtain ⟨⟨n, v⟩, hmem, rfl⟩ := List.mem_map.mp hb
    exact ⟨n, v, h.sorted.lookup_eq_some_iff.mpr hmem, rfl⟩
  · rintro ⟨n, v, hfind, rfl⟩
    exact List.mem_map.mpr ⟨(n, v), h.sorted.lookup_eq_some_iff.mp hfind, rfl⟩

/-- **The equations say which name has which value.** -/
theorem Canonical.equation_mem_iff (h : e.Canonical) (hv : e.Valued) (hn : e.PlainNames) (hw : w.Formed) :
    equation x w ∈ e.equations ↔ e.find? x = some w := by
  rw [h.mem_equations]
  constructor
  · rintro ⟨n, v, hfind, heq⟩
    have hformed : v.Formed := hv (n, v) (h.sorted.lookup_eq_some_iff.mp hfind)
    obtain ⟨rfl, rfl⟩ := equation_inj (hn n v hfind) hformed hw heq
    exact hfind
  · exact fun hfind => ⟨x, w, hfind, rfl⟩

/-- **Environments with the same equations are equal.** -/
theorem Canonical.eq_of_equations (h₁ : e₁.Canonical) (h₂ : e₂.Canonical) (hv₁ : e₁.Valued)
    (hv₂ : e₂.Valued) (hn₁ : e₁.PlainNames) (hn₂ : e₂.PlainNames)
    (h : ∀ b, b ∈ e₁.equations ↔ b ∈ e₂.equations) : e₁ = e₂ := by
  refine h₁.ext h₂ fun n => Option.ext fun v => ?_
  have hformed : ∀ {e : Env}, e.Canonical → e.Valued → e.find? n = some v → v.Formed :=
    fun he hv hfind => hv (n, v) (he.sorted.lookup_eq_some_iff.mp hfind)
  constructor
  · intro hfind
    have hv := hformed h₁ hv₁ hfind
    exact (h₂.equation_mem_iff hv₂ hn₂ hv).mp ((h _).mp ((h₁.equation_mem_iff hv₁ hn₁ hv).mpr hfind))
  · intro hfind
    have hv := hformed h₂ hv₂ hfind
    exact (h₁.equation_mem_iff hv₁ hn₁ hv).mp ((h _).mpr ((h₂.equation_mem_iff hv₂ hn₂ hv).mpr hfind))

/-! ## 3. Names that are texts -/

/-- Every name with a value is a text. -/
def TextNames (e : Env) : Prop := ∀ n v, e.find? n = some v → ∃ m, Bytes.ofString m = n

theorem equation_ofString (m : String) (v : Value) :
    equation (.ofString m) v = .ofString (m ++ rightSide v) := (Bytes.ofString_append m (rightSide v)).symm

/-- **Where the names are texts, the texts of the entries are the equations**: nothing is lost in them. -/
theorem Canonical.equations_eq (h : e.Canonical) (hn : e.TextNames) :
    e.equations = e.entryTexts.map Bytes.ofString := by
  have hkept : ∀ b ∈ e.equations, Bytes.ofString b.text = b := by
    intro b hb
    obtain ⟨n, v, hfind, rfl⟩ := h.mem_equations.mp hb
    obtain ⟨m, rfl⟩ := hn n v hfind
    rw [equation_ofString, Bytes.text_ofString]
  rw [entryTexts, List.map_map]
  exact (List.map_id _).symm.trans (List.map_congr_left fun b hb => (hkept b hb).symm)

theorem Canonical.ofString_mem_equations (h : e.Canonical) (hn : e.TextNames) {p : String} :
    Bytes.ofString p ∈ e.equations ↔ p ∈ e.entryTexts := by
  rw [h.equations_eq hn, List.mem_map_of_injective fun _ _ => Bytes.ofString_injective]

/-- **Environments with the same texts are equal**, where the names are texts. -/
theorem Canonical.eq_of_entryTexts (h₁ : e₁.Canonical) (h₂ : e₂.Canonical) (hv₁ : e₁.Valued)
    (hv₂ : e₂.Valued) (hn₁ : e₁.PlainNames) (hn₂ : e₂.PlainNames) (ht₁ : e₁.TextNames)
    (ht₂ : e₂.TextNames) (h : ∀ p, p ∈ e₁.entryTexts ↔ p ∈ e₂.entryTexts) : e₁ = e₂ := by
  refine h₁.eq_of_equations h₂ hv₁ hv₂ hn₁ hn₂ fun b => ?_
  rw [h₁.equations_eq ht₁, h₂.equations_eq ht₂, List.mem_map, List.mem_map]
  simp only [h]

end Env

end Lasso
