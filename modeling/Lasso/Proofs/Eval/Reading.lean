import Mathlib.Data.List.Infix
import Lasso.Eval.Expression
import Lasso.Proofs.Lang.Brackets
import Lasso.Proofs.Lang.Piece
/-!
# Reading the text of an expression

A text spells an expression if its tokens do. This file says what stays of that when the text is changed:
the blanks around it may go (`eq_of_readExpr_trim`), and brackets may be put around it, as long as a closing
bracket behind the text is read as one.

* `closed_or_unclosed` -- **every text that spells an expression can be put into brackets or cannot**
  (`Closed`, `Unclosed`), and it can if it has no comments (`IsPlain`);
* `Closed.readExpr_paren`, `Closed.readExpr_land` -- what is read then, alone and with the sign of a
  conjunction between two of them; `Unclosed.readExpr_left`, `Unclosed.readExpr_right` -- and that nothing
  is read otherwise.
-/

namespace Lasso

open Lang

/-! ## 1. Brackets around a text -/

namespace Lang

section Tokens

variable {p q : Place} {cs k : List Char} {us : List Token}

theorem tokens?_lparen (p : Place) (cs : List Char) :
    tokens? p ('(' :: cs) = (tokens? ⟨false, false⟩ cs).map (.op .lparen :: ·) :=
  tokens?_of_lexeme (l := .one (.op .lparen) false 0) rfl

theorem tokens?_rparen (p : Place) (cs : List Char) :
    tokens? p (')' :: cs) = (tokens? ⟨true, false⟩ cs).map (.op .rparen :: ·) :=
  tokens?_of_lexeme (l := .one (.op .rparen) true 0) rfl

theorem isCut_rparen (k : List Char) : IsCut (')' :: k) := by
  intro c hc
  cases hc
  rfl

/-- A piece that ends a line, in brackets. -/
theorem tokens?_paren (h : Reads ⟨false, false⟩ cs us q) (p : Place) (k : List Char) :
    tokens? p ('(' :: (cs ++ ')' :: k)) =
      (tokens? ⟨true, false⟩ k).map fun ts => .op .lparen :: (us ++ .op .rparen :: ts) := by
  rw [tokens?_lparen, h _ (isCut_rparen k), tokens?_rparen, Option.map_map, Option.map_map]
  rfl

/-- A piece in brackets of which the second one is too late. -/
theorem Opens.paren (h : Opens cs us) {ts : List Token}
    (hts : tokens? p ('(' :: (cs ++ ')' :: k)) = some ts) :
    ∃ rest, ts = .op .lparen :: (us ++ .semi true :: rest) := by
  rw [tokens?_lparen] at hts
  obtain ⟨vs, hvs, rfl⟩ := Option.map_eq_some_iff.mp hts
  obtain ⟨rest, rfl⟩ := h _ (isCut_rparen k) vs hvs
  exact ⟨rest, rfl⟩

/-- The sign of a conjunction, with the bracket behind it. -/
theorem tokens?_land (cs : List Char) :
    tokens? ⟨true, false⟩ (' ' :: '&' :: '&' :: ' ' :: '(' :: cs) =
      (tokens? ⟨false, false⟩ cs).map fun ts => .op .land :: .op .lparen :: ts := by
  have hspace (p : Place) (cs : List Char) : tokens? p (' ' :: cs) = tokens? ⟨p.ends, false⟩ cs := by
    rw [tokens?_of_lexeme (l := ⟨[], ⟨p.ends, false⟩, 0⟩) rfl]
    simp
  rw [hspace, tokens?_of_lexeme (l := .one (.op .land) false 1) rfl]
  change ((tokens? _ (' ' :: '(' :: cs)).map _) = _
  rw [hspace, tokens?_lparen, Option.map_map]
  rfl

end Tokens

end Lang

/-! ## 2. Reading texts -/

section Reading

variable {c s : String} {x y : Expr}

theorem readExpr_eq_ok_iff :
    readExpr s = .ok x ↔ ∃ ts, scanText? s.toList = some ts ∧ expression? ts = some x := by
  rw [← Option.bind_eq_some_iff, readExpr, Option.bind_eq_bind]
  cases (scanText? s.toList).bind expression? with
  | none => exact iff_of_false nofun nofun
  | some y => simp

/-- A text that spells no expression is malformed. -/
theorem readExpr_eq_malformed (h : ∀ ts, scanText? s.toList = some ts → expression? ts = none) :
    readExpr s = .error .malformed := by
  have hnone : scanText? s.toList >>= expression? = none := Option.bind_eq_none_iff.mpr h
  rw [readExpr, hnone]

/-- A mark at the start of a text is skipped; there is none elsewhere. -/
theorem scanText?_cases {cs : List Char} {ts : List Token} (h : scanText? cs = some ts) :
    (∃ rest, cs = '\ufeff' :: rest ∧ tokens? ⟨false, false⟩ rest = some ts) ∨
      cs.any isForbidden = false ∧ tokens? ⟨false, true⟩ cs = some ts := by
  cases cs with
  | nil =>
    refine Or.inr ⟨rfl, ?_⟩
    rw [tokens?_nil]
    exact h
  | cons d rest =>
    simp only [scanText?, scan?] at h
    split_ifs at h with hmark hrest hall
    · exact Or.inl ⟨rest, by rw [hmark], h⟩
    · exact Or.inr ⟨Bool.eq_false_iff.mpr hall, h⟩

theorem scanText?_of_clean {cs : List Char} (h : cs.any isForbidden = false) :
    scanText? cs = tokens? ⟨false, true⟩ cs := by
  cases cs with
  | nil =>
    rw [tokens?_nil]
    rfl
  | cons d rest =>
    have hmark : d ≠ '\ufeff' := by
      rintro rfl
      cases h
    rw [scanText?, if_neg hmark, scan?, if_neg (by rw [h]; exact Bool.false_ne_true)]

theorem exists_trim (c : String) :
    ∃ bl bl', IsBlanks bl ∧ IsBlanks bl' ∧ c.toList = bl ++ ((Text.trim c).toList ++ bl') := by
  obtain ⟨bl, hbl, e⟩ := Text.exists_skipped Text.isBlank c.toList
  obtain ⟨bl', hbl', e'⟩ := Text.exists_trimmed Text.isBlank (c.toList.dropWhile Text.isBlank)
  refine ⟨bl, bl', hbl, hbl', ?_⟩
  rw [Text.trim, String.toList_ofList, ← e']
  exact e

/-- A mark at the start of a text is not trimmed. -/
theorem exists_trim_of_mark {rest : List Char} (h : c.toList = '\ufeff' :: rest) :
    ∃ cs bl', IsBlanks bl' ∧ (Text.trim c).toList = '\ufeff' :: cs ∧ rest = cs ++ bl' := by
  obtain ⟨bl, bl', hbl, hbl', e⟩ := exists_trim c
  have hmark : Text.isBlank '\ufeff' = false := by decide
  rw [h] at e
  cases bl with
  | cons d bl =>
    obtain ⟨rfl, -⟩ := List.cons.inj e
    have hblank := hbl _ List.mem_cons_self
    rw [hmark] at hblank
    cases hblank
  | nil =>
    cases ht : (Text.trim c).toList with
    | nil =>
      rw [ht] at e
      have hblank := hbl' _ (e ▸ List.mem_cons_self)
      rw [hmark] at hblank
      cases hblank
    | cons d cs =>
      rw [ht] at e
      obtain ⟨rfl, hrest⟩ := List.cons.inj e
      exact ⟨cs, bl', hbl', rfl, hrest⟩

/-- **A text without the blanks around it spells the same expression**, if it can still be read. -/
theorem eq_of_readExpr_trim (h : readExpr c = .ok x) (h' : readExpr (Text.trim c) = .ok y) : y = x := by
  obtain ⟨ts, hts, hx⟩ := readExpr_eq_ok_iff.mp h
  obtain ⟨ts', hts', hy⟩ := readExpr_eq_ok_iff.mp h'
  have heq : ts' = ts := by
    rcases scanText?_cases hts with ⟨rest, hc, htok⟩ | ⟨hall, htok⟩
    · obtain ⟨cs, bl', hbl', ht, rfl⟩ := exists_trim_of_mark hc
      rw [ht] at hts'
      rcases scanText?_cases hts' with ⟨cs', hcs, htok'⟩ | ⟨hall, -⟩
      · obtain ⟨-, rfl⟩ := List.cons.inj hcs
        exact eq_of_tokens?_append hbl' htok htok'
      · cases hall
    · obtain ⟨bl, bl', hbl, hbl', e⟩ := exists_trim c
      rw [e] at htok hall
      rcases scanText?_cases hts' with ⟨cs', hcs, -⟩ | ⟨-, htok'⟩
      · rw [hcs, List.any_append, List.any_append] at hall
        simp [isForbidden] at hall
      · exact eq_of_tokens?_append hbl' (tokens?_skip hbl htok) (tokens?_of_fresh htok')
  rw [heq, hx] at hy
  exact (Option.some.inj hy).symm

end Reading

/-! ## 3. Guards that can be put into brackets -/

namespace Lang

/-- The text spells the expression, and a closing bracket behind it is read as one. -/
def Closed (cs : List Char) (x : Expr) : Prop :=
  cs.any isForbidden = false ∧ ∃ us q, Spells us x ∧ q.ends = true ∧ Reads ⟨false, false⟩ cs us q

/-- A bracket behind the text does not help: a mark stands at its start, or its line ends before. -/
def Unclosed (cs : List Char) (x : Expr) : Prop :=
  cs.any isForbidden = true ∨ ∃ us, Spells us x ∧ Opens cs us

end Lang

section Brackets

variable {c : String} {x y : Expr}

/-- A text without comments and without a mark at its start. -/
def IsPlain (c : String) : Prop := '\ufeff' ∉ c.toList ∧ HasNoComment c.toList

instance (c : String) : Decidable (IsPlain c) :=
  inferInstanceAs
    (Decidable ('\ufeff' ∉ c.toList ∧ ¬ ['/', '/'] <:+: c.toList ∧ ¬ ['/', '*'] <:+: c.toList))

theorem getLast?_trim {d : Char} (h : d ∈ (Text.trim c).toList.getLast?) : Text.isBlank d = false := by
  rw [Text.trim, String.toList_ofList] at h
  exact Text.getLast?_trimEnd h

theorem IsPlain.trim (h : IsPlain c) : HasNoComment (Text.trim c).toList := by
  obtain ⟨bl, bl', -, -, e⟩ := exists_trim c
  have hinfix : (Text.trim c).toList <:+: c.toList := ⟨bl, bl', by rw [e, List.append_assoc]⟩
  exact ⟨fun hi => h.2.1 (hi.trans hinfix), fun hi => h.2.2 (hi.trans hinfix)⟩

/-- Every guard that can be read is of one kind or the other. -/
theorem closed_or_unclosed (h : readExpr c = .ok x) (hne : Text.trim c ≠ "") :
    Closed (Text.trim c).toList x ∨ Unclosed (Text.trim c).toList x ∧ ¬ IsPlain c := by
  obtain ⟨ts, hts, hx⟩ := readExpr_eq_ok_iff.mp h
  rcases scanText?_cases hts with ⟨rest, hc, -⟩ | ⟨hall, htok⟩
  · obtain ⟨cs, -, -, ht, -⟩ := exists_trim_of_mark hc
    refine Or.inr ⟨Or.inl ?_, fun hplain => hplain.1 ?_⟩
    · rw [ht]
      rfl
    · rw [hc]
      exact List.mem_cons_self
  · obtain ⟨bl, bl', hbl, hbl', e⟩ := exists_trim c
    obtain ⟨us, rfl, hus⟩ := exists_spells hx (ends_tokens? htok).2
    rw [e] at htok hall
    rcases reads_or_opens hbl' (tokens?_skip hbl htok) with ⟨q, hq, hr⟩ | ⟨ho, hnot⟩
    · simp only [List.any_append, Bool.or_eq_false_iff] at hall
      exact Or.inl ⟨hall.2.1, us, q, hus, hq, hr⟩
    · refine Or.inr ⟨Or.inr ⟨us, hus, ho⟩, fun hplain => hnot ⟨?_, ?_, fun d => getLast?_trim⟩⟩
      · exact hplain.trim
      · simpa using hne

theorem scanText?_lparen (cs : List Char) : scanText? ('(' :: cs) =
    if cs.any isForbidden then none else tokens? ⟨false, true⟩ ('(' :: cs) := by
  rw [scanText?, if_neg (by decide), scan?, List.any_cons]
  rfl

theorem toList_paren (t : String) : ("(" ++ t ++ ")").toList = '(' :: (t.toList ++ [')']) := by
  simp

theorem toList_land (t₁ t₂ : String) : ("(" ++ t₁ ++ ") && (" ++ t₂ ++ ")").toList =
    '(' :: (t₁.toList ++ ')' :: ' ' :: '&' :: '&' :: ' ' :: '(' :: (t₂.toList ++ [')'])) := by
  simp

section Single

variable {t : String}

theorem Lang.Closed.readExpr_paren (h : Closed t.toList x) :
    readExpr ("(" ++ t ++ ")") = .ok (.paren x) := by
  obtain ⟨hall, us, q, hus, hq, hr⟩ := h
  refine readExpr_eq_ok_iff.mpr ⟨_, ?_, expression?_paren hus⟩
  rw [toList_paren, scanText?_lparen, if_neg (by simpa [isForbidden] using hall), tokens?_paren hr,
    tokens?_nil]
  rfl

theorem Lang.Unclosed.readExpr_paren (h : Unclosed t.toList x) :
    readExpr ("(" ++ t ++ ")") = .error .malformed := by
  refine readExpr_eq_malformed fun ts hts => ?_
  rw [toList_paren, scanText?_lparen] at hts
  obtain ⟨hall, hts⟩ := Option.ite_none_left_eq_some.mp hts
  rcases h with hforbidden | ⟨us, hus, ho⟩
  · rw [List.any_append, hforbidden] at hall
    exact absurd rfl hall
  · obtain ⟨rest, rfl⟩ := ho.paren hts
    exact expression?_paren_semi hus

end Single

section Pair

variable {t₁ t₂ : String}

/-- The tokens of two texts in brackets, with the sign of a conjunction between them. -/
theorem scanText?_land {us : List Token} {q : Place} (hall₁ : t₁.toList.any isForbidden = false)
    (h₁ : Reads ⟨false, false⟩ t₁.toList us q) :
    scanText? ("(" ++ t₁ ++ ") && (" ++ t₂ ++ ")").toList =
      if t₂.toList.any isForbidden then none
      else (tokens? ⟨false, false⟩ (t₂.toList ++ [')'])).map fun ts =>
        .op .lparen :: (us ++ .op .rparen :: .op .land :: .op .lparen :: ts) := by
  have hall : (t₁.toList ++ ')' :: ' ' :: '&' :: '&' :: ' ' :: '(' :: (t₂.toList ++ [')'])).any
      isForbidden = t₂.toList.any isForbidden := by
    simp [hall₁, isForbidden]
  rw [toList_land, scanText?_lparen, hall, tokens?_paren h₁, tokens?_land, Option.map_map]
  rfl

theorem Lang.Closed.readExpr_land (h₁ : Closed t₁.toList x) (h₂ : Closed t₂.toList y) :
    readExpr ("(" ++ t₁ ++ ") && (" ++ t₂ ++ ")") = .ok (.binary .land (.paren x) (.paren y)) := by
  obtain ⟨hall₁, us, q₁, hus, hq₁, hr₁⟩ := h₁
  obtain ⟨hall₂, vs, q₂, hvs, hq₂, hr₂⟩ := h₂
  refine readExpr_eq_ok_iff.mpr ⟨_, ?_, expression?_land hus hvs⟩
  rw [scanText?_land hall₁ hr₁, if_neg (by rw [hall₂]; exact Bool.false_ne_true),
    hr₂ _ (isCut_rparen []), tokens?_rparen, tokens?_nil]
  rfl

theorem Lang.Unclosed.readExpr_left (h : Unclosed t₁.toList x) (t₂ : String) :
    readExpr ("(" ++ t₁ ++ ") && (" ++ t₂ ++ ")") = .error .malformed := by
  refine readExpr_eq_malformed fun ts hts => ?_
  rw [toList_land, scanText?_lparen] at hts
  obtain ⟨hall, hts⟩ := Option.ite_none_left_eq_some.mp hts
  rcases h with hforbidden | ⟨us, hus, ho⟩
  · rw [List.any_append, hforbidden] at hall
    exact absurd rfl hall
  · obtain ⟨rest, rfl⟩ := ho.paren hts
    exact expression?_paren_semi hus

theorem Lang.Unclosed.readExpr_right (h₁ : Closed t₁.toList x) (h₂ : Unclosed t₂.toList y) :
    readExpr ("(" ++ t₁ ++ ") && (" ++ t₂ ++ ")") = .error .malformed := by
  obtain ⟨hall₁, us, q₁, hus, hq₁, hr₁⟩ := h₁
  refine readExpr_eq_malformed fun ts hts => ?_
  rw [scanText?_land hall₁ hr₁] at hts
  obtain ⟨hall, hts⟩ := Option.ite_none_left_eq_some.mp hts
  obtain ⟨vs, hvs, rfl⟩ := Option.map_eq_some_iff.mp hts
  rcases h₂ with hforbidden | ⟨us', hus', ho⟩
  · exact absurd hforbidden hall
  · obtain ⟨rest, rfl⟩ := ho _ (isCut_rparen []) vs hvs
    exact expression?_land_semi hus hus'

end Pair

end Brackets

end Lasso
