import Lasso.Proofs.Eval.Send
import Lasso.Proofs.Lang.Body
/-!
# How assignments are read

The statements of an action are read from its text, or from what is in the brackets of an atomic one, as a
body that is closed on a line of its own.

* `readAll_eq_ok_iff` -- **an action is read** exactly if its statements are steps, one at least;
* `readAll_ne_ok_of_marked` -- **an action that starts with a marked word is no sequence of assignments**;
* `exists_of_atomicBody?` -- what an atomic action looks like.
-/

namespace Lasso

open Lang

/-! ## 1. Marked words -/

/-- A word of ASCII characters that does not start with a digit. -/
structure IsWord (name : List Char) : Prop where
  starts : ∃ c ∈ name.head?, Text.isLetter c = true
  word : ∀ c ∈ name, isWordChar c = true

/-- Marks that do not go on with an assignment. -/
def marks : List Char := ['!', '?', '\x7d']

section Marked

variable {mark : Char} {cs name rest : List Char} {p : Place} {ts : List Token}

theorem IsWord.ne_nil (h : IsWord name) : name ≠ [] := by
  rintro rfl
  obtain ⟨c, hc, -⟩ := h.starts
  cases hc

/-- A mark is neither a space nor part of a name, and no opening bracket. -/
theorem of_mem_marks (h : mark ∈ marks) : Text.isSpace mark = false ∧ isWordChar mark = false ∧
    Text.isNameChar mark = false ∧ mark ≠ '{' := by
  simp only [marks, List.mem_cons, List.not_mem_nil, or_false] at h
  rcases h with rfl | rfl | rfl <;> decide

theorem isNameChar_of_isSpace {c : Char} (h : Text.isSpace c = true) : Text.isNameChar c = false := by
  simp only [Text.isSpace, Bool.or_eq_true, decide_eq_true_eq] at h
  rcases h with (((rfl | rfl) | rfl) | rfl) | rfl <;> decide

/-- The token that is read at a mark. -/
theorem exists_wordEnd (hmark : mark ∈ marks) (h : tokens? p (mark :: cs) = some ts) :
    ∃ u us, ts = u :: us ∧ u ∈ wordEnds := by
  simp only [marks, List.mem_cons, List.not_mem_nil, or_false] at hmark
  have hop : ∀ o, operator? (mark :: cs) = some o → .op o ∈ wordEnds := by
    intro o ho
    rcases hmark with rfl | rfl | rfl
    · by_cases hcs : cs.head? = some '='
      · obtain ⟨tail, rfl⟩ := List.head?_eq_some_iff.mp hcs
        cases ho
        decide
      · rw [operator?_not hcs] at ho
        cases ho
        decide
    · cases ho
    · cases ho
      decide
  have hl : lexeme? p mark cs = (operator? (mark :: cs)).bind fun o =>
      some (.one (.op o) o.endsStatement (o.text.length - 1)) := by
    rcases hmark with rfl | rfl | rfl <;> rfl
  rw [tokens?_cons, hl] at h
  obtain ⟨l, hl, h⟩ := Option.bind_eq_some_iff.mp h
  obtain ⟨o, ho, hl⟩ := Option.bind_eq_some_iff.mp hl
  cases hl
  obtain ⟨us, -, rfl⟩ := Option.map_eq_some_iff.mp h
  exact ⟨_, us, rfl, hop o ho⟩

/-- A text with a marked word at its start is read as the word and a token that may not follow it in an
    assignment. -/
theorem exists_tokens?_marked {fresh : Bool} (hmark : mark ∈ marks) (hname : IsWord name)
    (h : Marked mark cs name rest) (hts : tokens? ⟨false, fresh⟩ cs = some ts) :
    ∃ t u us, ts = t :: u :: us ∧ ((∃ s, t = .name s) ∨ ∃ w, t = .word w) ∧ u ∈ wordEnds := by
  obtain ⟨s, b, hs, hb, rfl⟩ := h
  obtain ⟨c, hc, hletter⟩ := hname.starts
  obtain ⟨more, rfl⟩ := List.head?_eq_some_iff.mp hc
  have hmore : ∀ d ∈ more, Text.isNameChar d = true := fun d hd =>
    isNameChar_of_isWordChar (hname.word d (List.mem_cons_of_mem _ hd))
  have hstop : ∀ d ∈ (b ++ mark :: rest).head?, Text.isNameChar d = false := by
    intro d hd
    cases b with
    | nil =>
      cases hd
      exact (of_mem_marks hmark).2.2.1
    | cons e b =>
      cases hd
      exact isNameChar_of_isSpace (hb d List.mem_cons_self)
  have hword := tokens?_skip hs.isBlanks hts
  rw [List.cons_append, tokens?_word hletter hmore hstop] at hword
  obtain ⟨ws, hws, rfl⟩ := Option.map_eq_some_iff.mp hword
  obtain ⟨vs, ws', q, rfl, hvs, hws'⟩ := tokens?_gap hb.isBlanks hws
  rcases hvs with rfl | ⟨-, rfl⟩
  · obtain ⟨u, us, rfl, hu⟩ := exists_wordEnd hmark hws'
    exact ⟨_, u, us, rfl, wordToken_cases _, hu⟩
  · exact ⟨_, .semi true, ws', rfl, wordToken_cases _, by decide⟩

end Marked

namespace Assignment

/-! ## 2. Reading -/

/-- The text whose statements are the steps of an action. -/
def bodyText (action : String) : List Char := (atomicBody? action.toList).getD action.toList

/-- What closes the text of an action. -/
def closing : List Char := "\n\x7d".toList

/-- The statements of a text. -/
def stmts? (body : List Char) : Option (List Stmt) := scan? (body ++ closing) >>= statements?

/-- The steps that the statements of an action are, if there are any. -/
def stepsOf (action : String) (ss : List Stmt) : Except EvalError (List Assignment) := do
  let steps := (← ss.mapM (ofStmt action)).filterMap id
  if steps.isEmpty then throw .emptyAction
  return steps

variable {action : String} {steps : List Assignment} {s : Stmt} {step : Option Assignment}

theorem readAll_eq (action : String) :
    readAll action = if (bodyText action).all Text.isBlank then .error .emptyAction else
      (stmts? (bodyText action)).elim (.error .malformed) (stepsOf action) := by
  unfold readAll bodyText stmts? closing
  simp only
  cases scan? ((atomicBody? action.toList).getD action.toList ++ "\n\x7d".toList) >>= statements? <;> rfl

theorem stepsOf_eq_ok_iff {ss : List Stmt} :
    stepsOf action ss = .ok steps ↔
      ∃ os, ss.mapM (ofStmt action) = .ok os ∧ steps = os.filterMap id ∧ steps ≠ [] := by
  unfold stepsOf
  rw [bind_eq_ok]
  refine exists_congr fun os => and_congr_right fun _ => ?_
  cases hsteps : os.filterMap id with
  | nil =>
    constructor
    · nofun
    · rintro ⟨rfl, hne⟩
      exact absurd rfl hne
  | cons x xs =>
    constructor
    · rintro h
      cases h
      exact ⟨rfl, List.cons_ne_nil _ _⟩
    · rintro ⟨rfl, -⟩
      rfl

/-- **An action is read** exactly if its text is not blank and its statements are steps, at least one of
    them. -/
theorem readAll_eq_ok_iff :
    readAll action = .ok steps ↔ (bodyText action).all Text.isBlank = false ∧
      ∃ ss, stmts? (bodyText action) = some ss ∧ stepsOf action ss = .ok steps := by
  rw [readAll_eq]
  cases (bodyText action).all Text.isBlank with
  | true => simp
  | false => cases stmts? (bodyText action) <;> simp

theorem isName_of_target {x : Expr} {n : String} (h : target x = .ok n) : x.isName = true := by
  cases x with
  | name m => rfl
  | _ => cases h

theorem ofStmt_assign (action : String) (lhs : List Expr) (op : Op) (rhs : List Expr) :
    ofStmt action (.assign lhs op rhs) =
      if (op ≠ .define ∧ op ≠ .assign) ∨ lhs.length ≠ rhs.length then
        .error (.unsupportedAssignment action)
      else (lhs.mapM target).map fun ns => some (.set ns rhs) := by
  rw [ofStmt]
  split
  · rfl
  · cases lhs.mapM target <;> rfl

/-- A step assigns to names. -/
theorem assignsNames_of_ofStmt (h : ofStmt action s = .ok step) : s.assignsNames = true := by
  cases s with
  | empty => rfl
  | assign lhs op rhs =>
    rw [ofStmt_assign] at h
    split at h
    · cases h
    · obtain ⟨ns, hns, -⟩ := map_eq_ok.mp h
      refine List.all_eq_true.mpr fun x hx => ?_
      obtain ⟨n, hn⟩ := exists_of_mapM_eq_ok hns hx
      exact isName_of_target hn
  | increment x | decrement x =>
    obtain ⟨n, hn, -⟩ := bind_eq_ok.mp h
    exact isName_of_target hn
  | expr _ | labeled | other => cases h

/-- What step a statement is does not depend on the action that it is part of. -/
theorem ofStmt_congr (h : ofStmt action s = .ok step) (action' : String) :
    ofStmt action' s = .ok step := by
  cases s with
  | assign lhs op rhs =>
    rw [ofStmt_assign] at h ⊢
    split at h
    · cases h
    · rename_i hop
      rwa [if_neg hop]
  | expr _ | labeled | other => cases h
  | _ => exact h

/-- **An action that starts with a marked word is no sequence of assignments.** -/
theorem readAll_ne_ok_of_marked {mark : Char} {name rest : List Char} (hmark : mark ∈ marks)
    (hname : IsWord name) (h : Marked mark (bodyText action ++ closing) name rest) :
    readAll action ≠ .ok steps := by
  intro hread
  obtain ⟨-, ss, hss, hsteps⟩ := readAll_eq_ok_iff.mp hread
  obtain ⟨os, hos, -⟩ := stepsOf_eq_ok_iff.mp hsteps
  obtain ⟨ts, hts, hss⟩ := Option.bind_eq_some_iff.mp hss
  obtain ⟨-, htok⟩ := Option.ite_none_left_eq_some.mp hts
  obtain ⟨t, u, us, rfl, ht, hu⟩ := exists_tokens?_marked hmark hname h htok
  obtain ⟨s, hs, hno⟩ := exists_not_assignsNames ht hu hss
  obtain ⟨step, hstep⟩ := exists_of_mapM_eq_ok hos hs
  rw [assignsNames_of_ofStmt hstep] at hno
  cases hno

/-! ## 3. Atomic actions -/

/-- The word that an atomic action starts with. -/
def atomicWord : List Char := "atomic".toList

theorem isWord_atomicWord : IsWord atomicWord :=
  ⟨⟨'a', rfl, by decide⟩, List.all_eq_true.mp (by decide)⟩

/-- An atomic action is a word that is marked by a bracket, with a text of one line up to the closing
    bracket. -/
theorem exists_of_atomicBody? {cs body : List Char} (h : atomicBody? cs = some body) :
    '\n' ∉ body ∧ ∃ u, IsSpaces u ∧ Marked '{' cs atomicWord (body ++ '}' :: u) := by
  unfold atomicBody? at h
  obtain ⟨s, hs, hcs⟩ := Text.exists_skipped Text.isSpace cs
  simp only at h
  split at h
  · rename_i hprefix
    obtain ⟨k, hk⟩ := List.isPrefixOf_iff_prefix.mp hprefix
    have hdrop : (cs.dropWhile Text.isSpace).drop 6 = k := by
      rw [← hk]
      rfl
    rw [hdrop] at h
    split at h
    · rename_i rest hrest
      obtain ⟨t, ht, hkt⟩ := Text.exists_skipped Text.isSpace k
      obtain ⟨u, hu, hru⟩ := Text.exists_trimmed Text.isSpace rest
      obtain ⟨⟨hlast, hline⟩, hbody⟩ := Option.ite_none_right_eq_some.mp h
      cases hbody
      have hclose : (Text.trimEnd Text.isSpace rest).dropLast ++ '}' :: u = rest := by
        rw [List.append_cons, List.dropLast_append_getLast? _ hlast, ← hru]
      refine ⟨fun hmem => hline (List.any_eq_true.mpr ⟨_, hmem, decide_eq_true rfl⟩), u, hu, s, t, hs,
        ht, ?_⟩
      have hword : atomicWord ++ k = cs.dropWhile Text.isSpace := hk
      rw [hclose, ← hrest, ← hkt, hword, ← hcs]
    · cases h
  · cases h

end Assignment

end Lasso
