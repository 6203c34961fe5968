import Lasso.Proofs.Eval.Assignment
/-!
# Assignments on several lines

The text of an action stands for the body of a function, and what is read of a line does not depend on the
lines behind it. So the steps of a text that is continued on a new line come before those of its
continuation, unless the text has closed the body: then what follows is declarations.

* `closesBody` -- whether a text closes the body, which needs a closing bracket;
* `readAll_lines`, `readAll_lines_of_closesBody` -- the steps of a continued text;
* `effect_of_lines` -- **the effect of two texts on lines of their own is that of the first one and then that
  of the second one**, unless the first one closes the body: then the second one is ignored.
-/

namespace Lasso.Assignment

open Lang

/-! ## 1. Texts and their continuations -/

/-- Whether the text closes the body before its end. -/
def closesBody (action : String) : Bool :=
  scan? (action.toList ++ closing) >>= bodyRest? ≠ some closer

variable {a b : String} {steps steps' : List Assignment}

/-- The text is not atomic and is read as these steps. -/
structure Plain (action : String) (steps : List Assignment) : Prop where
  reads : readAll action = .ok steps
  plain : atomicBody? action.toList = none

/-- The text, continued on a new line. -/
def lines (a b : String) : String := a ++ "\n" ++ b

theorem toList_lines (a b : String) : (lines a b).toList = a.toList ++ '\n' :: b.toList := by
  simp [lines]

theorem isLoose_closing : IsLoose closing where
  isCut := isCut_line _
  unclosing c hc := of_decide_eq_true
    (List.all_eq_true.mp (by decide : closing.all fun c => decide (c ∉ closers)) c hc)

theorem tokens?_bracket : tokens? ⟨false, true⟩ ['}'] = some closer := by
  rw [tokens?_of_lexeme (l := .one (.op .rbrace) true 0) rfl, List.drop_nil, tokens?_nil]
  rfl

/-- **A text has tokens of its own**, whatever stands on the lines behind it. -/
theorem exists_tokens {ts : List Token} (h : scan? (a.toList ++ closing) = some ts) :
    ∃ us, ts = us ++ closer ∧ (∀ t ∈ us.getLast?, t.ends = false) ∧ ('}' ∉ a.toList → .op .rbrace ∉ us) ∧
      ∀ k ws, scan? k = some ws → scan? (a.toList ++ '\n' :: k) = some (us ++ ws) := by
  obtain ⟨hallowed, htok⟩ := Option.ite_none_left_eq_some.mp h
  obtain ⟨us, hended, hus⟩ := exists_tokens?_line (show IsLoose ('\n' :: ['}']) from isLoose_closing) htok
  have hts : tokens? ⟨false, true⟩ (a.toList ++ closing) = some (us ++ closer) := by
    rw [closing, show "\n\x7d".toList = '\n' :: ['}'] from rfl, hus, tokens?_bracket]
    rfl
  refine ⟨us, Option.some.inj (htok.symm.trans hts), hended.2, fun hbracket hmem => ?_, fun k ws hws => ?_⟩
  · have hline : tokens? ⟨false, true⟩ (a.toList ++ ['\n']) = some us := by
      rw [hus, tokens?_nil]
      simp [lineEnd]
    have hmem' := mem_of_rbrace hline hmem
    simp [hbracket] at hmem'
  · obtain ⟨hallowed', htok'⟩ := Option.ite_none_left_eq_some.mp hws
    rw [List.any_append, Bool.or_eq_true, not_or] at hallowed
    rw [scan?, if_neg, hus, htok']
    · rfl
    · rw [List.any_append, List.any_cons, Bool.or_eq_true, Bool.or_eq_true, not_or, not_or]
      exact ⟨hallowed.1, by decide, hallowed'⟩

theorem Plain.bodyText_eq (h : Plain a steps) : bodyText a = a.toList := by
  rw [bodyText, h.plain]
  rfl

/-- A plain text is not blank; its tokens spell statements, and these are the steps. -/
theorem Plain.exists_statements (h : Plain a steps) :
    a.toList.all Text.isBlank = false ∧ ∃ ts ss, scan? (a.toList ++ closing) = some ts ∧
      statements? ts = some ss ∧ stepsOf a ss = .ok steps := by
  obtain ⟨hblank, ss, hss, hsteps⟩ := readAll_eq_ok_iff.mp h.reads
  rw [h.bodyText_eq] at hblank hss
  obtain ⟨ts, hts, hss⟩ := Option.bind_eq_some_iff.mp hss
  exact ⟨hblank, ts, ss, hts, hss, hsteps⟩

/-! ## 2. Atomic actions -/

theorem all_isBlank {cs : List Char} (h : IsSpaces cs) : cs.all Text.isBlank = true :=
  List.all_eq_true.mpr h.isBlanks

/-- A character at a cut is not in a text without it, so that the text is before the cut. -/
theorem exists_before {c : Char} {x y s t : List Char} (hs : c ∉ s) (h : x ++ c :: y = s ++ t) :
    ∃ r, x = s ++ r ∧ t = r ++ c :: y := by
  rcases List.append_eq_append_iff.mp h with ⟨r, hr, ht⟩ | ⟨r, hr, ht⟩
  · cases r with
    | nil =>
      rw [List.append_nil] at hr
      exact ⟨[], by rw [hr, List.append_nil], ht.symm⟩
    | cons d r =>
      obtain ⟨rfl, -⟩ := List.cons.inj ht
      exact absurd (hr ▸ List.mem_append_right _ List.mem_cons_self) hs
  · exact ⟨r, hr, ht⟩

/-- **A text that is continued on a new line is not atomic.** The brackets of an atomic action are on one
    line, so that the line break is before them or behind them: one of the texts is blank then, or the first
    one is a word only. -/
theorem atomicBody?_lines (ha : Plain a steps) (hb : Plain b steps') :
    atomicBody? (lines a b).toList = none := by
  refine Option.eq_none_iff_forall_ne_some.mpr fun body hbody => ?_
  obtain ⟨hblank, -⟩ := ha.exists_statements
  obtain ⟨hblank', -⟩ := hb.exists_statements
  obtain ⟨hline, u, hu, s, t, hs, ht, e⟩ := exists_of_atomicBody? hbody
  rw [toList_lines] at e
  rcases List.append_eq_append_iff.mp e with ⟨r, rfl, -⟩ | ⟨r, hr, hword⟩
  · -- before the word
    rw [all_isBlank fun c hc => hs c (List.mem_append_left _ hc)] at hblank
    cases hblank
  obtain ⟨r, rfl, hspaces⟩ := exists_before (by decide) hword.symm
  rcases List.append_eq_append_iff.mp hspaces.symm with ⟨q, rfl, -⟩ | ⟨q, rfl, hbrackets⟩
  · -- between the word and its bracket
    have hmarked : Marked '}' (bodyText a ++ closing) atomicWord [] := by
      refine ⟨s, r ++ ['\n'], hs, ?_, ?_⟩
      · intro c hc
        rcases List.mem_append.mp hc with hc | hc
        · exact ht c (List.mem_append_left _ hc)
        · rw [List.mem_singleton.mp hc]
          decide
      · rw [ha.bodyText_eq, hr]
        simp [closing]
    exact readAll_ne_ok_of_marked (by decide) isWord_atomicWord hmarked ha.reads
  · -- behind the closing bracket
    have hbreak : '\n' ∉ '{' :: (body ++ ['}']) := by simp [hline]
    obtain ⟨r, -, rfl⟩ := exists_before (t := u) hbreak (by rw [← hbrackets]; simp)
    rw [all_isBlank fun c hc => hu c (List.mem_append_right _ (List.mem_cons_of_mem _ hc))] at hblank'
    cases hblank'

/-! ## 3. Steps -/

theorem mapM_ofStmt_congr {ss : List Stmt} {os : List (Option Assignment)} (h : ss.mapM (ofStmt a) = .ok os)
    (b : String) : ss.mapM (ofStmt b) = .ok os := by
  induction ss generalizing os with
  | nil => exact h
  | cons s ss ih =>
    rw [List.mapM_cons] at h ⊢
    obtain ⟨o, ho, h⟩ := bind_eq_ok.mp h
    obtain ⟨os', hos', h⟩ := bind_eq_ok.mp h
    rw [ofStmt_congr ho b, ih hos']
    exact h

theorem stepsOf_congr {ss : List Stmt} (h : stepsOf a ss = .ok steps) (b : String) :
    stepsOf b ss = .ok steps := by
  obtain ⟨os, hos, hsteps⟩ := stepsOf_eq_ok_iff.mp h
  exact stepsOf_eq_ok_iff.mpr ⟨os, mapM_ofStmt_congr hos b, hsteps⟩

theorem stepsOf_append {ss ss' : List Stmt} (h : stepsOf a ss = .ok steps) (h' : stepsOf a ss' = .ok steps') :
    stepsOf a (ss ++ ss') = .ok (steps ++ steps') := by
  obtain ⟨os, hos, rfl, hne⟩ := stepsOf_eq_ok_iff.mp h
  obtain ⟨os', hos', rfl, -⟩ := stepsOf_eq_ok_iff.mp h'
  refine stepsOf_eq_ok_iff.mpr ⟨os ++ os', ?_, (List.filterMap_append).symm, ?_⟩
  · rw [List.mapM_append, hos, hos']
    rfl
  · exact fun hnil => hne (List.append_eq_nil_iff.mp hnil).1

/-- **The steps of a text that is continued on a new line** come before those of what follows, if it does not
    close the body. -/
theorem readAll_lines (ha : Plain a steps) (hb : Plain b steps') (hopen : closesBody a = false) :
    readAll (lines a b) = .ok (steps ++ steps') := by
  obtain ⟨hblank, ts, ss, hts, hss, hsteps⟩ := ha.exists_statements
  obtain ⟨hblank', ts', ss', hts', hss', hsteps'⟩ := hb.exists_statements
  obtain ⟨us, rfl, hlast, -, hcontinued⟩ := exists_tokens hts
  have hbody : bodyText (lines a b) = a.toList ++ '\n' :: b.toList := by
    rw [bodyText, atomicBody?_lines ha hb, Option.getD_none, toList_lines]
  have hrest : bodyRest? (us ++ closer) = some closer := by
    rw [closesBody, hts] at hopen
    exact of_not_not (of_decide_eq_false hopen)
  have hassigns : ∀ s ∈ ss, s.assignsNames = true := by
    intro s hs
    obtain ⟨os, hos, -⟩ := stepsOf_eq_ok_iff.mp hsteps
    obtain ⟨step, hstep⟩ := exists_of_mapM_eq_ok hos hs
    exact assignsNames_of_ofStmt hstep
  refine readAll_eq_ok_iff.mpr ⟨?_, ss ++ ss', ?_, ?_⟩
  · rw [hbody, List.all_append, hblank, Bool.false_and]
  · rw [stmts?, hbody, List.append_assoc, List.cons_append, hcontinued _ ts' hts']
    exact statements?_append hss hrest hassigns hlast hss'
  · exact stepsOf_append (stepsOf_congr hsteps _) (stepsOf_congr hsteps' _)

/-- **A text that closes the body has the same steps** whatever follows on a new line. -/
theorem readAll_lines_of_closesBody (ha : Plain a steps) (hb : Plain b steps')
    (hclosed : closesBody a = true) {out : List Assignment} (h : readAll (lines a b) = .ok out) :
    out = steps := by
  obtain ⟨-, ts, ss, hts, hss, hsteps⟩ := ha.exists_statements
  obtain ⟨-, ts', ss', hts', -⟩ := hb.exists_statements
  obtain ⟨us, rfl, -, -, hcontinued⟩ := exists_tokens hts
  have hlines : Plain (lines a b) out := ⟨h, atomicBody?_lines ha hb⟩
  obtain ⟨-, ts'', ss'', hts'', hss'', hout⟩ := hlines.exists_statements
  have hrest : bodyRest? (us ++ closer) ≠ some closer := by
    rw [closesBody, hts] at hclosed
    exact of_decide_eq_true hclosed
  rw [toList_lines, List.append_assoc, List.cons_append, hcontinued _ ts' hts'] at hts''
  cases hts''
  obtain rfl := eq_of_statements?_append hss hrest hss''
  exact Except.ok.inj (hout.symm.trans (stepsOf_congr hsteps _))

/-- Only a closing bracket closes the body. -/
theorem closesBody_of_not_mem (ha : Plain a steps) (hbracket : '}' ∉ a.toList) :
    closesBody a = false := by
  obtain ⟨-, ts, ss, hts, hss, -⟩ := ha.exists_statements
  obtain ⟨us, rfl, -, hus, -⟩ := exists_tokens hts
  rw [closesBody, hts]
  exact decide_eq_false fun hne => hne (bodyRest?_of_not_mem hss (hus hbracket))

/-! ## 4. Effects -/

theorem matches?_iff {action : String} : matches? action = true ↔ ∃ steps, readAll action = .ok steps := by
  unfold matches?
  cases readAll action with
  | error c => simp [Except.isOk, Except.toBool]
  | ok steps => simp [Except.isOk, Except.toBool]

theorem effect_of_readAll {action : String} (h : readAll action = .ok steps) (e : Env) :
    effect e action = steps.foldlM run e := by
  rw [effect, h]
  rfl

/-- **Assignments on lines of their own happen one after the other**: if the first text does not close the
    body, both together are a sequence of assignments, with the effect of the first text and then that of the
    second one, and with the failure of the first one that fails. A text without closing brackets does not
    close the body. If the first text closes it, what follows is ignored. -/
theorem effect_of_lines (ha : matches? a = true) (hb : matches? b = true)
    (hplain : atomicBody? a.toList = none) (hplain' : atomicBody? b.toList = none) :
    ('}' ∉ a.toList → closesBody a = false) ∧
    (closesBody a = false → matches? (a ++ "\n" ++ b) = true ∧
      ∀ e, effect e (a ++ "\n" ++ b) = effect e a >>= fun e => effect e b) ∧
    (closesBody a = true → matches? (a ++ "\n" ++ b) = true →
      ∀ e, effect e (a ++ "\n" ++ b) = effect e a) := by
  obtain ⟨steps, hsteps⟩ := matches?_iff.mp ha
  obtain ⟨steps', hsteps'⟩ := matches?_iff.mp hb
  have hfirst : Plain a steps := ⟨hsteps, hplain⟩
  have hsecond : Plain b steps' := ⟨hsteps', hplain'⟩
  refine ⟨closesBody_of_not_mem hfirst, fun hopen => ?_, fun hclosed hmatches e => ?_⟩
  · have hlines := readAll_lines hfirst hsecond hopen
    refine ⟨matches?_iff.mpr ⟨_, hlines⟩, fun e => ?_⟩
    rw [← lines, effect_of_readAll hlines, List.foldlM_append, effect_of_readAll hsteps]
    exact bind_congr fun e' => (effect_of_readAll hsteps' e').symm
  · obtain ⟨out, hout⟩ := matches?_iff.mp hmatches
    obtain rfl := readAll_lines_of_closesBody hfirst hsecond hclosed hout
    rw [effect_of_readAll hout, effect_of_readAll hsteps]

/-- A bracket in a comment closes nothing, and the next line sees the counter that the first one leaves. -/
theorem effect_of_lines_counting :
    matches? "count++; x := count // \x7d" = true ∧ matches? "x, count = count, x + 1" = true ∧
      effect Env.counting ("count++; x := count // \x7d" ++ "\n" ++ "x, count = count, x + 1") =
        .ok ((Env.counting.set "x" (.int 4)).set "count" (.int 5)) := by
  have ha : matches? "count++; x := count // \x7d" = true := by decide +kernel
  have hb : matches? "x, count = count, x + 1" = true := by decide +kernel
  obtain ⟨-, hopen, -⟩ := effect_of_lines ha hb (by decide +kernel) (by decide +kernel)
  obtain ⟨-, heffect⟩ := hopen (by decide +kernel)
  refine ⟨ha, hb, ?_⟩
  rw [heffect]
  decide +kernel

/-- The first text closes the body and opens another one, in which the second text has no effect. -/
theorem second_line_ignored :
    matches? "x := 1 \x7d\nfunc g() \x7b" = true ∧ matches? "y := 2" = true ∧
      atomicBody? "x := 1 \x7d\nfunc g() \x7b".toList = none ∧ atomicBody? "y := 2".toList = none ∧
      matches? ("x := 1 \x7d\nfunc g() \x7b" ++ "\n" ++ "y := 2") = true ∧
      effect ∅ ("x := 1 \x7d\nfunc g() \x7b" ++ "\n" ++ "y := 2") = .ok (Env.empty.set "x" (.int 1)) ∧
      (effect ∅ "x := 1 \x7d\nfunc g() \x7b" >>= fun e => effect e "y := 2") =
        .ok ((Env.empty.set "x" (.int 1)).set "y" (.int 2)) := by
  refine ⟨?_, ?_, ?_, ?_, ?_, ?_, ?_⟩ <;> decide +kernel

end Lasso.Assignment
