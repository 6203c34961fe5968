import Lasso.Proofs.Lang.Statement
/-!
# Bodies

A body is a sequence of statements up to its closing bracket, and what stands behind that bracket must be
declarations. A text is closed with a bracket of its own (`closer`), but may close its body before.

* `statements?_append` -- **a body that does not close before its end can be continued**;
* `eq_of_statements?_append` -- **what follows a body that closes before its end is ignored**;
* `exists_not_assignsNames` -- a body that starts with a word and a semicolon, a sign of negation, an
  inequality or a bracket is no list of assignments.
-/

namespace Lasso.Lang

open Lasso.Lang.Parser

/-! ## 1. The end of a body -/

/-- What stands behind the statements of a body. -/
def bodyEnd : Rule Unit := do
  expectOp .rbrace
  endStatement
  declarations

/-- The tokens behind the statements of a body. -/
def bodyRest? (ts : List Token) : Option (List Token) := (stmtList.run (parse (depth ts)) ts).map (·.2)

/-- The bracket and the end of the line that a text is closed with. -/
def closer : List Token := [.op .rbrace, .semi true]

section Bodies

variable {ts us k rest : List Token} {ss ss' : List Stmt}

theorem run_bodyRule (p : (g : Goal) → Reading g.Result) (ts : List Token) :
    bodyRule.run p ts = (stmtList.run p).andThen (fun ss rest =>
      (bodyEnd.run p rest).map fun r => (ss, r.2)) ts := by
  unfold bodyRule bodyEnd
  rw [run_bind, Reading.andThen, Reading.andThen]
  cases stmtList.run p ts with
  | none => rfl
  | some r =>
    simp only [run_bind, Reading.andThen]
    cases (expectOp .rbrace : Rule Unit).run p r.2 with
    | none => rfl
    | some r' =>
      simp only
      cases (endStatement : Rule Unit).run p r'.2 with
      | none => rfl
      | some r'' =>
        simp only
        cases declarations.run p r''.2 <;> rfl

/-- **A body is read** exactly if it is a sequence of statements with the end of a body behind it. -/
theorem statements?_eq_some_iff :
    statements? ts = some ss ↔ ∃ rest, Sequence (parse (depth ts)) ts ss rest ∧
      (bodyEnd.run (parse (depth ts)) rest).isSome = true := by
  unfold statements?
  rw [run_bodyRule, Reading.andThen]
  constructor
  · intro h
    cases hlist : stmtList.run (parse (depth ts)) ts with
    | none =>
      rw [hlist] at h
      cases h
    | some r =>
      obtain ⟨ss', rest⟩ := r
      rw [hlist] at h
      simp only [Option.map_map] at h
      obtain ⟨r, hr, rfl⟩ := Option.map_eq_some_iff.mp h
      exact ⟨rest, run_stmtList_eq_some_iff.mp hlist, Option.isSome_of_eq_some hr⟩
  · rintro ⟨rest, hss, hend⟩
    obtain ⟨r, hr⟩ := Option.isSome_iff_exists.mp hend
    rw [run_stmtList_eq_some_iff.mpr hss]
    simp only [hr, Option.map_some]

/-- The end of a body is a closing bracket and something behind it. -/
theorem exists_bodyEnd {p : (g : Goal) → Reading g.Result} (h : (bodyEnd.run p rest).isSome = true) :
    ∃ t tail, rest = .op .rbrace :: t :: tail := by
  obtain ⟨⟨u, out⟩, h⟩ := Option.isSome_iff_exists.mp h
  obtain ⟨_, mid, hbrace, h⟩ := Reading.andThen_eq_some h
  rw [expectOp, run_expect] at hbrace
  obtain ⟨hhead, hmid⟩ := Option.ite_none_right_eq_some.mp hbrace
  obtain ⟨tail, rfl⟩ := List.head?_eq_some_iff.mp hhead
  cases hmid
  cases tail with
  | nil => cases h
  | cons t tail => exact ⟨t, tail, rfl⟩

theorem bodyRest?_of_sequence (h : Sequence (parse (depth ts)) ts ss rest) :
    bodyRest? ts = some rest := by
  rw [bodyRest?, run_stmtList_eq_some_iff.mpr h]
  rfl

/-- The statements of a text end at its closer, or at a bracket before it. -/
theorem exists_rest (h : statements? (us ++ closer) = some ss) :
    ∃ taken r, us = taken ++ r ∧
      Sequence (parse (depth (us ++ closer))) (us ++ closer) ss (r ++ closer) ∧
      (r = [] ∨ r.head? = some (.op .rbrace)) := by
  obtain ⟨rest, hss, hend⟩ := statements?_eq_some_iff.mp h
  obtain ⟨t, tail, rfl⟩ := exists_bodyEnd hend
  obtain ⟨taken, heq⟩ := hss.exists_taken
  rcases List.append_eq_append_iff.mp heq with ⟨c, hc, hrest⟩ | ⟨r, hr, hrest⟩
  · -- the end of a body has at least as many tokens as the closer
    cases c with
    | nil =>
      rw [List.nil_append] at hrest
      exact ⟨us, [], (List.append_nil us).symm, by rwa [← hrest] at hss, Or.inl rfl⟩
    | cons c cs =>
      have hlen := congrArg List.length hrest
      simp only [closer, List.length_append, List.length_cons, List.length_nil] at hlen
      omega
  · refine ⟨taken, r, hr, by rwa [hrest] at hss, ?_⟩
    cases r with
    | nil => exact Or.inl rfl
    | cons c r =>
      obtain ⟨rfl, -⟩ := List.cons.inj hrest
      exact Or.inr rfl

/-! ## 2. What follows a body -/

/-- **A body that does not close before its end can be continued**: the statements of what follows come
    behind its own. -/
theorem statements?_append (h : statements? (us ++ closer) = some ss)
    (hrest : bodyRest? (us ++ closer) = some closer) (hss : ∀ s ∈ ss, s.assignsNames = true)
    (hlast : ∀ t ∈ us.getLast?, t.ends = false) (hk : statements? k = some ss') :
    statements? (us ++ k) = some (ss ++ ss') := by
  obtain ⟨r, hseq, -⟩ := statements?_eq_some_iff.mp h
  obtain rfl : r = closer := Option.some.inj ((bodyRest?_of_sequence hseq).symm.trans hrest)
  obtain ⟨rest', hseq', hend⟩ := statements?_eq_some_iff.mp hk
  obtain ⟨t, tail, hrest'⟩ := exists_bodyEnd hend
  obtain ⟨taken, htaken⟩ := hseq'.exists_taken
  have hlen : closer.length ≤ k.length := by
    rw [htaken, hrest']
    simp only [closer, List.length_append, List.length_cons, List.length_nil]
    omega
  have hdepth : depth (us ++ closer) ≤ depth (us ++ k) ∧ depth k ≤ depth (us ++ k) := by
    simp only [depth, List.length_append]
    omega
  obtain ⟨⟨u, out⟩, hout⟩ := Option.isSome_iff_exists.mp hend
  obtain ⟨taken', rfl, hq⟩ := bodyEnd.follows (sound_parse hdepth.2).follows hout
  exact statements?_eq_some_iff.mpr ⟨_, hseq.append hdepth.1 rfl hss hlast (hseq'.mono hdepth.2),
    Option.isSome_of_eq_some (hq out rfl)⟩

/-- **What follows a body that closes before its end is ignored.** -/
theorem eq_of_statements?_append (h : statements? (us ++ closer) = some ss)
    (hrest : bodyRest? (us ++ closer) ≠ some closer) (hk : statements? (us ++ k) = some ss') :
    ss' = ss := by
  obtain ⟨taken, r, rfl, hseq, hr⟩ := exists_rest h
  rcases hr with rfl | hr
  · exact absurd (bodyRest?_of_sequence hseq) hrest
  obtain ⟨rest', hseq', -⟩ := statements?_eq_some_iff.mp hk
  -- both are read at one depth, up to the bracket
  obtain ⟨taken', heq, hq⟩ := hseq.follows (Nat.le_max_left _ (depth (taken ++ r ++ k)))
  rw [List.append_assoc] at heq
  obtain rfl := List.append_cancel_right heq
  have hhead : (r ++ k).head? = (r ++ closer).head? := by
    rw [List.head?_append, List.head?_append, hr]
    rfl
  have hread := run_stmtList_eq_some_iff.mpr (hq (r ++ k) hhead)
  have hread' := run_stmtList_eq_some_iff.mpr
    (hseq'.mono (Nat.le_max_right (depth (taken ++ r ++ closer)) _))
  rw [← List.append_assoc] at hread
  rw [hread] at hread'
  exact (Prod.mk.inj (Option.some.inj hread')).1.symm

/-- A text without closing brackets does not close its body. -/
theorem bodyRest?_of_not_mem (h : statements? (us ++ closer) = some ss) (hus : .op .rbrace ∉ us) :
    bodyRest? (us ++ closer) = some closer := by
  obtain ⟨taken, r, rfl, hseq, rfl | hr⟩ := exists_rest h
  · exact bodyRest?_of_sequence hseq
  · exact absurd (List.mem_append_right _ (List.mem_of_head? hr)) hus

end Bodies

/-! ## 3. Words that start no assignment -/

/-- One turn of the loop that reads binary operators. -/
def binaryStep (lit : Bool) (strength : Nat) (x : Expr) : Rule (Option Expr) := do
  match ← peek with
  | some (.op o) =>
    match o.strength? with
    | some k =>
      if k < strength then return none
      skip
      return some (.binary o x (← ask (.expr lit (k + 1))))
    | none => return none
  | _ => return none

/-- Tokens that may follow a word, but not in an assignment. -/
def wordEnds : List Token := [.semi true, .op .not, .op .neq, .op .rbrace]

section Words

variable {n : Nat} {us rest : List Token} {x : Expr} {s : Stmt} {ss : List Stmt} {t u : Token}

theorem binaryTail_eq (lit : Bool) (strength : Nat) :
    binaryTail lit strength = repeatStep (binaryStep lit strength) := rfl

theorem gives_binaryStep (lit : Bool) (strength : Nat) (x : Expr) :
    Gives (fun y? => ∀ y ∈ y?, y.isName = false) (binaryStep lit strength x) := by
  refine .behind _ fun o => ?_
  split
  · split
    · split
      · exact gives_pure nofun
      · refine .behind _ fun _ => .behind _ fun y => gives_pure fun b hb => ?_
        cases hb
        rfl
    · exact gives_pure nofun
  · exact gives_pure nofun

/-- A comparison is no name. -/
theorem isName_of_neq {name : String}
    (h : parse (n + 3) (.expr true 1) (.name name :: .op .neq :: us) = some (x, rest)) :
    x.isName = false := by
  have hoperand : parse (n + 2) (.unary true) (.name name :: .op .neq :: us) =
      some (.name name, .op .neq :: us) := rfl
  rw [parse_expr, Reading.andThen, hoperand, binaryTail_eq] at h
  refine Gives.repeatStep_of_first (fun y _ => gives_binaryStep true 1 y) (fun y? mid hstep => ?_) h
  obtain ⟨z, mid', -, hstep⟩ := Reading.andThen_eq_some hstep
  cases hstep
  exact ⟨_, rfl, rfl⟩

theorem assignsNames_of_simple
    (hx : ∀ x rest, parse n (.expr true 1) (t :: u :: us) = some (x, rest) → x.isName = false)
    (h : (stmtRule.simple t).run (parse n) (t :: u :: us) = some (s, rest)) :
    s.assignsNames = false := by
  by_cases hl : s = .labeled
  · rw [hl]
    rfl
  obtain ⟨-, hlabeled | ⟨r, mid, hread, -⟩⟩ := exists_simpleStmt h
  · exact absurd hlabeled hl
  obtain ⟨x, mid', hfirst, hstarts⟩ := exists_startsWith (simpleStmt_basic hread hl)
  exact hstarts.assignsNames (hx x mid' hfirst)

/-- A name alone is an expression, and with an inequality behind it an assignment to no name. -/
theorem assignsNames_of_name {name : String} (hu : u ∈ wordEnds)
    (h : parse (n + 4) .stmt (.name name :: u :: us) = some (s, rest)) : s.assignsNames = false := by
  simp only [wordEnds, List.mem_cons, List.not_mem_nil, or_false] at hu
  rcases hu with rfl | rfl | rfl | rfl
  · cases h
    rfl
  · cases h
  · exact assignsNames_of_simple (fun _ _ hx => isName_of_neq hx) h
  · cases h
    rfl

/-- A key word starts a statement of which nothing is kept, or a type. -/
theorem assignsNames_of_word {w : Word} (hu : u ∈ wordEnds)
    (h : parse (n + 5) .stmt (.word w :: u :: us) = some (s, rest)) : s.assignsNames = false := by
  cases readsStmt_of_run h with
  | empty hts => cases hts
  | closed hclosed => cases hclosed
  | other => rfl
  | simple ht hsimple =>
    cases ht
    obtain ⟨hstarts, -⟩ := exists_simpleStmt hsimple
    refine assignsNames_of_simple (fun x rest hx => ?_) hsimple
    simp only [wordEnds, List.mem_cons, List.not_mem_nil, or_false] at hu
    cases w with
    | func | struct | map | chan | interface => rcases hu with rfl | rfl | rfl | rfl <;> cases hx
    | _ => cases hstarts

/-- **A body that starts with a word and one of these tokens is no list of assignments.** -/
theorem exists_not_assignsNames (ht : (∃ name, t = .name name) ∨ ∃ w, t = .word w)
    (hu : u ∈ wordEnds) (h : statements? (t :: u :: us) = some ss) :
    ∃ s ∈ ss, s.assignsNames = false := by
  obtain ⟨rest, hseq, hend⟩ := statements?_eq_some_iff.mp h
  obtain ⟨n, hn⟩ : ∃ n, depth (t :: u :: us) = n + 5 := by
    refine ⟨depth (t :: u :: us) - 5, ?_⟩
    simp only [depth]
    omega
  rw [hn] at hseq
  cases hseq with
  | stop hends =>
    -- the statements end before a case, which closes no body
    obtain ⟨_, _, hrest⟩ := exists_bodyEnd hend
    cases hrest
    rcases ht with ⟨name, ht⟩ | ⟨w, ht⟩ <;> cases ht
  | step _ hstmt _ _ =>
    refine ⟨_, List.mem_cons_self, ?_⟩
    rcases ht with ⟨name, rfl⟩ | ⟨w, rfl⟩
    · exact assignsNames_of_name hu hstmt
    · exact assignsNames_of_word hu hstmt

end Words

end Lasso.Lang
