import Lasso.Proofs.Env.Equations
import Lasso.Proofs.Eval.Families
import Lasso.Proofs.Eval.Frame
import Lasso.Proofs.Lang.Names
/-!
# The names that actions give values to

The names of channels and of variables that receive are words, and the targets of assignments are names of
the language. Neither has a blank in it:

* `Action.unbroken_of_mem_writes` -- **the names that an action writes have no blank in them**, whatever text
  the action is;
* `Env.PlainNames.effect`, `Env.PlainNames.initStep` -- so the names with a value stay without the sign of
  equations when actions are done;
* `equations_determine_environments` -- **the equations determine the environment**.
-/

namespace Lasso

open Lang (Unbroken)

/-! ## 1. Channels -/

theorem unbroken_of_isWordChar {name : List Char} (h : ∀ c ∈ name, isWordChar c = true) :
    Unbroken (.ofList name) := by
  intro hblank
  rw [String.toList_ofList] at hblank
  cases h ' ' hblank

variable {isName : List Char → Bool} {action : String} {r : String × String}

theorem unbroken_of_readSend? {allowed : Char → Bool} (hnil : isName [] = false)
    (h : readSend? isName allowed action = some r) : Unbroken r.1 := by
  obtain ⟨⟨name, rest⟩, hsplit, h⟩ := Option.bind_eq_some_iff.mp h
  obtain ⟨body, -, h⟩ := Option.bind_eq_some_iff.mp h
  obtain ⟨-, hword, -⟩ := (splitAction?_eq_some_iff (by decide) (by decide) hnil).mp hsplit
  cases h
  exact unbroken_of_isWordChar hword

theorem unbroken_of_readReceive? (hnil : isName [] = false) (h : readReceive? isName action = some r) :
    Unbroken r.1 ∧ Unbroken r.2 := by
  obtain ⟨⟨name, rest⟩, hsplit, h⟩ := Option.bind_eq_some_iff.mp h
  obtain ⟨x, hx, h⟩ := Option.bind_eq_some_iff.mp h
  obtain ⟨-, hword, -⟩ := (splitAction?_eq_some_iff (by decide) (by decide) hnil).mp hsplit
  obtain ⟨-, hword', -⟩ := receiver?_eq_some_iff.mp hx
  cases h
  exact ⟨unbroken_of_isWordChar hword, unbroken_of_isWordChar hword'⟩

theorem Handshake.unbroken_of_split? (h : split? action = some r) : Unbroken r.2 := by
  unfold split? at h
  simp only at h
  split at h
  · cases h
  · obtain ⟨⟨c, payload⟩, -, h⟩ := Option.bind_eq_some_iff.mp h
    obtain ⟨⟨d, target⟩, hreceive, h⟩ := Option.bind_eq_some_iff.mp h
    obtain ⟨-, h⟩ := Option.ite_none_right_eq_some.mp h
    cases h
    exact (unbroken_of_readReceive? isChannelName_nil hreceive).2

theorem ChannelAction.unbroken_of_read? {a : ChannelAction} (h : read? action = some a) {n : String}
    (hn : n ∈ a.writes) : Unbroken n := by
  unfold read? at h
  split at h
  · rename_i c x hreceive
    cases h
    obtain ⟨hc, hx⟩ := unbroken_of_readReceive? rfl hreceive
    rcases List.mem_cons.mp hn with rfl | hn
    · exact hc
    · exact List.mem_singleton.mp hn ▸ hx
  · obtain ⟨⟨c, payload⟩, hsend, h⟩ := Option.map_eq_some_iff.mp h
    cases h
    exact List.mem_singleton.mp hn ▸ unbroken_of_readSend? rfl hsend

/-! ## 2. Assignments -/

theorem Assignment.eq_name_of_target {x : Lang.Expr} {n : String} (h : target x = .ok n) : x = .name n := by
  cases x with
  | name m =>
    cases h
    rfl
  | _ => cases h

/-- A step writes the names among the targets of the statement. -/
theorem Assignment.mem_targets_of_ofStmt {s : Lang.Stmt} {a : Assignment}
    (h : ofStmt action s = .ok (some a)) {n : String} (hn : n ∈ a.writes) :
    Lang.Expr.name n ∈ s.targets := by
  cases s with
  | assign lhs op rhs =>
    rw [ofStmt_assign] at h
    split at h
    · cases h
    · obtain ⟨ns, hns, h⟩ := map_eq_ok.mp h
      cases h
      obtain ⟨x, hx, htarget⟩ := (mem_of_mapM_eq_ok hns).mp hn
      exact eq_name_of_target htarget ▸ hx
  | increment x | decrement x =>
    obtain ⟨m, hm, h⟩ := bind_eq_ok.mp h
    cases h
    rw [eq_name_of_target hm, List.mem_singleton.mp hn]
    exact List.mem_cons_self
  | empty | expr _ | labeled | other => cases h

theorem Assignment.unbroken_of_readAll {ss : List Assignment} (h : readAll action = .ok ss) {a : Assignment}
    (ha : a ∈ ss) {n : String} (hn : n ∈ a.writes) : Unbroken n := by
  obtain ⟨-, stmts, hstmts, hsteps⟩ := readAll_eq_ok_iff.mp h
  obtain ⟨os, hos, rfl, -⟩ := stepsOf_eq_ok_iff.mp hsteps
  obtain ⟨ts, hscan, hread⟩ := Option.bind_eq_some_iff.mp hstmts
  obtain ⟨o, ho, rfl⟩ := List.mem_filterMap.mp ha
  obtain ⟨s, hs, hstep⟩ := (mem_of_mapM_eq_ok hos).mp ho
  have htargets := Lang.targetsOk_of_statements? hread (Lang.named_of_scan? hscan) s hs
  exact htargets _ (mem_targets_of_ofStmt hstep hn) n rfl

/-- **The names that an action writes have no blank in them.** -/
theorem Action.unbroken_of_mem_writes {n : String} (h : n ∈ (ofText action).writes) : Unbroken n := by
  unfold ofText at h
  split at h
  · cases h
  · split at h
    · rename_i hsplit
      exact List.mem_singleton.mp h ▸ Handshake.unbroken_of_split? hsplit
    · split at h
      · rename_i hread
        exact ChannelAction.unbroken_of_read? hread h
      · split at h
        · rename_i hall
          obtain ⟨s, hs, hn⟩ := List.mem_flatMap.mp h
          exact Assignment.unbroken_of_readAll hall hs hn
        · cases h

/-! ## 3. Environments -/

namespace Env

variable {e e' e₁ e₂ : Env} {capacity : Int}

/-- A name without a blank does not hold the sign, which starts with one. -/
theorem signless_of_unbroken {n : String} (h : Unbroken n) : Signless (.ofString n) := by
  rintro ⟨l, r, hlr⟩
  have hsplit : Bytes.ofString n = l ++ 32 :: (61 :: 32 :: r) := hlr.symm.trans (List.append_assoc ..)
  have hunits := Bytes.units_append l (61 :: 32 :: r) (a := 32) (by decide)
  rw [← hsplit, Bytes.units_ofString] at hunits
  have hblank : Bytes.Unit.char ' ' ∈ Bytes.units (32 :: 61 :: 32 :: r) := by
    rw [Bytes.units_of_firstChar? (Bytes.firstChar?_of_lt _ (by decide))]
    exact List.mem_cons_self
  have hmem : Bytes.Unit.char ' ' ∈ n.toList.map Bytes.Unit.char := hunits ▸ List.mem_append_right _ hblank
  obtain ⟨c, hc, e⟩ := List.mem_map.mp hmem
  cases e
  exact h hc

theorem plainNames_empty : empty.PlainNames := by
  intro n v h
  have hnone : empty.find? n = none := find?_empty n
  rw [hnone] at h
  cases h

theorem PlainNames.set (h : e.Canonical) (hn : e.PlainNames) {name : String} (hname : Unbroken name)
    (v : Value) : (e.set name v).PlainNames := by
  intro n w hfind
  have hput : (e.put (.ofString name) v).find? n = some w := hfind
  rw [h.find?_put] at hput
  split at hput
  · rename_i heq
    exact heq ▸ signless_of_unbroken hname
  · exact hn n w hput

theorem PlainNames.setAll {us : Updates} (h : e.Canonical) (hn : e.PlainNames)
    (hus : ∀ u ∈ us, Unbroken u.1) : (e.setAll us).PlainNames := by
  induction us generalizing e with
  | nil => exact hn
  | cons u us ih =>
    exact ih (h.set u.1 u.2) (hn.set h (hus u List.mem_cons_self) u.2) fun w hw =>
      hus w (List.mem_cons_of_mem _ hw)

/-- **The evaluators create plain names only.** -/
theorem PlainNames.effect (h : e.Canonical) (hn : e.PlainNames)
    (heffect : (Evaluators.standard capacity).effect e action = .ok (some e')) : e'.PlainNames := by
  rw [Evaluators.effect_standard] at heffect
  obtain ⟨o, ho, he⟩ := map_eq_ok.mp heffect
  obtain ⟨us, rfl, rfl⟩ := Option.map_eq_some_iff.mp he
  have hus := Action.mem_writes_of_updates (mapError_eq_ok.mp ho)
  exact hn.setAll h fun u hu => Action.unbroken_of_mem_writes (hus u hu)

theorem PlainNames.initStep (h : e.Canonical) (hn : e.PlainNames)
    (hinit : (Evaluators.standard capacity).initStep e action = .ok e') : e'.PlainNames := by
  rw [Evaluators.initStep_standard] at hinit
  split at hinit
  · cases hinit
  · cases hinit
  · rename_i us hupdates
    cases hinit
    have hus := Action.mem_writes_of_updates hupdates
    exact hn.setAll h fun u hu => Action.unbroken_of_mem_writes (hus u hu)

/-- **The equations determine the environment.** Values are known by their texts; environments whose names are
    plain are known by their equations, which say exactly which name has which value; and the evaluators
    create plain names only. -/
theorem equations_determine_environments (h₁ : e₁.Built) (h₂ : e₂.Built) (hn₁ : e₁.PlainNames)
    (hn₂ : e₂.PlainNames) :
    (∀ v w : Value, v.Formed → w.Formed → (v.text = w.text ↔ v = w)) ∧
      ((∀ b, b ∈ e₁.equations ↔ b ∈ e₂.equations) → e₁ = e₂) ∧
      (∀ x v, v.Formed → (equation x v ∈ e₁.equations ↔ e₁.find? x = some v)) ∧
      ∀ capacity action e',
        (Evaluators.standard capacity).effect e₁ action = .ok (some e') ∨
          (Evaluators.standard capacity).initStep e₁ action = .ok e' → e'.PlainNames := by
  obtain ⟨hc₁, hv₁⟩ := h₁.canonical
  obtain ⟨hc₂, hv₂⟩ := h₂.canonical
  refine ⟨fun v w hv hw => hv.text_inj hw, hc₁.eq_of_equations hc₂ hv₁ hv₂ hn₁ hn₂,
    fun x v hv => hc₁.equation_mem_iff hv₁ hn₁ hv, fun capacity action e' => ?_⟩
  rintro (heffect | hinit)
  · exact hn₁.effect hc₁ heffect
  · exact hn₁.initStep hc₁ hinit

theorem counting_plainNames : counting.PlainNames :=
  (plainNames_empty.set canonical_empty (by decide) _).set (canonical_empty.set _ _) (by decide) _

/-- A string that holds the sign, quotes and an equation. -/
def quoting : Env := counting.set "note" (.str (.ofString "\" = x\\ = <1, \""))

theorem quoting_built : quoting.Built := .put _ _ _ counting_built (.str _)

theorem quoting_plainNames : quoting.PlainNames :=
  counting_plainNames.set counting_built.canonical.1 (by decide) _

theorem equations_determine_environments_quoting :
    quoting.Built ∧ counting.Built ∧ quoting.PlainNames ∧ counting.PlainNames ∧
      (∀ v w : Value, v.Formed → w.Formed → (v.text = w.text ↔ v = w)) ∧
      ((∀ b, b ∈ quoting.equations ↔ b ∈ counting.equations) → quoting = counting) ∧
      (∀ x v, v.Formed → (equation x v ∈ quoting.equations ↔ quoting.find? x = some v)) ∧
      ∀ capacity action e',
        (Evaluators.standard capacity).effect quoting action = .ok (some e') ∨
          (Evaluators.standard capacity).initStep quoting action = .ok e' → e'.PlainNames :=
  ⟨quoting_built, counting_built, quoting_plainNames, counting_plainNames,
    equations_determine_environments quoting_built counting_built quoting_plainNames counting_plainNames⟩

end Env

end Lasso
