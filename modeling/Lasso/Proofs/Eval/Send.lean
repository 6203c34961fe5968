import Lasso.Proofs.Eval.Reading
import Lasso.Proofs.Eval.Rendezvous
/-!
# Sends of expressions

A send on a rendezvous channel is written as the name of the channel, the mark and the text of an
expression. What is sent is read up to the first bar, since a bar parts the two ends of a combined action;
but an expression may hold bars of its own.

* `isOneSided_send_iff` -- **the send of an expression is recognised** exactly if the expression has no bar;
* `ofText_of_bar` -- with a bar it is no action of any family, so that it has no effect;
* `send_recognised` -- without a bar it waits for its counterpart; with one it happens alone, and matches no
  counterpart.
-/

namespace Lasso

open Lang

/-! ## 1. The first tokens of a send -/

namespace Lang

/-- Behind a name, the sign of negation neither goes on with a statement nor ends it. -/
theorem statements?_not (s : String) (ts : List Token) :
    statements? (.name s :: .op .not :: ts) = none := by
  rfl

theorem operator?_not {cs : List Char} (h : cs.head? ≠ some '=') : operator? ('!' :: cs) = some .not := by
  cases cs with
  | nil => rfl
  | cons d cs =>
    have hd : '=' ≠ d := fun e => h (congrArg some e.symm)
    simp [operator?, Op.all, Op.text, List.isPrefixOf, hd]

theorem operator?_equals (cs : List Char) :
    operator? ('=' :: cs) = some .eql ∨ operator? ('=' :: cs) = some .assign := by
  cases cs with
  | nil => exact Or.inr rfl
  | cons d cs =>
    by_cases hd : '=' = d
    · subst hd
      exact Or.inl rfl
    · right
      simp [operator?, Op.all, Op.text, List.isPrefixOf, hd]

/-- No key word starts with an underscore. -/
theorem wordToken_underscore (cs : List Char) :
    wordToken (.ofList ('_' :: cs)) = (.name (.ofList ('_' :: cs)), true) := by
  have hhead : ∀ w ∈ Word.all, w.text.toList.head? ≠ some '_' := by decide
  have hfind : Word.all.find? (·.text = String.ofList ('_' :: cs)) = none := by
    refine List.find?_eq_none.mpr fun w hw h => hhead w hw ?_
    rw [decide_eq_true_eq.mp h, String.toList_ofList]
    rfl
  rw [wordToken, hfind]

theorem ascii_of_isWordChar {c : Char} (h : isWordChar c = true) : c.toNat < 0x80 := by
  have hclasses : isWordChar c = (decide ('A'.val ≤ c.val ∧ c.val ≤ 'Z'.val) ||
      decide ('a'.val ≤ c.val) && decide (c.val ≤ 'z'.val) ||
      decide ('0'.val ≤ c.val) && decide (c.val ≤ '9'.val) || decide (c = '_')) := rfl
  rw [hclasses] at h
  simp only [Bool.or_eq_true, Bool.and_eq_true, decide_eq_true_eq, UInt32.le_iff_toNat_le] at h
  rcases h with ((h | h) | h) | rfl
  · exact h.2.trans_lt (by decide)
  · exact h.2.trans_lt (by decide)
  · exact h.2.trans_lt (by decide)
  · decide

/-- The scanner reads the name of a channel as a whole. -/
theorem isNameChar_of_isWordChar {c : Char} (h : isWordChar c = true) : Text.isNameChar c = true := by
  have hascii := ascii_of_isWordChar h
  simp only [isWordChar, Char.isAlphanum, Bool.or_eq_true, decide_eq_true_eq] at h
  rw [Text.isNameChar, Text.isLetter, Text.isDigit, if_pos hascii, if_pos hascii]
  rcases h with (h | h) | h <;> simp [h]

/-- The tokens of a text that starts with a name and the mark of a send. -/
theorem exists_tokens?_send {p : Place} {name cs : List Char} {ts : List Token}
    (hname : ∀ c ∈ name, isWordChar c = true) (hcs : cs.head? ≠ some '=')
    (h : tokens? p ('_' :: (name ++ '!' :: cs)) = some ts) :
    ∃ us, ts = .name (.ofList ('_' :: name)) :: .op .not :: us := by
  have hmark : ∀ q, lexeme? q '!' cs = some (.one (.op .not) false 0) := by
    intro q
    have hl : lexeme? q '!' cs = (operator? ('!' :: cs)).bind fun o =>
        some (.one (.op o) o.endsStatement (o.text.length - 1)) := rfl
    rw [hl, operator?_not hcs]
    rfl
  have hstop : ∀ d ∈ ('!' :: cs).head?, Text.isNameChar d = false := by
    intro d hd
    cases hd
    decide
  rw [tokens?_word (by decide) (fun c hc => isNameChar_of_isWordChar (hname c hc)) hstop,
    wordToken_underscore] at h
  obtain ⟨vs, hvs, rfl⟩ := Option.map_eq_some_iff.mp h
  rw [tokens?_of_lexeme (hmark _)] at hvs
  obtain ⟨us, -, rfl⟩ := Option.map_eq_some_iff.mp hvs
  exact ⟨us, rfl⟩

end Lang

theorem IsSpaces.isBlanks {s : List Char} (hs : IsSpaces s) : IsBlanks s := by
  intro c hc
  have hspace := hs c hc
  simp only [Text.isSpace, Bool.or_eq_true, decide_eq_true_eq] at hspace
  rcases hspace with (((rfl | rfl) | rfl) | rfl) | rfl <;> decide

namespace Handshake

variable {channel text : String} {x : Expr}

/-! ## 2. The text of a send -/

/-- The action that sends the value of an expression. -/
def send (channel text : String) : String := channel ++ "!" ++ text

theorem toList_send (channel text : String) :
    (send channel text).toList = channel.toList ++ '!' :: text.toList := by
  simp [send]

theorem marked_send (channel text : String) :
    Marked '!' (send channel text).toList channel.toList text.toList :=
  ⟨[], [], nofun, nofun, toList_send channel text⟩

theorem IsChannel.exists_cons (hc : IsChannel channel) : ∃ name, channel.toList = '_' :: name := by
  have hnamed := hc.named
  cases hcs : channel.toList with
  | nil =>
    rw [hcs] at hnamed
    cases hnamed
  | cons c name =>
    rw [hcs] at hnamed
    cases name with
    | nil => cases hnamed
    | cons d name =>
      obtain rfl : c = '_' := of_decide_eq_true hnamed
      exact ⟨_, rfl⟩

/-- Whatever the names of channels may be, the mark behind the name is that of a send. -/
theorem eq_of_splitAction?_send (hc : IsChannel channel) {mark : Char} {isName : List Char → Bool}
    (hs : Text.isSpace mark = false) (hw : isWordChar mark = false) (hnil : isName [] = false)
    {name rest : List Char}
    (h : splitAction? mark isName (send channel text).toList = some (name, rest)) :
    mark = '!' ∧ name = channel.toList ∧ rest = text.toList := by
  obtain ⟨hname, hword, hmarked⟩ := (splitAction?_eq_some_iff hs hw hnil).mp h
  have hne : name ≠ [] := by
    rintro rfl
    rw [hnil] at hname
    cases hname
  have hne' : channel.toList ≠ [] := by
    obtain ⟨name, e⟩ := hc.exists_cons
    exact e ▸ List.cons_ne_nil _ _
  obtain ⟨hmark, rfl, rfl⟩ := hmarked.unique (marked_send channel text) hs hw (by decide) (by decide) hne
    hword hne' hc.word
  exact ⟨hmark, rfl, rfl⟩

/-- An expression is not made of spaces. -/
theorem exists_not_space (h : readExpr text = .ok x) : text.toList.dropWhile Text.isSpace ≠ [] := by
  intro hnil
  have hspaces : ∀ c ∈ text.toList, Text.isSpace c = true := List.dropWhile_eq_nil_iff.mp hnil
  obtain ⟨ts, hts, hx⟩ := readExpr_eq_ok_iff.mp h
  rcases scanText?_cases hts with ⟨rest, hmark, -⟩ | ⟨-, htok⟩
  · have hspace := hspaces '\ufeff' (hmark ▸ List.mem_cons_self)
    exact absurd hspace (by decide)
  · obtain rfl := tokens?_blanks (IsSpaces.isBlanks hspaces) htok
    cases hx

/-! ## 3. Which sends are recognised -/

/-- Without a bar the text sends what is between its spaces. -/
theorem exists_isSend (hc : IsChannel channel) (h : readExpr text = .ok x) (hbar : '|' ∉ text.toList) :
    ∃ payload, IsSend (send channel text) channel payload := by
  have hwraps := wraps_trim (exists_not_space h)
  refine ⟨.ofList (Text.trimEnd Text.isSpace (text.toList.dropWhile Text.isSpace)), hc, ?_,
    text.toList, marked_send channel text, ?_⟩
  · rw [String.toList_ofList]
    obtain ⟨s, t, -, -, e, -⟩ := hwraps
    intro hmem
    exact hbar (e ▸ List.mem_append_right _ (List.mem_append_left _ hmem))
  · rwa [String.toList_ofList]

/-- A bar in the text is one in what is sent. -/
theorem not_isSend_of_bar (hc : IsChannel channel) (hbar : '|' ∈ text.toList) {channel' payload : String} :
    ¬ IsSend (send channel text) channel' payload := by
  intro hs
  obtain ⟨rest, hmarked, s, t, hspaces, hspaces', e, -⟩ := hs.spelled
  have hsplit := (splitAction?_eq_some_iff (by decide) (by decide) isChannelName_nil).mpr
    ⟨hs.isChannel.named, hs.isChannel.word, hmarked⟩
  obtain ⟨-, -, rfl⟩ := eq_of_splitAction?_send hc (by decide) (by decide) isChannelName_nil hsplit
  have hspace : Text.isSpace '|' = false := by decide
  rw [e] at hbar
  rcases List.mem_append.mp hbar with hmem | hmem
  · rw [hspaces _ hmem] at hspace
    cases hspace
  · rcases List.mem_append.mp hmem with hmem | hmem
    · exact hs.barless hmem
    · rw [hspaces' _ hmem] at hspace
      cases hspace

theorem not_isReceive_send (hc : IsChannel channel) {channel' target : String} :
    ¬ IsReceive (send channel text) channel' target := by
  intro hr
  obtain ⟨rest, hmarked, -⟩ := hr.spelled
  have hsplit := (splitAction?_eq_some_iff (by decide) (by decide) isChannelName_nil).mpr
    ⟨hr.isChannel.named, hr.isChannel.word, hmarked⟩
  obtain ⟨hmark, -⟩ := eq_of_splitAction?_send hc (by decide) (by decide) isChannelName_nil hsplit
  exact absurd hmark (by decide)

/-- **The send of an expression is recognised** exactly if the expression has no bar. -/
theorem isOneSided_send_iff (hc : IsChannel channel) (h : readExpr text = .ok x) :
    isOneSided (send channel text) = true ↔ '|' ∉ text.toList := by
  rw [isOneSided_iff]
  constructor
  · rintro (⟨channel', payload, hs⟩ | ⟨channel', target, hr⟩) hbar
    · exact not_isSend_of_bar hc hbar hs
    · exact not_isReceive_send hc hr
  · intro hbar
    obtain ⟨payload, hs⟩ := exists_isSend hc h hbar
    exact Or.inl ⟨channel, payload, hs⟩

/-! ## 4. What a send with a bar is -/

/-- It is no action on a channel that holds values, whose name starts with a letter. -/
theorem read?_send (hc : IsChannel channel) (text : String) :
    ChannelAction.read? (send channel text) = none := by
  have hname : isVariableName channel.toList = false := by
    obtain ⟨name, e⟩ := hc.exists_cons
    rw [e]
    rfl
  have hsplit : ∀ mark, Text.isSpace mark = false → isWordChar mark = false →
      splitAction? mark isVariableName (send channel text).toList = none := by
    intro mark hs hw
    cases h : splitAction? mark isVariableName (send channel text).toList with
    | none => rfl
    | some r =>
      obtain ⟨name, rest⟩ := r
      obtain ⟨hvar, -⟩ := (splitAction?_eq_some_iff hs hw rfl).mp h
      obtain ⟨-, rfl, -⟩ := eq_of_splitAction?_send hc hs hw rfl h
      rw [hname] at hvar
      cases hvar
  have hreceive : Lasso.readReceive? isVariableName (send channel text) = none := by
    rw [Lasso.readReceive?, hsplit '?' (by decide) (by decide)]
    rfl
  have hsend : Lasso.readSend? isVariableName (· ≠ '\n') (send channel text) = none := by
    rw [Lasso.readSend?, hsplit '!' (by decide) (by decide)]
    rfl
  rw [ChannelAction.read?, hreceive, hsend]
  rfl

/-- An expression does not start with a sign of equality. -/
theorem head?_ne_equals (h : readExpr text = .ok x) : text.toList.head? ≠ some '=' := by
  intro hhead
  obtain ⟨cs, hcs⟩ := List.head?_eq_some_iff.mp hhead
  obtain ⟨ts, hts, hx⟩ := readExpr_eq_ok_iff.mp h
  rw [hcs] at hts
  rcases scanText?_cases hts with ⟨rest, hmark, -⟩ | ⟨-, htok⟩
  · cases hmark
  · rw [tokens?_cons] at htok
    rcases operator?_equals cs with hop | hop
    all_goals
      have hl : lexeme? ⟨false, true⟩ '=' cs = (operator? ('=' :: cs)).bind fun o =>
        some (.one (.op o) o.endsStatement (o.text.length - 1)) := rfl
      rw [hl, hop] at htok
      obtain ⟨us, -, rfl⟩ := Option.map_eq_some_iff.mp htok
      cases hx

/-- It is no assignment either, since no statement goes on with the mark behind a name. -/
theorem readAll_send (hc : IsChannel channel) (h : readExpr text = .ok x) :
    Assignment.readAll (send channel text) = .error .malformed := by
  obtain ⟨name, e⟩ := hc.exists_cons
  have hlist : (send channel text).toList = '_' :: (name ++ '!' :: text.toList) := by
    rw [toList_send, e, List.cons_append]
  have hatomic : Assignment.atomicBody? (send channel text).toList = none := by
    rw [hlist]
    rfl
  have hblank : (send channel text).toList.all Text.isBlank = false := by
    rw [hlist]
    rfl
  have hnext : (text.toList ++ "\n\x7d".toList).head? ≠ some '=' := by
    cases hcs : text.toList with
    | nil => decide
    | cons c cs =>
      have hhead := head?_ne_equals h
      rwa [hcs] at hhead
  have hword : ∀ c ∈ name, isWordChar c = true := fun c hmem =>
    hc.word c (e ▸ List.mem_cons_of_mem _ hmem)
  have hnone : scan? ((send channel text).toList ++ "\n\x7d".toList) >>= statements? = none := by
    refine Option.bind_eq_none_iff.mpr fun ts hts => ?_
    rw [hlist, scan?, List.cons_append, List.append_assoc, List.cons_append] at hts
    obtain ⟨us, rfl⟩ := exists_tokens?_send hword hnext (Option.ite_none_left_eq_some.mp hts).2
    exact statements?_not _ us
  unfold Assignment.readAll
  simp only [hatomic, Option.getD_none, hblank, hnone]
  rfl

/-- With a bar a send that is not combined with a receive is **no action of any family**. -/
theorem ofText_of_bar (hc : IsChannel channel) (h : readExpr text = .ok x) (hbar : '|' ∈ text.toList)
    (hsplit : split? (send channel text) = none) : Action.ofText (send channel text) = .idle := by
  have hone : ¬ isOneSided (send channel text) = true := fun hone =>
    (isOneSided_send_iff hc h).mp hone hbar
  unfold Action.ofText
  rw [if_neg hone, hsplit]
  simp only [read?_send hc text, readAll_send hc h]

theorem effect_of_bar (hc : IsChannel channel) (h : readExpr text = .ok x) (hbar : '|' ∈ text.toList)
    (hsplit : split? (send channel text) = none) (capacity : Int) (env : Env) :
    (Evaluators.standard capacity).effect env (send channel text) = .ok (some env) := by
  rw [Evaluators.effect_standard, ofText_of_bar hc h hbar hsplit]
  rfl

/-- With a bar a send is never blocked. -/
theorem effect_ne_blocked (hc : IsChannel channel) (h : readExpr text = .ok x)
    (hbar : '|' ∈ text.toList) (capacity : Int) (env : Env) :
    (Evaluators.standard capacity).effect env (send channel text) ≠ .ok none := by
  cases hsplit : split? (send channel text) with
  | none =>
    rw [effect_of_bar hc h hbar hsplit]
    nofun
  | some r =>
    have hone : isOneSided (send channel text) = false := by
      rw [Bool.eq_false_iff]
      exact fun hone => (isOneSided_send_iff hc h).mp hone hbar
    rw [Evaluators.effect_standard, ofText_of_split? hone hsplit, Action.updates]
    intro hnone
    cases heval : evalText env r.1 with
    | error c =>
      rw [heval] at hnone
      cases hnone
    | ok v =>
      rw [heval] at hnone
      cases hnone

/-! ## 5. Recognition -/

/-- **The send of an expression without a bar** is blocked on its own, in every environment, and matches
    every receive of its channel. **With a bar** it is not recognised: it matches nothing and is never
    blocked; unless a receive of its channel is read behind the bar, it happens alone without effect. -/
theorem send_recognised (hc : IsChannel channel) (h : readExpr text = .ok x) :
    (isOneSided (send channel text) = true ↔ '|' ∉ text.toList) ∧
    ('|' ∉ text.toList →
      (∀ capacity env, (Evaluators.standard capacity).effect env (send channel text) = .ok none) ∧
      ∀ receive target, IsReceive receive channel target →
        agree (send channel text) receive = true ∧ agree receive (send channel text) = true) ∧
    ('|' ∈ text.toList →
      (∀ other, agree (send channel text) other = false ∧ agree other (send channel text) = false) ∧
      ∀ capacity env, (Evaluators.standard capacity).effect env (send channel text) ≠ .ok none ∧
        (split? (send channel text) = none →
          (Evaluators.standard capacity).effect env (send channel text) = .ok (some env))) := by
  have hone := isOneSided_send_iff hc h
  refine ⟨hone, fun hbar => ⟨fun capacity env => effect_of_isOneSided (hone.mpr hbar) env, ?_⟩,
    fun hbar => ⟨?_, ?_⟩⟩
  · intro receive target hr
    obtain ⟨payload, hs⟩ := exists_isSend hc h hbar
    have hmeet : Meet (send channel text) receive payload target := ⟨channel, Or.inl ⟨hs, hr⟩⟩
    exact ⟨agree_iff.mpr ⟨_, _, hmeet⟩, agree_iff.mpr ⟨_, _, hmeet.symm⟩⟩
  · intro other
    have hagree : agree (send channel text) other = false := by
      rw [Bool.eq_false_iff]
      intro hagree
      obtain ⟨payload, target, hmeet⟩ := agree_iff.mp hagree
      exact hone.mp hmeet.oneSided.1 hbar
    exact ⟨hagree, agree_comm _ _ ▸ hagree⟩
  · exact fun capacity env => ⟨effect_ne_blocked hc h hbar capacity env,
      fun hsplit => effect_of_bar hc h hbar hsplit capacity env⟩

/-- A counter that is sent waits for the receive of its channel; the disjunction of two variables does
    not wait. -/
theorem send_recognised_counting :
    IsChannel "_c" ∧ readExpr "count + 1" = .ok (.binary .add (.name "count") (.int "1")) ∧
      readExpr "a || b" = .ok (.binary .lor (.name "a") (.name "b")) ∧
      (Evaluators.standard 0).effect Env.counting (send "_c" "count + 1") = .ok none ∧
      agree (send "_c" "count + 1") "_c?x" = true ∧ agree (send "_c" "a || b") "_c?x" = false := by
  have hc : IsChannel "_c" := ⟨rfl, List.all_eq_true.mp rfl⟩
  have hplain : readExpr "count + 1" = .ok (.binary .add (.name "count") (.int "1")) := by decide +kernel
  have hbar : readExpr "a || b" = .ok (.binary .lor (.name "a") (.name "b")) := by decide +kernel
  have hr : IsReceive "_c?x" "_c" "x" := readReceive?_eq_some_iff.mp (by decide +kernel)
  obtain ⟨-, hwaits, -⟩ := send_recognised hc hplain
  obtain ⟨-, -, hpasses⟩ := send_recognised hc hbar
  obtain ⟨hblocked, hmatches⟩ := hwaits (by decide)
  exact ⟨hc, hplain, hbar, hblocked 0 _, (hmatches _ _ hr).1, ((hpasses (by decide)).1 _).1⟩

/-- The send is an expression and has a receive of its channel, and yet it happens alone. -/
theorem send_passes_with_bar :
    readExpr "a || b" = .ok (.binary .lor (.name "a") (.name "b")) ∧
      isOneSided "_c!a || b" = false ∧ agree "_c!a || b" "_c?x" = false ∧
      (Evaluators.standard 0).family? "_c!a || b" = none ∧
      (Evaluators.standard 0).effect Env.counting "_c!a || b" = .ok (some Env.counting) := by
  refine ⟨?_, ?_, ?_, ?_, ?_⟩ <;> decide +kernel

end Handshake

end Lasso
