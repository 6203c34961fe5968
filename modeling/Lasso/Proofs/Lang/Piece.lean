import Lasso.Proofs.Lang.Lexeme
/-!
# Pieces of a text

A piece of a text is read as some tokens, up to a place from which the rest is read (`Reads`), unless a
comment at its end goes on to the end of the line (`Trails`).

* `reads_or_trails` -- there is no third case for a piece that is read before blanks;
* `tokens?_skip`, `eq_of_tokens?_append` -- **the blanks around a piece do not matter for its tokens**;
* `reads_or_opens` -- a piece whose tokens end in a semicolon has it either at its end, where a closing
  bracket goes before it, or further inside, where none does;
* `exists_tokens?_line` -- **the tokens of a line do not depend on what the next lines are**.
-/

namespace Lasso.Lang

open Lasso.Text

/-! ## 1. Blanks -/

/-- The semicolon that the end of a line stands for. -/
def lineEnd (ends : Bool) : List Token := if ends then [.semi true] else []

section Blank

variable {p : Place} {c : Char} {cs : List Char} {l : Lexeme}

theorem isStop_of_isBlank (hc : isBlank c = true) : isStop c = true := by
  rw [isStop, hc, Bool.or_true]

/-- No operator starts with a blank. -/
theorem operator?_blank (hc : isBlank c = true) (cs : List Char) : operator? (c :: cs) = none := by
  have hops : ∀ o ∈ Op.all, o.text.toList.head?.any (!isBlank ·) = true := by decide +kernel
  refine List.find?_eq_none.mpr fun o ho hprefix => ?_
  have hhead := hops o ho
  cases htext : o.text.toList with
  | nil =>
    rw [htext] at hhead
    cases hhead
  | cons a w =>
    rw [htext] at hprefix hhead
    rw [List.isPrefixOf, Bool.and_eq_true, beq_iff_eq] at hprefix
    obtain rfl := hprefix.1
    simp [hc] at hhead

theorem Start.of_blank (hc : isBlank c = true) (next : Option Char) :
    Start.of c next = .blank ∨ Start.of c next = .lineBreak ∨ Start.of c next = .operator := by
  have hstop := isStop_of_isBlank hc
  have hletter : isLetter c = false := not_of_isStop (by decide +kernel) hstop
  have hdigit : isDecimal c = false := not_of_isStop (by decide +kernel) hstop
  have hne : ∀ d, d ∉ stops → c ≠ d := fun d => ne_of_isStop hstop
  simp only [Start.of, hletter, hdigit, hne '/' (by decide), hne '.' (by decide), hne '"' (by decide),
    hne '\'' (by decide), hne '\x60' (by decide), hne ';' (by decide)]
  by_cases hblank : c = ' ' ∨ c = '\t' ∨ c = '\r'
  · simp [hblank]
  · by_cases hbreak : c = '\n'
    · simp [hbreak]
    · simp [hblank, hbreak]

/-- A blank is read as a line break or as nothing. -/
theorem lexeme?_blank (hc : isBlank c = true) (h : lexeme? p c cs = some l) :
    l = ⟨lineEnd p.ends, ⟨false, true⟩, 0⟩ ∨ l = ⟨[], ⟨p.ends, false⟩, 0⟩ := by
  unfold lexeme? at h
  rcases Start.of_blank hc cs.head? with hs | hs | hs
  · rw [hs] at h
    cases h
    exact Or.inr rfl
  · rw [hs] at h
    cases h
    exact Or.inl rfl
  · rw [hs] at h
    simp only [operator?_blank hc] at h
    cases h

end Blank

/-! ## 2. Pieces of a text -/

section Pieces

variable {p q : Place} {cs bl k : List Char} {ts us : List Token}

theorem tokens?_nil (p : Place) : tokens? p [] = some (lineEnd p.ends) := by
  rw [tokens?, lineEnd]

theorem tokens?_cons (p : Place) (c : Char) (cs : List Char) :
    tokens? p (c :: cs) = (lexeme? p c cs).bind fun l =>
      (tokens? l.place (cs.drop l.extra)).map (l.tokens ++ ·) := by
  rw [tokens?, Option.bind_eq_bind]
  congr 1
  funext l
  rw [Option.map_eq_bind]
  rfl

theorem tokens?_of_lexeme {c : Char} {l : Lexeme} (h : lexeme? p c cs = some l) :
    tokens? p (c :: cs) = (tokens? l.place (cs.drop l.extra)).map (l.tokens ++ ·) := by
  rw [tokens?_cons, h, Option.bind_some]

/-- The piece is read as `ts`, up to the place `q`, before every cut. -/
def Reads (p : Place) (cs : List Char) (ts : List Token) (q : Place) : Prop :=
  ∀ k, IsCut k → tokens? p (cs ++ k) = (tokens? q k).map (ts ++ ·)

/-- The piece is read as `ts` up to a comment, which goes on to the end of the line. -/
def Trails (p : Place) (cs : List Char) (ts : List Token) (ends : Bool) : Prop :=
  ∀ k, IsCut k → ∀ us, tokens? p (cs ++ k) = some us →
    ∃ rest, us = ts ++ rest ∧ tokens? ⟨ends, false⟩ (k.dropWhile (· ≠ '\n')) = some rest

theorem reads_nil (p : Place) : Reads p [] [] p := by
  intro k _
  simp

theorem Reads.cons {c : Char} {l : Lexeme} (hl : Within p c cs l)
    (h : Reads l.place (cs.drop l.extra) ts q) : Reads p (c :: cs) (l.tokens ++ ts) q := by
  intro k hk
  rw [List.cons_append, tokens?_of_lexeme (hl.eq k hk), List.drop_append_of_le_length hl.le, h k hk,
    Option.map_map]
  congr 1
  funext us
  simp

theorem Trails.cons {c : Char} {l : Lexeme} {ends : Bool} (hl : Within p c cs l)
    (h : Trails l.place (cs.drop l.extra) ts ends) : Trails p (c :: cs) (l.tokens ++ ts) ends := by
  intro k hk us hus
  rw [List.cons_append, tokens?_of_lexeme (hl.eq k hk), List.drop_append_of_le_length hl.le] at hus
  obtain ⟨vs, hvs, rfl⟩ := Option.map_eq_some_iff.mp hus
  obtain ⟨rest, rfl, hrest⟩ := h k hk vs hvs
  exact ⟨rest, by simp, hrest⟩

/-- A comment that does not end in the piece. -/
theorem trails_comment {c : Char} (hs : Start.of c cs.head? = .lineComment) (hbreak : '\n' ∉ cs) :
    Trails p (c :: cs) [] p.ends := by
  intro k hk us hus
  rw [List.cons_append, tokens?_cons] at hus
  obtain ⟨l, hl, hus⟩ := Option.bind_eq_some_iff.mp hus
  rw [lexeme?, Start.of_append hk, hs] at hl
  obtain ⟨rest, rfl⟩ := List.head?_eq_some_iff.mp (Start.eq_of_lineComment hs).2
  obtain ⟨-, hl⟩ := Option.ite_none_left_eq_some.mp hl
  cases hl
  have hdrop : ('/' :: rest ++ k).drop (1 + ((rest ++ k).takeWhile fun c => decide (c ≠ '\n')).length) =
      k.dropWhile fun c => decide (c ≠ '\n') := by
    have hrest : ∀ c ∈ rest, decide (c ≠ '\n') = true := fun c hc =>
      decide_eq_true fun e => hbreak (List.mem_cons_of_mem _ (e ▸ hc))
    have hcut := List.takeWhile_append_dropWhile (p := fun c => decide (c ≠ '\n')) (l := rest ++ k)
    rw [List.dropWhile_append_of_pos hrest] at hcut
    rw [Nat.add_comm, List.cons_append, List.drop_succ_cons]
    nth_rewrite 2 [← hcut]
    exact List.drop_left
  obtain ⟨vs, hvs, rfl⟩ := Option.map_eq_some_iff.mp hus
  exact ⟨vs, rfl, hdrop ▸ hvs⟩

/-- No comment starts in the text, not even in a string. -/
def HasNoComment (cs : List Char) : Prop := ¬ ['/', '/'] <:+: cs ∧ ¬ ['/', '*'] <:+: cs

theorem HasNoComment.of_suffix {cs' : List Char} (h : HasNoComment cs) (hs : cs' <:+ cs) :
    HasNoComment cs' :=
  ⟨fun hi => h.1 (hi.trans hs.isInfix), fun hi => h.2 (hi.trans hs.isInfix)⟩

theorem HasNoComment.start_ne {c : Char} (h : HasNoComment (c :: cs)) :
    Start.of c cs.head? ≠ .lineComment := by
  intro hs
  obtain ⟨rfl, hnext⟩ := Start.eq_of_lineComment hs
  obtain ⟨rest, rfl⟩ := List.head?_eq_some_iff.mp hnext
  exact h.1 ⟨[], rest, rfl⟩

/-- A piece without comments that does not end in a blank ends in a token, and not in a line break. -/
def EndsInToken (cs : List Char) (ts : List Token) : Prop :=
  HasNoComment cs → cs ≠ [] → (∀ c ∈ cs.getLast?, isBlank c = false) →
    ∃ t ∈ ts.getLast?, t ≠ .semi true

theorem EndsInToken.cons {cs' : List Char} {ts : List Token} (h : EndsInToken cs' ts)
    (hs : cs' <:+ cs) (hne : cs' ≠ []) (us : List Token) : EndsInToken cs (us ++ ts) := by
  intro hplain _ hlast
  obtain ⟨pre, rfl⟩ := hs
  rw [List.getLast?_append_of_ne_nil _ hne] at hlast
  obtain ⟨t, ht, hsemi⟩ := h (hplain.of_suffix (List.suffix_append _ _)) hne hlast
  refine ⟨t, ?_, hsemi⟩
  rw [List.getLast?_append, Option.mem_def.mp ht]
  rfl

/-- The last lexeme of a piece without comments is a token. -/
theorem endsInToken_last {c : Char} {l : Lexeme} (hw : Within p c cs l)
    (hall : cs.drop l.extra = []) : EndsInToken (c :: cs) l.tokens := by
  intro hplain _ hlast
  have hl : lexeme? p c cs = some l := by simpa using hw.eq [] nofun
  cases hs : (Start.of c cs.head?).isToken with
  | true =>
    obtain ⟨t, ht, hne, -⟩ := exists_token hs hl
    rw [ht]
    exact ⟨t, rfl, hne⟩
  | false =>
    rcases Start.blank_or_comment hs with hblank | ⟨rfl, hnext⟩
    · -- the blank would be the last character
      have hextra : l.extra = 0 := by
        rcases lexeme?_blank hblank hl with rfl | rfl <;> rfl
      rw [hextra, List.drop_zero] at hall
      subst hall
      rw [hlast c rfl] at hblank
      cases hblank
    · rcases hnext with hnext | hnext
      · obtain ⟨rest, rfl⟩ := List.head?_eq_some_iff.mp hnext
        exact absurd ⟨[], rest, rfl⟩ hplain.1
      · obtain ⟨rest, rfl⟩ := List.head?_eq_some_iff.mp hnext
        exact absurd ⟨[], rest, rfl⟩ hplain.2

/-- **What is read of a piece before blanks is read of it before every cut**, if it does not end in a
    comment that goes on. -/
theorem reads_or_trails (hbl : IsBlanks bl) (h : (tokens? p (cs ++ bl)).isSome = true) :
    (∃ ts q, Reads p cs ts q ∧ EndsInToken cs ts) ∨
      ∃ ts ends, Trails p cs ts ends ∧ ¬ HasNoComment cs := by
  induction hn : cs.length using Nat.strong_induction_on generalizing p cs with
  | _ n ih =>
    cases cs with
    | nil =>
      exact Or.inl ⟨[], p, reads_nil p, fun _ hne => absurd rfl hne⟩
    | cons c cs =>
      rw [List.cons_append, tokens?_cons] at h
      obtain ⟨us, hus⟩ := Option.isSome_iff_exists.mp h
      obtain ⟨l, hl, hus⟩ := Option.bind_eq_some_iff.mp hus
      rcases within_or_comment hbl.isLoose hl with hw | ⟨hs, hbreak⟩
      · rw [List.drop_append_of_le_length hw.le] at hus
        have hlen : (cs.drop l.extra).length < n := by
          rw [← hn, List.length_drop, List.length_cons]
          omega
        have hrest : (tokens? l.place (cs.drop l.extra ++ bl)).isSome = true := by
          obtain ⟨vs, hvs, -⟩ := Option.map_eq_some_iff.mp hus
          rw [hvs]
          rfl
        have hsuffix : cs.drop l.extra <:+ c :: cs :=
          (List.drop_suffix _ _).trans (List.suffix_cons _ _)
        by_cases hall : cs.drop l.extra = []
        · refine Or.inl ⟨l.tokens ++ [], l.place, Reads.cons hw ?_, ?_⟩
          · rw [hall]
            exact reads_nil _
          · rw [List.append_nil]
            exact endsInToken_last hw hall
        · rcases ih _ hlen hrest rfl with ⟨ts, q, hr, htok⟩ | ⟨ts, ends, ht, hcomment⟩
          · exact Or.inl ⟨_, q, hr.cons hw, htok.cons hsuffix hall l.tokens⟩
          · exact Or.inr ⟨_, ends, ht.cons hw, fun hplain => hcomment (hplain.of_suffix hsuffix)⟩
      · exact Or.inr ⟨[], p.ends, trails_comment hs hbreak, fun hplain => hplain.start_ne hs⟩

end Pieces

/-! ## 3. Blanks around a piece -/

section Blanks

variable {p : Place} {c : Char} {cs bl : List Char} {l : Lexeme} {ts us : List Token}

/-- Behind a piece, blanks only end the line. -/
theorem tokens?_blanks (hbl : IsBlanks bl) (h : tokens? p bl = some us) : us = lineEnd p.ends := by
  induction bl generalizing p us with
  | nil =>
    rw [tokens?_nil] at h
    exact (Option.some.inj h).symm
  | cons c bl ih =>
    rw [tokens?_cons] at h
    obtain ⟨l, hl, h⟩ := Option.bind_eq_some_iff.mp h
    obtain ⟨vs, hvs, rfl⟩ := Option.map_eq_some_iff.mp h
    have hbl' : IsBlanks bl := fun d hd => hbl d (List.mem_cons_of_mem _ hd)
    rcases lexeme?_blank (hbl c List.mem_cons_self) hl with rfl | rfl
    · obtain rfl := ih hbl' hvs
      simp [lineEnd]
    · obtain rfl := ih hbl' hvs
      rfl

/-- Whether a place is the first of its line matters for comments only. -/
theorem lexeme?_fresh (hs : Start.of c cs.head? ≠ .lineComment) (ends fresh fresh' : Bool) :
    lexeme? ⟨ends, fresh⟩ c cs = lexeme? ⟨ends, fresh'⟩ c cs := by
  unfold lexeme?
  cases hstart : Start.of c cs.head? with
  | lineComment => exact absurd hstart hs
  | _ => rfl

/-- A lexeme that may start a line may stand elsewhere as well. -/
theorem lexeme?_of_fresh {ends fresh : Bool} (h : lexeme? ⟨ends, fresh⟩ c cs = some l) :
    lexeme? ⟨ends, false⟩ c cs = some l := by
  by_cases hs : Start.of c cs.head? = .lineComment
  · unfold lexeme? at h ⊢
    rw [hs] at h ⊢
    obtain ⟨-, h⟩ := Option.ite_none_left_eq_some.mp h
    exact Option.ite_none_left_eq_some.mpr ⟨Bool.false_ne_true, h⟩
  · rwa [lexeme?_fresh hs ends fresh false] at h

theorem tokens?_of_fresh {ends fresh : Bool} (h : tokens? ⟨ends, fresh⟩ cs = some us) :
    tokens? ⟨ends, false⟩ cs = some us := by
  cases cs with
  | nil => rwa [tokens?_nil] at h ⊢
  | cons c cs =>
    rw [tokens?_cons] at h
    obtain ⟨l, hl, h⟩ := Option.bind_eq_some_iff.mp h
    rw [tokens?_of_lexeme (lexeme?_of_fresh hl)]
    exact h

theorem tokens?_fresh (hplain : HasNoComment cs) (ends fresh fresh' : Bool) :
    tokens? ⟨ends, fresh⟩ cs = tokens? ⟨ends, fresh'⟩ cs := by
  cases cs with
  | nil => rw [tokens?_nil, tokens?_nil]
  | cons c cs => rw [tokens?_cons, tokens?_cons, lexeme?_fresh hplain.start_ne ends fresh fresh']

/-- **Blanks before a piece do not matter for its tokens.** -/
theorem tokens?_skip (hbl : IsBlanks bl) {fresh : Bool}
    (h : tokens? ⟨false, fresh⟩ (bl ++ cs) = some us) : tokens? ⟨false, false⟩ cs = some us := by
  induction bl generalizing fresh with
  | nil => exact tokens?_of_fresh h
  | cons c bl ih =>
    rw [List.cons_append, tokens?_cons] at h
    obtain ⟨l, hl, h⟩ := Option.bind_eq_some_iff.mp h
    obtain ⟨vs, hvs, rfl⟩ := Option.map_eq_some_iff.mp h
    have hbl' : IsBlanks bl := fun d hd => hbl d (List.mem_cons_of_mem _ hd)
    rcases lexeme?_blank (hbl c List.mem_cons_self) hl with rfl | rfl
    · exact ih hbl' hvs
    · exact ih hbl' hvs

/-- Blanks before a piece are read as nothing or as the end of a line. -/
theorem tokens?_gap (hbl : IsBlanks bl) (h : tokens? p (bl ++ cs) = some us) :
    ∃ vs ws q, us = vs ++ ws ∧ (vs = [] ∨ p.ends = true ∧ vs = [.semi true]) ∧
      tokens? q cs = some ws := by
  induction bl generalizing p us with
  | nil => exact ⟨[], us, p, rfl, Or.inl rfl, h⟩
  | cons c bl ih =>
    rw [List.cons_append, tokens?_cons] at h
    obtain ⟨l, hl, h⟩ := Option.bind_eq_some_iff.mp h
    obtain ⟨us', hus', rfl⟩ := Option.map_eq_some_iff.mp h
    have hbl' : IsBlanks bl := fun d hd => hbl d (List.mem_cons_of_mem _ hd)
    rcases lexeme?_blank (hbl c List.mem_cons_self) hl with rfl | rfl
    · -- behind a line break no further one counts
      obtain ⟨vs, ws, q, rfl, rfl | ⟨hends, -⟩, hws⟩ := ih hbl' hus'
      · refine ⟨lineEnd p.ends, ws, q, rfl, ?_, hws⟩
        cases hp : p.ends with
        | false => exact Or.inl rfl
        | true => exact Or.inr ⟨rfl, rfl⟩
      · cases hends
    · exact ih (p := ⟨p.ends, false⟩) hbl' hus'

/-- **Blanks behind a piece do not matter for its tokens**, if it can be read without them. -/
theorem eq_of_tokens?_append (hbl : IsBlanks bl) (h : tokens? p (cs ++ bl) = some us)
    (h' : tokens? p cs = some ts) : ts = us := by
  rw [← List.append_nil cs] at h'
  rcases reads_or_trails hbl (Option.isSome_of_eq_some h) with ⟨vs, q, hr, -⟩ | ⟨vs, ends, ht, -⟩
  · rw [hr bl hbl.isCut] at h
    rw [hr [] nofun, tokens?_nil] at h'
    obtain ⟨ws, hws, rfl⟩ := Option.map_eq_some_iff.mp h
    obtain rfl := tokens?_blanks hbl hws
    exact (Option.some.inj h').symm
  · obtain ⟨rest, rfl, hrest⟩ := ht bl hbl.isCut us h
    obtain ⟨rest', rfl, hrest'⟩ := ht [] nofun ts h'
    have hdrop : IsBlanks (bl.dropWhile (· ≠ '\n')) := fun c hc =>
      hbl c ((List.dropWhile_sublist _).subset hc)
    rw [List.dropWhile_nil, tokens?_nil] at hrest'
    rw [tokens?_blanks hdrop hrest, ← Option.some.inj hrest']

/-- The end of a comment is the end of a line. -/
theorem exists_semi {k : List Char} (h : tokens? ⟨true, false⟩ (k.dropWhile (· ≠ '\n')) = some us) :
    ∃ rest, us = .semi true :: rest := by
  cases hk : k.dropWhile (· ≠ '\n') with
  | nil =>
    rw [hk, tokens?_nil] at h
    exact ⟨[], (Option.some.inj h).symm⟩
  | cons c k' =>
    have hc : c ∈ (k.dropWhile (· ≠ '\n')).head? := by
      rw [hk]
      rfl
    obtain rfl : c = '\n' := by simpa using head?_dropWhile hc
    rw [hk, tokens?_of_lexeme (l := ⟨[.semi true], ⟨false, true⟩, 0⟩) rfl] at h
    obtain ⟨rest, -, rfl⟩ := Option.map_eq_some_iff.mp h
    exact ⟨rest, rfl⟩

/-- Before whatever the piece stands, a semicolon is behind its tokens `us`. -/
def Opens (cs : List Char) (us : List Token) : Prop :=
  ∀ k, IsCut k → ∀ ts, tokens? ⟨false, false⟩ (cs ++ k) = some ts →
    ∃ rest, ts = us ++ .semi true :: rest

/-- A piece whose tokens end in a semicolon has its end of line either at its end, where a bracket goes
    before it, or inside, where none does. Inside it must be a comment or a blank that ends the line. -/
theorem reads_or_opens (hbl : IsBlanks bl)
    (h : tokens? ⟨false, false⟩ (cs ++ bl) = some (us ++ [.semi true])) :
    (∃ q : Place, q.ends = true ∧ Reads ⟨false, false⟩ cs us q) ∨
      Opens cs us ∧ ¬ (HasNoComment cs ∧ cs ≠ [] ∧ ∀ c ∈ cs.getLast?, isBlank c = false) := by
  rcases reads_or_trails hbl (Option.isSome_of_eq_some h) with
    ⟨vs, q, hr, htok⟩ | ⟨vs, ends, ht, hcomment⟩
  · rw [hr bl hbl.isCut] at h
    obtain ⟨ws, hws, heq⟩ := Option.map_eq_some_iff.mp h
    obtain rfl := tokens?_blanks hbl hws
    cases hq : q.ends with
    | true =>
      rw [hq] at heq
      obtain rfl := List.append_cancel_right heq
      exact Or.inl ⟨q, hq, hr⟩
    | false =>
      rw [hq, lineEnd, if_neg Bool.false_ne_true, List.append_nil] at heq
      refine Or.inr ⟨fun k hk ts hts => ?_, fun ⟨hplain, hne, hlast⟩ => ?_⟩
      · rw [hr k hk] at hts
        obtain ⟨rest, -, rfl⟩ := Option.map_eq_some_iff.mp hts
        exact ⟨rest, by rw [heq]; simp⟩
      · obtain ⟨t, ht, hsemi⟩ := htok hplain hne hlast
        rw [heq, List.getLast?_concat] at ht
        exact hsemi (Option.some.inj ht).symm
  · obtain ⟨rest, heq, hrest⟩ := ht bl hbl.isCut _ h
    have hdrop : IsBlanks (bl.dropWhile (· ≠ '\n')) := fun c hc =>
      hbl c ((List.dropWhile_sublist _).subset hc)
    obtain rfl := tokens?_blanks hdrop hrest
    refine Or.inr ⟨fun k hk ts hts => ?_, fun ⟨hplain, _⟩ => hcomment hplain⟩
    obtain ⟨rest, rfl, hrest⟩ := ht k hk _ hts
    cases ends with
    | true =>
      obtain rfl := List.append_cancel_right heq
      obtain ⟨rest, rfl⟩ := exists_semi hrest
      exact ⟨rest, rfl⟩
    | false =>
      rw [lineEnd, if_neg Bool.false_ne_true, List.append_nil] at heq
      exact ⟨rest, by rw [← heq]; simp⟩

end Blanks

/-! ## 4. The last token -/

section Last

variable {p : Place} {c : Char} {cs : List Char} {l : Lexeme} {us : List Token}

/-- The last token behind a place, if there is one, cannot end a statement, and neither can the place if
    there is none. -/
def Ended (p : Place) (us : List Token) : Prop :=
  (us = [] → p.ends = false) ∧ ∀ t ∈ us.getLast?, t.ends = false

theorem ended_lineEnd (p : Place) : Ended p (lineEnd p.ends) := by
  cases hp : p.ends with
  | false => exact ⟨fun _ => hp, nofun⟩
  | true =>
    refine ⟨nofun, fun t ht => ?_⟩
    cases ht
    rfl

theorem Ended.behind (hl : lexeme? p c cs = some l) (h : Ended l.place us) : Ended p (l.tokens ++ us) := by
  obtain ⟨hnil, hlast⟩ := h
  by_cases hv : us = []
  · -- nothing comes behind the lexeme, so its place is not one that ends a statement
    subst hv
    rw [List.append_nil]
    rcases ends_lexeme? hl with ⟨ht, he⟩ | ⟨t, ht, hfits⟩
    · rw [ht]
      exact ⟨fun _ => he.symm.trans (hnil rfl), nofun⟩
    · rw [ht]
      refine ⟨nofun, fun u hu => ?_⟩
      cases hu
      exact hfits.ends.trans (hnil rfl)
  · refine ⟨fun h => absurd (List.append_eq_nil_iff.mp h).2 hv, fun t ht => hlast t ?_⟩
    rwa [List.getLast?_append_of_ne_nil _ hv] at ht

/-- **The last token of a text cannot end a statement**, since a semicolon is read behind one that can. -/
theorem ends_tokens? (h : tokens? p cs = some us) : Ended p us := by
  fun_induction tokens? p cs generalizing us with
  | case1 p =>
    cases h
    exact ended_lineEnd p
  | case2 p c rest ih =>
    obtain ⟨l, hl, h⟩ := Option.bind_eq_some_iff.mp h
    obtain ⟨vs, hvs, h⟩ := Option.bind_eq_some_iff.mp h
    cases h
    exact (ih l hvs).behind hl

end Last

/-! ## 5. Words and brackets -/

section Words

variable {p : Place} {c : Char} {more cs : List Char}

theorem Start.of_isLetter (hc : isLetter c = true) (next : Option Char) : Start.of c next = .word := by
  have hne : ∀ d, isLetter d = false → c ≠ d := by
    rintro d hd rfl
    rw [hc] at hd
    cases hd
  simp only [Start.of, hne ' ' (by decide), hne '\t' (by decide), hne '\r' (by decide),
    hne '\n' (by decide), hne '/' (by decide), hc, false_or, false_and, if_false, if_true]

/-- A name or a key word is read as a whole. -/
theorem tokens?_word (hc : isLetter c = true) (hmore : ∀ d ∈ more, isNameChar d = true)
    (hcs : ∀ d ∈ cs.head?, isNameChar d = false) :
    tokens? p (c :: (more ++ cs)) =
      (tokens? ⟨(wordToken (.ofList (c :: more))).2, false⟩ cs).map
        ((wordToken (.ofList (c :: more))).1 :: ·) := by
  have hrun : (more ++ cs).takeWhile isNameChar = more := takeWhile_append_stop hmore hcs
  have hl : lexeme? p c (more ++ cs) = some (.one (wordToken (.ofList (c :: more))).1
      (wordToken (.ofList (c :: more))).2 more.length) := by
    unfold lexeme?
    rw [Start.of_isLetter hc]
    simp only [hrun]
  rw [tokens?_of_lexeme hl, Lexeme.one, List.drop_left]
  rfl

/-- A closing bracket is read only where one stands. -/
theorem mem_of_rbrace {ts : List Token} (h : tokens? p cs = some ts) (ht : .op .rbrace ∈ ts) : '}' ∈ cs := by
  fun_induction tokens? p cs generalizing ts with
  | case1 p =>
    cases h
    split at ht
    · cases List.mem_singleton.mp ht
    · cases ht
  | case2 p c rest ih =>
    obtain ⟨l, hl, h⟩ := Option.bind_eq_some_iff.mp h
    obtain ⟨vs, hvs, h⟩ := Option.bind_eq_some_iff.mp h
    cases h
    rcases List.mem_append.mp ht with ht | ht
    · rcases ends_lexeme? hl with ⟨hnone, -⟩ | ⟨t, hone, hfits⟩
      · rw [hnone] at ht
        cases ht
      · rw [hone] at ht
        have hprefix := List.find?_some (hfits.op _ (List.mem_singleton.mp ht).symm)
        obtain ⟨k, hk⟩ := List.isPrefixOf_iff_prefix.mp hprefix
        have hc : '}' = c := (List.cons.inj hk).1
        rw [hc]
        exact List.mem_cons_self
    · exact List.mem_cons_of_mem _ (List.mem_of_mem_drop (ih l hvs ht))

end Words

/-! ## 6. Lines -/

section Line

variable {p : Place} {c : Char} {cs k₀ : List Char} {l : Lexeme} {us : List Token}

theorem isCut_line (k : List Char) : IsCut ('\n' :: k) := by
  intro c hc
  cases hc
  decide

/-- A lexeme before the end of a line lies in the line, whatever the next line is. -/
theorem lexeme?_line (hk₀ : IsLoose ('\n' :: k₀)) (h : lexeme? p c (cs ++ '\n' :: k₀) = some l) :
    l.extra ≤ cs.length ∧ ∀ k, lexeme? p c (cs ++ '\n' :: k) = some l := by
  rcases within_or_comment hk₀ h with hw | ⟨hs, hbreak⟩
  · exact ⟨hw.le, fun k => hw.eq _ (isCut_line k)⟩
  · -- a comment goes on to the end of the line
    obtain ⟨rest, rfl⟩ := List.head?_eq_some_iff.mp (Start.eq_of_lineComment hs).2
    have hrest : ∀ c ∈ rest, decide (c ≠ '\n') = true := fun c hc =>
      decide_eq_true fun e => hbreak (List.mem_cons_of_mem _ (e ▸ hc))
    have hrun : ∀ k, (rest ++ '\n' :: k).takeWhile (fun c => decide (c ≠ '\n')) = rest := fun k =>
      takeWhile_append_stop hrest (by simp)
    have hline : ∀ k, lexeme? p c ('/' :: rest ++ '\n' :: k) =
        lineComment? p (rest ++ '\n' :: k) := fun k => by
      rw [lexeme?, Start.of_append (isCut_line k), hs]
      rfl
    have hsame : ∀ k, lineComment? p (rest ++ '\n' :: k) = lineComment? p (rest ++ '\n' :: k₀) :=
      fun k => by simp only [lineComment?, hrun]
    rw [hline] at h
    refine ⟨?_, fun k => by rw [hline, hsame, h]⟩
    simp only [lineComment?, hrun] at h
    obtain ⟨-, h⟩ := Option.ite_none_left_eq_some.mp h
    cases h
    simp only [List.length_cons]
    omega

/-- **The tokens of a line do not depend on what the next lines are**, and the last of them cannot end a
    statement, since a semicolon is read at the end of the line behind one that can. -/
theorem exists_tokens?_line (hk₀ : IsLoose ('\n' :: k₀)) (h : tokens? p (cs ++ '\n' :: k₀) = some us) :
    ∃ ts, Ended p ts ∧ ∀ k, tokens? p (cs ++ '\n' :: k) = (tokens? ⟨false, true⟩ k).map (ts ++ ·) := by
  induction hn : cs.length using Nat.strong_induction_on generalizing p cs us with
  | _ n ih =>
    cases cs with
    | nil =>
      refine ⟨lineEnd p.ends, ended_lineEnd p, fun k => ?_⟩
      rw [List.nil_append, tokens?_of_lexeme (l := ⟨lineEnd p.ends, ⟨false, true⟩, 0⟩) rfl, List.drop_zero]
    | cons c cs =>
      rw [List.cons_append, tokens?_cons] at h
      obtain ⟨l, hl, h⟩ := Option.bind_eq_some_iff.mp h
      obtain ⟨hle, hline⟩ := lexeme?_line hk₀ hl
      obtain ⟨vs, hvs, -⟩ := Option.map_eq_some_iff.mp h
      rw [List.drop_append_of_le_length hle] at hvs
      have hlen : (cs.drop l.extra).length < n := by
        rw [← hn, List.length_drop, List.length_cons]
        omega
      obtain ⟨ts, hended, hts⟩ := ih _ hlen hvs rfl
      refine ⟨l.tokens ++ ts, hended.behind hl, fun k => ?_⟩
      rw [List.cons_append, tokens?_of_lexeme (hline k), List.drop_append_of_le_length hle, hts k,
        Option.map_map]
      congr 1
      funext ws
      simp

end Line

end Lasso.Lang
