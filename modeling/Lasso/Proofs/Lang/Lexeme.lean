import Mathlib.Tactic.SplitIfs
import Lasso.Lang.Scan
import Lasso.Proofs.Lang.Phrase
import Lasso.Proofs.Text
/-!
# What a lexeme depends on

A token is read from the characters that it is made of and the one behind them, and a blank or a closing
bracket behind it is never part of it. So what is read at the start of a piece of text is the same whatever
stands behind the piece, as long as a cut is there: nothing, a blank or a closing bracket.

* `number?_append`, `operator?_append` -- numbers, names and operators end at a cut;
* `Encloses` -- strings and block comments end where they say themselves;
* `within_or_comment` -- **a lexeme lies within the piece before what closes nothing** (`IsLoose`); only a
  comment up to the end of the line goes on;
* `ends_lexeme?` -- the place behind a lexeme tells whether its token can end a statement.
-/

namespace Lasso.Lang

open Lasso.Text

/-! ## 1. Characters that end a token -/

/-- A closing bracket or a blank. -/
def isStop (c : Char) : Bool := c = ')' || isBlank c

/-- A text that is empty or starts with a stop: what may follow a piece that is read on its own. -/
def IsCut (k : List Char) : Prop := ∀ c ∈ k.head?, isStop c = true

/-- The stops, one by one. -/
def stops : List Char :=
  ')' :: blankRanges.flatMap fun (lo, hi) => (List.range' lo (hi + 1 - lo)).map Char.ofNat

theorem mem_stops {c : Char} (h : isStop c = true) : c ∈ stops := by
  simp only [isStop, Bool.or_eq_true, decide_eq_true_eq] at h
  rcases h with rfl | h
  · exact List.mem_cons_self
  · obtain ⟨⟨lo, hi⟩, hr, hlo, hhi⟩ := inRanges_iff.mp h
    refine List.mem_cons_of_mem _ (List.mem_flatMap.mpr ⟨_, hr, List.mem_map.mpr ⟨c.toNat, ?_, ?_⟩⟩)
    · simp only [List.mem_range'_1]
      omega
    · exact Char.ofNat_toNat c

/-- A stop is in no class without stops. -/
theorem not_of_isStop {p : Char → Bool} (hp : stops.any p = false) {c : Char} (h : isStop c = true) :
    p c = false :=
  Bool.eq_false_iff.mpr (List.any_eq_false.mp hp c (mem_stops h))

theorem ne_of_isStop {c x : Char} (h : isStop c = true) (hx : x ∉ stops) : c ≠ x :=
  fun e => hx (e ▸ mem_stops h)

theorem IsCut.head_ne {c : Char} {k : List Char} (hk : IsCut k) (hc : c ∉ stops) :
    k.head? ≠ some c := fun h => ne_of_isStop (hk c h) hc rfl

/-- A run of a class goes no further than a cut. -/
theorem IsCut.takeWhile_append {p : Char → Bool} {k : List Char} (hk : IsCut k)
    (hp : stops.any p = false) (cs : List Char) :
    (cs ++ k).takeWhile p = cs.takeWhile p := by
  induction cs with
  | nil =>
    cases k with
    | nil => rfl
    | cons c k => simp [not_of_isStop hp (hk c rfl)]
  | cons c cs ih => simp only [List.cons_append, List.takeWhile_cons, ih]

/-- The next character of a piece before a cut, if it is no stop. -/
theorem IsCut.head?_append {c : Char} {k : List Char} (hk : IsCut k) (hc : c ∉ stops)
    (cs : List Char) : (cs ++ k).head? = some c ↔ cs.head? = some c := by
  cases cs with
  | nil => exact iff_of_false (hk.head_ne hc) nofun
  | cons d cs => exact Iff.rfl

/-! ## 2. Numbers -/

section Numbers

variable {cs k : List Char} {radix : Radix}

theorem digitRun_append (hk : IsCut k) (hex : Bool) (cs : List Char) :
    digitRun hex (cs ++ k) = digitRun hex cs := by
  refine hk.takeWhile_append ?_ cs
  cases hex <;> decide +kernel

theorem length_digitRun_le (hex : Bool) (cs : List Char) : (digitRun hex cs).length ≤ cs.length :=
  (List.takeWhile_sublist _).length_le

theorem ofStart_append (hk : IsCut k) (hne : cs ≠ []) :
    Radix.ofStart (cs ++ k) = Radix.ofStart cs := by
  match cs, hne with
  | c :: d :: cs, _ =>
    by_cases hc : c = '0'
    · subst hc
      rfl
    · simp [Radix.ofStart, hc]
  | [c], _ =>
    by_cases hc : c = '0'
    · subst hc
      cases k with
      | nil => rfl
      | cons d k =>
        have hd : ∀ x, x ∉ stops → d ≠ x := fun x => ne_of_isStop (hk d rfl)
        simp [Radix.ofStart, hd _ (by decide : 'x' ∉ stops), hd _ (by decide : 'X' ∉ stops),
          hd _ (by decide : 'o' ∉ stops), hd _ (by decide : 'O' ∉ stops),
          hd _ (by decide : 'b' ∉ stops), hd _ (by decide : 'B' ∉ stops)]
    · cases k with
      | nil => rfl
      | cons d k => simp [Radix.ofStart, hc]

theorem ofStart_le (cs : List Char) : (Radix.ofStart cs).2 ≤ cs.length := by
  unfold Radix.ofStart
  split
  · split_ifs <;> simp
  · simp
  · simp

theorem mantissa?_of_point {rest : List Char}
    (h : cs.drop (digitRun (radix = .hex) cs).length = '.' :: rest) :
    mantissa? radix cs = if radix = .octal ∨ radix = .binary then none
      else some ⟨digitRun (radix = .hex) cs, some (digitRun (radix = .hex) rest)⟩ := by
  simp only [mantissa?, h]

theorem mantissa?_of_no_point (h : (cs.drop (digitRun (radix = .hex) cs).length).head? ≠ some '.') :
    mantissa? radix cs = some ⟨digitRun (radix = .hex) cs, none⟩ := by
  unfold mantissa?
  simp only
  split
  · rename_i hd
    rw [hd] at h
    exact absurd rfl h
  · rfl

theorem mantissa?_append (hk : IsCut k) (radix : Radix) (cs : List Char) :
    mantissa? radix (cs ++ k) = mantissa? radix cs := by
  have hrun := digitRun_append hk (radix = .hex) cs
  have hdrop : (cs ++ k).drop (digitRun (radix = .hex) (cs ++ k)).length =
      cs.drop (digitRun (radix = .hex) cs).length ++ k := by
    rw [hrun, List.drop_append_of_le_length (length_digitRun_le _ cs)]
  by_cases hpoint : (cs.drop (digitRun (radix = .hex) cs).length).head? = some '.'
  · obtain ⟨rest, hrest⟩ := List.head?_eq_some_iff.mp hpoint
    rw [hrest, List.cons_append] at hdrop
    rw [mantissa?_of_point hrest, mantissa?_of_point hdrop, hrun, digitRun_append hk]
  · rw [mantissa?_of_no_point hpoint, mantissa?_of_no_point, hrun]
    rwa [hdrop, Ne, hk.head?_append (by decide)]

theorem length_mantissa_le {m : Mantissa} {start : Nat} (hstart : start ≤ cs.length)
    (h : mantissa? radix (cs.drop start) = some m) : m.length start ≤ cs.length := by
  have hrun := length_digitRun_le (radix = .hex) (cs.drop start)
  rw [List.length_drop] at hrun
  by_cases hpoint :
      ((cs.drop start).drop (digitRun (radix = .hex) (cs.drop start)).length).head? = some '.'
  · obtain ⟨rest, hrest⟩ := List.head?_eq_some_iff.mp hpoint
    rw [mantissa?_of_point hrest] at h
    split_ifs at h
    cases h
    have hlen := congrArg List.length hrest
    have hfrac := length_digitRun_le (radix = .hex) rest
    simp only [List.length_drop, List.length_cons] at hlen
    simp only [Mantissa.length, Option.elim_some]
    omega
  · rw [mantissa?_of_no_point hpoint] at h
    cases h
    simp only [Mantissa.length, Option.elim_none]
    omega

theorem signLength_append (hk : IsCut k) (cs : List Char) : signLength (cs ++ k) = signLength cs := by
  cases cs with
  | nil =>
    cases k with
    | nil => rfl
    | cons d k =>
      have hd : ∀ x, x ∉ stops → d ≠ x := fun x => ne_of_isStop (hk d rfl)
      simp [signLength, hd _ (by decide : '+' ∉ stops), hd _ (by decide : '-' ∉ stops)]
  | cons c cs =>
    by_cases hp : c = '+'
    · subst hp
      rfl
    · by_cases hm : c = '-'
      · subst hm
        rfl
      · simp [signLength, hp, hm]

theorem signLength_le (cs : List Char) : signLength cs ≤ cs.length := by
  unfold signLength
  split <;> simp

theorem exponent?_append (hk : IsCut k) (radix : Radix) (cs : List Char) :
    exponent? radix (cs ++ k) = exponent? radix cs := by
  cases cs with
  | nil =>
    cases k with
    | nil => rfl
    | cons e k =>
      have he : ∀ x, x ∉ stops → e ≠ x := fun x => ne_of_isStop (hk e rfl)
      simp [exponent?, he _ (by decide : 'e' ∉ stops), he _ (by decide : 'E' ∉ stops),
        he _ (by decide : 'p' ∉ stops), he _ (by decide : 'P' ∉ stops)]
  | cons e rest =>
    simp only [List.cons_append, exponent?, signLength_append hk,
      List.drop_append_of_le_length (signLength_le rest), digitRun_append hk]

theorem exponent?_le {exp : Option Nat} (h : exponent? radix cs = some exp) :
    exp.getD 0 ≤ cs.length := by
  cases cs with
  | nil =>
    cases h
    exact Nat.zero_le _
  | cons e rest =>
    simp only [exponent?] at h
    have hsign := signLength_le rest
    have hrun := length_digitRun_le false (rest.drop (signLength rest))
    rw [List.length_drop] at hrun
    split_ifs at h
    · cases h
      exact Nat.zero_le _
    · cases h
      simp only [Option.getD_some, List.length_cons]
      omega

/-- With the mark of an imaginary number, if there is one. -/
theorem imaginary_le {n : Nat} (hn : n ≤ cs.length) :
    (if (cs.drop n).head? = some 'i' then n + 1 else n) ≤ cs.length := by
  split_ifs with hi
  · obtain ⟨rest, hrest⟩ := List.head?_eq_some_iff.mp hi
    have hlen := congrArg List.length hrest
    simp only [List.length_drop, List.length_cons] at hlen
    omega
  · exact hn

theorem number?_append (hk : IsCut k) (hne : cs ≠ []) : number? (cs ++ k) = number? cs := by
  unfold number?
  rw [ofStart_append hk hne]
  have hstart := ofStart_le cs
  generalize Radix.ofStart cs = r at hstart ⊢
  obtain ⟨radix, start⟩ := r
  simp only at hstart ⊢
  rw [List.drop_append_of_le_length hstart, mantissa?_append hk]
  cases hm : mantissa? radix (cs.drop start) with
  | none => rfl
  | some m =>
    have hlen := length_mantissa_le hstart hm
    simp only [Option.bind_eq_bind, Option.bind_some]
    rw [List.drop_append_of_le_length hlen, exponent?_append hk]
    cases he : exponent? radix (cs.drop (m.length start)) with
    | none => rfl
    | some exp =>
      have hexp := exponent?_le he
      rw [List.length_drop] at hexp
      have hn : m.length start + exp.getD 0 ≤ cs.length := by omega
      simp only [Option.bind_some, List.drop_append_of_le_length hn,
        hk.head?_append (by decide : 'i' ∉ stops), List.take_append_of_le_length (imaginary_le hn)]

theorem number?_le {r : Nat × Bool} (h : number? cs = some r) : r.1 ≤ cs.length := by
  unfold number? at h
  have hstart := ofStart_le cs
  generalize Radix.ofStart cs = r at hstart h
  obtain ⟨radix, start⟩ := r
  simp only at hstart
  obtain ⟨m, hm, h⟩ := Option.bind_eq_some_iff.mp h
  obtain ⟨exp, he, h⟩ := Option.bind_eq_some_iff.mp h
  have hlen := length_mantissa_le hstart hm
  have hexp := exponent?_le he
  rw [List.length_drop] at hexp
  obtain ⟨-, h⟩ := Option.ite_none_right_eq_some.mp h
  cases h
  exact imaginary_le (by omega)

end Numbers

/-! ## 3. Strings and comments -/

section Enclosed

variable {cs : List Char}

theorem fixedDigits?_append {base n v : Nat} (h : fixedDigits? base n cs = some v) (k : List Char) :
    n ≤ cs.length ∧ fixedDigits? base n (cs.take n ++ k) = some v := by
  simp only [fixedDigits?, List.length_take] at h
  split_ifs at h with hlt
  have hn : n ≤ cs.length := by omega
  refine ⟨hn, ?_⟩
  have htake : (cs.take n ++ k).take n = cs.take n := by
    rw [List.take_append_of_le_length (by rw [List.length_take]; omega), List.take_take, Nat.min_self]
  simp only [fixedDigits?, htake, List.length_take]
  rwa [if_neg hlt]

/-- An escape is read by itself. -/
theorem exists_escape {quote : Char} {b : Bytes} {n : Nat} (h : escape? quote cs = some (b, n)) :
    ∃ taken rest, cs = taken ++ rest ∧ n = taken.length ∧
      ∀ k, escape? quote (taken ++ k) = some (b, n) := by
  cases cs with
  | nil => cases h
  | cons c rest =>
    simp only [escape?] at h
    cases hplain : plainEscape? quote c with
    | some b' =>
      rw [hplain] at h
      cases h
      exact ⟨[c], rest, rfl, rfl, fun k => by simp [escape?, hplain]⟩
    | none =>
      rw [hplain] at h
      -- a run of digits in a fixed number, of which the octal ones start at once
      have hlen : ∀ m ≤ rest.length, (c :: rest.take m).length = m + 1 := fun m hm => by simp [hm]
      have hcut : ∀ m, c :: rest = (c :: rest.take m) ++ rest.drop m := fun m => by simp
      simp only at h
      split_ifs at h with ho hx hu hU
      · obtain ⟨v, hv, h⟩ := Option.bind_eq_some_iff.mp h
        split_ifs at h with hlt
        cases h
        have hle := (fixedDigits?_append hv []).1
        rw [List.length_cons] at hle
        refine ⟨_, _, hcut 2, (hlen 2 (by omega)).symm, fun k => ?_⟩
        have hread : fixedDigits? 8 3 (c :: (rest.take 2 ++ k)) = some v := (fixedDigits?_append hv k).2
        simp only [List.cons_append, escape?, hplain, if_pos ho, hread, Option.bind_eq_bind,
          Option.bind_some, if_pos hlt]
      · obtain ⟨v, hv, h⟩ := Option.bind_eq_some_iff.mp h
        cases h
        refine ⟨_, _, hcut 2, (hlen 2 (fixedDigits?_append hv []).1).symm, fun k => ?_⟩
        simp only [List.cons_append, escape?, hplain, if_neg ho, if_pos hx,
          (fixedDigits?_append hv k).2, Option.bind_eq_bind, Option.bind_some]
      · obtain ⟨v, hv, h⟩ := Option.bind_eq_some_iff.mp h
        obtain ⟨b', hb, h⟩ := Option.bind_eq_some_iff.mp h
        cases h
        refine ⟨_, _, hcut 4, (hlen 4 (fixedDigits?_append hv []).1).symm, fun k => ?_⟩
        simp only [List.cons_append, escape?, hplain, if_neg ho, if_neg hx, if_pos hu,
          (fixedDigits?_append hv k).2, Option.bind_eq_bind, Option.bind_some, hb]
      · obtain ⟨v, hv, h⟩ := Option.bind_eq_some_iff.mp h
        obtain ⟨b', hb, h⟩ := Option.bind_eq_some_iff.mp h
        cases h
        refine ⟨_, _, hcut 8, (hlen 8 (fixedDigits?_append hv []).1).symm, fun k => ?_⟩
        simp only [List.cons_append, escape?, hplain, if_neg ho, if_neg hx, if_neg hu, if_pos hU,
          (fixedDigits?_append hv k).2, Option.bind_eq_bind, Option.bind_some, hb]

/-- A literal is read by itself, up to its closing quote. -/
theorem exists_quoted {quote : Char} {bs : List Bytes} {n : Nat}
    (h : quoted? quote cs = some (bs, n)) :
    ∃ body rest, cs = body ++ quote :: rest ∧ n = body.length + 1 ∧
      ∀ k, quoted? quote (body ++ quote :: k) = some (bs, n) := by
  fun_induction quoted? quote cs generalizing bs n with
  | case1 => cases h
  | case2 => cases h
  | case3 rest hn =>
    cases h
    refine ⟨[], rest, rfl, rfl, fun k => ?_⟩
    rw [List.nil_append, quoted?]
    simp [hn]
  | case4 rest hn hq ih =>
    obtain ⟨⟨b, m⟩, he, h⟩ := Option.bind_eq_some_iff.mp h
    obtain ⟨⟨bs', m'⟩, hq', h⟩ := Option.bind_eq_some_iff.mp h
    cases h
    obtain ⟨taken, tail, rfl, rfl, hescape⟩ := exists_escape he
    obtain ⟨body, tail', hcut, rfl, hbody⟩ := ih _ hq'
    rw [List.drop_left] at hcut
    subst hcut
    refine ⟨'\\' :: (taken ++ body), tail', by simp, by simp; omega, fun k => ?_⟩
    rw [List.cons_append, List.append_assoc, quoted?]
    simp [hn, hq, hescape, hbody]
  | case5 c rest hn hq he ih =>
    obtain ⟨⟨bs', m⟩, hq', h⟩ := Option.bind_eq_some_iff.mp h
    cases h
    obtain ⟨body, tail, rfl, rfl, hbody⟩ := ih hq'
    refine ⟨c :: body, tail, rfl, by simp; omega, fun k => ?_⟩
    rw [List.cons_append, quoted?]
    simp [hn, hq, he, hbody]

/-- A comment with an end of its own is read by itself. -/
theorem exists_block {n : Nat} (h : blockLength? cs = some n) :
    ∃ body rest, cs = body ++ '*' :: '/' :: rest ∧ n = body.length + 2 ∧
      ∀ k, blockLength? (body ++ '*' :: '/' :: k) = some n := by
  fun_induction blockLength? cs generalizing n with
  | case1 => cases h
  | case2 rest =>
    cases h
    exact ⟨[], rest, rfl, rfl, fun _ => rfl⟩
  | case3 c rest hc ih =>
    obtain ⟨m, hm, rfl⟩ := Option.map_eq_some_iff.mp h
    obtain ⟨body, tail, rfl, rfl, hk⟩ := ih hm
    refine ⟨c :: body, tail, rfl, rfl, fun k => ?_⟩
    have hopen : ∀ r, c = '*' → body ++ '*' :: '/' :: k = '/' :: r → False := by
      intro r hstar hslash
      cases body with
      | nil => cases hslash
      | cons d body =>
        obtain ⟨rfl, -⟩ := List.cons.inj hslash
        exact hc _ hstar rfl
    rw [List.cons_append, blockLength?.eq_3 _ _ hopen, hk]
    rfl

/-- Whatever encloses itself is read by itself, up to its last character `z`. -/
def Encloses (z : Char) (read : List Char → Option Lexeme) : Prop :=
  ∀ ⦃cs l⦄, read cs = some l → ∃ body rest, cs = body ++ z :: rest ∧ l.extra = body.length + 1 ∧
    ∀ k, read (body ++ z :: k) = some l

theorem encloses_quoted {quote : Char} {f : List Bytes → Nat → Option Lexeme}
    (hf : ∀ bs n l, f bs n = some l → l.extra = n) :
    Encloses quote fun cs => quoted? quote cs >>= fun (bs, n) => f bs n := by
  intro cs l h
  obtain ⟨⟨bs, n⟩, hq, hl⟩ := Option.bind_eq_some_iff.mp h
  obtain ⟨body, rest, rfl, rfl, hbody⟩ := exists_quoted hq
  refine ⟨body, rest, rfl, hf _ _ _ hl, fun k => ?_⟩
  simp only [hbody]
  exact hl

theorem encloses_raw : Encloses '\x60' rawString? := by
  intro cs l h
  simp only [rawString?] at h
  split_ifs at h with hlen
  cases h
  have hcut := List.takeWhile_append_dropWhile (p := fun c => decide (c ≠ '\x60')) (l := cs)
  cases hdrop : cs.dropWhile fun c => decide (c ≠ '\x60') with
  | nil =>
    rw [hdrop, List.append_nil] at hcut
    exact absurd (congrArg List.length hcut) hlen
  | cons z rest =>
    have hmem : z ∈ (cs.dropWhile fun c => decide (c ≠ '\x60')).head? := by
      rw [hdrop]
      rfl
    obtain rfl : z = '\x60' := by simpa using head?_dropWhile hmem
    rw [hdrop] at hcut
    refine ⟨_, rest, hcut.symm, rfl, fun k => ?_⟩
    have hrun : (cs.takeWhile (fun c => decide (c ≠ '\x60')) ++ '\x60' :: k).takeWhile
        (fun c => decide (c ≠ '\x60')) = cs.takeWhile fun c => decide (c ≠ '\x60') :=
      takeWhile_append_stop (fun _ => List.mem_takeWhile_imp) (by simp)
    simp only [rawString?, hrun]
    rw [if_neg (by simp)]

theorem blockComment?_eq (p : Place) {body k : List Char}
    (h : blockLength? (body ++ '*' :: '/' :: k) = some (body.length + 2)) :
    blockComment? p (body ++ '*' :: '/' :: k) =
      if badDirective body then none
      else if p.ends && body.any (· = '\n') then some ⟨[.semi true], ⟨false, false⟩, body.length + 3⟩
      else some ⟨[], ⟨p.ends, false⟩, body.length + 3⟩ := by
  have hbody : (body ++ '*' :: '/' :: k).take body.length = body := List.take_left
  have hall : (body ++ '*' :: '/' :: k).take (body.length + 2) = body ++ ['*', '/'] := by
    rw [List.take_length_add_append]
    rfl
  have hbreak : (body ++ ['*', '/']).any (· = '\n') = body.any (· = '\n') := by
    simp
  have hextra : 1 + (body.length + 2) = body.length + 3 := by omega
  simp only [blockComment?, h, Option.bind_eq_bind, Option.bind_some, Nat.add_sub_cancel, hbody, hall,
    hbreak, hextra]

theorem encloses_block (p : Place) : Encloses '/' fun cs => blockComment? p (cs.drop 1) := by
  intro cs l h
  obtain ⟨n, hn, -⟩ := Option.bind_eq_some_iff.mp h
  obtain ⟨body, rest, hcut, rfl, hbody⟩ := exists_block hn
  cases cs with
  | nil => cases body <;> cases hcut
  | cons a cs =>
    obtain rfl : cs = body ++ '*' :: '/' :: rest := hcut
    change blockComment? p (body ++ '*' :: '/' :: rest) = some l at h
    have hread : ∀ k, blockComment? p (body ++ '*' :: '/' :: k) = some l := by
      intro k
      rw [← h, blockComment?_eq p (hbody k), blockComment?_eq p (hbody rest)]
    refine ⟨a :: (body ++ ['*']), rest, by simp, ?_, fun k => ?_⟩
    · rw [blockComment?_eq p (hbody rest)] at h
      split_ifs at h <;> cases h <;> simp
    · rw [← hread k]
      simp

end Enclosed

/-! ## 4. Lexemes -/

section Lexemes

variable {p : Place} {c : Char} {next : Option Char} {cs k k₀ : List Char} {l : Lexeme}

theorem Start.of_append (hk : IsCut k) (c : Char) (cs : List Char) :
    Start.of c (cs ++ k).head? = Start.of c cs.head? := by
  cases cs with
  | cons d cs => rfl
  | nil =>
    cases k with
    | nil => rfl
    | cons d k =>
      have hd : ∀ x, x ∉ stops → d ≠ x := fun x => ne_of_isStop (hk d rfl)
      have hdigit : isDecimal d = false := not_of_isStop (by decide) (hk d rfl)
      simp [Start.of, hd _ (by decide : '/' ∉ stops), hd _ (by decide : '*' ∉ stops), hdigit]

theorem Start.eq_of_lineComment (h : Start.of c next = .lineComment) :
    c = '/' ∧ next = some '/' := by
  by_contra hslash
  rw [Start.of, if_neg hslash] at h
  clear hslash
  grind

theorem isPrefixOf_append {w : List Char} (hk : IsCut k) (hw : ∀ c ∈ w, c ∉ stops) (cs : List Char) :
    w.isPrefixOf (cs ++ k) = w.isPrefixOf cs := by
  induction w generalizing cs with
  | nil => rfl
  | cons b w ih =>
    cases cs with
    | nil =>
      cases k with
      | nil => rfl
      | cons d k =>
        have hd : d ≠ b := ne_of_isStop (hk d rfl) (hw b List.mem_cons_self)
        simp [List.isPrefixOf, hd.symm]
    | cons e cs =>
      simp only [List.cons_append, List.isPrefixOf, ih (fun c hc => hw c (List.mem_cons_of_mem _ hc))]

/-- Beyond its first character no operator has a stop. -/
theorem Op.tail_text (o : Op) : ∀ c ∈ o.text.toList.tail, c ∉ stops := by
  have hall : o.text.toList.tail.all (· ∉ stops) = true := by cases o <;> decide +kernel
  exact fun c hc => of_decide_eq_true (List.all_eq_true.mp hall c hc)

theorem operator?_append (hk : IsCut k) (c : Char) (cs : List Char) :
    operator? (c :: (cs ++ k)) = operator? (c :: cs) := by
  unfold operator?
  congr 1
  funext o
  have htail := Op.tail_text o
  cases htext : o.text.toList with
  | nil => rfl
  | cons a w =>
    rw [htext, List.tail_cons] at htail
    simp only [List.isPrefixOf, isPrefixOf_append hk htail]

theorem operator?_le {o : Op} (h : operator? (c :: cs) = some o) : o.text.length - 1 ≤ cs.length := by
  have hprefix := List.find?_some h
  have hle := (List.isPrefixOf_iff_prefix.mp hprefix).length_le
  rw [String.length_toList, List.length_cons] at hle
  omega

/-- The lexeme that starts a piece lies in the piece and is the same before every cut. -/
structure Within (p : Place) (c : Char) (cs : List Char) (l : Lexeme) : Prop where
  le : l.extra ≤ cs.length
  eq : ∀ k, IsCut k → lexeme? p c (cs ++ k) = some l

/-- Blanks, all of them. -/
def IsBlanks (bl : List Char) : Prop := ∀ c ∈ bl, isBlank c = true

theorem IsBlanks.isCut {bl : List Char} (h : IsBlanks bl) : IsCut bl := by
  intro c hc
  rw [isStop, h c (List.mem_of_head? hc), Bool.or_true]

/-- The characters that close a string, a character or a comment. -/
def closers : List Char := ['"', '\'', '\x60', '/']

/-- What may follow a piece without closing something that is opened in it. -/
structure IsLoose (k : List Char) : Prop where
  isCut : IsCut k
  unclosing : ∀ c ∈ k, c ∉ closers

theorem IsBlanks.isLoose {bl : List Char} (h : IsBlanks bl) : IsLoose bl where
  isCut := h.isCut
  unclosing c hc hcloser := by
    have hblank := h c hc
    simp only [closers, List.mem_cons, List.not_mem_nil, or_false] at hcloser
    rcases hcloser with rfl | rfl | rfl | rfl <;> exact absurd hblank (by decide)

/-- What encloses itself does not reach beyond the piece. -/
theorem Encloses.within {z : Char} {read : List Char → Option Lexeme} (he : Encloses z read)
    (hz : z ∈ closers) (hk₀ : IsLoose k₀)
    (hread : ∀ k, IsCut k → lexeme? p c (cs ++ k) = read (cs ++ k))
    (h : lexeme? p c (cs ++ k₀) = some l) : Within p c cs l := by
  rw [hread k₀ hk₀.isCut] at h
  obtain ⟨body, rest, hcut, hextra, hbody⟩ := he h
  have hmem : z ∉ k₀ := fun hmem => hk₀.unclosing z hmem hz
  obtain ⟨mid, rfl⟩ : ∃ mid, cs = body ++ z :: mid := by
    rcases List.append_eq_append_iff.mp hcut with ⟨mid, -, rfl⟩ | ⟨mid, rfl, hmid⟩
    · exact absurd (List.mem_append_right _ List.mem_cons_self) hmem
    · cases mid with
      | nil =>
        rw [List.nil_append] at hmid
        exact absurd (hmid ▸ List.mem_cons_self) hmem
      | cons d mid =>
        obtain ⟨rfl, -⟩ := List.cons.inj hmid
        exact ⟨mid, rfl⟩
  refine ⟨?_, fun k hk => ?_⟩
  · rw [hextra, List.length_append, List.length_cons]
    omega
  · rw [hread k hk, List.append_assoc]
    exact hbody _

/-- What is read the same before every cut. -/
theorem within_of_eq {r : Option Lexeme} (hk₀ : IsLoose k₀) (h : lexeme? p c (cs ++ k₀) = some l)
    (hr : ∀ k, IsCut k → lexeme? p c (cs ++ k) = r) (hle : r = some l → l.extra ≤ cs.length) :
    Within p c cs l := by
  have hl : r = some l := (hr k₀ hk₀.isCut).symm.trans h
  exact ⟨hle hl, fun k hk => (hr k hk).trans hl⟩

theorem within_of_some {l' : Lexeme} (hk₀ : IsLoose k₀) (h : lexeme? p c (cs ++ k₀) = some l)
    (hr : ∀ k, IsCut k → lexeme? p c (cs ++ k) = some l') (hle : l'.extra ≤ cs.length) :
    Within p c cs l := by
  refine within_of_eq hk₀ h hr fun e => ?_
  cases e
  exact hle

/-- A line comment that ends in the piece. -/
theorem lineComment?_append (h : '\n' ∈ cs) (k : List Char) :
    lineComment? p (cs ++ k) = lineComment? p cs := by
  have hrun : (cs ++ k).takeWhile (fun c => decide (c ≠ '\n')) =
      cs.takeWhile fun c => decide (c ≠ '\n') := by
    obtain ⟨before, behind, rfl, hnot⟩ := List.eq_append_cons_of_mem h
    have hbefore : ∀ c ∈ before, decide (c ≠ '\n') = true := by
      intro c hc
      exact decide_eq_true fun e => hnot (e ▸ hc)
    rw [List.append_assoc, takeWhile_append_stop hbefore (by simp),
      takeWhile_append_stop hbefore (by simp)]
  simp only [lineComment?, hrun]

theorem lineComment?_le (h : lineComment? p (cs.drop 1) = some l) (hne : cs ≠ []) :
    l.extra ≤ cs.length := by
  obtain ⟨-, h⟩ := Option.ite_none_left_eq_some.mp h
  cases h
  have hrun := (List.takeWhile_sublist (fun c => decide (c ≠ '\n')) (l := cs.drop 1)).length_le
  have hpos := List.length_pos_iff.mpr hne
  rw [List.length_drop] at hrun
  simp only
  omega

/-- A line comment that ends in the piece lies in it. -/
theorem within_lineComment (hk₀ : IsLoose k₀) (hs : Start.of c cs.head? = .lineComment)
    (hbreak : '\n' ∈ cs) (h : lexeme? p c (cs ++ k₀) = some l) : Within p c cs l := by
  refine within_of_eq (r := lineComment? p (cs.drop 1)) hk₀ h (fun k hk => ?_)
    fun e => lineComment?_le e (List.ne_nil_of_mem hbreak)
  rw [lexeme?, Start.of_append hk, hs]
  obtain ⟨rest, rfl⟩ := List.head?_eq_some_iff.mp (Start.eq_of_lineComment hs).2
  have hrest : '\n' ∈ rest := (List.mem_cons.mp hbreak).resolve_left (by decide)
  exact lineComment?_append hrest k

theorem within_number (hk₀ : IsLoose k₀) (hs : Start.of c cs.head? = .number)
    (h : lexeme? p c (cs ++ k₀) = some l) : Within p c cs l := by
  refine within_of_eq (r := number? (c :: cs) >>= fun r =>
    some (.one (if r.2 then .int (.ofList ((c :: cs).take r.1)) else .literal) true (r.1 - 1)))
    hk₀ h (fun k hk => ?_) fun e => ?_
  · rw [lexeme?, Start.of_append hk, hs]
    simp only [← List.cons_append, number?_append hk (List.cons_ne_nil c cs)]
    cases hn : number? (c :: cs) with
    | none => rfl
    | some r =>
      simp only [Option.bind_eq_bind, Option.bind_some]
      rw [List.take_append_of_le_length (number?_le hn)]
  · obtain ⟨⟨n, isInt⟩, hn, e⟩ := Option.bind_eq_some_iff.mp e
    cases e
    have hle := number?_le hn
    rw [List.length_cons] at hle
    exact Nat.sub_le_of_le_add hle

/-- **A lexeme lies within the piece before what closes nothing**, but for a comment that goes on to the
    end of the line. -/
theorem within_or_comment (hk₀ : IsLoose k₀) (h : lexeme? p c (cs ++ k₀) = some l) :
    Within p c cs l ∨ Start.of c cs.head? = .lineComment ∧ '\n' ∉ cs := by
  by_cases hopen : Start.of c cs.head? = .lineComment ∧ '\n' ∉ cs
  · exact Or.inr hopen
  left
  have hstart : ∀ k, IsCut k → Start.of c (cs ++ k).head? = Start.of c cs.head? :=
    fun k hk => Start.of_append hk c cs
  cases hs : Start.of c cs.head? with
  | lineComment => exact within_lineComment hk₀ hs (Classical.not_not.mp fun hno => hopen ⟨hs, hno⟩) h
  | number => exact within_number hk₀ hs h
  | blank => exact within_of_some hk₀ h (fun k hk => by rw [lexeme?, hstart k hk, hs]) (Nat.zero_le _)
  | lineBreak => exact within_of_some hk₀ h (fun k hk => by rw [lexeme?, hstart k hk, hs]) (Nat.zero_le _)
  | semicolon => exact within_of_some hk₀ h (fun k hk => by rw [lexeme?, hstart k hk, hs]) (Nat.zero_le _)
  | word =>
    have hrun : ∀ k, IsCut k → (cs ++ k).takeWhile isNameChar = cs.takeWhile isNameChar :=
      fun k hk => hk.takeWhile_append (by decide +kernel) cs
    exact within_of_some hk₀ h (fun k hk => by rw [lexeme?, hstart k hk, hs, hrun k hk])
      (List.takeWhile_sublist _).length_le
  | operator =>
    refine within_of_eq (r := operator? (c :: cs) >>= fun o =>
      some (.one (.op o) o.endsStatement (o.text.length - 1))) hk₀ h (fun k hk => ?_) fun e => ?_
    · rw [lexeme?, hstart k hk, hs]
      simp only [operator?_append hk]
    · obtain ⟨o, ho, e⟩ := Option.bind_eq_some_iff.mp e
      cases e
      exact operator?_le ho
  | blockComment =>
    refine (encloses_block p).within (by decide) hk₀ (fun k hk => ?_) h
    rw [lexeme?, hstart k hk, hs]
  | string =>
    refine (encloses_quoted (f := fun bs n => some (.one (.str bs.flatten) true n)) ?_).within
      (by decide : '"' ∈ closers) hk₀ (fun k hk => ?_) h
    · rintro bs n l ⟨⟩
      rfl
    · rw [lexeme?, hstart k hk, hs]
  | character =>
    refine (encloses_quoted (f := fun bs n => if bs.length = 1 then some (.one .literal true n)
      else none) ?_).within (by decide : '\'' ∈ closers) hk₀ (fun k hk => ?_) h
    · intro bs n l e
      split_ifs at e
      cases e
      rfl
    · rw [lexeme?, hstart k hk, hs]
  | raw =>
    refine encloses_raw.within (by decide) hk₀ (fun k hk => ?_) h
    rw [lexeme?, hstart k hk, hs]

end Lexemes

/-! ## 5. The places between lexemes -/

section Ends

variable {p : Place} {c : Char} {next : Option Char} {cs : List Char} {l : Lexeme}

theorem ends_wordToken (s : String) : (wordToken s).1.ends = (wordToken s).2 := by
  unfold wordToken
  split <;> rfl

theorem wordToken_cases (s : String) :
    (∃ name, (wordToken s).1 = .name name) ∨ ∃ w, (wordToken s).1 = .word w := by
  unfold wordToken
  split
  · exact Or.inr ⟨_, rfl⟩
  · exact Or.inl ⟨_, rfl⟩

theorem wordToken_ne_semi (s : String) : (wordToken s).1 ≠ .semi true := by
  rcases wordToken_cases s with ⟨name, e⟩ | ⟨w, e⟩ <;> rw [e] <;> nofun

theorem wordToken_ne_op (s : String) (o : Op) : (wordToken s).1 ≠ .op o := by
  rcases wordToken_cases s with ⟨name, e⟩ | ⟨w, e⟩ <;> rw [e] <;> nofun

theorem eq_of_wordToken {s n : String} (h : (wordToken s).1 = .name n) : s = n := by
  unfold wordToken at h
  split at h
  · cases h
  · exact Token.name.inj h

/-- Whether a token starts here, and not a blank or a comment. -/
def Start.isToken : Start → Bool
  | .blank | .lineBreak | .lineComment | .blockComment => false
  | _ => true

/-- What is no token is a blank or a comment. -/
theorem Start.blank_or_comment (h : (Start.of c next).isToken = false) :
    isBlank c = true ∨ c = '/' ∧ (next = some '/' ∨ next = some '*') := by
  by_cases h₁ : c = ' ' ∨ c = '\t' ∨ c = '\r'
  · rcases h₁ with rfl | rfl | rfl <;> exact Or.inl (by decide)
  by_cases h₂ : c = '\n'
  · subst h₂
    exact Or.inl (by decide)
  by_cases h₃ : c = '/' ∧ next = some '/'
  · exact Or.inr ⟨h₃.1, Or.inl h₃.2⟩
  by_cases h₄ : c = '/' ∧ next = some '*'
  · exact Or.inr ⟨h₄.1, Or.inr h₄.2⟩
  rw [Start.of, if_neg h₁, if_neg h₂, if_neg h₃, if_neg h₄] at h
  split_ifs at h <;> cases h

/-- What the token of a lexeme says of the text: whether a statement can end behind it; an operator is the
    longest one that fits, and a name is made of the characters of names. -/
structure Token.Fits (t : Token) (ends : Bool) (cs : List Char) : Prop where
  ends : t.ends = ends
  op : ∀ o, t = .op o → operator? cs = some o
  name : ∀ n, t = .name n → ∀ d ∈ n.toList, isNameChar d = true

theorem Start.isLetter_of_word (h : Start.of c next = .word) : isLetter c = true := by
  unfold Start.of at h
  grind

theorem fits_wordToken (h : Start.of c cs.head? = .word) :
    (wordToken (.ofList (c :: cs.takeWhile isNameChar))).1.Fits
      (wordToken (.ofList (c :: cs.takeWhile isNameChar))).2 (c :: cs) where
  ends := ends_wordToken _
  op o e := absurd e (wordToken_ne_op _ o)
  name n e d hd := by
    rw [← eq_of_wordToken e, String.toList_ofList] at hd
    rcases List.mem_cons.mp hd with rfl | hd
    · rw [isNameChar, Start.isLetter_of_word h, Bool.true_or]
    · exact List.mem_takeWhile_imp hd

/-- Where a token starts, it is the only one of its lexeme. -/
theorem exists_token (hs : (Start.of c cs.head?).isToken = true) (h : lexeme? p c cs = some l) :
    ∃ t : Token, l.tokens = [t] ∧ t ≠ .semi true ∧ t.Fits l.place.ends (c :: cs) := by
  unfold lexeme? at h
  cases hstart : Start.of c cs.head? with
  | word =>
    rw [hstart] at h
    cases h
    exact ⟨_, rfl, wordToken_ne_semi _, fits_wordToken hstart⟩
  | number =>
    rw [hstart] at h
    obtain ⟨⟨n, isInt⟩, -, h⟩ := Option.bind_eq_some_iff.mp h
    cases h
    cases isInt with
    | true => exact ⟨_, rfl, nofun, rfl, nofun, nofun⟩
    | false => exact ⟨_, rfl, nofun, rfl, nofun, nofun⟩
  | string =>
    rw [hstart] at h
    obtain ⟨⟨bs, n⟩, -, h⟩ := Option.bind_eq_some_iff.mp h
    cases h
    exact ⟨_, rfl, nofun, rfl, nofun, nofun⟩
  | character =>
    rw [hstart] at h
    obtain ⟨⟨bs, n⟩, -, h⟩ := Option.bind_eq_some_iff.mp h
    obtain ⟨-, h⟩ := Option.ite_none_right_eq_some.mp h
    cases h
    exact ⟨_, rfl, nofun, rfl, nofun, nofun⟩
  | raw =>
    rw [hstart] at h
    obtain ⟨-, h⟩ := Option.ite_none_left_eq_some.mp h
    cases h
    exact ⟨_, rfl, nofun, rfl, nofun, nofun⟩
  | semicolon =>
    rw [hstart] at h
    cases h
    exact ⟨_, rfl, nofun, rfl, nofun, nofun⟩
  | operator =>
    rw [hstart] at h
    obtain ⟨o, ho, h⟩ := Option.bind_eq_some_iff.mp h
    cases h
    refine ⟨_, rfl, nofun, rfl, fun o' e => ?_, nofun⟩
    cases e
    exact ho
  | _ =>
    rw [hstart] at hs
    cases hs

/-- A lexeme has at most one token, and its place tells whether that can end a statement. -/
theorem ends_lexeme? (h : lexeme? p c cs = some l) :
    l.tokens = [] ∧ l.place.ends = p.ends ∨
      ∃ t : Token, l.tokens = [t] ∧ t.Fits l.place.ends (c :: cs) := by
  by_cases hs : (Start.of c cs.head?).isToken = true
  · obtain ⟨t, ht, -, hfits⟩ := exists_token hs h
    exact Or.inr ⟨t, ht, hfits⟩
  unfold lexeme? at h
  cases hstart : Start.of c cs.head? with
  | blank =>
    rw [hstart] at h
    cases h
    exact Or.inl ⟨rfl, rfl⟩
  | lineBreak =>
    rw [hstart] at h
    cases h
    cases hp : p.ends with
    | false => exact Or.inl ⟨rfl, rfl⟩
    | true => exact Or.inr ⟨.semi true, rfl, rfl, nofun, nofun⟩
  | lineComment =>
    rw [hstart] at h
    obtain ⟨-, h⟩ := Option.ite_none_left_eq_some.mp h
    cases h
    exact Or.inl ⟨rfl, rfl⟩
  | blockComment =>
    rw [hstart] at h
    obtain ⟨n, -, h⟩ := Option.bind_eq_some_iff.mp h
    obtain ⟨-, h⟩ := Option.ite_none_left_eq_some.mp h
    split_ifs at h
    · cases h
      exact Or.inr ⟨.semi true, rfl, rfl, nofun, nofun⟩
    · cases h
      exact Or.inl ⟨rfl, rfl⟩
  | _ =>
    rw [hstart] at hs
    exact absurd rfl hs

end Ends

end Lasso.Lang
