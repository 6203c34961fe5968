import Lasso.Message
import Lasso.Proofs.Text
import Lasso.Proofs.Text.Quoted
/-!
# Texts between quotes, as they are read back

A message writes a text between quotes and escapes little in it. What reads it takes blanks and ends of lines for
gaps, which it folds.

* `Cursor.after` -- the place behind some characters;
* `carried?` -- what is read of a text: its gaps are folded, and a line that looks like the end of a document cannot
  be read;
* `scanQuoted_jsonText` -- **a scalar between quotes is read as the text carries it**, whatever follows;
* `Lasts` -- the texts that hold no gap that is folded, and `carried?_eq_self_iff`: **these and no others are read
  as they are**.
-/

namespace Lasso.Yaml

open Message (jsonChar jsonText)

/-! ## 1. Places -/

namespace Cursor

variable {c : Cursor} {x : Char} {w r : List Char}

/-- The place behind some characters. -/
def after (c : Cursor) (w : List Char) : Cursor where
  rest := c.rest.drop w.length
  index := c.index + w.length
  line := c.line + w.countP isBreak
  column := w.foldl (fun n x => if isBreak x then 0 else n + 1) c.column

@[simp] theorem after_nil (c : Cursor) : c.after [] = c := rfl

theorem after_append (c : Cursor) (w w' : List Char) : c.after (w ++ w') = (c.after w).after w' := by
  simp [after, Nat.add_assoc]

theorem rest_after (h : c.rest = w ++ r) : (c.after w).rest = r := by
  rw [after, h, List.drop_left]

/-- Within a line, the place behind some characters is found by counting them. -/
theorem skip_eq_after (c : Cursor) (h : ∀ x ∈ w, isBreak x = false) : c.skip w.length = c.after w := by
  have hcolumn : ∀ n, w.foldl (fun n x => if isBreak x then 0 else n + 1) n = n + w.length := by
    intro n
    induction w generalizing n with
    | nil => rfl
    | cons x w ih =>
      rw [List.foldl_cons, h x List.mem_cons_self, if_neg Bool.false_ne_true,
        ih fun y hy => h y (List.mem_cons_of_mem x hy), List.length_cons]
      omega
  have hline : w.countP isBreak = 0 := by
    rw [List.countP_eq_zero]
    intro x hx
    rw [h x hx]
    exact Bool.false_ne_true
  simp [skip, after, hcolumn, hline]

theorem skip_one_eq_after (c : Cursor) (h : isBreak x = false) : c.skip = c.after [x] :=
  skip_eq_after c (w := [x]) (by simpa using h)

/-- Behind the end of a line, another line starts. -/
theorem column_after_concat (c : Cursor) (w : List Char) (x : Char) :
    (c.after (w ++ [x])).column = if isBreak x then 0 else (c.after w).column + 1 := by
  simp [after]

end Cursor

/-! ## 2. Gaps -/

/-- The characters of a gap that are not escaped in a text between quotes. -/
def isGapChar (x : Char) : Bool := x = ' ' || x = '\x85' || x = '\u2028' || x = '\u2029'

/-- The separators of lines and paragraphs. -/
def isSeparator (x : Char) : Bool := x = '\u2028' || x = '\u2029'

/-- What an end of a line stands for. -/
def breakText (x : Char) : List Char := if isSeparator x then [x] else ['\n']

/-- A gap with another character. -/
def Gap.add (g : Gap) (x : Char) : Gap :=
  if x = ' ' then (if g.broken then g else { g with blanks := g.blanks ++ [x] })
  else if g.broken then { g with more := g.more ++ breakText x }
  else { g with broken := true, first := breakText x }

/-- The text that the characters of a gap stand for. -/
def gapText (w : List Char) : List Char := (w.foldl Gap.add {}).text

variable {c : Cursor} {x : Char} {w r cs : List Char} {fuel : Nat} {text : List Char}

theorem isGapChar_iff : isGapChar x = true ↔ x = ' ' ∨ x = '\x85' ∨ x = '\u2028' ∨ x = '\u2029' := by
  simp [isGapChar, or_assoc]

theorem isBlank_of_isGapChar_eq_false (hx : isGapChar x = false) (ht : x ≠ '\t') : isBlank x = false := by
  have hspace : x ≠ ' ' := by
    rintro rfl
    cases hx
  simp [isBlank, hspace, ht]

theorem isBreak_of_isGapChar (hx : isGapChar x = true) (hne : x ≠ ' ') : isBreak x = true := by
  obtain rfl | rfl | rfl | rfl := isGapChar_iff.mp hx
  · exact absurd rfl hne
  all_goals decide

theorem isBreak_of_isGapChar_eq_false (hx : isGapChar x = false) (hn : x ≠ '\n') (hr : x ≠ '\r') :
    isBreak x = false := by
  have hgap := mt isGapChar_iff.mpr (Bool.eq_false_iff.mp hx)
  simp only [not_or] at hgap
  simp [isBreak, hn, hr, hgap]

theorem readBreak_eq (hx : isGapChar x = true) (hne : x ≠ ' ') (h : c.rest = x :: r) :
    c.readBreak = (breakText x, c.after [x]) := by
  unfold Cursor.readBreak
  rw [h]
  obtain rfl | rfl | rfl | rfl := isGapChar_iff.mp hx
  · exact absurd rfl hne
  all_goals simp [breakText, isSeparator, Cursor.after, h, isBreak]

/-- **A gap is read character by character.** -/
theorem readGap_eq (hw : ∀ x ∈ w, isGapChar x = true) (hr : ∀ y ∈ r.head?, isBlank y = false ∧ isBreak y = false)
    (g : Gap) (h : c.rest = w ++ r) (hfuel : w.length < fuel) :
    readGap 0 fuel c g = some (w.foldl Gap.add g, c.after w) := by
  induction w generalizing c g fuel with
  | nil =>
    obtain ⟨fuel, rfl⟩ : ∃ n, fuel = n + 1 := ⟨fuel - 1, by simp at hfuel; omega⟩
    rw [List.nil_append] at h
    rw [readGap, Cursor.peek?, h]
    cases r with
    | nil => rfl
    | cons y r =>
      obtain ⟨hblank, hbreak⟩ := hr y rfl
      simp [hblank, hbreak]
  | cons x w ih =>
    obtain ⟨fuel, rfl⟩ : ∃ n, fuel = n + 1 := ⟨fuel - 1, by simp at hfuel; omega⟩
    have hx := hw x List.mem_cons_self
    have hnext : (c.after [x]).rest = w ++ r := Cursor.rest_after h
    have hafter : c.after (x :: w) = (c.after [x]).after w := Cursor.after_append c [x] w
    have hih := fun g => ih (fun y hy => hw y (List.mem_cons_of_mem x hy)) g hnext
      (Nat.lt_of_succ_lt_succ hfuel)
    rw [readGap, Cursor.peek?, h]
    by_cases hspace : x = ' '
    · subst hspace
      have hskip : c.skip = c.after [' '] := c.skip_one_eq_after (by decide)
      simp only [List.cons_append, List.head?_cons, isBlank, decide_true, Bool.true_or, if_true]
      rw [hskip, hafter, List.foldl_cons, if_neg (by simp), hih]
      rfl
    · have hblank : isBlank x = false := by
        obtain rfl | rfl | rfl | rfl := isGapChar_iff.mp hx
        · exact absurd rfl hspace
        all_goals decide
      simp only [List.cons_append, List.head?_cons, hblank, isBreak_of_isGapChar hx hspace, if_true,
        Bool.false_eq_true, if_false]
      rw [readBreak_eq hx hspace h, hafter, List.foldl_cons, hih]
      simp [Gap.add, hspace]

/-! ## 3. Runs -/

theorem jsonChar_of_isGapChar (hx : isGapChar x = true) : jsonChar x = [x] := by
  obtain rfl | rfl | rfl | rfl := isGapChar_iff.mp hx <;> decide

/-- A letter behind a backslash. -/
theorem quotedRun_letter {l : Char} (hcode : codeLength? l = none) (hbreak : isBreak l = false)
    (hl : escaped? l = some x) (h : c.rest = '\\' :: l :: r) :
    quotedRun false (fuel + 1) c text = quotedRun false fuel (c.after ['\\', l]) (text ++ [x]) := by
  have hskip : c.skip 2 = c.after ['\\', l] := by
    refine c.skip_eq_after (w := ['\\', l]) fun y hy => ?_
    obtain rfl | rfl : y = '\\' ∨ y = l := by simpa using hy
    · decide
    · exact hbreak
  have hpeek : c.peek? = some '\\' := by rw [Cursor.peek?, h]; rfl
  have hnext : c.peekAt? 1 = some l := by rw [Cursor.peekAt?, h]; rfl
  have hblank : isBlankz (some '\\') = false := by decide
  rw [quotedRun, hpeek]
  simp [hnext, hbreak, hcode, hl, hskip, hblank]

theorem hexValue?_digitChar {d : Nat} (h : d < 16) : hexValue? d.digitChar = some d := by
  have hall : ∀ k : Fin 16, hexValue? k.val.digitChar = some k.val := by decide
  exact hall ⟨d, h⟩

theorem charOfHex?_hex (x : Char) : charOfHex? (Text.hex 4 x.toNat) = some x := by
  have hfold := Text.foldlM_hex (f := fun n d => do return n * 16 + (← hexValue? d))
    (fun acc d hd => by rw [hexValue?_digitChar hd]; rfl) 4 x.toNat
  rw [charOfHex?, hfold]
  exact dif_pos x.valid

/-- The number of a character behind a backslash. -/
theorem quotedRun_number (hx : x.toNat < 16 ^ 4) (h : c.rest = '\\' :: 'u' :: Text.hex 4 x.toNat ++ r) :
    quotedRun false (fuel + 1) c text =
      quotedRun false fuel (c.after ('\\' :: 'u' :: Text.hex 4 x.toNat)) (text ++ [x]) := by
  have hlength := Text.length_hex (by decide) hx
  have hskip : c.skip (2 + 4) = c.after ('\\' :: 'u' :: Text.hex 4 x.toNat) := by
    have hall : ∀ y ∈ '\\' :: 'u' :: Text.hex 4 x.toNat, isBreak y = false := by
      simp only [List.mem_cons, forall_eq_or_imp]
      refine ⟨by decide, by decide, fun y hy => ?_⟩
      have hsome := Text.isSome_hexValue?_of_mem_hex hy
      by_contra hbreak
      simp only [isBreak, Bool.not_eq_false, Bool.or_eq_true, decide_eq_true_eq, or_assoc] at hbreak
      obtain rfl | rfl | rfl | rfl | rfl := hbreak <;> cases hsome
    have hskip := c.skip_eq_after hall
    rwa [List.length_cons, List.length_cons, hlength] at hskip
  have hpeek : c.peek? = some '\\' := by rw [Cursor.peek?, h]; rfl
  have hnext : c.peekAt? 1 = some 'u' := by rw [Cursor.peekAt?, h]; rfl
  have hdigits : (c.rest.drop 2).take 4 = Text.hex 4 x.toNat := by
    rw [h]
    exact List.take_left' hlength
  have hblank : isBlankz (some '\\') = false := by decide
  have hbreak : isBreak 'u' = false := by decide
  have hcode : codeLength? 'u' = some 4 := by decide
  rw [quotedRun, hpeek]
  simp [hnext, hblank, hbreak, hcode, hdigits, hlength, charOfHex?_hex, hskip]

/-- A character that stands for itself. -/
theorem quotedRun_plain (hgap : isGapChar x = false) (hx : ' ' ≤ x) (hquote : x ≠ '"') (hslash : x ≠ '\\')
    (h : c.rest = x :: r) :
    quotedRun false (fuel + 1) c text = quotedRun false fuel (c.after [x]) (text ++ [x]) := by
  have hcontrol : x ≠ '\t' ∧ x ≠ '\n' ∧ x ≠ '\r' := by
    refine ⟨?_, ?_, ?_⟩ <;> rintro rfl <;> revert hx <;> decide
  obtain ⟨ht, hn, hr⟩ := hcontrol
  have hbreak := isBreak_of_isGapChar_eq_false hgap hn hr
  have hblank : isBlankz (some x) = false := by
    rw [isBlankz, hbreak, isBlank_of_isGapChar_eq_false hgap ht]
    rfl
  have hpeek : c.peek? = some x := by rw [Cursor.peek?, h]; rfl
  have hskip : c.skip = c.after [x] := c.skip_one_eq_after hbreak
  rw [quotedRun, hpeek]
  simp [hblank, hquote, hslash, hskip]

/-- **Outside of gaps, what is written for a character is read as the character.** -/
theorem quotedRun_jsonChar (hgap : isGapChar x = false) (h : c.rest = jsonChar x ++ r) :
    quotedRun false (fuel + 1) c text = quotedRun false fuel (c.after (jsonChar x)) (text ++ [x]) := by
  unfold jsonChar at h ⊢
  split_ifs at h ⊢ with hself hb hf hn hr ht hcontrol
  · obtain rfl | rfl : x = '"' ∨ x = '\\' := by simpa using hself
    · exact quotedRun_letter (by decide) (by decide) (by decide) h
    · exact quotedRun_letter (by decide) (by decide) (by decide) h
  · subst hb
    exact quotedRun_letter (by decide) (by decide) (by decide) h
  · subst hf
    exact quotedRun_letter (by decide) (by decide) (by decide) h
  · subst hn
    exact quotedRun_letter (by decide) (by decide) (by decide) h
  · subst hr
    exact quotedRun_letter (by decide) (by decide) (by decide) h
  · subst ht
    exact quotedRun_letter (by decide) (by decide) (by decide) h
  · have hsmall : x.toNat < ' '.toNat := hcontrol
    exact quotedRun_number (Nat.lt_trans hsmall (by decide)) h
  · obtain ⟨hquote, hslash⟩ : x ≠ '"' ∧ x ≠ '\\' := by simpa using hself
    exact quotedRun_plain hgap (Char.not_lt.mp hcontrol) hquote hslash h

/-- What follows a run: the closing quote, or a gap. -/
def EndsRun (r : List Char) : Prop := ∃ y, r.head? = some y ∧ (y = '"' ∨ isGapChar y = true)

theorem quotedRun_end (hr : EndsRun c.rest) : quotedRun false (fuel + 1) c text = some (text, c, false) := by
  obtain ⟨y, hy, hend⟩ := hr
  have hpeek : c.peek? = some y := hy
  rw [quotedRun, hpeek]
  obtain rfl | hgap := hend
  · have hblank : isBlankz (some '"') = false := by decide
    simp [hblank]
  · have hblank : isBlankz (some y) = true := by
      obtain rfl | rfl | rfl | rfl := isGapChar_iff.mp hgap <;> decide
    simp [hblank]

/-- **A run is read as it is.** -/
theorem quotedRun_eq (hw : ∀ x ∈ w, isGapChar x = false) (hr : EndsRun r) (h : c.rest = w.flatMap jsonChar ++ r)
    (hfuel : w.length < fuel) :
    quotedRun false fuel c text = some (text ++ w, c.after (w.flatMap jsonChar), false) := by
  induction w generalizing c text fuel with
  | nil =>
    obtain ⟨fuel, rfl⟩ : ∃ n, fuel = n + 1 := ⟨fuel - 1, by simp at hfuel; omega⟩
    rw [List.append_nil]
    exact quotedRun_end (h ▸ hr)
  | cons x w ih =>
    obtain ⟨fuel, rfl⟩ : ∃ n, fuel = n + 1 := ⟨fuel - 1, by simp at hfuel; omega⟩
    rw [List.flatMap_cons, List.append_assoc] at h
    rw [quotedRun_jsonChar (hw x List.mem_cons_self) h,
      ih (fun y hy => hw y (List.mem_cons_of_mem x hy)) (Cursor.rest_after h) (Nat.lt_of_succ_lt_succ hfuel),
      List.flatMap_cons, Cursor.after_append, List.append_assoc, List.singleton_append]

/-! ## 4. Whole texts -/

/-- Whether characters start with three of a kind, before a gap. -/
def isMark (y : Char) (cs : List Char) : Bool :=
  cs.head? = some y && cs[1]? = some y && cs[2]? = some y && cs[3]?.any isGapChar

/-- Whether characters at the start of a line would be taken for the start or the end of a document. -/
def startsDocument (cs : List Char) : Bool := isMark '-' cs || isMark '.' cs

/-- **What is read of a text.** The flag tells whether it stands at the start of a line. -/
def carried? (fresh : Bool) (cs : List Char) : Option (List Char) :=
  if fresh && startsDocument cs then none
  else
    match _h : cs.dropWhile fun x => !isGapChar x with
    | [] => some cs
    | x :: rest =>
      (carried? ((x :: rest.takeWhile isGapChar).getLast? ≠ some ' ') (rest.dropWhile isGapChar)).map fun t =>
        (cs.takeWhile fun x => !isGapChar x) ++ gapText (x :: rest.takeWhile isGapChar) ++ t
termination_by cs.length
decreasing_by
  have hrest := (List.dropWhile_suffix (fun x => !isGapChar x) (l := cs)).length_le
  have hdrop := (List.dropWhile_suffix isGapChar (l := rest)).length_le
  rw [_h] at hrest
  simp only [List.length_cons] at hrest
  omega

theorem jsonChar_cases (x : Char) :
    (jsonChar x = [x] ∧ x ≠ '"' ∧ x ≠ '\\') ∨ ∃ w, jsonChar x = '\\' :: w := by
  unfold jsonChar
  split_ifs with hself
  · exact .inr ⟨_, rfl⟩
  · exact .inr ⟨_, rfl⟩
  · exact .inr ⟨_, rfl⟩
  · exact .inr ⟨_, rfl⟩
  · exact .inr ⟨_, rfl⟩
  · exact .inr ⟨_, rfl⟩
  · exact .inr ⟨_, rfl⟩
  · exact .inl ⟨rfl, by simpa using hself⟩

/-- What stands between quotes, with the closing quote and what follows it. -/
def quotedTail (cs r : List Char) : List Char := cs.flatMap jsonChar ++ '"' :: r

theorem quotedTail_cons (x : Char) (cs r : List Char) : quotedTail (x :: cs) r = jsonChar x ++ quotedTail cs r := by
  rw [quotedTail, List.flatMap_cons, List.append_assoc]
  rfl

theorem head?_quotedTail {y : Char} (hy : jsonChar y = [y]) (hquote : y ≠ '"') (hslash : y ≠ '\\') :
    (quotedTail cs r).head? = some y ↔ cs.head? = some y := by
  cases cs with
  | nil => simpa [quotedTail] using hquote.symm
  | cons x cs =>
    rw [quotedTail_cons]
    obtain ⟨hx, -, -⟩ | ⟨w, hx⟩ := jsonChar_cases x
    · rw [hx]
      rfl
    · rw [hx]
      have hne : x ≠ y := by
        rintro rfl
        rw [hy] at hx
        exact hslash (List.cons.inj hx).1
      simpa [hne] using hslash.symm

theorem isBlankz_of_isGapChar (hx : isGapChar x = true) : isBlankz (some x) = true := by
  obtain rfl | rfl | rfl | rfl := isGapChar_iff.mp hx <;> decide

theorem isBlankz_quotedTail : isBlankz (quotedTail cs r).head? = cs.head?.any isGapChar := by
  cases cs with
  | nil => rfl
  | cons x cs =>
    rw [quotedTail_cons, List.head?_cons, Option.any_some]
    obtain ⟨hx, -, -⟩ | ⟨w, hx⟩ := jsonChar_cases x
    · rw [hx, List.singleton_append, List.head?_cons]
      cases hgap : isGapChar x with
      | true => exact isBlankz_of_isGapChar hgap
      | false =>
        have hcontrol : x ≠ '\t' ∧ x ≠ '\n' ∧ x ≠ '\r' := by
          refine ⟨?_, ?_, ?_⟩ <;> rintro rfl <;> revert hx <;> decide
        obtain ⟨ht, hn, hr⟩ := hcontrol
        rw [isBlankz, isBlank_of_isGapChar_eq_false hgap ht, isBreak_of_isGapChar_eq_false hgap hn hr]
        rfl
    · rw [hx]
      cases hgap : isGapChar x with
      | true =>
        rw [jsonChar_of_isGapChar hgap] at hx
        obtain ⟨rfl, -⟩ := List.cons.inj hx
        cases hgap
      | false => rfl

theorem and_tail_quotedTail (cs r : List Char) {y : Char} (hy : jsonChar y = [y]) (hquote : y ≠ '"') (hslash : y ≠ '\\')
    (f : List Char → Bool) :
    (decide ((quotedTail cs r).head? = some y) && f (quotedTail cs r).tail) =
      (decide (cs.head? = some y) && f (quotedTail cs.tail r)) := by
  by_cases hhead : cs.head? = some y
  · obtain ⟨cs, rfl⟩ := List.head?_eq_some_iff.mp hhead
    rw [quotedTail_cons, hy]
    rfl
  · have hno := mt (head?_quotedTail (r := r) hy hquote hslash).mp hhead
    rw [decide_eq_false hhead, decide_eq_false hno, Bool.false_and, Bool.false_and]

/-- The marks of documents are not escaped. -/
theorem isIndicator_eq {y : Char} (hy : jsonChar y = [y]) (hquote : y ≠ '"') (hslash : y ≠ '\\')
    (h : c.rest = quotedTail cs r) : c.isIndicator y = (decide (c.column = 0) && isMark y cs) := by
  have hone : ∀ l : List Char, l[1]? = l.tail.head? := fun l => by simp [List.head?_eq_getElem?]
  have htwo : ∀ l : List Char, l[2]? = l.tail.tail.head? := fun l => by simp [List.head?_eq_getElem?]
  have hthree : ∀ l : List Char, l[3]? = l.tail.tail.tail.head? := fun l => by simp [List.head?_eq_getElem?]
  have hstep := fun cs => and_tail_quotedTail cs r hy hquote hslash
  simp only [Cursor.isIndicator, Cursor.isAt, Cursor.peek?, Cursor.peekAt?, h, isMark, Bool.and_assoc, hone, htwo,
    hthree]
  rw [hstep cs fun l => l.head? = some y && (l.tail.head? = some y && isBlankz l.tail.tail.head?),
    hstep cs.tail fun l => l.head? = some y && isBlankz l.tail.head?,
    hstep cs.tail.tail fun l => isBlankz l.head?, isBlankz_quotedTail]

theorem atDocumentIndicator_eq (h : c.rest = quotedTail cs r) :
    c.atDocumentIndicator = (decide (c.column = 0) && startsDocument cs) := by
  rw [Cursor.atDocumentIndicator, isIndicator_eq (by decide) (by decide) (by decide) h,
    isIndicator_eq (by decide) (by decide) (by decide) h, startsDocument, Bool.and_or_distrib_left]

theorem length_le_flatMap_jsonChar (cs : List Char) : cs.length ≤ (cs.flatMap jsonChar).length := by
  induction cs with
  | nil => rfl
  | cons x cs ih =>
    have hx : 0 < (jsonChar x).length := by
      obtain ⟨hx, -⟩ | ⟨w, hx⟩ := jsonChar_cases x <;> simp [hx]
    rw [List.flatMap_cons, List.length_append, List.length_cons]
    omega

theorem flatMap_jsonChar_of_gap (hw : ∀ x ∈ w, isGapChar x = true) : w.flatMap jsonChar = w := by
  induction w with
  | nil => rfl
  | cons x w ih =>
    rw [List.flatMap_cons, jsonChar_of_isGapChar (hw x List.mem_cons_self),
      ih fun y hy => hw y (List.mem_cons_of_mem x hy), List.singleton_append]

/-- Behind a gap, a line starts if the gap does not end with a blank. -/
theorem column_after_gap (hw : ∀ x ∈ w, isGapChar x = true) (hne : w ≠ []) :
    decide ((c.after w).column = 0) = decide (w.getLast? ≠ some ' ') := by
  obtain ⟨w, x, rfl⟩ := List.eq_nil_or_concat' w |>.resolve_left hne
  rw [Cursor.column_after_concat, List.getLast?_concat]
  by_cases hspace : x = ' '
  · subst hspace
    simp [isBreak]
  · simp [isBreak_of_isGapChar (hw x (by simp)) hspace, hspace]

theorem isBlank_isBreak_quotedTail (hcs : ∀ x ∈ cs.head?, isGapChar x = false) :
    ∀ y ∈ (quotedTail cs r).head?, isBlank y = false ∧ isBreak y = false := by
  intro y hy
  have hblank : isBlankz (quotedTail cs r).head? = false := by
    rw [isBlankz_quotedTail, Option.any_eq_false]
    exact fun x hx => by simpa using hcs x hx
  rw [hy] at hblank
  simpa [isBlankz] using hblank

theorem peek?_quotedTail (h : c.rest = quotedTail cs r) : c.peek?.isNone = false := by
  simp [Cursor.peek?, h, quotedTail]

/-- The last run of a text. -/
theorem quotedFrom_run (h : c.rest = quotedTail w r) (hw : ∀ x ∈ w, isGapChar x = false)
    (hstart : (decide (c.column = 0) && startsDocument w) = false) :
    quotedFrom false (fuel + 1) c text = some ⟨text ++ w, c.after (w.flatMap jsonChar ++ ['"']), false⟩ := by
  have hafter : (c.after (w.flatMap jsonChar)).rest = '"' :: r := Cursor.rest_after h
  have hat : (c.after (w.flatMap jsonChar)).isAt '"' = true := by
    rw [Cursor.isAt, Cursor.peek?, hafter]
    rfl
  have hskip : (c.after (w.flatMap jsonChar)).skip = c.after (w.flatMap jsonChar ++ ['"']) := by
    rw [Cursor.after_append]
    exact Cursor.skip_one_eq_after _ (by decide)
  have hlength : w.length < c.rest.length + 1 := by
    have := length_le_flatMap_jsonChar w
    simp only [h, quotedTail, List.length_append]
    omega
  rw [quotedFrom, atDocumentIndicator_eq h, hstart, peek?_quotedTail h,
    quotedRun_eq hw ⟨'"', rfl, .inl rfl⟩ h hlength]
  simp [hat, hskip]

/-- A run and the gap behind it. -/
theorem quotedFrom_gap {g : List Char} (h : c.rest = quotedTail (w ++ (g ++ cs)) r)
    (hw : ∀ x ∈ w, isGapChar x = false) (hg : ∀ x ∈ g, isGapChar x = true) (hne : g ≠ [])
    (hcs : ∀ x ∈ cs.head?, isGapChar x = false)
    (hstart : (decide (c.column = 0) && startsDocument (w ++ (g ++ cs))) = false) :
    quotedFrom false (fuel + 1) c text =
      quotedFrom false fuel (c.after (w.flatMap jsonChar ++ g)) (text ++ w ++ gapText g) := by
  have hrest₀ : c.rest = w.flatMap jsonChar ++ (g ++ quotedTail cs r) := by
    rw [h, quotedTail, List.flatMap_append, List.flatMap_append, flatMap_jsonChar_of_gap hg, List.append_assoc,
      List.append_assoc]
    rfl
  have hrest₁ : (c.after (w.flatMap jsonChar)).rest = g ++ quotedTail cs r := Cursor.rest_after hrest₀
  obtain ⟨x, hx, hhead⟩ : ∃ x, isGapChar x = true ∧ ∀ l, (g ++ l).head? = some x := by
    obtain ⟨x, g, rfl⟩ := List.exists_cons_of_ne_nil hne
    exact ⟨x, hg x List.mem_cons_self, fun l => rfl⟩
  have hat : (c.after (w.flatMap jsonChar)).isAt '"' = false := by
    have hquote : x ≠ '"' := by
      rintro rfl
      cases hx
    rw [Cursor.isAt, Cursor.peek?, hrest₁, hhead]
    simpa using hquote
  have hfuel₀ : w.length < c.rest.length + 1 := by
    have := length_le_flatMap_jsonChar w
    rw [hrest₀, List.length_append]
    omega
  have hfuel₁ : g.length < (c.after (w.flatMap jsonChar)).rest.length + 1 := by
    rw [hrest₁, List.length_append]
    omega
  rw [quotedFrom, atDocumentIndicator_eq h, hstart, peek?_quotedTail h,
    quotedRun_eq hw ⟨x, hhead _, .inr hx⟩ hrest₀ hfuel₀]
  simp only [Bool.or_self, Bool.false_eq_true, if_false, hat]
  rw [readGap_eq hg (isBlank_isBreak_quotedTail hcs) { broken := false } hrest₁ hfuel₁, Cursor.after_append]
  rfl

/-- The parts of a text with a gap in it: the run before the gap, the gap, and the rest. -/
theorem gap_parts {x : Char} {rest : List Char} (h : (cs.dropWhile fun x => !isGapChar x) = x :: rest) :
    cs = (cs.takeWhile fun x => !isGapChar x) ++ (x :: rest.takeWhile isGapChar ++ rest.dropWhile isGapChar) ∧
      (∀ y ∈ cs.takeWhile fun x => !isGapChar x, isGapChar y = false) ∧
      (∀ y ∈ x :: rest.takeWhile isGapChar, isGapChar y = true) ∧
      ∀ y ∈ (rest.dropWhile isGapChar).head?, isGapChar y = false := by
  have hx : isGapChar x = true := by
    have hhead : x ∈ (cs.dropWhile fun x => !isGapChar x).head? := by rw [h]; rfl
    simpa using Text.head?_dropWhile hhead
  refine ⟨?_, fun y hy => by simpa using List.mem_takeWhile_imp hy, fun y hy => ?_,
    fun y hy => Text.head?_dropWhile hy⟩
  · rw [List.cons_append, List.takeWhile_append_dropWhile, ← h, List.takeWhile_append_dropWhile]
  · obtain rfl | hy := List.mem_cons.mp hy
    · exact hx
    · exact List.mem_takeWhile_imp hy

/-- **What is read up to the closing quote is what the text carries.** -/
theorem quotedFrom_eq (h : c.rest = quotedTail cs r) (hfuel : cs.length < fuel) :
    quotedFrom false fuel c text =
      (carried? (c.column = 0) cs).map fun t => ⟨text ++ t, c.after (cs.flatMap jsonChar ++ ['"']), false⟩ := by
  obtain ⟨fuel, rfl⟩ : ∃ n, fuel = n + 1 := ⟨fuel - 1, by omega⟩
  generalize hfresh : decide (c.column = 0) = fresh
  fun_induction carried? fresh cs generalizing c text fuel with
  | case1 fresh cs hstart =>
    rw [quotedFrom, atDocumentIndicator_eq h, hfresh, hstart]
    rfl
  | case2 fresh cs hstart hrun =>
    have hall : ∀ x ∈ cs, isGapChar x = false := by simpa using hrun
    rw [quotedFrom_run h hall (by rw [hfresh]; exact Bool.eq_false_iff.mpr hstart)]
    rfl
  | case3 fresh cs hstart x rest hrest ih =>
    obtain ⟨hcs, hrun, hgap, htail⟩ := gap_parts hrest
    generalize (cs.takeWhile fun x => !isGapChar x) = w at *
    generalize hg : x :: rest.takeWhile isGapChar = g at *
    generalize rest.dropWhile isGapChar = tl at *
    subst hcs
    have hne : g ≠ [] := by
      rw [← hg]
      exact List.cons_ne_nil _ _
    have hpos : 0 < g.length := List.length_pos_iff.mpr hne
    simp only [List.length_append] at hfuel
    obtain ⟨fuel, rfl⟩ : ∃ n, fuel = n + 1 := ⟨fuel - 1, by omega⟩
    have hnext : (c.after (w.flatMap jsonChar ++ g)).rest = quotedTail tl r := by
      refine Cursor.rest_after ?_
      rw [h, quotedTail, List.flatMap_append, List.flatMap_append, flatMap_jsonChar_of_gap hgap]
      simp [quotedTail]
    have hcolumn : decide ((c.after (w.flatMap jsonChar ++ g)).column = 0) = decide (g.getLast? ≠ some ' ') := by
      rw [Cursor.after_append]
      exact column_after_gap hgap hne
    rw [quotedFrom_gap h hrun hgap hne htail (by rw [hfresh]; exact Bool.eq_false_iff.mpr hstart),
      ih hnext fuel (by omega) hcolumn, Option.map_map]
    congr 1
    funext t
    simp [List.flatMap_append, flatMap_jsonChar_of_gap hgap, ← Cursor.after_append]

/-- **A text between quotes is read as what it carries**, whatever follows. -/
theorem scanQuoted_jsonText {s : String} (h : c.rest = (jsonText s).toList ++ r) :
    scanQuoted false c =
      (carried? false s.toList).map fun t => ⟨t, c.after (jsonText s).toList, false⟩ := by
  have hspelled : (jsonText s).toList = '"' :: (s.toList.flatMap jsonChar ++ ['"']) := by simp [jsonText]
  have hskip : c.skip = c.after ['"'] := c.skip_one_eq_after (by decide)
  have hnext : (c.after ['"']).rest = quotedTail s.toList r := by
    refine Cursor.rest_after ?_
    simp [h, hspelled, quotedTail]
  have hlength : s.toList.length < c.rest.length + 1 := by
    have := length_le_flatMap_jsonChar s.toList
    simp only [h, hspelled, List.length_append, List.length_cons]
    omega
  have hcolumn : decide ((c.after ['"']).column = 0) = false :=
    decide_eq_false (Nat.succ_ne_zero c.column)
  have hafter : c.after ('"' :: (s.toList.flatMap jsonChar ++ ['"'])) = (c.after ['"']).after _ :=
    Cursor.after_append c ['"'] _
  rw [scanQuoted, hskip, quotedFrom_eq hnext hlength, hcolumn, hspelled, hafter]
  rfl

/-! ## 5. Texts that last -/

/-- **Whether a text is read as it is.** A next-line character is read as something else; so are blanks beside a
    separator of lines; and behind a separator there is no mark of a document. -/
def lasts : List Char → Bool
  | [] => true
  | x :: cs =>
    x ≠ '\x85' && !(x = ' ' && cs.head?.any isSeparator) &&
      !(isSeparator x && (cs.head? = some ' ' || startsDocument cs)) && lasts cs

theorem lasts_run (hw : ∀ x ∈ w, isGapChar x = false) (cs : List Char) : lasts (w ++ cs) = lasts cs := by
  induction w with
  | nil => rfl
  | cons x w ih =>
    have hgap := mt isGapChar_iff.mpr (Bool.eq_false_iff.mp (hw x List.mem_cons_self))
    simp only [not_or] at hgap
    obtain ⟨hspace, hnext, hline, hparagraph⟩ := hgap
    rw [List.cons_append, lasts, ih fun y hy => hw y (List.mem_cons_of_mem x hy)]
    simp [hspace, hnext, isSeparator, hline, hparagraph]

/-- The gaps that are read as they are: blanks only, or separators only. -/
def IsFirm (g : List Char) : Prop := (∀ x ∈ g, x = ' ') ∨ ∀ x ∈ g, isSeparator x = true

/-- What the ends of lines in a gap stand for: a blank for one, and one less for more. -/
def foldBreaks : List Char → List Char
  | [] => []
  | b :: bs =>
    if isSeparator b then b :: bs.flatMap breakText
    else if bs.isEmpty then [' '] else bs.flatMap breakText

theorem foldl_add_of_broken (hw : ∀ x ∈ w, isGapChar x = true) (g : Gap) (hg : g.broken = true) :
    w.foldl Gap.add g = { g with more := g.more ++ (w.filter (· ≠ ' ')).flatMap breakText } := by
  induction w generalizing g with
  | nil => simp
  | cons x w ih =>
    have hall := fun y hy => hw y (List.mem_cons_of_mem x hy)
    by_cases hspace : x = ' '
    · simp [Gap.add, hspace, hg, ih hall g hg]
    · simp [Gap.add, hspace, hg, ih hall]

theorem foldl_add_of_blanks (hw : ∀ x ∈ w, x = ' ') (g : Gap) (hg : g.broken = false) :
    w.foldl Gap.add g = { g with blanks := g.blanks ++ w } := by
  induction w generalizing g with
  | nil => simp
  | cons x w ih =>
    rw [List.foldl_cons, ih (fun y hy => hw y (List.mem_cons_of_mem x hy)) _ (by simp [Gap.add, hw, hg])]
    simp [Gap.add, hw, hg]

theorem gapText_of_blanks (hw : ∀ x ∈ w, x = ' ') : gapText w = w := by
  rw [gapText, foldl_add_of_blanks hw {} rfl]
  rfl

theorem length_flatMap_breakText (bs : List Char) : (bs.flatMap breakText).length = bs.length := by
  have hone : ∀ x, (breakText x).length = 1 := by
    intro x
    unfold breakText
    split <;> rfl
  simp [List.length_flatMap, hone]

theorem flatMap_breakText_of_separators (hw : ∀ x ∈ w, isSeparator x = true) : w.flatMap breakText = w := by
  induction w with
  | nil => rfl
  | cons x w ih =>
    rw [List.flatMap_cons, breakText, hw x List.mem_cons_self, if_pos rfl,
      ih fun y hy => hw y (List.mem_cons_of_mem x hy), List.singleton_append]

/-- **The text of a gap in which lines end.** The blanks in it are lost. -/
theorem text_foldl_add_of_broken (hw : ∀ x ∈ w, isGapChar x = true) (hbroken : ∃ x ∈ w, x ≠ ' ') (g : Gap)
    (hg : g.broken = false) (hmore : g.more = []) :
    (w.foldl Gap.add g).text = foldBreaks (w.filter (· ≠ ' ')) := by
  induction w generalizing g with
  | nil => simp at hbroken
  | cons x w ih =>
    have hall := fun y hy => hw y (List.mem_cons_of_mem x hy)
    rw [List.foldl_cons]
    by_cases hspace : x = ' '
    · rw [ih hall (by simpa [hspace] using hbroken) _ (by simp [Gap.add, hspace, hg])
        (by simp [Gap.add, hspace, hg, hmore])]
      simp [hspace]
    · have hadd : g.add x = { g with broken := true, first := breakText x } := by simp [Gap.add, hspace, hg]
      rw [hadd, foldl_add_of_broken hall _ rfl, List.filter_cons_of_pos (by simpa using hspace), foldBreaks]
      generalize w.filter (· ≠ ' ') = bs
      cases hx : isSeparator x with
      | true =>
        have hfirst : breakText x = [x] := by rw [breakText, hx, if_pos rfl]
        have hne : x ≠ '\n' := by
          rintro rfl
          cases hx
        simp [Gap.text, hfirst, hne, hmore]
      | false =>
        have hfirst : breakText x = ['\n'] := by rw [breakText, hx]; rfl
        have hempty : (bs.flatMap breakText).isEmpty = bs.isEmpty := by
          rw [Bool.eq_iff_iff, List.isEmpty_iff_length_eq_zero, List.isEmpty_iff_length_eq_zero,
            length_flatMap_breakText]
        simp [Gap.text, hfirst, hmore, hempty]

theorem gapText_of_broken (hw : ∀ x ∈ w, isGapChar x = true) (hbroken : ∃ x ∈ w, x ≠ ' ') :
    gapText w = foldBreaks (w.filter (· ≠ ' ')) :=
  text_foldl_add_of_broken hw hbroken {} rfl rfl

theorem length_foldBreaks_le (bs : List Char) : (foldBreaks bs).length ≤ bs.length := by
  cases bs with
  | nil => rfl
  | cons b bs =>
    rw [foldBreaks]
    split_ifs
    · rw [List.length_cons, List.length_cons, length_flatMap_breakText]
    · exact Nat.succ_le_succ (Nat.zero_le _)
    · rw [length_flatMap_breakText, List.length_cons]
      omega

theorem length_gapText_le (hw : ∀ x ∈ w, isGapChar x = true) : (gapText w).length ≤ w.length := by
  by_cases hbroken : ∃ x ∈ w, x ≠ ' '
  · rw [gapText_of_broken hw hbroken]
    exact (length_foldBreaks_le _).trans (List.length_filter_le _ _)
  · rw [gapText_of_blanks (by simpa using hbroken)]

theorem mem_foldBreaks {bs : List Char} (hx : x ∈ foldBreaks bs) : x = ' ' ∨ x = '\n' ∨ isSeparator x = true := by
  have hflat : ∀ bs : List Char, x ∈ bs.flatMap breakText → x = '\n' ∨ isSeparator x = true := by
    intro bs h
    obtain ⟨b, -, hb⟩ := List.mem_flatMap.mp h
    unfold breakText at hb
    split at hb
    · rename_i hsep
      obtain rfl := List.mem_singleton.mp hb
      exact .inr hsep
    · exact .inl (List.mem_singleton.mp hb)
  cases bs with
  | nil => cases hx
  | cons b bs =>
    rw [foldBreaks] at hx
    split_ifs at hx with hb
    · obtain rfl | hx := List.mem_cons.mp hx
      · exact .inr (.inr hb)
      · exact .inr (hflat bs hx)
    · exact .inl (List.mem_singleton.mp hx)
    · exact .inr (hflat bs hx)

/-- **A gap is read as it is exactly if it is firm.** -/
theorem gapText_eq_self_iff (hw : ∀ x ∈ w, isGapChar x = true) : gapText w = w ↔ IsFirm w := by
  by_cases hbroken : ∃ x ∈ w, x ≠ ' '
  · rw [gapText_of_broken hw hbroken]
    constructor
    · intro h
      -- nothing may be lost, so there are no blanks
      have hlength : (w.filter (· ≠ ' ')).length = w.length := by
        refine Nat.le_antisymm (List.length_filter_le _ _) ?_
        calc w.length = (foldBreaks (w.filter (· ≠ ' '))).length := by rw [h]
          _ ≤ _ := length_foldBreaks_le _
      have hspace : ∀ x ∈ w, x ≠ ' ' := by simpa using List.length_filter_eq_length_iff.mp hlength
      refine .inr fun x hx => ?_
      have hmem : x ∈ foldBreaks (w.filter (· ≠ ' ')) := by rwa [h]
      obtain rfl | rfl | hsep := mem_foldBreaks hmem
      · exact absurd rfl (hspace _ hx)
      · cases hw _ hx
      · exact hsep
    · rintro (hblank | hsep)
      · obtain ⟨x, hx, hne⟩ := hbroken
        exact absurd (hblank x hx) hne
      · have hfilter : w.filter (· ≠ ' ') = w := by
          refine List.filter_eq_self.mpr fun x hx => ?_
          have hx := hsep x hx
          rw [decide_eq_true_eq]
          rintro rfl
          cases hx
        rw [hfilter]
        cases w with
        | nil => rfl
        | cons b bs =>
          rw [foldBreaks, hsep b List.mem_cons_self, if_pos rfl,
            flatMap_breakText_of_separators fun y hy => hsep y (List.mem_cons_of_mem b hy)]
  · have hblank : ∀ x ∈ w, x = ' ' := by simpa using hbroken
    exact iff_of_true (gapText_of_blanks hblank) (.inl hblank)

theorem length_carried?_le {fresh : Bool} {t : List Char} (h : carried? fresh cs = some t) :
    t.length ≤ cs.length := by
  fun_induction carried? fresh cs generalizing t with
  | case1 => cases h
  | case2 =>
    cases h
    exact Nat.le_refl _
  | case3 fresh cs hstart x rest hrest ih =>
    obtain ⟨hcs, -, hgap, -⟩ := gap_parts hrest
    obtain ⟨t, ht, rfl⟩ := Option.map_eq_some_iff.mp h
    have hlength := congrArg List.length hcs
    have htail := ih ht
    have hfold := length_gapText_le hgap
    simp only [List.length_append] at hlength ⊢
    omega

theorem foldBreaks_ne_nil {bs : List Char} (h : bs ≠ []) : foldBreaks bs ≠ [] := by
  cases bs with
  | nil => exact absurd rfl h
  | cons b bs =>
    rw [foldBreaks]
    split_ifs with hb hbs
    · exact List.cons_ne_nil _ _
    · exact List.cons_ne_nil _ _
    · rw [← List.length_pos_iff, length_flatMap_breakText, List.length_pos_iff]
      simpa using hbs

theorem gapText_ne_nil (hw : ∀ x ∈ w, isGapChar x = true) (hne : w ≠ []) : gapText w ≠ [] := by
  by_cases hbroken : ∃ x ∈ w, x ≠ ' '
  · rw [gapText_of_broken hw hbroken]
    refine foldBreaks_ne_nil fun hempty => ?_
    obtain ⟨x, hx, hspace⟩ := hbroken
    simpa [hspace] using List.filter_eq_nil_iff.mp hempty x hx
  · rwa [gapText_of_blanks (by simpa using hbroken)]

/-- Something is read of every text that is not empty. -/
theorem eq_nil_of_carried? {fresh : Bool} (h : carried? fresh cs = some []) : cs = [] := by
  rw [carried?] at h
  split_ifs at h
  split at h
  · exact Option.some.inj h
  · rename_i x rest hrest
    obtain ⟨-, -, hgap, -⟩ := gap_parts hrest
    obtain ⟨t, -, hnil⟩ := Option.map_eq_some_iff.mp h
    exact absurd (List.append_eq_nil_iff.mp (List.append_eq_nil_iff.mp hnil).1).2
      (gapText_ne_nil hgap (List.cons_ne_nil _ _))

/-- A gap of two characters and more is firm if its first two characters are alike and the rest is firm. -/
theorem isFirm_cons_cons_iff {y : Char} {g : List Char} (hx : isGapChar x = true) (hy : isGapChar y = true) :
    IsFirm (x :: y :: g) ↔
      (x ≠ '\x85' ∧ (x ≠ ' ' ∨ isSeparator y = false) ∧ (isSeparator x = false ∨ y ≠ ' ')) ∧ IsFirm (y :: g) := by
  obtain rfl | rfl | rfl | rfl := isGapChar_iff.mp hx <;> obtain rfl | rfl | rfl | rfl := isGapChar_iff.mp hy <;>
    simp [IsFirm, isSeparator]

theorem startsDocument_of_gap {y : Char} (hy : isGapChar y = true) (cs : List Char) :
    startsDocument (y :: cs) = false := by
  obtain rfl | rfl | rfl | rfl := isGapChar_iff.mp hy <;> rfl

/-- A gap lasts if it is firm and no mark of a document stands behind it. -/
theorem lasts_gap {g : List Char} (hg : ∀ x ∈ g, isGapChar x = true) (hne : g ≠ [])
    (hcs : ∀ x ∈ cs.head?, isGapChar x = false) :
    lasts (g ++ cs) = true ↔
      IsFirm g ∧ (decide (g.getLast? ≠ some ' ') && startsDocument cs) = false ∧ lasts cs = true := by
  induction g with
  | nil => exact absurd rfl hne
  | cons x g ih =>
    have hx := hg x List.mem_cons_self
    cases g with
    | nil =>
      have hsep : cs.head?.any isSeparator = false := by
        rw [Option.any_eq_false]
        intro y hy
        have hgap := hcs y hy
        rw [isGapChar] at hgap
        rw [isSeparator]
        simp_all
      have hspace : cs.head? ≠ some ' ' := fun h => by cases hcs _ h
      rw [List.singleton_append, lasts, hsep]
      obtain rfl | rfl | rfl | rfl := isGapChar_iff.mp hx <;> simp [IsFirm, isSeparator, hspace]
    | cons y g =>
      have hy := hg y (List.mem_cons_of_mem x List.mem_cons_self)
      have hih := ih (fun z hz => hg z (List.mem_cons_of_mem x hz)) (List.cons_ne_nil y g)
      rw [List.cons_append, lasts, List.getLast?_cons_cons, isFirm_cons_cons_iff hx hy, and_assoc, ← hih,
        List.cons_append, startsDocument_of_gap hy]
      simp [and_assoc]

/-- **A text is read as it is exactly if it lasts**; at the start of a line it must not start with a mark of a
    document either. -/
theorem carried?_eq_self_iff {fresh : Bool} :
    carried? fresh cs = some cs ↔ (fresh && startsDocument cs) = false ∧ lasts cs = true := by
  fun_induction carried? fresh cs with
  | case1 fresh cs hstart => simp [hstart]
  | case2 fresh cs hstart hrun =>
    have hall : ∀ x ∈ cs, isGapChar x = false := by simpa using hrun
    have hlasts := lasts_run hall []
    rw [List.append_nil] at hlasts
    exact iff_of_true rfl ⟨Bool.eq_false_iff.mpr hstart, hlasts⟩
  | case3 fresh cs hstart x rest hrest ih =>
    obtain ⟨hcs, hrun, hgap, htail⟩ := gap_parts hrest
    generalize (cs.takeWhile fun x => !isGapChar x) = w at *
    generalize hg : x :: rest.takeWhile isGapChar = g at *
    generalize rest.dropWhile isGapChar = tl at *
    subst hcs
    have hne : g ≠ [] := by
      rw [← hg]
      exact List.cons_ne_nil _ _
    rw [lasts_run hrun, lasts_gap hgap hne htail, ← ih, ← gapText_eq_self_iff hgap,
      Bool.eq_false_iff.mpr hstart, Option.map_eq_some_iff]
    constructor
    · rintro ⟨t, ht, h⟩
      -- nothing gets longer, so the parts are the same
      have hlength := length_carried?_le ht
      have hfold := length_gapText_le hgap
      rw [List.append_assoc] at h
      have hparts := List.append_cancel_left h
      have hlengths := congrArg List.length hparts
      simp only [List.length_append] at hlengths
      obtain ⟨hgap', rfl⟩ := List.append_inj hparts (by omega)
      exact ⟨rfl, hgap', ht⟩
    · rintro ⟨-, hgap', ht⟩
      exact ⟨tl, ht, by rw [hgap', List.append_assoc]⟩

end Lasso.Yaml
