import Lasso.Proofs.Yaml.Carried
/-!
# The tokens of messages

What the scanner of documents does at each token that occurs in a message. Outside of block collections, where no
key is required (`Scanner.Free`), blanks and indentation play no part.

* `Scanner.Steps` -- the scanner reads tokens one by one;
* `Free.step_open`, `Free.step_close`, `Free.step_comma`, `Free.step_colon` -- brackets, commas and colons; **a
  colon makes a key of what stands before it, if that is near**;
* `Free.step_text` -- **a text between quotes is read as what it carries**, or the scanner stops;
* `Free.step_word` -- numbers and words; the text of a number is a word (`isWord_text`).
-/

namespace Lasso.Yaml

open Message (jsonText)

namespace Scanner

/-! ## 1. Steps -/

/-- **The scanner takes some steps**; the text has not ended before any of them. -/
inductive Steps : Nat → Scanner → Scanner → Prop where
  | refl (s : Scanner) : Steps 0 s s
  | step {n : Nat} {s s' s'' : Scanner} (hgoes : s.tokens.back? ≠ some .streamEnd) (h : s.step = some s')
      (hrest : Steps n s' s'') : Steps (n + 1) s s''

variable {n m fuel : Nat} {s s' s'' : Scanner} {c : Cursor} {x : Char} {r w : List Char} {t : Token}

theorem Steps.one (hgoes : s.tokens.back? ≠ some .streamEnd) (h : s.step = some s') : Steps 1 s s' :=
  .step hgoes h (.refl s')

theorem Steps.trans (h : Steps n s s') (h' : Steps m s' s'') : Steps (n + m) s s'' := by
  induction h with
  | refl s => rwa [Nat.zero_add]
  | step hgoes hstep _ ih =>
    rw [Nat.add_right_comm]
    exact .step hgoes hstep (ih h')

theorem Steps.run_eq (h : Steps n s s') (fuel : Nat) : run (n + fuel) s = run fuel s' := by
  induction h with
  | refl s => rw [Nat.zero_add]
  | step hgoes hstep _ ih =>
    rw [Nat.add_right_comm, run, if_neg hgoes, hstep]
    exact ih

theorem run_of_ended (h : s.tokens.back? = some .streamEnd) : run (fuel + 1) s = (s, true) := by
  rw [run, if_pos h]

theorem run_of_stuck (hgoes : s.tokens.back? ≠ some .streamEnd) (h : s.step = none) :
    run (fuel + 1) s = (s, false) := by
  rw [run, if_neg hgoes, h]

/-- What follows a token: no blank and no comment. -/
def Quiet (r : List Char) : Prop := ∀ y ∈ r.head?, isBlank y = false ∧ y ≠ '#'

theorem skipWhile_eq_self {p : Char → Bool} (h : ∀ y ∈ c.rest.head?, p y = false) : c.skipWhile p = c := by
  have htake : c.rest.takeWhile p = [] := by
    cases hrest : c.rest with
    | nil => rfl
    | cons y r => rw [List.takeWhile_cons_of_neg (by rw [h y (by rw [hrest]; rfl)]; exact Bool.false_ne_true)]
  rw [Cursor.skipWhile, Cursor.takeWhile, htake]
  rfl

theorem lineComment_eq_self (h : Quiet s.cursor.rest) : s.lineComment = s := by
  have hskip : s.cursor.skipWhile isBlank = s.cursor := skipWhile_eq_self fun y hy => (h y hy).1
  have hat : s.cursor.isAt '#' = false := by
    rw [Cursor.isAt, decide_eq_false_iff_not]
    exact fun hy => (h '#' hy).2 rfl
  rw [lineComment, hskip]
  simp [hat]

theorem toToken_eq_self (h : Quiet s.cursor.rest) (hbreak : ∀ y ∈ s.cursor.rest.head?, isBreak y = false) :
    s.toToken (fuel + 1) = s := by
  have hskip : (s.cursor.skipWhile fun x => x = ' ' || ((s.flow > 0 || !s.keyAllowed) && x = '\t')) = s.cursor := by
    refine skipWhile_eq_self fun y hy => ?_
    have hblank := (h y hy).1
    simp only [isBlank, Bool.or_eq_false_iff, decide_eq_false_iff_not] at hblank
    simp [hblank]
  have hat : s.cursor.isAt '#' = false := by
    rw [Cursor.isAt, decide_eq_false_iff_not]
    exact fun hy => (h '#' hy).2 rfl
  have htest : s.cursor.test isBreak = false := by
    rw [Cursor.test, Option.any_eq_false]
    exact hbreak
  rw [toToken]
  simp [hskip, hat, htest]

/-- A state outside of block collections, in which no key is required. -/
structure Free (s : Scanner) : Prop where
  level : 0 < s.flow ∨ s.indents = [] ∧ s.indent = -1
  keys : s.keys ≠ []
  loose : ∀ k ∈ s.key?, k.required = false
  goes : s.tokens.back? ≠ some .streamEnd

theorem Free.unroll_eq (h : s.Free) (column : Int) : s.unroll column = s := by
  unfold unroll
  obtain hflow | ⟨hindents, -⟩ := h.level
  · rw [if_pos hflow]
  · split
    · rfl
    · rw [hindents]
      rfl

/-- **A token is read where it stands.** -/
theorem Free.step_eq (h : s.Free) (hrest : s.cursor.rest = x :: r) (hx : isBlank x = false ∧ x ≠ '#')
    (hbreak : isBreak x = false) (hmark : s.cursor.column = 0 → x ≠ '%' ∧ x ≠ '-' ∧ x ≠ '.') :
    s.step = (s.tokenAt x).map fun p =>
      if p.2 || p.1.tokens.back? = some .blockEntry then p.1 else p.1.lineComment := by
  have hquiet : Quiet s.cursor.rest := by
    rw [hrest]
    rintro y ⟨⟩
    exact hx
  have hbreaks : ∀ y ∈ s.cursor.rest.head?, isBreak y = false := by
    rw [hrest]
    rintro y ⟨⟩
    exact hbreak
  have hpeek : s.cursor.peek? = some x := by rw [Cursor.peek?, hrest]; rfl
  have hdirective : (decide (s.cursor.column = 0) && decide (x = '%')) = false := by
    by_cases hcolumn : s.cursor.column = 0
    · simp [(hmark hcolumn).1]
    · simp [hcolumn]
  have hindicator : ∀ y, (s.cursor.column = 0 → x ≠ y) → s.cursor.isIndicator y = false := by
    intro y hy
    by_cases hcolumn : s.cursor.column = 0
    · simp [Cursor.isIndicator, Cursor.isAt, hpeek, hy hcolumn]
    · simp [Cursor.isIndicator, hcolumn]
  rw [step, toToken_eq_self hquiet hbreaks]
  simp only [h.unroll_eq, hpeek, hdirective, hindicator '-' fun hc => (hmark hc).2.1,
    hindicator '.' fun hc => (hmark hc).2.2]
  cases s.tokenAt x with
  | none => rfl
  | some p => rfl

/-! ## 2. Keys -/

/-- The possible key behind the token to come. -/
def noted (s : Scanner) : Option KeyPlace :=
  if s.keyAllowed then some ⟨s.tokens.size, false, s.cursor.index, s.cursor.line, s.cursor.column⟩ else s.key?

theorem Free.keys_eq (h : s.Free) : s.keys = s.key? :: s.keys.tail := by
  obtain ⟨k?, ks, hkeys⟩ := List.exists_cons_of_ne_nil h.keys
  rw [key?, hkeys]
  rfl

theorem Free.dropKey_eq (h : s.Free) : s.dropKey = some { s with keys := none :: s.keys.tail } := by
  unfold dropKey
  cases hk : s.key? with
  | none =>
    have hkeys := h.keys_eq
    rw [hk] at hkeys
    simp only [← hkeys]
  | some k =>
    simp only [h.loose k hk]
    rfl

theorem Free.saveKey_eq (h : s.Free) : s.saveKey = some { s with keys := s.noted :: s.keys.tail } := by
  unfold saveKey noted
  by_cases hallowed : s.keyAllowed = true
  · have hrequired : (decide (s.flow = 0) && decide (s.indent = s.cursor.column)) = false := by
      obtain hflow | ⟨-, hindent⟩ := h.level
      · simp [Nat.ne_of_gt hflow]
      · have : s.indent ≠ s.cursor.column := by omega
        simp [this]
    rw [if_neg (by simp [hallowed]), if_pos hallowed]
    dsimp only
    rw [hrequired, h.dropKey_eq]
    rfl
  · rw [if_pos (by simp [hallowed]), if_neg hallowed, ← h.keys_eq]

theorem Free.noted_loose (h : s.Free) : ∀ k ∈ s.noted, k.required = false := by
  unfold noted
  split
  · rintro k ⟨⟩
    rfl
  · exact h.loose

/-! ## 3. Tokens -/

/-- A character that is a token by itself. -/
theorem Free.step_mark (h : s.Free) (hx : x = '[' ∨ x = ']' ∨ x = '\x7b' ∨ x = '\x7d' ∨ x = ',' ∨ x = ':')
    (hrest : s.cursor.rest = x :: r) (hr : Quiet r) (hat : s.tokenAt x = some (s', false))
    (hcursor : s'.cursor = s.cursor.skip) (hback : s'.tokens.back? ≠ some .blockEntry) :
    s.step = some { s' with cursor := s.cursor.after [x] } := by
  have hplain : (isBlank x = false ∧ x ≠ '#') ∧ isBreak x = false ∧ x ≠ '%' ∧ x ≠ '-' ∧ x ≠ '.' := by
    obtain rfl | rfl | rfl | rfl | rfl | rfl := hx <;> decide
  rw [s.cursor.skip_one_eq_after hplain.2.1] at hcursor
  have hquiet : Quiet s'.cursor.rest := by
    rw [hcursor, Cursor.rest_after hrest]
    exact hr
  rw [h.step_eq hrest hplain.1 hplain.2.1 fun _ => hplain.2.2, hat, ← hcursor]
  simp only [Option.map_some, Bool.false_or, decide_eq_false hback]
  exact congrArg some (lineComment_eq_self hquiet)

/-- An opening bracket. -/
theorem Free.step_open (h : s.Free) (hx : x = '[' ∧ t = .flowSequenceStart ∨ x = '\x7b' ∧ t = .flowMappingStart)
    (hrest : s.cursor.rest = x :: r) (hr : Quiet r) :
    s.step = some { s with
      cursor := s.cursor.after [x], tokens := s.tokens.push t, flow := s.flow + 1,
      keys := none :: s.noted :: s.keys.tail, keyAllowed := true } := by
  have hat : s.tokenAt x = (s.openFlow t).map (·, false) := by
    obtain ⟨rfl, rfl⟩ | ⟨rfl, rfl⟩ := hx <;> rfl
  rw [openFlow, h.saveKey_eq] at hat
  refine h.step_mark ?_ hrest hr hat rfl ?_
  · obtain ⟨rfl, -⟩ | ⟨rfl, -⟩ := hx <;> decide
  · obtain ⟨-, rfl⟩ | ⟨-, rfl⟩ := hx <;> simp [emit, push]

/-- A closing bracket. -/
theorem Free.step_close (h : s.Free) (hx : x = ']' ∧ t = .flowSequenceEnd ∨ x = '\x7d' ∧ t = .flowMappingEnd)
    (hflow : 0 < s.flow) (hrest : s.cursor.rest = x :: r) (hr : Quiet r) :
    s.step = some { s with
      cursor := s.cursor.after [x], tokens := s.tokens.push t, flow := s.flow - 1, keys := s.keys.tail,
      keyAllowed := false } := by
  have hat : s.tokenAt x = (s.closeFlow t).map (·, false) := by
    obtain ⟨rfl, rfl⟩ | ⟨rfl, rfl⟩ := hx <;> rfl
  rw [closeFlow, h.dropKey_eq] at hat
  simp only [bind, Option.bind, if_pos hflow] at hat
  refine h.step_mark ?_ hrest hr hat rfl ?_
  · obtain ⟨rfl, -⟩ | ⟨rfl, -⟩ := hx <;> decide
  · obtain ⟨-, rfl⟩ | ⟨-, rfl⟩ := hx <;> simp [emit, push]

/-- The comma in front of another part. -/
theorem Free.step_comma (h : s.Free) (hrest : s.cursor.rest = ',' :: r) (hr : Quiet r) :
    s.step = some { s with
      cursor := s.cursor.after [','], tokens := s.tokens.push .flowEntry, keys := none :: s.keys.tail,
      keyAllowed := true } := by
  have hat : s.tokenAt ',' = s.dropKey.bind fun s => some ({ s.emit 1 .flowEntry with keyAllowed := true }, false) :=
    rfl
  rw [h.dropKey_eq] at hat
  exact h.step_mark (by decide) hrest hr hat rfl (by simp [emit, push])

/-- A scalar that may be a key. -/
theorem Free.step_scalar (h : s.Free) (text : List Char) (style : Style) (hrest : s.cursor.rest = w ++ r) (hr : Quiet r)
    (hx : ∀ x ∈ w.head?, (isBlank x = false ∧ x ≠ '#') ∧ isBreak x = false ∧
      (s.cursor.column = 0 → x ≠ '%' ∧ x ≠ '-' ∧ x ≠ '.'))
    (hat : ∀ x ∈ w.head?, s.tokenAt x = s.saveKey.bind fun s' =>
      some (s'.addNode (.scalar (String.ofList text) style) (s.cursor.after w) false, false)) (hw : w ≠ []) :
    s.step = some { s with
      cursor := s.cursor.after w, tokens := s.tokens.push (.scalar (String.ofList text) style),
      keys := s.noted :: s.keys.tail, keyAllowed := false } := by
  obtain ⟨x, v, rfl⟩ := List.exists_cons_of_ne_nil hw
  obtain ⟨hquiet, hbreak, hmark⟩ := hx x rfl
  rw [h.step_eq hrest hquiet hbreak hmark, hat x rfl, h.saveKey_eq]
  simp only [Option.bind_some, Option.map_some, Bool.false_or, addNode, push, Array.back?_push]
  exact congrArg some (lineComment_eq_self (by rw [Cursor.rest_after hrest]; exact hr))

/-- **A text between quotes**: it is read as what it carries, or the scanner stops. -/
theorem Free.step_text (h : s.Free) {text : String} (hrest : s.cursor.rest = (jsonText text).toList ++ r)
    (hr : Quiet r) :
    s.step = (carried? false text.toList).map fun cs => { s with
      cursor := s.cursor.after (jsonText text).toList
      tokens := s.tokens.push (.scalar (String.ofList cs) .doubleQuoted)
      keys := s.noted :: s.keys.tail
      keyAllowed := false } := by
  have hquote : ∀ x ∈ (jsonText text).toList.head?, x = '"' := by simp [jsonText]
  have hscan := scanQuoted_jsonText hrest
  have hat : s.tokenAt '"' = s.saveKey.bind fun s' => (scanQuoted false s.cursor).bind fun r =>
      some (s'.addNode (.scalar (String.ofList r.text) .doubleQuoted) r.cursor r.broken, r.broken) := rfl
  cases hcarried : carried? false text.toList with
  | none =>
    rw [hcarried] at hscan
    have hhead : s.cursor.rest = '"' :: ((text.toList.flatMap Message.jsonChar ++ ['"']) ++ r) := by
      simp [hrest, jsonText]
    rw [h.step_eq hhead (by decide) (by decide) (fun _ => by decide), hat, hscan, h.saveKey_eq]
    rfl
  | some cs =>
    rw [hcarried] at hscan
    refine h.step_scalar _ _ hrest hr (fun x hx => ?_) (fun x hx => ?_) (by simp [jsonText])
    · rw [hquote x hx]
      exact ⟨by decide, by decide, fun _ => by decide⟩
    · rw [hquote x hx, hat, hscan]
      rfl

/-- The colon behind a possible key: the key is put in front of it if it is near. -/
theorem Free.step_colon (h : s.Free) (hflow : 0 < s.flow) {k : KeyPlace} (hk : s.key? = some k)
    (hrest : s.cursor.rest = ':' :: r) (hr : Quiet r) :
    s.step = some { s with
      cursor := s.cursor.after [':']
      tokens := (if k.isNear s.cursor then s.tokens.insertIdxIfInBounds k.token .key else s.tokens).push .value
      keys := none :: s.keys.tail
      keyAllowed := false } := by
  have hvalue : s.value = some { s with
      cursor := s.cursor.skip
      tokens := (if k.isNear s.cursor then s.tokens.insertIdxIfInBounds k.token .key else s.tokens).push .value
      keys := none :: s.keys.tail
      keyAllowed := false } := by
    unfold value
    rw [hk]
    cases hnear : k.isNear s.cursor with
    | true => simp [hnear, roll, hflow, setKey, emit, push]
    | false => simp [hnear, h.loose k hk, roll, hflow, setKey, emit, push, Nat.ne_of_gt hflow]
  have hat : s.tokenAt ':' = s.value.map (·, false) := by
    simp [tokenAt, hflow]
  rw [hvalue] at hat
  exact h.step_mark (by decide) hrest hr hat rfl (by simp)

end Scanner

/-! ## 4. Words -/

/-- The characters of numbers and words. -/
def isWordChar (x : Char) : Bool := x.isAlphanum || x = '+' || x = '-' || x = '.'

/-- **A number or a word**, such as stands between commas. -/
structure IsWord (w : List Char) : Prop where
  all : ∀ x ∈ w, isWordChar x = true
  ne_nil : w ≠ []
  ne_dash : w ≠ ['-']

theorem IsWord.of_all {w : List Char} (h : w.all isWordChar = true) (hne : w ≠ []) (hdash : w ≠ ['-']) : IsWord w :=
  ⟨List.all_eq_true.mp h, hne, hdash⟩

/-- What follows a word. -/
def StopsWord (r : List Char) : Prop := ∀ y ∈ r.head?, y = ',' ∨ y = ']' ∨ y = '\x7d'

section Words

variable {x y : Char} {w r : List Char} {c : Cursor}

/-- Characters that end a plain scalar within brackets, or start something else. -/
def specialChars : List Char :=
  [' ', '\t', '\n', '\r', '\x85', '\u2028', '\u2029', ':', ',', '?', '[', ']', '\x7b', '\x7d', '#', '&', '*', '!', '|',
    '>', '\'', '"', '%', '@', '\x60']

theorem not_special_of_isWordChar (hx : isWordChar x = true) : ∀ y ∈ specialChars, x ≠ y := by
  have hall : specialChars.any isWordChar = false := by decide
  rintro y hy rfl
  exact List.any_eq_false.mp hall x hy hx

theorem isBlankz_of_isWordChar (hx : isWordChar x = true) : isBlankz (some x) = false := by
  have hne := not_special_of_isWordChar hx
  simp only [specialChars, List.forall_mem_cons] at hne
  simp [isBlankz, isBlank, isBreak, hne]

theorem plainRun_word (hw : ∀ x ∈ w, isWordChar x = true) (hr : StopsWord r) :
    plainRun true (w ++ r) = w.length := by
  induction w with
  | nil =>
    cases r with
    | nil => rfl
    | cons y r =>
      rw [List.nil_append, plainRun]
      obtain rfl | rfl | rfl := hr y rfl <;> rfl
  | cons x w ih =>
    have hx := hw x List.mem_cons_self
    have hne := not_special_of_isWordChar hx
    simp only [specialChars, List.forall_mem_cons] at hne
    rw [List.cons_append, plainRun, ih fun y hy => hw y (List.mem_cons_of_mem x hy), isBlankz_of_isWordChar hx]
    simp [hne]

/-- A word is a plain scalar. -/
theorem scanPlain_word (hw : IsWord w) (hr : StopsWord r) (h : c.rest = w ++ r) (hcolumn : 0 < c.column)
    (margin : Nat) : scanPlain true margin c = some ⟨w, c.after w, false⟩ := by
  have hne := hw.ne_nil
  obtain ⟨x, v, hxv⟩ := List.exists_cons_of_ne_nil hne
  have hindicator : ∀ y, c.isIndicator y = false := fun y => by
    simp [Cursor.isIndicator, Nat.ne_of_gt hcolumn]
  have hhash : c.isAt '#' = false := by
    have hx := not_special_of_isWordChar (hw.all x (by rw [hxv]; exact List.mem_cons_self)) '#' (by decide)
    rw [Cursor.isAt, Cursor.peek?, h, hxv]
    simpa using hx
  have hrun := plainRun_word hw.all hr
  have hskip : c.skip w.length = c.after w := by
    refine c.skip_eq_after fun y hy => ?_
    have hblank := isBlankz_of_isWordChar (hw.all y hy)
    simp only [isBlankz, Bool.or_eq_false_iff] at hblank
    exact hblank.2
  have hstop : ((c.after w).peek?.isSome && isBlankz (c.after w).peek?) = false := by
    rw [Cursor.peek?, Cursor.rest_after h]
    cases r with
    | nil => rfl
    | cons y r => obtain rfl | rfl | rfl := hr y rfl <;> rfl
  rw [scanPlain, plainFrom]
  simp only [Cursor.atDocumentIndicator, hindicator, hhash, h, hrun, hskip, hstop]
  simp [hne, Gap.text]

theorem StopsWord.quiet (hr : StopsWord r) : Scanner.Quiet r := by
  intro y hy
  obtain rfl | rfl | rfl := hr y hy <;> decide

/-- **A word is read as it is.** -/
theorem Scanner.Free.step_word {s : Scanner} (h : s.Free) (hflow : 0 < s.flow) (hcolumn : 0 < s.cursor.column)
    (hw : IsWord w) (hr : StopsWord r) (hrest : s.cursor.rest = w ++ r) :
    s.step = some { s with
      cursor := s.cursor.after w, tokens := s.tokens.push (.scalar (String.ofList w) .plain),
      keys := s.noted :: s.keys.tail, keyAllowed := false } := by
  obtain ⟨x, v, rfl⟩ := List.exists_cons_of_ne_nil hw.ne_nil
  have hx := hw.all x List.mem_cons_self
  have hne := not_special_of_isWordChar hx
  simp only [specialChars, List.forall_mem_cons] at hne
  have hblank := isBlankz_of_isWordChar hx
  simp only [isBlankz, Bool.or_eq_false_iff] at hblank
  have hnext : x = '-' → isBlankz (s.cursor.peekAt? 1) = false := by
    rintro rfl
    have hv : v ≠ [] := fun hv => hw.ne_dash (by rw [hv])
    obtain ⟨y, u, rfl⟩ := List.exists_cons_of_ne_nil hv
    rw [Cursor.peekAt?, hrest]
    exact isBlankz_of_isWordChar (hw.all y (by simp))
  have hdash : (decide (x = '-') && isBlankz (s.cursor.peekAt? 1)) = false := by
    by_cases hd : x = '-'
    · simp [hnext hd]
    · simp [hd]
  have hplain : startsPlain (decide (s.flow > 0)) x (s.cursor.peekAt? 1) = true := by
    by_cases hd : x = '-'
    · have hany : (s.cursor.peekAt? 1).any isBlank = false := by
        have hnext := hnext hd
        cases hpeek : s.cursor.peekAt? 1 with
        | none => rfl
        | some y =>
          rw [hpeek, isBlankz, Bool.or_eq_false_iff] at hnext
          exact hnext.1
      simp [startsPlain, hd, hany]
    · simp [startsPlain, isBlankz_of_isWordChar hx, hne, hd]
  refine h.step_scalar (x :: v) .plain hrest hr.quiet ?_ ?_ (List.cons_ne_nil x v)
  · rintro y ⟨⟩
    exact ⟨⟨hblank.1, by simp [hne]⟩, hblank.2, fun hc => absurd hc (Nat.ne_of_gt hcolumn)⟩
  · rintro y ⟨⟩
    have hscan := scanPlain_word hw hr hrest hcolumn (s.indent + 1).toNat
    simp only [tokenAt, hdash, hplain]
    simp [hne, hflow, hscan]

theorem isWordChar_of_mem_toDigits {n : Nat} (hx : x ∈ Nat.toDigits 10 n) : isWordChar x = true := by
  have hdigit : x.isDigit = true := Nat.isDigit_of_mem_toDigits (by decide) (by decide) hx
  simp [isWordChar, Char.isAlphanum, hdigit]

theorem isWordChar_of_mem_toString {n : Nat} (hx : x ∈ (toString n).toList) : isWordChar x = true := by
  have hdigits : (toString n).toList = Nat.toDigits 10 n := Nat.toList_repr
  rw [hdigits] at hx
  exact isWordChar_of_mem_toDigits hx

theorem exists_digit_toString (n : Nat) : ∃ x ∈ (toString n).toList, x.isDigit = true := by
  have hdigits : (toString n).toList = Nat.toDigits 10 n := Nat.toList_repr
  obtain ⟨x, v, hxv⟩ := List.exists_cons_of_ne_nil (Nat.toDigits_ne_nil (n := n) (b := 10))
  have hx : x ∈ Nat.toDigits 10 n := by rw [hxv]; exact List.mem_cons_self
  exact ⟨x, hdigits ▸ hx, Nat.isDigit_of_mem_toDigits (by decide) (by decide) hx⟩

/-- The characters of a number behind its sign. -/
structure IsUnsigned (w : List Char) : Prop where
  all : ∀ x ∈ w, isWordChar x = true
  digit : ∃ x ∈ w, x.isDigit = true

theorem isUnsigned_positional (n : Nat) (k : Int) : IsUnsigned (Double.positional n k).toList := by
  unfold Double.positional
  split
  · exact ⟨fun x hx => isWordChar_of_mem_toString hx, exists_digit_toString _⟩
  · simp only [String.toList_append, Double.padded, String.toList_ofList]
    refine ⟨?_, ?_⟩
    · simp only [List.mem_append]
      rintro x ((hx | hx) | hx | hx)
      · exact isWordChar_of_mem_toString hx
      · obtain rfl : x = '.' := by simpa using hx
        decide
      · obtain rfl := List.eq_of_mem_replicate hx
        decide
      · exact isWordChar_of_mem_toDigits hx
    · obtain ⟨x, hx, hdigit⟩ := exists_digit_toString (n / Nat.pow 10 (-k).toNat)
      exact ⟨x, List.mem_append_left _ (List.mem_append_left _ hx), hdigit⟩

theorem isUnsigned_scientific (n : Nat) (k : Int) : IsUnsigned (Double.scientific n k).toList := by
  have hdigits : ∀ x ∈ Nat.toDigits 10 n, isWordChar x = true := fun x hx => isWordChar_of_mem_toDigits hx
  unfold Double.scientific
  generalize Nat.toDigits 10 n = ds at hdigits ⊢
  simp only [String.toList_append, String.toList_ofList]
  refine ⟨?_, ?_⟩
  · simp only [List.mem_append]
    rintro x (((hx | hx) | hx) | hx)
    · -- the point stands behind the first digit, if there are others
      cases ds with
      | nil => cases hx
      | cons d rest =>
        cases rest with
        | nil => exact hdigits x hx
        | cons e rest =>
          obtain rfl | rfl | hx : x = d ∨ x = '.' ∨ x ∈ e :: rest := by simpa using hx
          · exact hdigits x List.mem_cons_self
          · decide
          · exact hdigits x (List.mem_cons_of_mem d hx)
    · obtain rfl : x = 'e' := by simpa using hx
      decide
    · split at hx
      · obtain rfl : x = '-' := by simpa using hx
        decide
      · obtain rfl : x = '+' := by simpa using hx
        decide
    · exact isWordChar_of_mem_toString hx
  · obtain ⟨x, hx, hdigit⟩ := exists_digit_toString _
    exact ⟨x, List.mem_append_right _ hx, hdigit⟩

theorem IsUnsigned.isWord (hw : IsUnsigned w) (negative : Bool) :
    IsWord ((if negative then "-" else "").toList ++ w) := by
  obtain ⟨x, hx, hdigit⟩ := hw.digit
  cases negative with
  | false =>
    refine ⟨hw.all, List.ne_nil_of_mem hx, ?_⟩
    rintro rfl
    obtain rfl := List.mem_singleton.mp hx
    cases hdigit
  | true =>
    refine ⟨List.forall_mem_cons.mpr ⟨by decide, hw.all⟩, List.cons_ne_nil _ _, fun h => ?_⟩
    have hnil : w = [] := (List.cons.inj h).2
    rw [hnil] at hx
    cases hx

/-- **The text of a number is a word.** -/
theorem isWord_text (x : Double) : IsWord x.text.toList := by
  cases x with
  | finite negative m e =>
    rw [Double.text]
    simp only [String.toList_append]
    refine IsUnsigned.isWord ?_ negative
    split
    · exact isUnsigned_scientific _ _
    · exact isUnsigned_positional _ _
  | infinite negative => cases negative <;> exact .of_all (by decide) (by decide) (by decide)
  | nan => exact .of_all (by decide) (by decide) (by decide)

theorem isWord_toString (b : Bool) : IsWord (toString b).toList := by
  cases b
  · exact .of_all (by decide) (by decide) (by decide)
  · exact .of_all (by decide) (by decide) (by decide)

end Words

end Lasso.Yaml
