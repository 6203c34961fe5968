import Lasso.Proofs.Yaml.Flow
import Lasso.Proofs.Yaml.Spelled
/-!
# Scanning messages

* `Content.tokens` -- the tokens of a content;
* `Scanner.Reads` -- the scanner has read characters as tokens, within the same collections; `Scanner.Sticks` -- it
  stops before it has read all tokens;
* `scans_spelled` -- **what a content spells is read as its tokens** if all its texts can be read, and otherwise the
  scanner stops;
* `scan_json`.
-/

namespace Lasso.Yaml

open Message (jsonText)

/-! ## 1. Tokens -/

/-- The text that is read for a text, if any is. -/
def carriedText (s : String) : String := String.ofList ((carried? false s.toList).getD s.toList)

/-- **Whether a name is near enough to its colon**: it is not too long, and no line ends in it. -/
def isNearName (name : String) : Bool :=
  (jsonText name).toList.countP isBreak = 0 && (jsonText name).toList.length ≤ 1024

namespace Content

/-- The tokens of an entry. -/
def entryTokens (entry : String × List Token) : List Token :=
  (if isNearName entry.1 then [.key] else []) ++
    .scalar (carriedText entry.1) .doubleQuoted :: .value :: entry.2

/-- The tokens of a content. -/
def tokens : Content → List Token := fold
  { text := fun s => [.scalar (carriedText s) .doubleQuoted]
    int := fun n => [.scalar (Double.ofInt n).text .plain]
    bool := fun b => [.scalar (toString b) .plain]
    list := fun parts => .flowSequenceStart :: ([.flowEntry].intercalate parts ++ [.flowSequenceEnd])
    record := fun entries =>
      .flowMappingStart :: ([.flowEntry].intercalate (entries.map entryTokens) ++ [.flowMappingEnd]) }

theorem tokens_text (s : String) : tokens (.text s) = [.scalar (carriedText s) .doubleQuoted] := by rw [tokens, fold]

theorem tokens_int (n : Int) : tokens (.int n) = [.scalar (Double.ofInt n).text .plain] := by rw [tokens, fold]

theorem tokens_bool (b : Bool) : tokens (.bool b) = [.scalar (toString b) .plain] := by rw [tokens, fold]

theorem tokens_list (items : List Content) : tokens (.list items) =
    .flowSequenceStart :: ([.flowEntry].intercalate (items.map tokens) ++ [.flowSequenceEnd]) :=
  fold_list _ items

theorem tokens_record (entries : List (String × Content)) : tokens (.record entries) =
    .flowMappingStart :: ([.flowEntry].intercalate ((entries.map fun e => (e.1, e.2.tokens)).map entryTokens) ++
      [.flowMappingEnd]) :=
  fold_record _ entries

/-- All texts of a content, with the names in it. -/
def texts : Content → List String := fold
  { text := fun s => [s], int := fun _ => [], bool := fun _ => [], list := List.flatten
    record := fun entries => entries.flatMap fun e => e.1 :: e.2 }

theorem texts_text (s : String) : texts (.text s) = [s] := by rw [texts, fold]

theorem texts_int (n : Int) : texts (.int n) = [] := by rw [texts, fold]

theorem texts_bool (b : Bool) : texts (.bool b) = [] := by rw [texts, fold]

theorem texts_list (items : List Content) : texts (.list items) = items.flatMap texts :=
  (fold_list _ items).trans (by rw [List.flatMap]; rfl)

theorem texts_record (entries : List (String × Content)) :
    texts (.record entries) = entries.flatMap fun e => e.1 :: e.2.texts :=
  (fold_record _ entries).trans (by simp only [List.flatMap_map]; rfl)

/-- **All texts of a content can be read.** -/
def Readable (c : Content) : Prop := ∀ s ∈ c.texts, (carried? false s.toList).isSome = true

theorem readable_list_iff {items : List Content} : Readable (.list items) ↔ ∀ c ∈ items, c.Readable := by
  simp only [Readable, texts_list, List.mem_flatMap, forall_exists_index, and_imp]
  exact ⟨fun h c hc s hs => h s c hc hs, fun h s c hc hs => h c hc s hs⟩

theorem readable_record_iff {entries : List (String × Content)} :
    Readable (.record entries) ↔ ∀ e ∈ entries, (carried? false e.1.toList).isSome = true ∧ e.2.Readable := by
  simp only [Readable, texts_record, List.mem_flatMap, forall_exists_index, and_imp, List.mem_cons]
  constructor
  · exact fun h e he => ⟨h e.1 e he (.inl rfl), fun s hs => h s e he (.inr hs)⟩
  · rintro h s e he (rfl | hs)
    · exact (h e he).1
    · exact (h e he).2 s hs

end Content

open Content

namespace Scanner

/-! ## 2. What the scanner does -/

/-- A state within brackets. -/
structure InFlow (s : Scanner) : Prop extends s.Free where
  flow : 0 < s.flow
  column : 0 < s.cursor.column

/-- **The scanner has read characters as tokens**, within the same collections. -/
structure Reads (s : Scanner) (w : List Char) (ts : List Token) (s' : Scanner) : Prop where
  steps : ∃ n ≤ w.length, Steps n s s'
  cursor : s'.cursor = s.cursor.after w
  tokens : s'.tokens.toList = s.tokens.toList ++ ts
  flow : s'.flow = s.flow
  indents : s'.indents = s.indents
  indent : s'.indent = s.indent
  outer : s'.keys.tail = s.keys.tail
  free : s'.Free
  column : 0 < s'.cursor.column

/-- **The scanner stops** within some characters, before it has read all their tokens. -/
def Sticks (s : Scanner) (w : List Char) (ts : List Token) : Prop :=
  ∃ n s' us vs, n ≤ w.length ∧ Steps n s s' ∧ s'.tokens.back? ≠ some .streamEnd ∧ s'.step = none ∧
    s'.tokens.toList = s.tokens.toList ++ us ∧ ts = us ++ vs ∧ vs ≠ []

/-- **What becomes of characters that should be read as tokens.** -/
def Scans (s : Scanner) (w : List Char) (ts : List Token) (readable : Prop) : Prop :=
  readable ∧ (∃ s', s.Reads w ts s') ∨ ¬ readable ∧ s.Sticks w ts

variable {s s' s'' : Scanner} {w v r : List Char} {ts us : List Token} {readable readable' : Prop}

theorem InFlow.reads_nil (h : s.InFlow) : s.Reads [] [] s :=
  ⟨⟨0, Nat.le_refl 0, .refl s⟩, rfl, (List.append_nil _).symm, rfl, rfl, rfl, rfl, h.toFree, h.column⟩

theorem Reads.inside (h : s.Reads w ts s') (hflow : 0 < s.flow) : s'.InFlow :=
  ⟨h.free, h.flow.symm ▸ hflow, h.column⟩

theorem Reads.trans (h : s.Reads w ts s') (h' : s'.Reads v us s'') : s.Reads (w ++ v) (ts ++ us) s'' where
  steps := by
    obtain ⟨n, hn, hsteps⟩ := h.steps
    obtain ⟨m, hm, hsteps'⟩ := h'.steps
    exact ⟨n + m, by rw [List.length_append]; omega, hsteps.trans hsteps'⟩
  cursor := by rw [h'.cursor, h.cursor, Cursor.after_append]
  tokens := by rw [h'.tokens, h.tokens, List.append_assoc]
  flow := h'.flow.trans h.flow
  indents := h'.indents.trans h.indents
  indent := h'.indent.trans h.indent
  outer := h'.outer.trans h.outer
  free := h'.free
  column := h'.column

theorem Reads.rest (h : s.Reads w ts s') (hrest : s.cursor.rest = w ++ r) : s'.cursor.rest = r := by
  rw [h.cursor, Cursor.rest_after hrest]

theorem Sticks.append (h : s.Sticks w ts) (v : List Char) (us : List Token) : s.Sticks (w ++ v) (ts ++ us) := by
  obtain ⟨n, s', us', vs, hn, hsteps, hgoes, hstep, htokens, rfl, hne⟩ := h
  exact ⟨n, s', us', vs ++ us, by rw [List.length_append]; omega, hsteps, hgoes, hstep, htokens,
    List.append_assoc _ _ _, by simp [hne]⟩

theorem Reads.sticks (h : s.Reads w ts s') (h' : s'.Sticks v us) : s.Sticks (w ++ v) (ts ++ us) := by
  obtain ⟨n, hn, hsteps⟩ := h.steps
  obtain ⟨m, s'', us', vs, hm, hsteps', hgoes, hstep, htokens, rfl, hne⟩ := h'
  exact ⟨n + m, s'', ts ++ us', vs, by rw [List.length_append]; omega, hsteps.trans hsteps', hgoes, hstep,
    by rw [htokens, h.tokens, List.append_assoc], (List.append_assoc _ _ _).symm, hne⟩

theorem Scans.of_iff (h : s.Scans w ts readable) (hiff : readable ↔ readable') : s.Scans w ts readable' := by
  rwa [← propext hiff]

theorem Reads.scans (h : s.Reads w ts s') (h' : s'.Scans v us readable) :
    s.Scans (w ++ v) (ts ++ us) readable := by
  obtain ⟨hreadable, s'', hreads⟩ | ⟨hno, hsticks⟩ := h'
  · exact .inl ⟨hreadable, s'', h.trans hreads⟩
  · exact .inr ⟨hno, h.sticks hsticks⟩

/-- What is scanned in two parts. -/
theorem Scans.append (h : s.Scans w ts readable) (h' : ∀ s', s.Reads w ts s' → s'.Scans v us readable') :
    s.Scans (w ++ v) (ts ++ us) (readable ∧ readable') := by
  obtain ⟨hreadable, s', hreads⟩ | ⟨hno, hsticks⟩ := h
  · obtain ⟨hreadable', hread⟩ | ⟨hno, hsticks⟩ := hreads.scans (h' s' hreads)
    · exact .inl ⟨⟨hreadable, hreadable'⟩, hread⟩
    · exact .inr ⟨fun h => hno h.2, hsticks⟩
  · exact .inr ⟨fun h => hno h.1, hsticks.append v us⟩

/-- One step that stays within the same brackets. -/
theorem Free.reads_of_step (h : s.Free) {x : Char} {t : Token} {k? : Option KeyPlace} {allowed : Bool}
    (hstep : s.step = some { s with
      cursor := s.cursor.after (w ++ [x]), tokens := s.tokens.push t, keys := k? :: s.keys.tail,
      keyAllowed := allowed })
    (hx : isBreak x = false) (ht : t ≠ .streamEnd) (hk : ∀ k ∈ k?, k.required = false) :
    s.Reads (w ++ [x]) [t] { s with
      cursor := s.cursor.after (w ++ [x]), tokens := s.tokens.push t, keys := k? :: s.keys.tail,
      keyAllowed := allowed } where
  steps := ⟨1, by simp, .one h.goes hstep⟩
  cursor := rfl
  tokens := Array.toList_push
  flow := rfl
  indents := rfl
  indent := rfl
  outer := rfl
  free := ⟨h.level, List.cons_ne_nil _ _, hk, by simpa using ht⟩
  column := by
    rw [Cursor.column_after_concat, hx]
    exact Nat.succ_pos _

/-! ## 3. Tokens within brackets -/

theorem toList_jsonText (text : String) :
    (jsonText text).toList = '"' :: text.toList.flatMap Message.jsonChar ++ ['"'] := by
  simp [jsonText]

theorem InFlow.reads_comma (h : s.InFlow) (hrest : s.cursor.rest = ',' :: r) (hr : Quiet r) :
    ∃ s', s.Reads [','] [.flowEntry] s' ∧ s'.keyAllowed = true :=
  ⟨_, h.reads_of_step (w := []) (h.step_comma hrest hr) (by decide) (by decide) nofun, rfl⟩

theorem InFlow.reads_word (h : s.InFlow) (hw : IsWord w) (hrest : s.cursor.rest = w ++ r) (hr : StopsWord r) :
    ∃ s', s.Reads w [.scalar (String.ofList w) .plain] s' := by
  have hstep := h.step_word h.flow h.column hw hr hrest
  obtain ⟨v, x, rfl⟩ := List.eq_nil_or_concat' w |>.resolve_left hw.ne_nil
  have hx := isBlankz_of_isWordChar (hw.all x (by simp))
  rw [isBlankz, Bool.or_eq_false_iff] at hx
  exact ⟨_, h.reads_of_step hstep hx.2 (by simp) h.noted_loose⟩

theorem InFlow.scans_text (h : s.InFlow) {text : String} (hrest : s.cursor.rest = (jsonText text).toList ++ r)
    (hr : Quiet r) :
    s.Scans (jsonText text).toList [.scalar (carriedText text) .doubleQuoted]
      ((carried? false text.toList).isSome = true) := by
  have hstep := h.step_text hrest hr
  cases hcarried : carried? false text.toList with
  | none =>
    rw [hcarried] at hstep
    exact .inr ⟨Bool.false_ne_true, 0, s, [], _, Nat.zero_le _, .refl s, h.goes, hstep, (List.append_nil _).symm, rfl,
      List.cons_ne_nil _ _⟩
  | some cs =>
    have htext : carriedText text = String.ofList cs := by rw [carriedText, hcarried]; rfl
    rw [hcarried, Option.map_some, toList_jsonText] at hstep
    rw [toList_jsonText, htext]
    exact .inl ⟨rfl, _, h.reads_of_step hstep (by decide) (by simp) h.noted_loose⟩

/-- A token that is put in front of the last one. -/
theorem toList_insertIdx_push (ts : Array Token) (t u : Token) :
    ((ts.push t).insertIdxIfInBounds ts.size u).toList = ts.toList ++ [u, t] := by
  obtain ⟨l⟩ := ts
  rw [List.push_toArray, List.insertIdxIfInBounds_toArray, List.size_toArray]
  induction l with
  | nil => rfl
  | cons a l ih => simpa using ih

/-- A name is near to what stands behind it if it is short and lies in one line. -/
theorem isNear_after (c : Cursor) (name : String) (n : Nat) :
    KeyPlace.isNear ⟨n, false, c.index, c.line, c.column⟩ (c.after (jsonText name).toList) = isNearName name := by
  have hline : (c.line = c.line + (jsonText name).toList.countP isBreak) ↔
      (jsonText name).toList.countP isBreak = 0 := by omega
  have hindex : (c.index + (jsonText name).toList.length ≤ c.index + 1024) ↔
      (jsonText name).toList.length ≤ 1024 := by omega
  simp only [KeyPlace.isNear, isNearName, Cursor.after, hline, hindex]

/-- **A name with its colon.** The key in front of them is missing if the name is not near. -/
theorem InFlow.scans_name (h : s.InFlow) (hallowed : s.keyAllowed = true) {name : String}
    (hrest : s.cursor.rest = (jsonText name).toList ++ ':' :: r) (hr : Quiet r) :
    s.Scans ((jsonText name).toList ++ [':'])
      ((if isNearName name then [.key] else []) ++ [.scalar (carriedText name) .doubleQuoted, .value])
      ((carried? false name.toList).isSome = true) := by
  have hcolon : Quiet (':' :: r) := by
    rintro y ⟨⟩
    decide
  have hstep := h.step_text hrest hcolon
  cases hcarried : carried? false name.toList with
  | none =>
    rw [hcarried] at hstep
    exact .inr ⟨Bool.false_ne_true, 0, s, [], _, Nat.zero_le _, .refl s, h.goes, hstep, (List.append_nil _).symm,
      (List.nil_append _).symm, by simp⟩
  | some cs =>
    have htext : carriedText name = String.ofList cs := by rw [carriedText, hcarried]; rfl
    have hnoted : s.noted = some ⟨s.tokens.size, false, s.cursor.index, s.cursor.line, s.cursor.column⟩ := by
      rw [noted, if_pos hallowed]
    rw [hcarried, Option.map_some] at hstep
    generalize hs₁ : ({ s with
      cursor := s.cursor.after (jsonText name).toList
      tokens := s.tokens.push (.scalar (String.ofList cs) .doubleQuoted)
      keys := s.noted :: s.keys.tail
      keyAllowed := false } : Scanner) = s₁ at hstep
    have hreads : s.Reads (jsonText name).toList [.scalar (String.ofList cs) .doubleQuoted] s₁ := by
      subst hs₁
      rw [toList_jsonText] at hstep ⊢
      exact h.reads_of_step hstep (by decide) (by simp) h.noted_loose
    have hkey : s₁.key? = some ⟨s.tokens.size, false, s.cursor.index, s.cursor.line, s.cursor.column⟩ := by
      subst hs₁
      exact hnoted
    have hnear := isNear_after s.cursor name s.tokens.size
    rw [← hreads.cursor] at hnear
    have hflow := (hreads.inside h.flow).flow
    have hstep' := hreads.free.step_colon hflow hkey (hreads.rest hrest) hr
    rw [hnear] at hstep'
    have htokens : (if isNearName name then s₁.tokens.insertIdxIfInBounds s.tokens.size .key else s₁.tokens).toList =
        s.tokens.toList ++ ((if isNearName name then [.key] else []) ++ [.scalar (carriedText name) .doubleQuoted]) := by
      rw [htext]
      subst hs₁
      split
      · exact toList_insertIdx_push _ _ _
      · exact Array.toList_push
    have hcolumn : 0 < (s₁.cursor.after [':']).column := Nat.succ_pos _
    refine .inl ⟨rfl, _, ⟨⟨2, by simp [toList_jsonText], .step h.goes hstep (.one hreads.free.goes hstep')⟩, ?_, ?_,
      hreads.flow, hreads.indents, hreads.indent, hreads.outer, ⟨.inl hflow, List.cons_ne_nil _ _, nofun, by simp⟩,
      hcolumn⟩⟩
    · simp only [hreads.cursor, Cursor.after_append]
    · simp only [Array.toList_push, htokens, List.append_assoc]
      rfl

/-! ## 4. Brackets -/

theorem column_after_pos (c : Cursor) {x : Char} (hx : isBreak x = false) : 0 < (c.after [x]).column := by
  have hcolumn := c.column_after_concat [] x
  rw [hx] at hcolumn
  exact hcolumn ▸ Nat.succ_pos _

/-- The scanner has gone through an opening bracket. -/
structure Opens (s : Scanner) (x : Char) (t : Token) (s' : Scanner) : Prop where
  step : s.step = some s'
  cursor : s'.cursor = s.cursor.after [x]
  tokens : s'.tokens.toList = s.tokens.toList ++ [t]
  flow : s'.flow = s.flow + 1
  indents : s'.indents = s.indents
  indent : s'.indent = s.indent
  keys : s'.keys = none :: s.noted :: s.keys.tail
  allowed : s'.keyAllowed = true
  inside : s'.InFlow

theorem Free.exists_opens (h : s.Free) {x : Char} {t : Token}
    (hx : x = '[' ∧ t = .flowSequenceStart ∨ x = '\x7b' ∧ t = .flowMappingStart) (hrest : s.cursor.rest = x :: r)
    (hr : Quiet r) : ∃ s', s.Opens x t s' := by
  have hplain : isBreak x = false ∧ t ≠ .streamEnd := by obtain ⟨rfl, rfl⟩ | ⟨rfl, rfl⟩ := hx <;> decide
  refine ⟨_, h.step_open hx hrest hr, rfl, Array.toList_push, rfl, rfl, rfl, rfl, rfl, ?_⟩
  exact ⟨⟨.inl (Nat.succ_pos _), List.cons_ne_nil _ _, nofun, by simpa using hplain.2⟩, Nat.succ_pos _,
    column_after_pos _ hplain.1⟩

theorem Opens.sticks {x : Char} {t : Token} (hs : s.Opens x t s') (h : s.Free) (h' : s'.Sticks w ts) :
    s.Sticks (x :: w) (t :: ts) := by
  obtain ⟨n, s'', us, vs, hn, hsteps, hgoes, hstuck, htokens, rfl, hne⟩ := h'
  exact ⟨n + 1, s'', t :: us, vs, Nat.succ_le_succ hn, .step h.goes hs.step hsteps, hgoes, hstuck,
    by rw [htokens, hs.tokens, List.append_assoc]; rfl, rfl, hne⟩

/-- **Behind the closing bracket the scanner is where it was**, with the key noted that may start at the opening one. -/
theorem Opens.exists_reads {x y : Char} {t u : Token} (hs : s.Opens x t s') (h : s.Free) (hreads : s'.Reads w ts s'')
    (hy : y = ']' ∧ u = .flowSequenceEnd ∨ y = '\x7d' ∧ u = .flowMappingEnd) (hrest : s''.cursor.rest = y :: r)
    (hr : Quiet r) : ∃ s₃, s.Reads (x :: (w ++ [y])) (t :: (ts ++ [u])) s₃ := by
  have hplain : isBreak y = false ∧ u ≠ .streamEnd := by obtain ⟨rfl, rfl⟩ | ⟨rfl, rfl⟩ := hy <;> decide
  have hclose := hreads.free.step_close hy (hreads.inside hs.inside.flow).flow hrest hr
  have hkeys : s''.keys.tail = s.noted :: s.keys.tail := by rw [hreads.outer, hs.keys]; rfl
  have hflow : s''.flow - 1 = s.flow := by rw [hreads.flow, hs.flow]; rfl
  have hindents := hreads.indents.trans hs.indents
  have hindent := hreads.indent.trans hs.indent
  obtain ⟨n, hn, hsteps⟩ := hreads.steps
  refine ⟨_, ⟨n + 1 + 1, ?_, .step h.goes hs.step (hsteps.trans (.one hreads.free.goes hclose))⟩, ?_, ?_, hflow, hindents,
    hindent, ?_, ⟨?_, ?_, ?_, ?_⟩, column_after_pos _ hplain.1⟩
  · simp only [List.length_cons, List.length_append, List.length_nil]
    omega
  · show s''.cursor.after [y] = s.cursor.after ([x] ++ (w ++ [y]))
    rw [hreads.cursor, hs.cursor, Cursor.after_append, Cursor.after_append]
  · show (s''.tokens.push u).toList = _
    rw [Array.toList_push, hreads.tokens, hs.tokens]
    simp
  · rw [hkeys, List.tail_cons]
  · simp only [hflow, hindents, hindent]
    exact h.level
  · exact hkeys ▸ List.cons_ne_nil _ _
  · rw [key?, hkeys]
    exact h.noted_loose
  · rw [Array.back?_push]
    exact fun he => hplain.2 (Option.some.inj he)

/-! ## 5. Parts between commas -/

/-- **Characters that can be scanned wherever a key may start**, if a comma or a bracket follows. -/
structure IsPart (w : List Char) (ts : List Token) (readable : Prop) : Prop where
  quiet : ∀ r, Quiet (w ++ r)
  scans : ∀ {s : Scanner} {r : List Char}, s.InFlow → s.keyAllowed = true → s.cursor.rest = w ++ r → StopsWord r →
    s.Scans w ts readable

section Parts

variable {α : Type} {f : α → List Char} {g : α → List Token} {P : α → Prop} {l : List α}

theorem stopsWord_behind (l : List α) (hr : StopsWord r) : StopsWord (l.flatMap (fun a => [','] ++ f a) ++ r) := by
  cases l with
  | nil => exact hr
  | cons a l =>
    rintro y ⟨⟩
    exact .inl rfl

/-- The parts behind the first. -/
theorem InFlow.scans_behind (hl : ∀ a ∈ l, IsPart (f a) (g a) (P a)) (h : s.InFlow) (hr : StopsWord r)
    (hrest : s.cursor.rest = l.flatMap (fun a => [','] ++ f a) ++ r) :
    s.Scans (l.flatMap fun a => [','] ++ f a) (l.flatMap fun a => [.flowEntry] ++ g a) (∀ a ∈ l, P a) := by
  induction l generalizing s with
  | nil => exact .inl ⟨List.forall_mem_nil _, s, h.reads_nil⟩
  | cons a l ih =>
    have ha := hl a List.mem_cons_self
    rw [List.flatMap_cons, List.append_assoc, List.append_assoc] at hrest
    obtain ⟨s', hreads, hallowed⟩ := h.reads_comma hrest (ha.quiet _)
    have hrest' := hreads.rest hrest
    have hscans := ha.scans (hreads.inside h.flow) hallowed hrest' (stopsWord_behind l hr)
    simp only [List.flatMap_cons, List.forall_mem_cons, List.append_assoc]
    refine hreads.scans (hscans.append fun s'' hreads' => ?_)
    exact ih (fun b hb => hl b (List.mem_cons_of_mem a hb)) ((hreads.trans hreads').inside h.flow)
      (hreads'.rest hrest')

/-- **Parts between commas.** -/
theorem InFlow.scans_parts (hl : ∀ a ∈ l, IsPart (f a) (g a) (P a)) (h : s.InFlow) (hallowed : s.keyAllowed = true)
    (hr : StopsWord r) (hrest : s.cursor.rest = [','].intercalate (l.map f) ++ r) :
    s.Scans ([','].intercalate (l.map f)) ([.flowEntry].intercalate (l.map g)) (∀ a ∈ l, P a) := by
  cases l with
  | nil => exact .inl ⟨List.forall_mem_nil _, s, h.reads_nil⟩
  | cons a l =>
    simp only [List.map_cons, Text.intercalate_cons, List.flatMap_map, List.forall_mem_cons, List.append_assoc] at hrest ⊢
    refine ((hl a List.mem_cons_self).scans h hallowed hrest (stopsWord_behind l hr)).append fun s' hreads => ?_
    exact (hreads.inside h.flow).scans_behind (fun b hb => hl b (List.mem_cons_of_mem a hb)) hr (hreads.rest hrest)

theorem quiet_parts (hl : ∀ a ∈ l, IsPart (f a) (g a) (P a)) (hr : StopsWord r) :
    Quiet ([','].intercalate (l.map f) ++ r) := by
  cases l with
  | nil => exact hr.quiet
  | cons a l =>
    rw [List.map_cons, Text.intercalate_cons, List.append_assoc]
    exact (hl a List.mem_cons_self).quiet _

/-- **Parts within brackets**, wherever these stand. -/
theorem Free.scans_brackets {x y : Char} {t u : Token} (hl : ∀ a ∈ l, IsPart (f a) (g a) (P a)) (h : s.Free)
    (hxy : x = '[' ∧ t = .flowSequenceStart ∧ y = ']' ∧ u = .flowSequenceEnd ∨
      x = '\x7b' ∧ t = .flowMappingStart ∧ y = '\x7d' ∧ u = .flowMappingEnd)
    (hrest : s.cursor.rest = x :: ([','].intercalate (l.map f) ++ y :: r)) (hr : Quiet r) :
    s.Scans (x :: ([','].intercalate (l.map f) ++ [y])) (t :: ([.flowEntry].intercalate (l.map g) ++ [u]))
      (∀ a ∈ l, P a) := by
  have hopens : x = '[' ∧ t = .flowSequenceStart ∨ x = '\x7b' ∧ t = .flowMappingStart := by
    obtain ⟨hx, ht, -⟩ | ⟨hx, ht, -⟩ := hxy
    · exact .inl ⟨hx, ht⟩
    · exact .inr ⟨hx, ht⟩
  have hcloses : y = ']' ∧ u = .flowSequenceEnd ∨ y = '\x7d' ∧ u = .flowMappingEnd := by
    obtain ⟨-, -, hy, hu⟩ | ⟨-, -, hy, hu⟩ := hxy
    · exact .inl ⟨hy, hu⟩
    · exact .inr ⟨hy, hu⟩
  have hstop : StopsWord (y :: r) := by
    rintro z ⟨⟩
    obtain ⟨rfl, -⟩ | ⟨rfl, -⟩ := hcloses
    · exact .inr (.inl rfl)
    · exact .inr (.inr rfl)
  obtain ⟨s₁, hs₁⟩ := h.exists_opens hopens hrest (quiet_parts hl hstop)
  have hrest₁ : s₁.cursor.rest = [','].intercalate (l.map f) ++ y :: r := by
    rw [hs₁.cursor]
    exact Cursor.rest_after hrest
  obtain ⟨hP, s₂, hreads⟩ | ⟨hno, hsticks⟩ := hs₁.inside.scans_parts hl hs₁.allowed hstop hrest₁
  · exact .inl ⟨hP, hs₁.exists_reads h hreads hcloses (hreads.rest hrest₁) hr⟩
  · exact .inr ⟨hno, (hs₁.sticks h hsticks).append [y] [u]⟩

end Parts

/-! ## 6. Contents -/

theorem quiet_spelled (c : Content) (r : List Char) : Quiet (c.spelled ++ r) := by
  have hcons : ∀ {x : Char} {w : List Char}, isBlank x = false ∧ x ≠ '#' → Quiet (x :: w ++ r) := by
    rintro x w hx y ⟨⟩
    exact hx
  have hword : ∀ {w : List Char}, IsWord w → Quiet (w ++ r) := by
    intro w hw
    obtain ⟨x, v, rfl⟩ := List.exists_cons_of_ne_nil hw.ne_nil
    have hx := hw.all x List.mem_cons_self
    have hblank := isBlankz_of_isWordChar hx
    rw [isBlankz, Bool.or_eq_false_iff] at hblank
    exact hcons ⟨hblank.1, not_special_of_isWordChar hx '#' (by decide)⟩
  cases c with
  | text s =>
    rw [spelled_text, toList_jsonText]
    exact hcons (by decide)
  | int n =>
    rw [spelled_int]
    exact hword (isWord_text _)
  | bool b =>
    rw [spelled_bool]
    exact hword (isWord_toString b)
  | list items =>
    rw [spelled_list, spelledList]
    exact hcons (by decide)
  | record entries =>
    rw [spelled_record, spelledRecord]
    exact hcons (by decide)

/-- **What a content spells can be scanned within brackets.** -/
def Scannable (c : Content) : Prop :=
  ∀ {s : Scanner} {r : List Char}, s.InFlow → s.cursor.rest = c.spelled ++ r → StopsWord r →
    s.Scans c.spelled c.tokens c.Readable

/-- An entry is scanned as its name, the colon and its value. -/
theorem isPart_entry {c : Content} (name : String) (hc : Scannable c) :
    IsPart (spelledEntry (name, c.spelled)) (entryTokens (name, c.tokens))
      ((carried? false name.toList).isSome = true ∧ c.Readable) where
  quiet r := by
    rw [spelledEntry, List.append_assoc, ← spelled_text]
    exact quiet_spelled (.text name) _
  scans {s r} hs hallowed hrest hr := by
    rw [spelledEntry, List.append_assoc, List.cons_append] at hrest
    have hname := hs.scans_name hallowed hrest (quiet_spelled c _)
    rw [List.append_cons] at hrest
    have hentry := hname.append fun s' hreads => hc (hreads.inside hs.flow) (hreads.rest hrest) hr
    rw [← List.append_cons, List.append_assoc] at hentry
    exact hentry

/-- **A record is scanned wherever it stands**, if its values are. -/
theorem Free.scans_record {entries : List (String × Content)} (h : s.Free) (hentries : ∀ e ∈ entries, Scannable e.2)
    (hrest : s.cursor.rest = (record entries).spelled ++ r) (hr : Quiet r) :
    s.Scans (record entries).spelled (record entries).tokens (record entries).Readable := by
  rw [spelled_record, spelledRecord, List.map_map] at hrest ⊢
  rw [tokens_record, List.map_map]
  rw [List.cons_append, List.append_assoc] at hrest
  have hparts : ∀ e ∈ entries, IsPart ((spelledEntry ∘ fun e => (e.1, e.2.spelled)) e)
      ((entryTokens ∘ fun e => (e.1, e.2.tokens)) e)
      ((carried? false e.1.toList).isSome = true ∧ e.2.Readable) :=
    fun e he => isPart_entry e.1 (hentries e he)
  exact (h.scans_brackets hparts (.inr ⟨rfl, rfl, rfl, rfl⟩) hrest hr).of_iff readable_record_iff.symm

/-- **What a content spells is read as its tokens**, if all its texts can be read; otherwise the scanner stops. -/
theorem scannable (c : Content) : Scannable c := by
  have hword : ∀ {s : Scanner} {text : String} {r : List Char}, s.InFlow → IsWord text.toList →
      s.cursor.rest = text.toList ++ r → StopsWord r →
      ∃ s', s.Reads text.toList [.scalar text .plain] s' := by
    intro s text r h hw hrest hr
    have hreads := h.reads_word hw hrest hr
    rwa [String.ofList_toList] at hreads
  induction c using Content.induct with
  | text t =>
    intro s r h hrest hr
    rw [spelled_text] at hrest ⊢
    rw [tokens_text]
    exact (h.scans_text hrest hr.quiet).of_iff (by simp [Readable, texts_text])
  | int n =>
    intro s r h hrest hr
    rw [spelled_int] at hrest ⊢
    rw [tokens_int]
    exact .inl ⟨by simp [Readable, texts_int], hword h (isWord_text (Double.ofInt n)) hrest hr⟩
  | bool b =>
    intro s r h hrest hr
    rw [spelled_bool] at hrest ⊢
    rw [tokens_bool]
    exact .inl ⟨by simp [Readable, texts_bool], hword h (isWord_toString b) hrest hr⟩
  | list items ih =>
    intro s r h hrest hr
    rw [spelled_list, spelledList] at hrest ⊢
    rw [tokens_list]
    rw [List.cons_append, List.append_assoc] at hrest
    exact (h.scans_brackets (fun c hc => ⟨quiet_spelled c, fun hs _ => ih c hc hs⟩) (.inl ⟨rfl, rfl, rfl, rfl⟩) hrest
      hr.quiet).of_iff readable_list_iff.symm
  | record entries ih =>
    intro s r h hrest hr
    exact h.scans_record ih hrest hr.quiet

/-- The end of the text. -/
theorem Free.step_end (h : s.Free) (hrest : s.cursor.rest = []) :
    s.step = some { s with
      tokens := s.tokens.push .streamEnd, keys := none :: s.keys.tail, keyAllowed := false } := by
  have hnone : ∀ {p : Char → Prop}, ∀ y ∈ s.cursor.rest.head?, p y := by
    rw [hrest]
    exact nofun
  have hpeek : s.cursor.peek? = none := by rw [Cursor.peek?, hrest]; rfl
  rw [step, toToken_eq_self hnone hnone]
  simp only [h.unroll_eq, hpeek, reset]
  rw [h.dropKey_eq]
  rfl

end Scanner

/-! ## 7. Texts -/

section Texts

variable {text : String} {entries : List (String × Content)}

/-- The scanner at the start of a text. -/
def atStart (cs : List Char) : Scanner := { cursor := { rest := cs } }

theorem free_atStart (cs : List Char) : (atStart cs).Free :=
  ⟨.inr ⟨rfl, rfl⟩, List.cons_ne_nil _ _, nofun, by simp [atStart]⟩

theorem contents_of_spelled (h : text.toList = (record entries).spelled) : contents text = text.toList := by
  rw [contents, h, spelled_record, spelledRecord]
  rfl

theorem scans_atStart (entries : List (String × Content)) :
    (atStart (record entries).spelled).Scans (record entries).spelled
      (record entries).tokens (record entries).Readable :=
  (free_atStart _).scans_record (fun e _ => Scanner.scannable e.2) (List.append_nil _).symm nofun

theorem scan_eq (h : text.toList = (record entries).spelled) (hallowed : text.toList.all isAllowed = true)
    {s : Scanner} {done : Bool}
    (hrun : Scanner.run ((record entries).spelled.length + 2) (atStart (record entries).spelled) =
      (s, done)) :
    scan text = some (if done then s.tokens.toList else s.tokens.toList.take (s.tokens.size - 2)) := by
  rw [scan, contents_of_spelled h]
  simp only [hallowed, if_true]
  rw [h, show ({ cursor := { rest := (record entries).spelled } } : Scanner) = atStart _ from rfl, hrun]

/-- **The text of a message is read as its tokens.** -/
theorem scan_of_readable (h : text.toList = (record entries).spelled)
    (hallowed : text.toList.all isAllowed = true) (hread : (record entries).Readable) :
    scan text = some ((record entries).tokens ++ [.streamEnd]) := by
  obtain ⟨-, s, hreads⟩ | ⟨hno, -⟩ := scans_atStart entries
  · obtain ⟨n, hn, hsteps⟩ := hreads.steps
    have hend := hreads.free.step_end (hreads.rest (List.append_nil _).symm)
    have hrun := ((hsteps.trans (.one hreads.free.goes hend)).run_eq
      ((record entries).spelled.length - n + 1)).trans (Scanner.run_of_ended Array.back?_push)
    have hfuel : n + 1 + ((record entries).spelled.length - n + 1) =
        (record entries).spelled.length + 2 := by omega
    rw [hfuel] at hrun
    rw [scan_eq h hallowed hrun, if_pos rfl, Array.toList_push, hreads.tokens]
    rfl
  · exact absurd hread hno

/-- Where a text cannot be read, tokens are missing. -/
theorem scan_of_not_readable (h : text.toList = (record entries).spelled)
    (hallowed : text.toList.all isAllowed = true) (hread : ¬ (record entries).Readable) :
    ∃ us vs, (record entries).tokens = us ++ vs ∧ vs ≠ [] ∧ scan text = some us := by
  obtain ⟨hread', -⟩ | ⟨-, n, s, us, vs, hn, hsteps, hgoes, hstep, htokens, hts, hne⟩ := scans_atStart entries
  · exact absurd hread' hread
  · have hrun := (hsteps.run_eq ((record entries).spelled.length - n + 2)).trans
      (Scanner.run_of_stuck hgoes hstep)
    have hfuel : n + ((record entries).spelled.length - n + 2) =
        (record entries).spelled.length + 2 := by omega
    rw [hfuel] at hrun
    have hus : s.tokens.toList = us := htokens
    refine ⟨us.take (us.length - 2), us.drop (us.length - 2) ++ vs, ?_, by simp [hne], ?_⟩
    · rw [hts, ← List.append_assoc, List.take_append_drop]
    · rw [scan_eq h hallowed hrun, if_neg Bool.false_ne_true, hus, ← Array.length_toList, hus]

end Texts

end Lasso.Yaml
