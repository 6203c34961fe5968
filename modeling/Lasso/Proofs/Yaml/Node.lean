import Lasso.Proofs.Yaml.Scan
/-!
# Reading the nodes of messages

* `Reading.Extends` -- what one reading gives, another gives where more tokens follow; `Reading.keeps` -- **what is
  read stays as it is** if there are more tokens and more fuel;
* `Content.node` -- the node of a content, `Content.isNear` -- whether all its names are near enough to their colons;
* `node_tokens` -- **the tokens of a content are read as the node of what its texts carry**, if its names are near,
  and cannot be read otherwise;
* `ofText_json` -- **the source of a message**: what its texts carry, or nothing at all.
-/

namespace Lasso.Yaml

/-! ## 1. More tokens -/

/-- The reader, where more tokens follow. -/
def NodeReader.add (st : NodeReader) (vs : List Token) : NodeReader :=
  { st with tokens := st.tokens ++ vs }

namespace Reading

section Extends

variable {α β : Type} {vs : List Token} {m m' : Reading α} {f f' : α → Reading β} {g g' : Token → Reading α}
  {k k' : Unit → Reading α} {st st' : NodeReader}

/-- **What one reading gives, another gives where more tokens follow.** -/
def Extends (vs : List Token) (m m' : Reading α) : Prop :=
  ∀ st a st', m st = some (a, st') → m' (st.add vs) = some (a, st'.add vs)

/-- So it does where there is a token. -/
def ExtendsAt (vs : List Token) (m m' : Reading α) : Prop :=
  ∀ st a st', st.tokens ≠ [] → m st = some (a, st') → m' (st.add vs) = some (a, st'.add vs)

theorem Extends.weaken (h : Extends vs m m') : ExtendsAt vs m m' := fun st a st' _ => h st a st'

theorem Extends.pure (a : α) : Extends vs (pure a) (pure a) := by
  intro st b st' h
  obtain ⟨⟩ : some (a, st) = some (b, st') := h
  rfl

theorem Extends.failure : Extends vs failure m := by
  intro st b st' h
  cases h

theorem bind_eq_some_iff {b : β} :
    (m >>= f) st = some (b, st') ↔ ∃ a st₁, m st = some (a, st₁) ∧ f a st₁ = some (b, st') := by
  show (m st).bind (fun p => f p.1 p.2) = _ ↔ _
  rw [Option.bind_eq_some_iff]
  exact ⟨fun ⟨p, hp, hf⟩ => ⟨p.1, p.2, hp, hf⟩, fun ⟨a, st₁, hm, hf⟩ => ⟨(a, st₁), hm, hf⟩⟩

theorem Extends.bind (hm : Extends vs m m') (hf : ∀ a, Extends vs (f a) (f' a)) : Extends vs (m >>= f) (m' >>= f') := by
  intro st b st' h
  obtain ⟨a, st₁, ha, hb⟩ := bind_eq_some_iff.mp h
  exact bind_eq_some_iff.mpr ⟨a, _, hm _ _ _ ha, hf a _ _ _ hb⟩

theorem Extends.peek (hg : ∀ t, ExtendsAt vs (g t) (g' t)) : Extends vs (peek >>= g) (peek >>= g') := by
  rintro ⟨ts, named, stems⟩ b st' h
  cases ts with
  | nil => cases h
  | cons t ts => exact hg t _ _ _ (List.cons_ne_nil t ts) h

theorem ExtendsAt.skip (hk : Extends vs (k ()) (k' ())) : ExtendsAt vs (skip >>= k) (skip >>= k') := by
  rintro ⟨ts, named, stems⟩ b st' hne h
  cases ts with
  | nil => exact absurd rfl hne
  | cons t ts => exact hk _ _ _ h

theorem Extends.get {k k' : NodeReader → Reading α} (hk : ∀ st, Extends vs (k st) (k' (st.add vs))) :
    Extends vs (get >>= k) (get >>= k') :=
  fun st _ _ h => hk st _ _ _ h

theorem Extends.modify {k : NodeReader → NodeReader} (hk : ∀ st, k (st.add vs) = (k st).add vs) :
    Extends vs (modify k) (modify k) := by
  intro st b st' h
  obtain ⟨⟩ : some (b, k st) = some (b, st') := h
  exact congrArg (fun s => some (b, s)) (hk st)

theorem Extends.map {k : α → β} (hm : Extends vs m m') : Extends vs (k <$> m) (k <$> m') := by
  rw [map_eq_pure_bind, map_eq_pure_bind]
  exact hm.bind fun a => .pure (k a)

end Extends

variable {vs : List Token} {fuel fuel' : Nat}

theorem extends_bind (name? : Option String) (node? : Option Node) :
    Extends vs (bind name? node?) (bind name? node?) := by
  cases name? with
  | none => exact .pure ()
  | some n => exact .modify fun _ => rfl

theorem extends_complete (name? : Option String) (n : Node) :
    Extends vs (complete name? n) (complete name? n) := by
  cases name? with
  | none => exact .pure ()
  | some n => exact .modify fun _ => rfl

theorem extends_expandTag (handle suffix : String) :
    Extends vs (expandTag handle suffix) (expandTag handle suffix) := by
  unfold expandTag
  split
  · exact .pure _
  · refine .get fun st => ?_
    dsimp only [NodeReader.add]
    split
    · split
      · exact .failure
      · exact .pure _
    · exact .failure

theorem extends_properties : Extends vs properties properties := by
  unfold properties
  refine .peek fun t => ?_
  split
  · refine .skip (.peek fun t => ?_)
    split
    · exact .skip (.bind (extends_expandTag _ _) fun _ => .pure _)
    · exact (Extends.pure _).weaken
  · refine .skip (.peek fun t => ?_)
    split
    · exact .skip (.bind (extends_expandTag _ _) fun _ => .pure _)
    · exact (Extends.bind (extends_expandTag _ _) fun _ => .pure _).weaken
  · exact (Extends.pure _).weaken

/-- **What is read stays as it is** if there are more tokens and if more can be done. -/
structure Keeps (vs : List Token) (fuel fuel' : Nat) : Prop where
  node : ∀ place, Extends vs (node fuel place) (node fuel' place)
  nodeUnless : ∀ place stops, Extends vs (nodeUnless fuel place stops) (nodeUnless fuel' place stops)
  blockItems : Extends vs (blockItems fuel) (blockItems fuel')
  openItems : Extends vs (openItems fuel) (openItems fuel')
  blockEntries : Extends vs (blockEntries fuel) (blockEntries fuel')
  flowItems : ∀ first, Extends vs (flowItems fuel first) (flowItems fuel' first)
  flowPair : Extends vs (flowPair fuel) (flowPair fuel')
  flowEntries : ∀ first, Extends vs (flowEntries fuel first) (flowEntries fuel' first)

theorem Keeps.node_succ (h : Keeps vs fuel fuel') (place : Place) :
    Extends vs (Reading.node (fuel + 1) place) (Reading.node (fuel' + 1) place) := by
  have hcollection : ∀ {name?} {m m' : Reading Node}, Extends vs m m' →
      Extends vs (do Reading.bind name? none; let n ← m; complete name? n; return n)
        (do Reading.bind name? none; let n ← m'; complete name? n; return n) := fun hm =>
    .bind (extends_bind _ _) fun _ => .bind hm fun n => .bind (extends_complete _ n) fun _ => .pure n
  rw [Reading.node, Reading.node]
  refine .peek fun t => ?_
  extract_lets rest rest'
  have hrest : Extends vs (rest ()) (rest' ()) := by
    refine .bind extends_properties fun p => .peek fun t => ?_
    obtain ⟨name?, tag⟩ := p
    dsimp only
    split
    · exact .skip (.bind (extends_bind _ _) fun _ => .pure _)
    · exact .skip (hcollection (h.flowItems true).map)
    · exact .skip (hcollection (h.flowEntries true).map)
    · split
      · exact (hcollection h.openItems.map).weaken
      split
      · exact .skip (hcollection h.blockItems.map)
      split
      · exact .skip (hcollection h.blockEntries.map)
      split
      · exact (Extends.bind (extends_bind _ _) fun _ => .pure _).weaken
      · exact Extends.failure.weaken
  clear_value rest rest'
  split
  · refine .skip (.get fun st => ?_)
    dsimp only [NodeReader.add]
    split
    · exact .pure _
    · exact .bind .failure fun _ => hrest
  · exact hrest.weaken

theorem Keeps.nodeUnless_succ (h : Keeps vs fuel fuel') (place : Place) (stops : List Token) :
    Extends vs (Reading.nodeUnless (fuel + 1) place stops) (Reading.nodeUnless (fuel' + 1) place stops) := by
  rw [Reading.nodeUnless, Reading.nodeUnless]
  refine .peek fun t => ?_
  split
  · exact (Extends.pure _).weaken
  · exact (h.node place).weaken

theorem Keeps.blockItems_succ (h : Keeps vs fuel fuel') :
    Extends vs (Reading.blockItems (fuel + 1)) (Reading.blockItems (fuel' + 1)) := by
  rw [Reading.blockItems, Reading.blockItems]
  refine .peek fun t => ?_
  split
  · exact .skip (.bind (h.nodeUnless _ _) fun n => .bind h.blockItems fun _ => .pure _)
  · exact .skip (.pure _)
  · exact Extends.failure.weaken

theorem Keeps.openItems_succ (h : Keeps vs fuel fuel') :
    Extends vs (Reading.openItems (fuel + 1)) (Reading.openItems (fuel' + 1)) := by
  rw [Reading.openItems, Reading.openItems]
  refine .peek fun t => ?_
  split
  · exact .skip (.bind (h.nodeUnless _ _) fun n => .bind h.openItems fun _ => .pure _)
  · exact (Extends.pure _).weaken

theorem Keeps.blockEntries_succ (h : Keeps vs fuel fuel') :
    Extends vs (Reading.blockEntries (fuel + 1)) (Reading.blockEntries (fuel' + 1)) := by
  rw [Reading.blockEntries, Reading.blockEntries]
  refine .peek fun t => ?_
  split
  · refine .skip (.bind (h.nodeUnless _ _) fun n => .peek fun t => ?_)
    split
    · exact .skip (.bind (h.nodeUnless _ _) fun v => .bind h.blockEntries fun _ => .pure _)
    · exact (Extends.bind h.blockEntries fun _ => .pure _).weaken
  · exact .skip (.pure _)
  · exact Extends.failure.weaken

theorem Keeps.flowItems_succ (h : Keeps vs fuel fuel') (first : Bool) :
    Extends vs (Reading.flowItems (fuel + 1) first) (Reading.flowItems (fuel' + 1) first) := by
  rw [Reading.flowItems, Reading.flowItems]
  refine .peek fun t => ?_
  extract_lets rest rest'
  have hrest : Extends vs (rest ()) (rest' ()) := by
    refine .peek fun t => ?_
    split
    · exact .skip (.pure _)
    · exact .skip (.bind h.flowPair fun n => .bind (h.flowItems false) fun _ => .pure _)
    · exact (Extends.bind (h.node _) fun n => .bind (h.flowItems false) fun _ => .pure _).weaken
  clear_value rest rest'
  split
  · refine (Extends.peek fun t => ?_).weaken
    split
    · exact .skip hrest
    · exact (Extends.bind .failure fun _ => hrest).weaken
  · exact hrest.weaken

theorem Keeps.flowPair_succ (h : Keeps vs fuel fuel') :
    Extends vs (Reading.flowPair (fuel + 1)) (Reading.flowPair (fuel' + 1)) := by
  rw [Reading.flowPair, Reading.flowPair]
  refine .bind (.peek fun t => ?_) fun k => .peek fun t => ?_
  · split
    · exact .skip (.pure _)
    · exact (h.node _).weaken
  · split
    · exact .skip (.bind (h.nodeUnless _ _) fun _ => .pure _)
    · exact (Extends.pure _).weaken

theorem Keeps.flowEntries_succ (h : Keeps vs fuel fuel') (first : Bool) :
    Extends vs (Reading.flowEntries (fuel + 1) first) (Reading.flowEntries (fuel' + 1) first) := by
  rw [Reading.flowEntries, Reading.flowEntries]
  refine .peek fun t => ?_
  extract_lets rest rest'
  have hrest : Extends vs (rest ()) (rest' ()) := by
    refine .peek fun t => ?_
    split
    · exact .skip (.pure _)
    · refine .skip (.bind (h.nodeUnless _ _) fun k => .peek fun t => ?_)
      split
      · exact .skip (.bind (h.nodeUnless _ _) fun v => .bind (h.flowEntries false) fun _ => .pure _)
      · exact (Extends.bind (h.flowEntries false) fun _ => .pure _).weaken
    · exact (Extends.bind (h.node _) fun n => .bind (h.flowEntries false) fun _ => .pure _).weaken
  clear_value rest rest'
  split
  · refine (Extends.peek fun t => ?_).weaken
    split
    · exact .skip hrest
    · exact (Extends.bind .failure fun _ => hrest).weaken
  · exact hrest.weaken

theorem keeps (vs : List Token) (h : fuel ≤ fuel') : Keeps vs fuel fuel' := by
  induction fuel generalizing fuel' with
  | zero =>
    exact ⟨fun _ => .failure, fun _ _ => .failure, .failure, .failure, .failure, fun _ => .failure, .failure,
      fun _ => .failure⟩
  | succ fuel ih =>
    obtain ⟨fuel', rfl⟩ : ∃ n, fuel' = n + 1 := ⟨fuel' - 1, by omega⟩
    have hkeeps := ih (Nat.le_of_succ_le_succ h)
    exact ⟨hkeeps.node_succ, hkeeps.nodeUnless_succ, hkeeps.blockItems_succ, hkeeps.openItems_succ,
      hkeeps.blockEntries_succ, hkeeps.flowItems_succ, hkeeps.flowPair_succ, hkeeps.flowEntries_succ⟩

/-! ## 2. Tokens within brackets -/

section Tokens

variable {place : Place} {t : Token} {ts : List Token} {named : List (String × Option Node)}
  {stems : List (String × String)} {text : String} {style : Style} {first : Bool}

theorem node_scalar : node (fuel + 1) place ⟨.scalar text style :: ts, named, stems⟩ =
    some (Node.ofScalar "" text style, ⟨ts, named, stems⟩) := by
  rfl

theorem node_sequence : node (fuel + 1) place ⟨.flowSequenceStart :: ts, named, stems⟩ =
    (flowItems fuel true ⟨ts, named, stems⟩).map fun p => (.sequence p.1, p.2) := by
  have h : node (fuel + 1) place ⟨.flowSequenceStart :: ts, named, stems⟩ =
      ((flowItems fuel true ⟨ts, named, stems⟩).bind fun p => some (Node.sequence p.1, p.2)).bind some := rfl
  rw [h, Option.bind_fun_some, Option.map_eq_bind]
  rfl

theorem node_mapping : node (fuel + 1) place ⟨.flowMappingStart :: ts, named, stems⟩ =
    (flowEntries fuel true ⟨ts, named, stems⟩).map fun p => (.mapping p.1, p.2) := by
  have h : node (fuel + 1) place ⟨.flowMappingStart :: ts, named, stems⟩ =
      ((flowEntries fuel true ⟨ts, named, stems⟩).bind fun p => some (Node.mapping p.1, p.2)).bind some := rfl
  rw [h, Option.bind_fun_some, Option.map_eq_bind]
  rfl

/-- The tokens with which a content starts. -/
inductive Starts : Token → Prop
  | scalar (text : String) (style : Style) : Starts (.scalar text style)
  | sequence : Starts .flowSequenceStart
  | mapping : Starts .flowMappingStart

theorem flowItems_end : flowItems (fuel + 1) first ⟨.flowSequenceEnd :: ts, named, stems⟩ =
    some ([], ⟨ts, named, stems⟩) := by
  cases first <;> rfl

theorem flowItems_first (h : Starts t) : flowItems (fuel + 1) true ⟨t :: ts, named, stems⟩ =
    (node fuel ⟨false, false⟩ ⟨t :: ts, named, stems⟩).bind fun p =>
      (flowItems fuel false p.2).bind fun q => some (p.1 :: q.1, q.2) := by
  cases h <;> rfl

/-- Behind a comma, an item is read as the first one is. -/
theorem flowItems_next (h : Starts t) : flowItems (fuel + 1) false ⟨.flowEntry :: t :: ts, named, stems⟩ =
    flowItems (fuel + 1) true ⟨t :: ts, named, stems⟩ := by
  cases h <;> rfl

theorem flowEntries_end : flowEntries (fuel + 1) first ⟨.flowMappingEnd :: ts, named, stems⟩ =
    some ([], ⟨ts, named, stems⟩) := by
  cases first <;> rfl

theorem flowEntries_first (h : Starts t) :
    flowEntries (fuel + 3) true ⟨.key :: .scalar text style :: .value :: t :: ts, named, stems⟩ =
      (node (fuel + 1) ⟨false, false⟩ ⟨t :: ts, named, stems⟩).bind fun p =>
        (flowEntries (fuel + 2) false p.2).bind fun q => some ((Node.ofScalar "" text style, p.1) :: q.1, q.2) := by
  cases h <;> rfl

/-- Without a key, the colon behind a name cannot be read. -/
theorem flowEntries_far :
    flowEntries (fuel + 2) true ⟨.scalar text style :: .value :: ts, named, stems⟩ = none := by
  rfl

theorem flowEntries_next (h : t = .key ∨ Starts t) :
    flowEntries (fuel + 1) false ⟨.flowEntry :: t :: ts, named, stems⟩ =
      flowEntries (fuel + 1) true ⟨t :: ts, named, stems⟩ := by
  obtain rfl | h := h
  · rfl
  · cases h <;> rfl

end Tokens

end Reading

/-! ## 3. Nodes of contents -/

namespace Content

/-- **Whether all names of a content are near enough to their colons.** -/
def isNear : Content → Bool := fold
  { text := fun _ => true, int := fun _ => true, bool := fun _ => true, list := fun parts => parts.all id
    record := fun entries => entries.all fun e => isNearName e.1 && e.2 }

theorem isNear_text (s : String) : isNear (.text s) = true := by rw [isNear, fold]

theorem isNear_int (n : Int) : isNear (.int n) = true := by rw [isNear, fold]

theorem isNear_bool (b : Bool) : isNear (.bool b) = true := by rw [isNear, fold]

theorem isNear_list (items : List Content) : isNear (.list items) = items.all isNear := by
  simp only [isNear, fold_list, List.all_map, Function.id_comp]

theorem isNear_record (entries : List (String × Content)) :
    isNear (.record entries) = entries.all fun e => isNearName e.1 && e.2.isNear := by
  simp only [isNear, fold_record, List.all_map, Function.comp_def]

/-- The content with other texts. Names are kept. -/
def mapTexts (f : String → String) : Content → Content := fold
  { text := fun s => .text (f s), int := .int, bool := .bool, list := .list, record := .record }

theorem mapTexts_text (f : String → String) (s : String) : mapTexts f (.text s) = .text (f s) := by rw [mapTexts, fold]

theorem mapTexts_int (f : String → String) (n : Int) : mapTexts f (.int n) = .int n := by rw [mapTexts, fold]

theorem mapTexts_bool (f : String → String) (b : Bool) : mapTexts f (.bool b) = .bool b := by rw [mapTexts, fold]

theorem mapTexts_list (f : String → String) (items : List Content) :
    mapTexts f (.list items) = .list (items.map (mapTexts f)) :=
  fold_list _ items

theorem mapTexts_record (f : String → String) (entries : List (String × Content)) :
    mapTexts f (.record entries) = .record (entries.map fun e => (e.1, e.2.mapTexts f)) :=
  fold_record _ entries

/-- The node of a number. -/
def numberNode (n : Int) : Node := .ofScalar "" (Double.ofInt n).text .plain

/-- **The node of a content.** -/
def node : Content → Node := fold
  { text := .scalar "!!str"
    int := numberNode
    bool := fun b => .scalar "!!bool" (toString b)
    list := .sequence
    record := fun entries => .mapping (entries.map fun e => (.scalar "!!str" e.1, e.2)) }

theorem node_text (s : String) : node (.text s) = .scalar "!!str" s := by rw [node, fold]

theorem node_int (n : Int) : node (.int n) = numberNode n := by rw [node, fold]

theorem node_bool (b : Bool) : node (.bool b) = .scalar "!!bool" (toString b) := by rw [node, fold]

theorem node_list (items : List Content) : node (.list items) = .sequence (items.map node) := fold_list _ items

theorem node_record (entries : List (String × Content)) :
    node (.record entries) = .mapping (entries.map fun e => (.scalar "!!str" e.1, e.2.node)) := by
  simp only [node, fold_record, List.map_map, Function.comp_def]

/-- The node of what the texts of a content carry. -/
def carriedNode (c : Content) : Node := (c.mapTexts carriedText).node

theorem carriedNode_list (items : List Content) : carriedNode (.list items) = .sequence (items.map carriedNode) := by
  rw [carriedNode, mapTexts_list, node_list, List.map_map]
  rfl

theorem carriedNode_record (entries : List (String × Content)) :
    carriedNode (.record entries) = .mapping (entries.map fun e => (.scalar "!!str" e.1, e.2.carriedNode)) := by
  simp only [carriedNode, mapTexts_record, node_record, List.map_map, Function.comp_def]

end Content

open Message (jsonChar jsonText)
open Content

/-- A text in which no line ends lasts. -/
theorem lasts_of_no_break {cs : List Char} (h : ∀ x ∈ cs, x ≠ '\x85' ∧ isSeparator x = false) : lasts cs = true := by
  induction cs with
  | nil => rfl
  | cons x cs ih =>
    obtain ⟨⟨hnext, hseparator⟩, hcs⟩ := List.forall_mem_cons.mp h
    have hhead : cs.head?.any isSeparator = false := by
      cases cs with
      | nil => rfl
      | cons y cs => exact (hcs y List.mem_cons_self).2
    rw [lasts, ih hcs, hhead, hseparator]
    simp [hnext]

/-- A near name is read as it is. -/
theorem carriedText_of_isNearName {name : String} (h : isNearName name = true) : carriedText name = name := by
  have hbreaks : ∀ x ∈ (jsonText name).toList, isBreak x ≠ true := by
    rw [isNearName, Bool.and_eq_true, decide_eq_true_eq] at h
    exact List.countP_eq_zero.mp h.1
  have hlasts : lasts name.toList = true := by
    refine lasts_of_no_break fun x hx => ?_
    by_cases hgap : isGapChar x = true ∧ x ≠ ' '
    · refine absurd (isBreak_of_isGapChar hgap.1 hgap.2) (hbreaks x ?_)
      have hmem : x ∈ name.toList.flatMap jsonChar :=
        List.mem_flatMap.mpr ⟨x, hx, by simp [jsonChar_of_isGapChar hgap.1]⟩
      simp [jsonText, hmem]
    · rw [isGapChar_iff] at hgap
      constructor
      · rintro rfl
        exact hgap ⟨.inr (.inl rfl), by decide⟩
      · rw [isSeparator, Bool.or_eq_false_iff, decide_eq_false_iff_not, decide_eq_false_iff_not]
        constructor
        · rintro rfl
          exact hgap ⟨.inr (.inr (.inl rfl)), by decide⟩
        · rintro rfl
          exact hgap ⟨.inr (.inr (.inr rfl)), by decide⟩
  rw [carriedText, carried?_eq_self_iff.mpr ⟨rfl, hlasts⟩, Option.getD_some, String.ofList_toList]

/-! ## 4. Reading contents -/

namespace Reading

theorem starts_tokens (c : Content) : ∃ t ts, c.tokens = t :: ts ∧ Starts t := by
  induction c using Content.induct with
  | text s => exact ⟨_, _, tokens_text s, .scalar _ _⟩
  | int n => exact ⟨_, _, tokens_int n, .scalar _ _⟩
  | bool b => exact ⟨_, _, tokens_bool b, .scalar _ _⟩
  | list items => exact ⟨_, _, tokens_list items, .sequence⟩
  | record entries => exact ⟨_, _, tokens_record entries, .mapping⟩

/-- The tokens of a content are read as a node, wherever they stand. -/
def Parses (c : Content) : Prop :=
  ∀ fuel place ts named stems, c.tokens.length ≤ fuel →
    node fuel place ⟨c.tokens ++ ts, named, stems⟩ =
      if c.isNear then some (c.carriedNode, ⟨ts, named, stems⟩) else none

variable {c : Content} {items : List Content} {name : String} {entries : List (String × Content)} {ts : List Token}
  {named : List (String × Option Node)} {stems : List (String × String)}

/-- The items behind the first one, with their commas. -/
def laterItems (items : List Content) : List Token := items.flatMap fun c => .flowEntry :: c.tokens

theorem laterItems_cons (c : Content) (items : List Content) :
    laterItems (c :: items) = .flowEntry :: (c.tokens ++ laterItems items) := by
  rw [laterItems, List.flatMap_cons, List.cons_append]
  rfl

theorem flowItems_cons (hc : Parses c) (hfuel : c.tokens.length ≤ fuel)
    (hlater : flowItems fuel false ⟨laterItems items ++ .flowSequenceEnd :: ts, named, stems⟩ =
      if items.all isNear then some (items.map carriedNode, ⟨ts, named, stems⟩) else none) :
    flowItems (fuel + 1) true ⟨c.tokens ++ (laterItems items ++ .flowSequenceEnd :: ts), named, stems⟩ =
      if (c :: items).all isNear then
        some ((c :: items).map carriedNode, ⟨ts, named, stems⟩) else none := by
  obtain ⟨t, us, htokens, ht⟩ := starts_tokens c
  have hread := hc fuel ⟨false, false⟩ (laterItems items ++ .flowSequenceEnd :: ts) named stems hfuel
  rw [htokens, List.cons_append] at hread ⊢
  rw [flowItems_first ht, hread, List.all_cons]
  cases c.isNear with
  | false => rfl
  | true =>
    rw [if_pos rfl, Option.bind_some, hlater, Bool.true_and]
    split
    · rfl
    · rfl

theorem flowItems_later (hitems : ∀ c ∈ items, Parses c) (hfuel : (laterItems items).length ≤ fuel) :
    flowItems (fuel + 1) false ⟨laterItems items ++ .flowSequenceEnd :: ts, named, stems⟩ =
      if items.all isNear then some (items.map carriedNode, ⟨ts, named, stems⟩) else none := by
  induction items generalizing fuel with
  | nil => exact flowItems_end
  | cons c items ih =>
    obtain ⟨hc, hitems⟩ := List.forall_mem_cons.mp hitems
    rw [laterItems_cons, List.length_cons, List.length_append] at hfuel
    obtain ⟨fuel, rfl⟩ : ∃ n, fuel = n + 1 := ⟨fuel - 1, by omega⟩
    obtain ⟨t, us, htokens, ht⟩ := starts_tokens c
    have hpos : 0 < c.tokens.length := by simp [htokens]
    have hlater := ih hitems (show (laterItems items).length ≤ fuel by omega)
    rw [← flowItems_cons hc (by omega) hlater, laterItems_cons, List.cons_append, List.append_assoc, htokens]
    exact flowItems_next ht

/-- **A list is read** if its items are. -/
theorem parses_list (hitems : ∀ c ∈ items, Parses c) : Parses (.list items) := by
  intro fuel place ts named stems hfuel
  rw [tokens_list, isNear_list, carriedNode_list] at *
  obtain ⟨fuel, rfl⟩ : ∃ n, fuel = n + 2 := ⟨fuel - 2, by simp at hfuel; omega⟩
  rw [List.cons_append, node_sequence]
  cases items with
  | nil => exact congrArg (Option.map _) flowItems_end
  | cons c items =>
    obtain ⟨hc, hitems⟩ := List.forall_mem_cons.mp hitems
    have htokens : [Token.flowEntry].intercalate ((c :: items).map tokens) = c.tokens ++ laterItems items := by
      simp only [List.map_cons, Text.intercalate_cons, List.flatMap_map, laterItems, List.singleton_append]
    rw [htokens] at hfuel ⊢
    simp only [List.length_cons, List.length_append, List.length_nil] at hfuel
    obtain ⟨t, us, hstart, -⟩ := starts_tokens c
    have hpos : 0 < c.tokens.length := by simp [hstart]
    obtain ⟨fuel, rfl⟩ : ∃ n, fuel = n + 1 := ⟨fuel - 1, by omega⟩
    rw [List.append_assoc, List.append_assoc, List.singleton_append,
      flowItems_cons hc (by omega) (flowItems_later hitems (by omega))]
    split
    · rfl
    · rfl

/-- The tokens of an entry of a record. -/
abbrev tokensOf (e : String × Content) : List Token := entryTokens (e.1, e.2.tokens)

theorem starts_entry (e : String × Content) : ∃ t ts, tokensOf e = t :: ts ∧ (t = .key ∨ Starts t) := by
  rw [tokensOf, entryTokens]
  split
  · exact ⟨_, _, rfl, .inl rfl⟩
  · exact ⟨_, _, rfl, .inr (.scalar _ _)⟩

theorem length_tokensOf (e : String × Content) : e.2.tokens.length + 2 ≤ (tokensOf e).length := by
  simp [tokensOf, entryTokens]

/-- The entries behind the first one, with their commas. -/
def laterEntries (entries : List (String × Content)) : List Token :=
  entries.flatMap fun e => .flowEntry :: tokensOf e

theorem laterEntries_cons (e : String × Content) (entries : List (String × Content)) :
    laterEntries (e :: entries) = .flowEntry :: (tokensOf e ++ laterEntries entries) := by
  rw [laterEntries, List.flatMap_cons, List.cons_append]
  rfl

/-- Whether a name and the names in its value are near. -/
abbrev nearEntry (e : String × Content) : Bool := isNearName e.1 && e.2.isNear

/-- The node of an entry of a record. -/
abbrev entryNode (e : String × Content) : Node × Node := (.scalar "!!str" e.1, e.2.carriedNode)

theorem flowEntries_cons {e : String × Content} (he : Parses e.2) (hfuel : e.2.tokens.length ≤ fuel + 1)
    (hlater : flowEntries (fuel + 2) false ⟨laterEntries entries ++ .flowMappingEnd :: ts, named, stems⟩ =
      if entries.all nearEntry then some (entries.map entryNode, ⟨ts, named, stems⟩) else none) :
    flowEntries (fuel + 3) true ⟨tokensOf e ++ (laterEntries entries ++ .flowMappingEnd :: ts), named, stems⟩ =
      if (e :: entries).all nearEntry then some ((e :: entries).map entryNode, ⟨ts, named, stems⟩) else none := by
  rw [tokensOf, entryTokens, List.all_cons, nearEntry]
  dsimp only
  cases hnear : isNearName e.1 with
  | false => exact flowEntries_far
  | true =>
    obtain ⟨t, us, htokens, ht⟩ := starts_tokens e.2
    have hread := he (fuel + 1) ⟨false, false⟩ (laterEntries entries ++ .flowMappingEnd :: ts) named stems hfuel
    rw [if_pos rfl, carriedText_of_isNearName hnear, List.singleton_append, List.cons_append, List.cons_append,
      List.cons_append]
    rw [htokens, List.cons_append] at hread ⊢
    rw [flowEntries_first ht, hread]
    cases e.2.isNear with
    | false => rfl
    | true =>
      rw [if_pos rfl, Option.bind_some, hlater, Bool.and_self, Bool.true_and]
      split
      · rfl
      · rfl

theorem flowEntries_later (hentries : ∀ e ∈ entries, Parses e.2) (hfuel : (laterEntries entries).length ≤ fuel) :
    flowEntries (fuel + 1) false ⟨laterEntries entries ++ .flowMappingEnd :: ts, named, stems⟩ =
      if entries.all nearEntry then some (entries.map entryNode, ⟨ts, named, stems⟩) else none := by
  induction entries generalizing fuel with
  | nil => exact flowEntries_end
  | cons e entries ih =>
    obtain ⟨he, hentries⟩ := List.forall_mem_cons.mp hentries
    have hlength := length_tokensOf e
    rw [laterEntries_cons, List.length_cons, List.length_append] at hfuel
    obtain ⟨fuel, rfl⟩ : ∃ n, fuel = n + 2 := ⟨fuel - 2, by omega⟩
    have hlater := ih hentries (show (laterEntries entries).length ≤ fuel + 1 by omega)
    obtain ⟨t, us, htokens, ht⟩ := starts_entry e
    rw [← flowEntries_cons he (by omega) hlater, laterEntries_cons, List.cons_append, List.append_assoc, htokens]
    exact flowEntries_next ht

/-- **A record is read** if its values are, and if its names are near. -/
theorem parses_record (hentries : ∀ e ∈ entries, Parses e.2) : Parses (.record entries) := by
  intro fuel place ts named stems hfuel
  rw [tokens_record, isNear_record, carriedNode_record] at *
  obtain ⟨fuel, rfl⟩ : ∃ n, fuel = n + 2 := ⟨fuel - 2, by simp at hfuel; omega⟩
  rw [List.cons_append, node_mapping]
  cases entries with
  | nil => exact congrArg (Option.map _) flowEntries_end
  | cons e entries =>
    obtain ⟨he, hentries⟩ := List.forall_mem_cons.mp hentries
    have htokens : [Token.flowEntry].intercalate
        (((e :: entries).map fun e => (e.1, e.2.tokens)).map entryTokens) =
          tokensOf e ++ laterEntries entries := by
      simp only [List.map_map, List.map_cons, Text.intercalate_cons, List.flatMap_map, Function.comp_apply, laterEntries,
        tokensOf, List.singleton_append]
    have hlength := length_tokensOf e
    rw [htokens] at hfuel ⊢
    simp only [List.length_cons, List.length_append, List.length_nil] at hfuel
    obtain ⟨fuel, rfl⟩ : ∃ n, fuel = n + 2 := ⟨fuel - 2, by omega⟩
    rw [List.append_assoc, List.append_assoc, List.singleton_append,
      flowEntries_cons he (by omega) (flowEntries_later hentries (by omega))]
    split
    · rfl
    · rfl

/-- A scalar is read by one token. -/
theorem parses_scalar {text : String} {style : Style} (htokens : c.tokens = [.scalar text style])
    (hnear : c.isNear = true) (hnode : Node.ofScalar "" text style = c.carriedNode) : Parses c := by
  intro fuel place ts named stems hfuel
  rw [htokens] at hfuel ⊢
  obtain ⟨fuel, rfl⟩ : ∃ n, fuel = n + 1 := ⟨fuel - 1, by simp at hfuel; omega⟩
  rw [hnear, if_pos rfl, ← hnode]
  exact node_scalar

/-- **The tokens of a content are read as the node of what its texts carry**, if its names are near. -/
theorem parses (c : Content) : Parses c := by
  induction c using Content.induct with
  | text s =>
    refine parses_scalar (tokens_text s) (isNear_text s) ?_
    rw [carriedNode, mapTexts_text, node_text]
    rfl
  | int n =>
    refine parses_scalar (tokens_int n) (isNear_int n) ?_
    rw [carriedNode, mapTexts_int, node_int]
    rfl
  | bool b =>
    refine parses_scalar (tokens_bool b) (isNear_bool b) ?_
    rw [carriedNode, mapTexts_bool, node_bool]
    cases b with
    | false => rfl
    | true => rfl
  | list items ih => exact parses_list ih
  | record entries ih => exact parses_record ih

/-! ## 5. Sources -/

/-- The stems that every document has. -/
def commonStems : List (String × String) := [("!", "!"), ("!!", coreStem)]

theorem document_mapping : document (fuel + 1) ⟨.flowMappingStart :: ts, [], []⟩ =
    (node (fuel + 1) ⟨true, false⟩ ⟨.flowMappingStart :: ts, [], commonStems⟩).bind fun p =>
      (peek p.2).bind fun q => some (some p.1, q.2) := by
  rfl

end Reading

open Reading

variable {entries : List (String × Content)}

/-- The document that starts with the tokens of a record. -/
theorem document_record {fuel : Nat} {ts : List Token} (hfuel : (record entries).tokens.length < fuel) :
    document fuel ⟨(record entries).tokens ++ ts, [], []⟩ =
      if (record entries).isNear then
        (peek ⟨ts, [], commonStems⟩).map fun q => (some (record entries).carriedNode, q.2)
      else none := by
  obtain ⟨fuel, rfl⟩ : ∃ n, fuel = n + 1 := ⟨fuel - 1, by omega⟩
  have hread := parses (.record entries) (fuel + 1) ⟨true, false⟩ ts [] commonStems (by omega)
  rw [tokens_record, List.cons_append] at hread ⊢
  rw [document_mapping, hread]
  cases (record entries).isNear with
  | false => rfl
  | true => rw [if_pos rfl, if_pos rfl, Option.bind_some, Option.map_eq_bind]; rfl

theorem ofTokens_record (entries : List (String × Content)) :
    Source.ofTokens ((record entries).tokens ++ [.streamEnd]) =
      if (record entries).isNear then .document (record entries).carriedNode else .malformed := by
  rw [Source.ofTokens, StateT.run'_eq, StateT.run, document_record (by rw [List.length_append]; omega)]
  cases (record entries).isNear with
  | false => rfl
  | true => rfl

/-- **Where tokens are missing, nothing can be read.** -/
theorem ofTokens_cut {us vs : List Token} (h : (record entries).tokens = us ++ vs) (hne : vs ≠ []) :
    Source.ofTokens us = .malformed := by
  have hnone : document (4 * us.length + 4) ⟨us, [], []⟩ = none := by
    cases us with
    | nil => rfl
    | cons t us =>
      obtain rfl : Token.flowMappingStart = t := by
        rw [tokens_record, List.cons_append] at h
        exact (List.cons.inj h).1
      rw [document_mapping, Option.bind_eq_none_iff]
      rintro ⟨n, st⟩ hn
      have hmore := (keeps vs (Nat.le_max_left _ (record entries).tokens.length)).node _ _ _ _ hn
      have hall := parses (.record entries) _ ⟨true, false⟩ [] [] commonStems
        (Nat.le_max_right (4 * (Token.flowMappingStart :: us).length + 4) _)
      rw [List.append_nil, h] at hall
      rw [h] at hmore
      rw [NodeReader.add, hall] at hmore
      split at hmore
      · obtain ⟨-, hst⟩ := Prod.mk.inj (Option.some.inj hmore)
        have hnil : [] = st.tokens ++ vs := congrArg NodeReader.tokens hst
        exact absurd (List.append_eq_nil_iff.mp hnil.symm).2 hne
      · cases hmore
  rw [Source.ofTokens, StateT.run'_eq, StateT.run, hnone]
  rfl

end Lasso.Yaml
