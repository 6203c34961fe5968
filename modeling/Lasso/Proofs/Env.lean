import Mathlib.Data.List.Sort
import Lasso.Env
import Lasso.Proofs.Text.Order
import Lasso.Proofs.Value.Encoding
/-!
# Environments are finite maps, and their bytes are canonical

* `Sorted` -- entries with ascending names, so each name once; looking up, putting in and taking out
  act on them as on a finite map (`Sorted.lookup_insert`, `Sorted.lookup_without`), and they are known
  by what is looked up in them (`Sorted.eq_of_lookup_eq`);
* `unpack?_ofSorted` -- the packed entries are read back;
* `Canonical` -- an environment whose bytes are those of ascending entries; every environment that is
  built is (`Built.canonical`);
* `built_canonical_map` -- **environments are equal exactly if they give the same values**, whatever
  was put in and taken out to get there.
-/

namespace Lasso

namespace Env

/-! ## 1. Entries with ascending names -/

/-- The names ascend, so none of them stands twice. -/
def Sorted (xs : List (Bytes × Value)) : Prop := xs.Pairwise fun x y => x.1 < y.1

variable {xs ys : List (Bytes × Value)} {x : Bytes × Value} {name n : Bytes} {v w : Value}

theorem Sorted.head_lt (h : Sorted (x :: xs)) {y : Bytes × Value} (hy : y ∈ xs) : x.1 < y.1 :=
  (List.pairwise_cons.mp h).1 y hy

theorem Sorted.tail (h : Sorted (x :: xs)) : Sorted xs := (List.pairwise_cons.mp h).2

/-- **What is looked up is what stands in the entries.** The search may end at a greater name, because
    only still greater ones follow. -/
theorem Sorted.lookup_eq_some_iff (h : Sorted xs) : lookup n xs = some v ↔ (n, v) ∈ xs := by
  induction xs with
  | nil => simp [lookup]
  | cons x xs ih =>
    obtain ⟨m, w⟩ := x
    rw [lookup, List.mem_cons]
    by_cases hm : m = n
    · subst hm
      have hno : (m, v) ∉ xs := fun hv => List.lt_irrefl m (h.head_lt hv)
      rw [if_pos rfl]
      simp [hno, eq_comm]
    · have hne : (n, v) ≠ (m, w) := fun e => hm (congrArg Prod.fst e).symm
      rw [if_neg hm]
      by_cases hlt : m.lt n = true
      · rw [if_pos hlt, ih h.tail]
        simp [hne]
      · have hno : (n, v) ∉ xs := fun hv => hlt (Bytes.lt_iff_lt.mpr (h.head_lt hv))
        rw [if_neg hlt]
        simp [hne, hno]

theorem Sorted.mem_insert (h : Sorted xs) {y : Bytes × Value} :
    y ∈ insert name v xs ↔ y = (name, v) ∨ y ∈ xs ∧ y.1 ≠ name := by
  induction xs with
  | nil => simp [insert]
  | cons x xs ih =>
    obtain ⟨m, w⟩ := x
    have hgt : ∀ z ∈ xs, z.1 ≠ m := fun z hz e => List.lt_irrefl m (e ▸ h.head_lt hz)
    rw [insert]
    by_cases hm : m = name
    · subst hm
      rw [if_pos rfl, List.mem_cons, List.mem_cons]
      constructor
      · rintro (e | hy)
        · exact Or.inl e
        · exact Or.inr ⟨Or.inr hy, hgt y hy⟩
      · rintro (e | ⟨e | hy, hne⟩)
        · exact Or.inl e
        · exact absurd (congrArg Prod.fst e) hne
        · exact Or.inr hy
    · rw [if_neg hm]
      by_cases hlt : m.lt name = true
      · rw [if_pos hlt, List.mem_cons, List.mem_cons, ih h.tail]
        constructor
        · rintro (rfl | e | ⟨hy, hne⟩)
          · exact Or.inr ⟨Or.inl rfl, hm⟩
          · exact Or.inl e
          · exact Or.inr ⟨Or.inr hy, hne⟩
        · rintro (e | ⟨e | hy, hne⟩)
          · exact Or.inr (Or.inl e)
          · exact Or.inl e
          · exact Or.inr (Or.inr ⟨hy, hne⟩)
      · -- the name is smaller than all that stand in the entries
        have hlt' : name < m := Bytes.lt_of_not_lt hm hlt
        have hne : ∀ z ∈ (m, w) :: xs, z.1 ≠ name := by
          rintro z hz rfl
          rcases List.mem_cons.mp hz with rfl | hz
          · exact List.lt_irrefl _ hlt'
          · exact List.lt_irrefl _ (List.lt_trans hlt' (h.head_lt hz))
        rw [if_neg hlt, List.mem_cons]
        exact or_congr_right ⟨fun hy => ⟨hy, hne y hy⟩, fun hy => hy.1⟩

theorem Sorted.insert (h : Sorted xs) (name : Bytes) (v : Value) : Sorted (insert name v xs) := by
  induction xs with
  | nil => exact List.pairwise_singleton _ _
  | cons x xs ih =>
    obtain ⟨m, w⟩ := x
    rw [Env.insert]
    by_cases hm : m = name
    · subst hm
      rw [if_pos rfl]
      exact List.pairwise_cons.mpr ⟨fun y hy => h.head_lt hy, h.tail⟩
    · rw [if_neg hm]
      by_cases hlt : m.lt name = true
      · rw [if_pos hlt]
        refine List.pairwise_cons.mpr ⟨fun y hy => ?_, ih h.tail⟩
        rcases h.tail.mem_insert.mp hy with rfl | ⟨hy, -⟩
        · exact Bytes.lt_iff_lt.mp hlt
        · exact h.head_lt hy
      · have hlt' : name < m := Bytes.lt_of_not_lt hm hlt
        rw [if_neg hlt]
        refine List.pairwise_cons.mpr ⟨fun y hy => ?_, h⟩
        rcases List.mem_cons.mp hy with rfl | hy
        · exact hlt'
        · exact List.lt_trans hlt' (h.head_lt hy)

theorem Sorted.without (h : Sorted xs) (name : Bytes) : Sorted (xs.filter (·.1 ≠ name)) :=
  List.Pairwise.filter _ h

theorem Sorted.lookup_insert (h : Sorted xs) (name : Bytes) (v : Value) (n : Bytes) :
    lookup n (Env.insert name v xs) = if n = name then some v else lookup n xs := by
  refine Option.ext fun w => ?_
  rw [(h.insert name v).lookup_eq_some_iff, h.mem_insert]
  by_cases hn : n = name
  · subst hn
    simp [eq_comm]
  · rw [if_neg hn, h.lookup_eq_some_iff]
    simp [hn]

theorem Sorted.lookup_without (h : Sorted xs) (name n : Bytes) :
    lookup n (xs.filter (·.1 ≠ name)) = if n = name then none else lookup n xs := by
  refine Option.ext fun w => ?_
  rw [(h.without name).lookup_eq_some_iff, List.mem_filter, decide_eq_true_eq]
  by_cases hn : n = name
  · simp [hn]
  · rw [if_neg hn, h.lookup_eq_some_iff]
    simp [hn]

theorem Sorted.nodup (h : Sorted xs) : xs.Nodup := by
  refine List.Pairwise.imp (fun {x y} hlt => ?_) h
  rintro rfl
  exact List.lt_irrefl x.1 hlt

/-- **Ascending entries are known by what is looked up in them**: the same entries stand in both, and
    there is only one way to order them. -/
theorem Sorted.eq_of_lookup_eq (hx : Sorted xs) (hy : Sorted ys)
    (h : ∀ n, lookup n xs = lookup n ys) : xs = ys := by
  have hmem : ∀ z, z ∈ xs ↔ z ∈ ys := fun z => by
    rw [← hx.lookup_eq_some_iff, ← hy.lookup_eq_some_iff, h]
  have hperm : xs.Perm ys := (List.perm_ext_iff_of_nodup hx.nodup hy.nodup).mpr hmem
  exact hperm.eq_of_pairwise (fun a b _ _ hab hba => absurd hba (List.lt_asymm hab)) hx hy

/-- What is greater than all names goes behind them. -/
theorem insert_of_forall_lt (h : ∀ x ∈ xs, x.1 < name) : insert name v xs = xs ++ [(name, v)] := by
  induction xs with
  | nil => rfl
  | cons x xs ih =>
    obtain ⟨m, w⟩ := x
    have hm : m < name := h (m, w) List.mem_cons_self
    have hne : m ≠ name := fun e => List.lt_irrefl name (e ▸ hm)
    rw [insert, if_neg hne, if_pos (Bytes.lt_iff_lt.mpr hm),
      ih fun x hx => h x (List.mem_cons_of_mem _ hx)]
    rfl

/-! ## 2. Packed entries -/

theorem decodeEntry?_encodeEntry (name : Bytes) (v : Value) (rest : Bytes) :
    decodeEntry? (encodeEntry name v ++ rest) = some ((name, v), rest) := by
  unfold decodeEntry? encodeEntry
  rw [List.append_assoc, readBytes?_encodeBytes]
  simp only [Option.bind_eq_bind, Option.bind_some, Value.decode?_encode, Option.pure_def]

/-- **Packed entries are read back**, whatever they are. -/
theorem unpack?_ofSorted (xs : List (Bytes × Value)) : unpack? (ofSorted xs).packed = some xs :=
  readAll?_flatMap fun x _ => decodeEntry?_encodeEntry x.1 x.2

@[simp] theorem bindings_ofSorted (xs : List (Bytes × Value)) : (ofSorted xs).bindings = xs := by
  rw [bindings, unpack?_ofSorted]
  rfl

/-! ## 3. Canonical environments -/

/-- **An environment is canonical** if its bytes are those of its entries, and these ascend. -/
structure Canonical (e : Env) : Prop where
  sorted : Sorted e.bindings
  packed : ofSorted e.bindings = e

variable {e e₁ e₂ : Env}

theorem canonical_ofSorted (h : Sorted xs) : (ofSorted xs).Canonical where
  sorted := by rwa [bindings_ofSorted]
  packed := by rw [bindings_ofSorted]

theorem Canonical.unpack? (h : e.Canonical) : unpack? e.packed = some e.bindings := by
  conv_lhs => rw [← h.packed]
  exact unpack?_ofSorted e.bindings

theorem bindings_put (e : Env) (name : Bytes) (v : Value) :
    (e.put name v).bindings = insert name v e.bindings := bindings_ofSorted _

theorem bindings_remove (e : Env) (name : Bytes) :
    (e.remove name).bindings = e.bindings.filter (·.1 ≠ name) := bindings_ofSorted _

theorem Canonical.put (h : e.Canonical) (name : Bytes) (v : Value) : (e.put name v).Canonical :=
  canonical_ofSorted (h.sorted.insert name v)

theorem Canonical.remove (h : e.Canonical) (name : Bytes) : (e.remove name).Canonical :=
  canonical_ofSorted (h.sorted.without name)

theorem Canonical.find?_put (h : e.Canonical) (name : Bytes) (v : Value) (n : Bytes) :
    (e.put name v).find? n = if n = name then some v else e.find? n := by
  rw [find?, bindings_put, h.sorted.lookup_insert]
  rfl

theorem Canonical.find?_remove (h : e.Canonical) (name n : Bytes) :
    (e.remove name).find? n = if n = name then none else e.find? n := by
  rw [find?, bindings_remove, h.sorted.lookup_without]
  rfl

theorem Canonical.set (h : e.Canonical) (name : String) (v : Value) : (e.set name v).Canonical :=
  h.put _ v

theorem Canonical.get?_set (h : e.Canonical) (name : String) (v : Value) (m : String) :
    (e.set name v).get? m = if m = name then some v else e.get? m := by
  have hput := h.find?_put (.ofString name) v (.ofString m)
  by_cases hm : m = name
  · rw [if_pos hm]
    rw [if_pos (congrArg Bytes.ofString hm)] at hput
    exact hput
  · rw [if_neg hm]
    rw [if_neg fun h => hm (Bytes.ofString_injective h)] at hput
    exact hput

/-- **Canonical environments are known by the values they give.** -/
theorem Canonical.ext (h₁ : e₁.Canonical) (h₂ : e₂.Canonical) (h : ∀ n, e₁.find? n = e₂.find? n) :
    e₁ = e₂ := by
  have hb : e₁.bindings = e₂.bindings := h₁.sorted.eq_of_lookup_eq h₂.sorted h
  rw [← h₁.packed, ← h₂.packed, hb]

/-- Ascending entries that are put in one by one are packed as they stand. -/
theorem foldl_put_ofSorted (xs ys : List (Bytes × Value)) (h : Sorted (xs ++ ys)) :
    ys.foldl (fun e y => e.put y.1 y.2) (ofSorted xs) = ofSorted (xs ++ ys) := by
  induction ys generalizing xs with
  | nil => rw [List.append_nil, List.foldl_nil]
  | cons y ys ih =>
    have hlast : ∀ x ∈ xs, x.1 < y.1 := fun x hx =>
      (List.pairwise_append.mp h).2.2 x hx y List.mem_cons_self
    have hput : (ofSorted xs).put y.1 y.2 = ofSorted (xs ++ [y]) := by
      rw [put, bindings_ofSorted, insert_of_forall_lt hlast]
    have h' : Sorted (xs ++ [y] ++ ys) := by rwa [List.append_assoc, List.singleton_append]
    rw [List.foldl_cons, hput, ih _ h', List.append_assoc, List.singleton_append]

theorem Canonical.ofBindings_bindings (h : e.Canonical) : ofBindings e.bindings = e := by
  have hfold := foldl_put_ofSorted [] e.bindings h.sorted
  rw [List.nil_append, h.packed] at hfold
  exact hfold

/-! ## 4. Environments that are built -/

/-- **An environment that is built**: from ascending entries, from any entries, or from one that is
    built by putting in and taking out; the values are ones that can be built. -/
inductive Built : Env → Prop where
  | ofSorted (xs : List (Bytes × Value)) (hs : Sorted xs) (hv : ∀ x ∈ xs, x.2.Formed) :
      Built (ofSorted xs)
  | ofBindings (xs : List (Bytes × Value)) (hv : ∀ x ∈ xs, x.2.Formed) : Built (ofBindings xs)
  | put (e : Env) (name : Bytes) (v : Value) (h : Built e) (hv : v.Formed) : Built (e.put name v)
  | remove (e : Env) (name : Bytes) (h : Built e) : Built (e.remove name)

/-- All values of an environment can be built. -/
def Valued (e : Env) : Prop := ∀ x ∈ e.bindings, x.2.Formed

theorem Canonical.valued_put (h : e.Canonical) (hv : e.Valued) (name : Bytes) {v : Value}
    (hf : v.Formed) : (e.put name v).Valued := by
  intro y hy
  rw [bindings_put, h.sorted.mem_insert] at hy
  rcases hy with rfl | ⟨hy, -⟩
  · exact hf
  · exact hv y hy

theorem canonical_empty : empty.Canonical := canonical_ofSorted List.Pairwise.nil

theorem find?_empty (n : Bytes) : (∅ : Env).find? n = none := by
  have hno : (∅ : Env).bindings = [] := bindings_ofSorted []
  rw [find?, hno]
  rfl

theorem valued_empty : empty.Valued := by
  intro y hy
  rw [empty, bindings_ofSorted] at hy
  exact absurd hy List.not_mem_nil

/-- Entries that are put in one by one keep an environment canonical. -/
theorem foldl_put_canonical (h : e.Canonical) (hv : e.Valued) (hxs : ∀ x ∈ xs, x.2.Formed) :
    (xs.foldl (fun e x => e.put x.1 x.2) e).Canonical ∧
      (xs.foldl (fun e x => e.put x.1 x.2) e).Valued := by
  induction xs generalizing e with
  | nil => exact ⟨h, hv⟩
  | cons x xs ih =>
    exact ih (h.put x.1 x.2) (h.valued_put hv x.1 (hxs x List.mem_cons_self))
      fun y hy => hxs y (List.mem_cons_of_mem _ hy)

/-- **Every environment that is built is canonical**, and its values can be built. -/
theorem Built.canonical (h : e.Built) : e.Canonical ∧ e.Valued := by
  induction h with
  | ofSorted xs hs hv =>
    refine ⟨canonical_ofSorted hs, fun x hx => ?_⟩
    rw [bindings_ofSorted] at hx
    exact hv x hx
  | ofBindings xs hv => exact foldl_put_canonical canonical_empty valued_empty hv
  | put e name v _ hv ih => exact ⟨ih.1.put name v, ih.1.valued_put ih.2 name hv⟩
  | remove e name _ ih =>
    refine ⟨ih.1.remove name, fun x hx => ?_⟩
    rw [bindings_remove] at hx
    exact ih.2 x (List.mem_of_mem_filter hx)

/-- **The laws of a finite map**, as equalities of bytes where they are equalities of maps. -/
structure IsFiniteMap (e : Env) : Prop where
  find?_put : ∀ x v n, (e.put x v).find? n = if n = x then some v else e.find? n
  find?_remove : ∀ x n, (e.remove x).find? n = if n = x then none else e.find? n
  put_put_comm : ∀ x y v w, x ≠ y → (e.put x v).put y w = (e.put y w).put x v
  put_remove_comm : ∀ x y v, x ≠ y → (e.put x v).remove y = (e.remove y).put x v
  remove_remove_comm : ∀ x y, (e.remove x).remove y = (e.remove y).remove x
  put_put_same : ∀ x v w, (e.put x v).put x w = e.put x w
  pack_bindings : ofSorted e.bindings = e ∧ ofBindings e.bindings = e
  keys_ascend : e.keys.Pairwise (· < ·)
  decodes : unpack? e.packed = some e.bindings ∧ ∀ x ∈ e.bindings, x.2.Readable

theorem Canonical.isFiniteMap (h : e.Canonical) (hv : e.Valued) : e.IsFiniteMap where
  find?_put := h.find?_put
  find?_remove := h.find?_remove
  put_put_comm x y v w hxy := by
    refine ((h.put x v).put y w).ext ((h.put y w).put x v) fun n => ?_
    rw [(h.put x v).find?_put, h.find?_put, (h.put y w).find?_put, h.find?_put]
    by_cases hn : n = x
    · subst hn
      simp [hxy]
    · simp [hn]
  put_remove_comm x y v hxy := by
    refine ((h.put x v).remove y).ext ((h.remove y).put x v) fun n => ?_
    rw [(h.put x v).find?_remove, h.find?_put, (h.remove y).find?_put, h.find?_remove]
    by_cases hn : n = x
    · subst hn
      simp [hxy]
    · simp [hn]
  remove_remove_comm x y := by
    refine ((h.remove x).remove y).ext ((h.remove y).remove x) fun n => ?_
    rw [(h.remove x).find?_remove, h.find?_remove, (h.remove y).find?_remove, h.find?_remove]
    by_cases hn : n = x <;> simp [hn]
  put_put_same x v w := by
    refine ((h.put x v).put x w).ext (h.put x w) fun n => ?_
    rw [(h.put x v).find?_put, h.find?_put, h.find?_put]
    by_cases hn : n = x <;> simp [hn]
  pack_bindings := ⟨h.packed, h.ofBindings_bindings⟩
  keys_ascend := List.pairwise_map.mpr h.sorted
  decodes := ⟨h.unpack?, fun x hx => (hv x hx).readable⟩

/-- **Environments are canonical finite maps**: two of them are the same bytes exactly if they give the
    same values, and each of them obeys the laws of finite maps. -/
theorem built_canonical_map (h₁ : e₁.Built) (h₂ : e₂.Built) :
    (e₁ = e₂ ↔ ∀ n, e₁.find? n = e₂.find? n) ∧ e₁.IsFiniteMap ∧ e₂.IsFiniteMap := by
  obtain ⟨hc₁, hv₁⟩ := h₁.canonical
  obtain ⟨hc₂, hv₂⟩ := h₂.canonical
  exact ⟨⟨fun e n => by rw [e], hc₁.ext hc₂⟩, hc₁.isFiniteMap hv₁, hc₂.isFiniteMap hv₂⟩

/-- A counter and a queue that holds a number and an empty queue. -/
def counting : Env := (empty.set "count" (.int 3)).set "queue" (.ofList [.int (-1), .ofList []])

/-- The same entries with a detour. -/
def countingAgain : Env :=
  (((empty.set "queue" (.ofList [.int (-1), .ofList []])).set "count" (.int 7)).set "spare"
    (.bool true)).erase "spare" |>.set "count" (.int 3)

theorem formed_queue : (Value.ofList [.int (-1), .ofList []]).Formed := by
  refine .tuple _ fun v hv => ?_
  rcases List.mem_cons.mp hv with rfl | hv
  · exact .int (-1)
  · rw [List.mem_singleton.mp hv]
    exact .tuple [] fun w hw => absurd hw List.not_mem_nil

theorem built_empty : empty.Built := .ofBindings [] fun _ hx => absurd hx List.not_mem_nil

theorem counting_built : counting.Built := .put _ _ _ (.put _ _ _ built_empty (.int 3)) formed_queue

theorem countingAgain_built : countingAgain.Built :=
  .put _ _ _ (.remove _ _ (.put _ _ _ (.put _ _ _ (.put _ _ _ built_empty formed_queue) (.int 7))
    (.bool true))) (.int 3)

theorem built_canonical_map_counting :
    counting.Built ∧ countingAgain.Built ∧
      (counting = countingAgain ↔ ∀ n, counting.find? n = countingAgain.find? n) ∧
      counting.IsFiniteMap ∧ countingAgain.IsFiniteMap :=
  ⟨counting_built, countingAgain_built, built_canonical_map counting_built countingAgain_built⟩

example : counting = countingAgain := by cbv

end Env

end Lasso
