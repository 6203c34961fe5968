import Mathlib.Data.List.Pairwise
import Lasso.Proofs.Text.Order
import Lasso.Proofs.Yaml.Received
/-!
# Reading contents back

What is written as a content in order is read field by field. The order of the fields does not matter, since fields
of different names fill different parts of a record.

* `Reader.Reads` -- a reader gives a value for a content;
* `entriesOf?_keyed` -- the entries of a mapping whose keys are different texts;
* `Reader.Independent` -- the fields of a record can be filled in any order;
* `Reader.Fills` -- entries fill a record, with names from a list; `Fills.append` -- one after the other;
* `Fills.reads` -- **a record is read as it is filled**, whatever the order of its entries has become;
* `reads_list`, `reads_table`, `reads_optional`.
-/

namespace Lasso.Yaml

/-! ## 1. Entries of mappings -/

/-- Entries whose keys are texts. -/
def keyed (entries : List (String × Node)) : List (Node × Node) := entries.map fun e => (.scalar "!!str" e.1, e.2)

theorem isMerge_text (s : String) : (Node.scalar "!!str" s).isMerge = false := rfl

theorem key?_text (s : String) : (Node.scalar "!!str" s).key? true = some (some (.text s)) := rfl

theorem distinctKeys_keyed {entries : List (String × Node)} (h : (entries.map Prod.fst).Nodup) :
    distinctKeys (keyed entries) = true := by
  induction entries with
  | nil => rfl
  | cons e entries ih =>
    obtain ⟨hnot, hnodup⟩ := List.nodup_cons.mp h
    have hany : ((keyed entries).any fun x => (Node.scalar "!!str" e.1).sameKey x.1) = false := by
      rw [keyed, List.any_map, List.any_eq_false]
      intro x hx heq
      rw [Function.comp_apply, Node.sameKey, decide_eq_true_eq] at heq
      exact hnot (heq ▸ List.mem_map_of_mem hx)
    rw [keyed, List.map_cons, distinctKeys]
    rw [← keyed, hany, ih hnodup]
    rfl

theorem ownEntries?_keyed (entries : List (String × Node)) :
    ownEntries? true none (keyed entries) = some (entries.map fun e => (.text e.1, e.2), none) := by
  induction entries with
  | nil => rfl
  | cons e entries ih =>
    rw [keyed, List.map_cons, ownEntries?, isMerge_text, if_neg Bool.false_ne_true, key?_text, ← keyed, ih]
    rfl

theorem find?_isMerge_keyed (entries : List (String × Node)) : (keyed entries).find? (·.1.isMerge) = none := by
  rw [List.find?_eq_none]
  intro x hx
  obtain ⟨e, -, rfl⟩ := List.mem_map.mp hx
  exact Bool.false_ne_true

/-- **The entries of a mapping whose keys are different texts.** -/
theorem entriesOf?_keyed {entries : List (String × Node)} (h : (entries.map Prod.fst).Nodup) (unique : Bool) :
    entriesOf? true unique (keyed entries) = some (entries.map fun e => (.text e.1, e.2)) := by
  have hmeanings : (entries.map (Prod.fst ∘ fun e => (Meaning.text e.1, e.2))).Nodup :=
    List.pairwise_map.mpr ((List.pairwise_map.mp h).imp fun hne heq => hne (Meaning.text.inj heq))
  rw [entriesOf?, mergedEntries?, distinctKeys_keyed h, ownEntries?_keyed, find?_isMerge_keyed]
  simp [hmeanings]

/-! ## 2. Scalars and lists -/

namespace Reader

variable {α β σ : Type} {r : Reader α} {c : Content} {a : α}

/-- **A reader gives a value for a content**, as it is received in order. -/
def Reads (r : Reader α) (c : Content) (a : α) : Prop := r c.ordered.node = some (some a)

theorem reads_text (s : String) : Reads text (.text s) s := by
  rfl

theorem reads_bool (b : Bool) : Reads bool (.bool b) b := by
  cases b with
  | false => rfl
  | true => rfl

/-- What is read of every item is read of all. -/
theorem mapM_eq_some {ι κ : Type} {f : κ → Option (Option β)} {k : ι → κ} {g : ι → β} {xs : List ι}
    (h : ∀ x ∈ xs, f (k x) = some (some (g x))) : (xs.map k).mapM f = some (xs.map (some ∘ g)) := by
  induction xs with
  | nil => rfl
  | cons x xs ih =>
    obtain ⟨hx, hxs⟩ := List.forall_mem_cons.mp h
    rw [List.map_cons, List.mapM_cons, hx, ih hxs]
    rfl

theorem reduceOption_map_some {ι : Type} (g : ι → β) (xs : List ι) : (xs.map (some ∘ g)).reduceOption = xs.map g := by
  induction xs with
  | nil => rfl
  | cons x xs ih => exact congrArg (g x :: ·) ih

/-- A list is read item by item. -/
theorem reads_list {f : α → Content} {xs : List α} (h : ∀ x ∈ xs, Reads r (f x) x) :
    Reads (list r) (.list (xs.map f)) xs := by
  have hitems : (xs.map fun x => (f x).ordered.node).mapM r = some (xs.map (some ∘ id)) := mapM_eq_some h
  rw [Reads, Content.ordered_list, Content.node_list, List.map_map, List.map_map]
  show (((xs.map fun x => (f x).ordered.node).mapM r).bind fun items => some (some items.reduceOption)) = _
  rw [hitems, Option.bind_some, reduceOption_map_some, List.map_id]

theorem isNull_record (entries : List (String × Content)) :
    isNull (Content.record entries).ordered.node = some false := by
  rw [Content.ordered_record, Content.node_record]
  rfl

/-- What may be missing is read if it is there. -/
theorem reads_optional (hnull : isNull c.ordered.node = some false) (h : Reads r c a) :
    Reads (optional r) c (some a) := by
  rw [Reads, optional, hnull, h]
  rfl

/-! ## 3. Records -/

/-- An entry fills its field. A name that is not known is refused where names are `strict`. -/
def place (strict : Bool) (fields : List (String × Field σ)) (s : σ) (e : String × Node) : Option σ :=
  match fields.lookup e.1 with
  | some f => f e.2 s
  | none => if strict then none else some s

/-- Two fields do not disturb each other. -/
def Commute (f g : Field σ) : Prop := ∀ v w s, (f v s).bind (g w) = (g w s).bind (f v)

/-- **The fields can be filled in any order.** -/
def Independent (fields : List (String × Field σ)) : Prop := fields.Pairwise fun f g => Commute f.2 g.2

variable {strict : Bool} {fields : List (String × Field σ)} {es es' : List (String × Node)} {s s' s'' : σ}

theorem field_of_eq_some {put : α → σ → σ} {v : Node} {a? : Option α} (h : r v = some a?) (s : σ) :
    field r put v s = some (a?.elim s (put · s)) := by
  rw [field, h]
  cases a? <;> rfl

/-- Readers that put their values into different parts do not disturb each other. -/
@[simp] theorem commute_field {q : Reader β} {put : α → σ → σ} {put' : β → σ → σ}
    (h : ∀ a b s, put' b (put a s) = put a (put' b s)) : Commute (field r put) (field q put') := by
  intro v w s
  cases hr : r v with
  | none =>
    have hnone : ∀ s, field r put v s = none := fun s => by rw [field, hr]; rfl
    cases hq : field q put' w s <;> simp [hnone]
  | some a? =>
    cases hq : q w with
    | none =>
      have hnone : ∀ s, field q put' w s = none := fun s => by rw [field, hq]; rfl
      cases hr' : field r put v s <;> simp [hnone]
    | some b? =>
      simp only [field_of_eq_some hr, field_of_eq_some hq, Option.bind_some]
      cases a? <;> cases b? <;> simp [h]

theorem Independent.place_comm (h : Independent fields) {x y : String × Node} (hne : x.1 ≠ y.1) (s : σ) :
    (place strict fields s x).bind (place strict fields · y) =
      (place strict fields s y).bind (place strict fields · x) := by
  have hmem : ∀ {name f}, fields.lookup name = some f → (name, f) ∈ fields := fun h => by
    obtain ⟨l, l', rfl, -⟩ := List.lookup_eq_some_iff.mp h
    exact List.mem_append_right l List.mem_cons_self
  unfold place
  cases hx : fields.lookup x.1 with
  | none => cases strict <;> simp
  | some f =>
    cases hy : fields.lookup y.1 with
    | none => cases strict <;> simp
    | some g =>
      have : Std.Symm fun f g : String × Field σ => Commute f.2 g.2 := ⟨fun f g hfg v w s => (hfg w v s).symm⟩
      exact List.Pairwise.forall h (hmem hx) (hmem hy) (fun heq => hne (Prod.mk.inj heq).1) x.2 y.2 s

theorem Independent.foldlM_perm (h : Independent fields) (hperm : es.Perm es') (hnodup : (es.map Prod.fst).Nodup)
    (s : σ) : es.foldlM (place strict fields) s = es'.foldlM (place strict fields) s := by
  induction hperm generalizing s with
  | nil => rfl
  | cons x _ ih =>
    rw [List.foldlM_cons, List.foldlM_cons]
    exact congrArg _ (funext fun s => ih (List.nodup_cons.mp hnodup).2 s)
  | swap x y es =>
    have hne : y.1 ≠ x.1 := fun heq => (List.nodup_cons.mp hnodup).1 (heq ▸ List.mem_cons_self)
    simp only [List.foldlM_cons, ← bind_assoc]
    exact congrArg (· >>= _) (h.place_comm hne s)
  | trans hp _ ihp ihq =>
    exact (ihp hnodup s).trans (ihq ((hp.map Prod.fst).nodup_iff.mp hnodup) s)

/-- A mapping is read by filling fields. -/
theorem record_keyed (hnodup : (es.map Prod.fst).Nodup) :
    record strict s fields (.mapping (keyed es)) = (es.foldlM (place strict fields) s).map some := by
  rw [record, show isNull (.mapping (keyed es)) = some false from rfl]
  show (entriesOf? true true (keyed es)).bind (fun es => some <$> es.foldlM _ s) = _
  rw [entriesOf?_keyed hnodup, Option.bind_some, List.foldlM_map]
  rfl

/-- The entries of a content fill a record. -/
def fill (strict : Bool) (fields : List (String × Field σ)) (entries : List (String × Content)) (s : σ) : Option σ :=
  (entries.map fun e => (e.1, e.2.ordered.node)).foldlM (place strict fields) s

variable {names names' : List String} {entries entries' : List (String × Content)} {name : String}

theorem fill_append (s : σ) : fill strict fields (entries ++ entries') s =
    (fill strict fields entries s).bind (fill strict fields entries') := by
  rw [fill, List.map_append, List.foldlM_append]
  rfl

theorem node_ordered_record (entries : List (String × Content)) :
    (Content.record entries).ordered.node =
      .mapping (keyed (Content.byName (entries.map fun e => (e.1, e.2.ordered.node)))) := by
  have hsort : Content.byName (entries.map fun e => (e.1, e.2.ordered.node)) =
      (Content.byName (entries.map fun e => (e.1, e.2.ordered))).map fun e => (e.1, e.2.node) := by
    rw [← Content.byName_map (g := fun e : String × Content => (e.1, e.2.node)) (fun _ => rfl), List.map_map]
    rfl
  rw [Content.ordered_record, Content.node_record, hsort, keyed, List.map_map]
  rfl

/-- **A record is read by filling its fields**, whatever the order of its entries has become. -/
theorem Independent.record_eq (h : Independent fields) (hnodup : (entries.map Prod.fst).Nodup) :
    record strict s fields (Content.record entries).ordered.node = (fill strict fields entries s).map some := by
  have hperm := Content.perm_byName (entries.map fun e => (e.1, e.2.ordered.node))
  have hnames : ((Content.byName (entries.map fun e => (e.1, e.2.ordered.node))).map Prod.fst).Nodup := by
    rw [(hperm.map Prod.fst).nodup_iff, List.map_map]
    exact hnodup
  rw [node_ordered_record, record_keyed hnames, h.foldlM_perm hperm hnames]
  rfl

/-- **Entries fill a record**, with names from a list. -/
structure Fills (strict : Bool) (fields : List (String × Field σ)) (names : List String)
    (entries : List (String × Content)) (s s' : σ) : Prop where
  names : (entries.map Prod.fst).Sublist names
  filled : fill strict fields entries s = some s'

theorem Fills.nil : Fills strict fields [] [] s s := ⟨.refl _, rfl⟩

/-- An entry fills its field, and others fill theirs. -/
theorem Fills.cons {put : α → σ → σ} (hlookup : fields.lookup name = some (field r put)) (hread : Reads r c a)
    (h : Fills strict fields names entries (put a s) s') :
    Fills strict fields (name :: names) ((name, c) :: entries) s s' where
  names := h.names.cons_cons name
  filled := by
    have hplace : place strict fields s (name, c.ordered.node) = some (put a s) := by
      rw [place, hlookup]
      exact field_of_eq_some hread s
    rw [fill, List.map_cons, List.foldlM_cons, hplace]
    exact h.filled

theorem Fills.append (h : Fills strict fields names entries s s') (h' : Fills strict fields names' entries' s' s'') :
    Fills strict fields (names ++ names') (entries ++ entries') s s'' where
  names := by
    rw [List.map_append]
    exact h.names.append h'.names
  filled := by
    rw [fill_append, h.filled]
    exact h'.filled

/-- A field that is left out where it has its default is filled all the same. -/
theorem fills_unless {put : α → σ → σ} {p : Prop} [Decidable p] (hlookup : fields.lookup name = some (field r put))
    (hread : ¬ p → Reads r c a) (hs : p → put a s = s) :
    Fills strict fields [name] (if p then [] else [(name, c)]) s (put a s) := by
  by_cases hp : p
  · rw [if_pos hp]
    exact ⟨List.nil_sublist _, congrArg some (hs hp).symm⟩
  · rw [if_neg hp]
    exact .cons hlookup (hread hp) .nil

/-- **A record is read as it is filled.** -/
theorem Fills.reads (h : Fills strict fields names entries s s') (hind : Independent fields) (hnames : names.Nodup)
    (hs : s' = s'') : Reads (record strict s fields) (.record entries) s'' := by
  rw [Reads, hind.record_eq (h.names.nodup hnames), h.filled, hs]
  rfl

/-- What is read of one entry decides about a record, if the others fill it. -/
theorem Fills.record_eq_map {ι : Type} [Inhabited ι] {between : List (String × Content)} {n? : Option ι} {set last : ι → σ}
    (h : Fills strict fields names entries s s') (hname : (between.map Prod.fst).Sublist [name])
    (hbetween : fill strict fields between s' = n?.map set)
    (h' : ∀ n, Fills strict fields names' entries' (set n) (last n)) (hind : Independent fields)
    (hnames : (names ++ [name] ++ names').Nodup) :
    record strict s fields (Content.record (entries ++ between ++ entries')).ordered.node =
      n?.map fun n => some (last n) := by
  have hsublist : ((entries ++ between ++ entries').map Prod.fst).Sublist (names ++ [name] ++ names') := by
    rw [List.map_append, List.map_append]
    exact (h.names.append hname).append (h' default).names
  rw [hind.record_eq (hsublist.nodup hnames), fill_append, fill_append, h.filled, Option.bind_some, hbetween]
  cases n? with
  | none => rfl
  | some n => rw [Option.map_some, Option.bind_some, (h' n).filled]; rfl

/-! ## 4. Tables -/

/-- **A table is read entry by entry**, in the order of its names. -/
theorem reads_table {f : α → Content} {xs ys : List (String × α)} (hxs : Ascending xs) (hperm : ys.Perm xs)
    (h : ∀ x ∈ xs, Reads r (f x.2) x.2) : Reads (table r) (.record (ys.map fun x => (x.1, f x.2))) xs := by
  have hentries : Content.byName ((ys.map fun x => (x.1, f x.2)).map fun e => (e.1, e.2.ordered.node)) =
      xs.map fun x => (x.1, (f x.2).ordered.node) := by
    rw [List.map_map, ← sort_eq_of_perm hxs hperm]
    exact Content.byName_map (g := fun x => (x.1, (f x.2).ordered.node)) (fun _ => rfl) ys
  have hnodup : ((xs.map fun x => (x.1, (f x.2).ordered.node)).map Prod.fst).Nodup := by
    rw [List.map_map]
    exact hxs.nodup
  rw [Reads, node_ordered_record, hentries, table,
    show isNull (.mapping (keyed (xs.map fun x => (x.1, (f x.2).ordered.node)))) = some false from rfl]
  show (entriesOf? true false (keyed _)).bind (fun es => Option.bind (es.mapM _) fun read =>
    some (some read.reduceOption)) = _
  rw [entriesOf?_keyed hnodup, Option.bind_some, List.map_map, mapM_eq_some (g := id), Option.bind_some,
    reduceOption_map_some, List.map_id]
  intro x hx
  rw [Function.comp_apply]
  show (r (f x.2).ordered.node).bind (fun a? => some (a?.map (x.1, ·))) = _
  rw [h x hx]
  rfl

end Reader

end Lasso.Yaml
