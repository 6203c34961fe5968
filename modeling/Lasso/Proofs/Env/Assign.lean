import Mathlib.Algebra.Group.Nat.Defs
import Mathlib.Data.List.Induction
import Mathlib.Data.Nat.Init
import Lasso.Proofs.Env.Merge
import Lasso.Unfold.Circuit
/-!
# Environments that put names on and off

* `Assigns` -- an environment that gives to certain names `true` or `false`, and to no other name
  anything; `AllOff` -- all of them are off;
* `mem_range_assignment` -- **the bits of the numbers below a power of two make all assignments**, also
  where a name stands twice;
* `allOff_iff` -- there is one way to put all names off;
* `Over.mem_namesOn` -- the names that are on are those with the value `true`.
-/

namespace Lasso

namespace Env

variable {e : Env} {ns : List String} {xs : List (String × Value)} {n : Bytes} {v : Value}

/-! ## 1. Environments of given entries -/

theorem ofList_concat (xs : List (String × Value)) (x : String × Value) :
    ofList (xs ++ [x]) = (ofList xs).set x.1 x.2 := by
  rw [ofList, List.foldl_append]
  rfl

theorem canonical_ofList (xs : List (String × Value)) : (ofList xs).Canonical := by
  induction xs using List.reverseRecOn with
  | nil => exact canonical_empty
  | append_singleton xs x ih =>
    rw [ofList_concat]
    exact ih.set x.1 x.2

/-- What is found in an environment of given entries is one of them. -/
theorem exists_of_find?_ofList (h : (ofList xs).find? n = some v) :
    ∃ name, Bytes.ofString name = n ∧ (name, v) ∈ xs := by
  induction xs using List.reverseRecOn with
  | nil =>
    have hnone : (ofList []).find? n = none := find?_empty n
    rw [hnone] at h
    cases h
  | append_singleton xs x ih =>
    rw [ofList_concat, Env.set, (canonical_ofList xs).find?_put] at h
    split at h
    · rename_i hn
      cases h
      exact ⟨x.1, hn.symm, List.mem_append_right _ List.mem_cons_self⟩
    · obtain ⟨name, hname, hmem⟩ := ih h
      exact ⟨name, hname, List.mem_append_left _ hmem⟩

/-- Every name of the given entries has a value. -/
theorem exists_get?_ofList {name : String} (hname : name ∈ xs.map (·.1)) :
    ∃ v, (ofList xs).get? name = some v := by
  induction xs using List.reverseRecOn with
  | nil => exact absurd hname List.not_mem_nil
  | append_singleton xs x ih =>
    rw [ofList_concat, (canonical_ofList xs).get?_set]
    split
    · exact ⟨x.2, rfl⟩
    · rename_i hne
      rw [List.map_append, List.mem_append] at hname
      exact ih (hname.resolve_right fun hlast => hne (List.mem_singleton.mp hlast))

/-- **Entries that an environment has are all of it**, if they name all that it has. -/
theorem ofList_eq_of_forall_mem (h : e.Over ns) (hns : ∀ name ∈ ns, name ∈ xs.map (·.1))
    (hxs : ∀ x ∈ xs, e.get? x.1 = some x.2) : ofList xs = e := by
  have hfound : ∀ {n v}, (ofList xs).find? n = some v → e.find? n = some v := by
    intro n v hv
    obtain ⟨name, rfl, hmem⟩ := exists_of_find?_ofList hv
    exact hxs _ hmem
  refine (canonical_ofList xs).ext h.canonical fun n => Option.ext fun v => ⟨hfound, fun hv => ?_⟩
  obtain ⟨name, hname, rfl⟩ := h.named n v hv
  obtain ⟨w, hw⟩ := exists_get?_ofList (hns name hname)
  have hsame : some v = some w := hv.symm.trans (hfound hw)
  rw [hsame]
  exact hw

/-! ## 2. Assignments -/

/-- **A boolean environment over exactly these names.** -/
structure Assigns (ns : List String) (e : Env) : Prop extends Over ns e where
  total : ∀ name ∈ ns, ∃ b, e.get? name = some (.bool b)

/-- All of these names are off, and there are no others. -/
structure AllOff (ns : List String) (e : Env) : Prop extends Over ns e where
  off : ∀ name ∈ ns, e.get? name = some (.bool false)

theorem AllOff.assigns (h : AllOff ns e) : Assigns ns e :=
  ⟨h.toOver, fun name hname => ⟨false, h.off name hname⟩⟩

/-- How often a name stands among the names does not matter. -/
theorem Assigns.congr {ns' : List String} (h : Assigns ns e) (hns : ∀ name, name ∈ ns ↔ name ∈ ns') :
    Assigns ns' e := by
  refine ⟨⟨h.canonical, fun n v hv => ?_⟩, fun name hname => h.total name ((hns name).mpr hname)⟩
  obtain ⟨name, hname, hn⟩ := h.named n v hv
  exact ⟨name, (hns name).mp hname, hn⟩

/-- Entries that put all of these names on or off make a boolean environment over them. -/
theorem assigns_ofList (hns : ∀ name, name ∈ xs.map (·.1) ↔ name ∈ ns)
    (hbool : ∀ x ∈ xs, ∃ b, x.2 = .bool b) : Assigns ns (ofList xs) := by
  refine ⟨⟨canonical_ofList xs, fun n v hv => ?_⟩, fun name hname => ?_⟩
  · obtain ⟨name, hn, hmem⟩ := exists_of_find?_ofList hv
    exact ⟨name, (hns name).mp (List.mem_map_of_mem hmem), hn⟩
  · obtain ⟨v, hv⟩ := exists_get?_ofList ((hns name).mpr hname)
    obtain ⟨name', -, hx⟩ := exists_of_find?_ofList hv
    obtain ⟨b, rfl⟩ := hbool _ hx
    exact ⟨b, hv⟩

theorem allOff_iff : AllOff ns e ↔ e = ofList (ns.map (·, .bool false)) := by
  have hnames : (ns.map (·, Value.bool false)).map (·.1) = ns := List.map_map.trans (List.map_id ns)
  have hvalue : ∀ x ∈ ns.map (·, Value.bool false), x.1 ∈ ns ∧ x.2 = .bool false := fun x hx => by
    obtain ⟨name, hname, rfl⟩ := List.mem_map.mp hx
    exact ⟨hname, rfl⟩
  constructor
  · intro h
    refine (ofList_eq_of_forall_mem h.toOver (fun name hname => hnames.symm ▸ hname) fun x hx => ?_).symm
    rw [(hvalue x hx).2]
    exact h.off x.1 (hvalue x hx).1
  · rintro rfl
    have hassigns : Assigns ns (ofList (ns.map (·, .bool false))) :=
      assigns_ofList (fun name => by rw [hnames]) fun x hx => ⟨false, (hvalue x hx).2⟩
    refine ⟨hassigns.toOver, fun name hname => ?_⟩
    obtain ⟨b, hb⟩ := hassigns.total name hname
    obtain ⟨name', -, hx⟩ := exists_of_find?_ofList hb
    exact hb.trans (congrArg some (hvalue _ hx).2)

end Env

/-! ## 3. All assignments -/

namespace Circuit

open Env

variable {names : List String} {e : Env}

theorem assigns_assignment (names : List String) (i : Nat) : Assigns names (assignment names i) := by
  refine assigns_ofList (fun name => ?_) fun x hx => ?_
  · rw [List.map_map]
    show name ∈ names.zipIdx.map Prod.fst ↔ _
    rw [List.zipIdx_map_fst]
  · obtain ⟨⟨name, j⟩, -, rfl⟩ := List.mem_map.mp hx
    exact ⟨i.testBit j, rfl⟩

/-- The bits that say which names are on in an environment. -/
def bitsOf (names : List String) (e : Env) : Nat :=
  Nat.ofBits fun j : Fin names.length => e.get? (names.get j) = some (.bool true)

/-- **An assignment is made by its bits.** -/
theorem assignment_bitsOf (h : Assigns names e) : assignment names (bitsOf names e) = e := by
  refine ofList_eq_of_forall_mem h.toOver (fun name hname => ?_) fun x hx => ?_
  · rw [List.map_map]
    show name ∈ names.zipIdx.map Prod.fst
    rwa [List.zipIdx_map_fst]
  · obtain ⟨⟨name, j⟩, hmem, rfl⟩ := List.mem_map.mp hx
    obtain ⟨hj, hname⟩ := List.mk_mem_zipIdx_iff_getElem?.mp hmem |> List.getElem?_eq_some_iff.mp
    obtain ⟨b, hb⟩ := h.total name (hname ▸ List.getElem_mem hj)
    show e.get? name = some (.bool ((bitsOf names e).testBit j))
    rw [bitsOf, Nat.testBit_ofBits_lt _ _ hj, List.get_eq_getElem]
    simp only [hname, hb]
    cases b <;> simp

/-- **The numbers below a power of two make all assignments.** -/
theorem mem_range_assignment :
    e ∈ (List.range (2 ^ names.length)).map (assignment names) ↔ Assigns names e := by
  constructor
  · intro h
    obtain ⟨i, -, rfl⟩ := List.mem_map.mp h
    exact assigns_assignment names i
  · intro h
    exact List.mem_map.mpr ⟨bitsOf names e, List.mem_range.mpr (Nat.ofBits_lt_two_pow _),
      assignment_bitsOf h⟩

end Circuit

/-- The names that are on are those with the value `true`. -/
theorem Env.Over.mem_namesOn {ns : List String} {e : Env} (h : e.Over ns) {name : String} :
    name ∈ Circuit.namesOn e ↔ e.get? name = some (.bool true) := by
  have hfind : ∀ {n v}, (n, v) ∈ e.bindings ↔ e.find? n = some v :=
    h.canonical.sorted.lookup_eq_some_iff.symm
  unfold Circuit.namesOn Env.entries
  rw [List.mem_map]
  constructor
  · rintro ⟨x, hx, rfl⟩
    obtain ⟨hx, hon⟩ := List.mem_filter.mp hx
    obtain ⟨⟨n, v⟩, hmem, rfl⟩ := List.mem_map.mp hx
    obtain rfl : v = .bool true := of_decide_eq_true hon
    obtain ⟨name, -, rfl⟩ := h.named n _ (hfind.mp hmem)
    show e.get? (Bytes.text (.ofString name)) = _
    rw [Bytes.text_ofString]
    exact hfind.mp hmem
  · intro hv
    refine ⟨(name, .bool true), List.mem_filter.mpr ⟨List.mem_map.mpr ?_, rfl⟩, rfl⟩
    exact ⟨(.ofString name, .bool true), hfind.mpr hv, by simp⟩

end Lasso
