import Mathlib.Data.List.Nodup
import Mathlib.Data.List.Dedup
import Mathlib.Data.List.Perm.Subperm
import Lasso.Ordered
/-!
# Ordered sets as lists without repetition

An ordered set keeps its members twice, in the array and in the index. This file fixes the READING
of both as one list:

* `Ordered.Valid` -- the index gives exactly the places of the array, so no member stands twice;
* every operation keeps `Valid`, and acts on the list of members as its name says (`toList_insert`,
  `toList_erase`, `toList_retain`);
* membership (`a ∈ o`) is membership in that list, and on a valid set it is what `contains` answers.
-/

namespace Lasso.Ordered

variable {α : Type} [DecidableEq α] [Hashable α] {o : Ordered α}

/-! ## 1. The reading -/

instance : Membership α (Ordered α) := ⟨fun o a => a ∈ o.toList⟩

theorem mem_toList {a : α} : a ∈ o.toList ↔ a ∈ o := Iff.rfl

/-- The index gives the place of each member, and of nothing else. -/
structure Valid (o : Ordered α) : Prop where
  place : ∀ (a : α) (n : Nat), o.index[a]? = some n ↔ o.toList[n]? = some a

/-- **No member stands twice**: both places would be the one in the index. -/
theorem Valid.nodup (h : o.Valid) : o.toList.Nodup := by
  rw [List.nodup_iff_injective_get]
  intro i j hij
  have hi : o.toList[i.1]? = some (o.toList.get i) := by simp
  have hj : o.toList[j.1]? = some (o.toList.get i) := by rw [hij]; simp
  have hi' := (h.place _ _).mpr hi
  rw [(h.place _ _).mpr hj] at hi'
  exact Fin.ext (Option.some.inj hi').symm

theorem Valid.contains_iff (h : o.Valid) {a : α} : o.contains a = true ↔ a ∈ o := by
  unfold contains
  rw [Std.HashMap.contains_iff_mem, Std.HashMap.mem_iff_isSome_getElem?, Option.isSome_iff_exists]
  constructor
  · rintro ⟨n, hn⟩
    exact List.mem_of_getElem? ((h.place a n).mp hn)
  · intro ha
    obtain ⟨n, hn⟩ := List.mem_iff_getElem?.mp ha
    exact ⟨n, (h.place a n).mpr hn⟩

theorem Valid.contains_eq (h : o.Valid) (a : α) : o.contains a = decide (a ∈ o.toList) := by
  rw [Bool.eq_iff_iff, h.contains_iff, decide_eq_true_iff]
  exact Iff.rfl

theorem Valid.mem_index (h : o.Valid) {a : α} : a ∈ o.index ↔ a ∈ o := by
  rw [← Std.HashMap.contains_iff_mem]
  exact h.contains_iff

@[simp] theorem toList_empty : (∅ : Ordered α).toList = [] := rfl

theorem not_mem_empty (a : α) : ¬ a ∈ (∅ : Ordered α) := List.not_mem_nil

theorem valid_empty : (∅ : Ordered α).Valid where
  place a n := by
    show (∅ : Std.HashMap α Nat)[a]? = some n ↔ ([] : List α)[n]? = some a
    simp

theorem length_toList (o : Ordered α) : o.toList.length = o.size := by
  simp [toList, size]

/-! ## 2. Adding -/

theorem Valid.toList_insert (h : o.Valid) (a : α) :
    (o.insert a).toList = if a ∈ o.toList then o.toList else o.toList ++ [a] := by
  unfold insert add
  rw [h.contains_eq]
  by_cases ha : a ∈ o.toList
  · simp only [ha, decide_true, if_true]
  · simp only [ha, decide_false, Bool.false_eq_true, if_false]
    exact Array.toList_push

theorem Valid.insert (h : o.Valid) (a : α) : (o.insert a).Valid := by
  by_cases ha : a ∈ o.toList
  · have e : o.insert a = o := by simp [Ordered.insert, add, h.contains_eq, ha]
    rw [e]
    exact h
  · refine ⟨fun b n => ?_⟩
    have e : o.insert a = ⟨o.items.push a, o.index.insert a o.items.size⟩ := by
      simp [Ordered.insert, add, h.contains_eq, ha]
    rw [h.toList_insert, if_neg ha, e]
    show (o.index.insert a o.items.size)[b]? = some n ↔ _
    rw [Std.HashMap.getElem?_insert]
    by_cases hab : a = b
    · subst hab
      have hsize : o.items.size = o.toList.length := by simp [toList]
      simp only [beq_self_eq_true, if_true, hsize, Option.some.injEq]
      constructor
      · rintro rfl
        simp
      · intro hn
        rcases Nat.lt_or_ge n o.toList.length with hlt | hge
        · rw [List.getElem?_append_left hlt] at hn
          exact absurd (List.mem_of_getElem? hn) ha
        · have hn' := (List.getElem?_eq_some_iff.mp hn).1
          simp only [List.length_append, List.length_cons, List.length_nil] at hn'
          omega
    · have hab' : (a == b) = false := by simpa using hab
      rw [hab']
      simp only [Bool.false_eq_true, if_false]
      rw [h.place]
      rcases Nat.lt_or_ge n o.toList.length with hlt | hge
      · rw [List.getElem?_append_left hlt]
      · rw [List.getElem?_append_right hge, List.getElem?_eq_none hge]
        constructor
        · intro hn
          cases hn
        · intro hn
          exact absurd (List.mem_singleton.mp (List.mem_of_getElem? hn)).symm hab

theorem Valid.mem_insert (h : o.Valid) {a b : α} : b ∈ o.insert a ↔ b ∈ o ∨ b = a := by
  rw [← mem_toList, ← mem_toList, h.toList_insert]
  by_cases ha : a ∈ o.toList
  · rw [if_pos ha]
    exact ⟨Or.inl, fun hb => hb.elim id fun e => e ▸ ha⟩
  · rw [if_neg ha, List.mem_append, List.mem_singleton]

theorem Valid.insertMany (h : o.Valid) (as : List α) : (o.insertMany as).Valid := by
  induction as generalizing o with
  | nil => exact h
  | cons a as ih => exact ih (h.insert a)

theorem Valid.mem_insertMany (h : o.Valid) {as : List α} {b : α} :
    b ∈ o.insertMany as ↔ b ∈ o ∨ b ∈ as := by
  induction as generalizing o with
  | nil => simp [Ordered.insertMany]
  | cons a as ih =>
    show b ∈ (o.insert a).insertMany as ↔ _
    rw [ih (h.insert a), h.mem_insert, List.mem_cons, or_assoc]

theorem valid_ofList (as : List α) : (ofList as).Valid := valid_empty.insertMany as

theorem mem_ofList {as : List α} {b : α} : b ∈ ofList as ↔ b ∈ as := by
  unfold ofList
  rw [valid_empty.mem_insertMany]
  exact or_iff_right (not_mem_empty b)

theorem mem_toList_ofList {as : List α} {b : α} : b ∈ (ofList as).toList ↔ b ∈ as := mem_ofList

/-- Of several members the first occurrences of the new ones come behind the others. -/
theorem Valid.toList_insertMany (h : o.Valid) (as : List α) :
    (o.insertMany as).toList = o.toList ++ (as.filter (· ∉ o.toList)).eraseDups := by
  induction as generalizing o with
  | nil => simp [Ordered.insertMany]
  | cons a as ih =>
    show ((o.insert a).insertMany as).toList = _
    rw [ih (h.insert a), h.toList_insert]
    by_cases ha : a ∈ o.toList
    · simp [ha]
    · rw [if_neg ha, List.filter_cons_of_pos (by simpa using ha), List.eraseDups_cons, List.filter_filter,
        List.append_assoc, List.singleton_append]
      congr 4
      funext b
      simp [and_comm, beq_eq_decide]

theorem toList_ofList (as : List α) : (ofList as).toList = as.eraseDups := by
  rw [ofList, valid_empty.toList_insertMany]
  simp

omit [Hashable α] in
theorem eraseDups_of_nodup {l : List α} (h : l.Nodup) : l.eraseDups = l := by
  induction l with
  | nil => rfl
  | cons a l ih =>
    obtain ⟨ha, hl⟩ := List.nodup_cons.mp h
    have hfilter : l.filter (fun b => !b == a) = l := List.filter_eq_self.mpr fun b hb => by
      have hne : b ≠ a := fun e => ha (e ▸ hb)
      simpa using hne
    rw [List.eraseDups_cons, hfilter, ih hl]

theorem toList_ofList_of_nodup {as : List α} (h : as.Nodup) : (ofList as).toList = as := by
  rw [toList_ofList, eraseDups_of_nodup h]

/-! ## 3. Taking out -/

/-- Writing places one after the other: a listed thing has its new place, all else the old one. -/
theorem getElem?_foldl_place (l : List α) (hl : l.Nodup) (index : Std.HashMap α Nat) (n : Nat)
    (b : α) (k : Nat) :
    (l.foldl (fun (r : Std.HashMap α Nat × Nat) a => (r.1.insert a r.2, r.2 + 1)) (index, n)).1[b]?
        = some k ↔
      (∃ i, l[i]? = some b ∧ k = n + i) ∨ (b ∉ l ∧ index[b]? = some k) := by
  induction l generalizing index n with
  | nil => simp
  | cons a l ih =>
    obtain ⟨ha, hl'⟩ := List.nodup_cons.mp hl
    rw [List.foldl_cons, ih hl', Std.HashMap.getElem?_insert]
    by_cases hab : a = b
    · subst hab
      simp only [beq_self_eq_true, if_true, Option.some.injEq, List.mem_cons_self, not_true,
        false_and, or_false]
      constructor
      · rintro (⟨i, hi, -⟩ | ⟨-, rfl⟩)
        · exact absurd (List.mem_of_getElem? hi) ha
        · exact ⟨0, rfl, rfl⟩
      · rintro ⟨i, hi, rfl⟩
        cases i with
        | zero => exact Or.inr ⟨ha, rfl⟩
        | succ i =>
          rw [List.getElem?_cons_succ] at hi
          exact absurd (List.mem_of_getElem? hi) ha
    · have hab' : (a == b) = false := by simpa using hab
      rw [hab']
      simp only [Bool.false_eq_true, if_false, List.mem_cons, Ne.symm hab, false_or]
      refine or_congr_left ⟨?_, ?_⟩
      · rintro ⟨i, hi, rfl⟩
        exact ⟨i + 1, hi, by omega⟩
      · rintro ⟨i, hi, rfl⟩
        cases i with
        | zero => exact absurd (Option.some.inj hi) hab
        | succ i => exact ⟨i, hi, by omega⟩

/-- **Renumbering from a place on makes a set valid** that is valid in front of it. -/
theorem valid_renumber {items : Array α} {n : Nat} {index : Std.HashMap α Nat}
    (hnd : items.toList.Nodup)
    (hfront : ∀ b k, b ∉ items.toList.drop n →
      (index[b]? = some k ↔ k < n ∧ items.toList[k]? = some b)) :
    (⟨items, renumber items n index⟩ : Ordered α).Valid where
  place b k := by
    show (renumber items n index)[b]? = some k ↔ items.toList[k]? = some b
    unfold renumber
    rw [getElem?_foldl_place _ (hnd.sublist (List.drop_sublist _ _))]
    constructor
    · rintro (⟨i, hi, rfl⟩ | ⟨hb, hk⟩)
      · rwa [List.getElem?_drop] at hi
      · exact ((hfront b k hb).mp hk).2
    · intro hk
      by_cases hb : b ∈ items.toList.drop n
      · obtain ⟨i, hi⟩ := List.mem_iff_getElem?.mp hb
        refine Or.inl ⟨i, hi, ?_⟩
        rw [List.getElem?_drop] at hi
        exact (List.getElem?_inj (List.getElem?_eq_some_iff.mp hk).1 hnd).mp (hk.trans hi.symm)
      · refine Or.inr ⟨hb, (hfront b k hb).mpr ⟨?_, hk⟩⟩
        refine Nat.lt_of_not_le fun hle => hb (List.mem_iff_getElem?.mpr ⟨k - n, ?_⟩)
        rw [List.getElem?_drop, Nat.add_sub_cancel' hle]
        exact hk

omit [DecidableEq α] [Hashable α] in
theorem toList_eraseIdxIfInBounds (items : Array α) {n : Nat} (hn : n < items.size) :
    (items.eraseIdxIfInBounds n).toList = items.toList.eraseIdx n := by
  simp [Array.eraseIdxIfInBounds, hn]

theorem Valid.toList_erase (h : o.Valid) (a : α) :
    (o.erase a).toList = o.toList.filter (· ≠ a) := by
  unfold erase remove
  cases hn : o.index[a]? with
  | none =>
    refine (List.filter_eq_self.mpr fun b hb => ?_).symm
    obtain ⟨k, hk⟩ := List.mem_iff_getElem?.mp hb
    have hk' := (h.place b k).mpr hk
    refine decide_eq_true fun e => ?_
    rw [e, hn] at hk'
    cases hk'
  | some n =>
    have ha := (h.place a n).mp hn
    obtain ⟨hlt, hget⟩ := List.getElem?_eq_some_iff.mp ha
    show (o.items.eraseIdxIfInBounds n).toList = _
    rw [toList_eraseIdxIfInBounds _ (by simpa [toList] using hlt)]
    show o.toList.eraseIdx n = _
    have hidx : o.toList.idxOf a = n := by
      rw [← hget]
      exact h.nodup.idxOf_getElem n hlt
    rw [← hidx, ← List.erase_eq_eraseIdx_of_idxOf (by rfl), h.nodup.erase_eq_filter]
    congr 1
    funext b
    simp [bne, beq_eq_decide]

theorem Valid.erase (h : o.Valid) (a : α) : (o.erase a).Valid := by
  unfold Ordered.erase remove
  cases hn : o.index[a]? with
  | none => exact h
  | some n =>
    have ha := (h.place a n).mp hn
    have hlt := (List.getElem?_eq_some_iff.mp ha).1
    have e : (o.items.eraseIdxIfInBounds n).toList = o.toList.eraseIdx n :=
      toList_eraseIdxIfInBounds _ (by simpa [toList] using hlt)
    have hdrop : (o.toList.eraseIdx n).drop n = o.toList.drop (n + 1) := by
      rw [List.eraseIdx_eq_take_drop_succ, List.drop_left' (by simp; omega)]
    refine valid_renumber (by rw [e]; exact h.nodup.sublist (List.eraseIdx_sublist _ _))
      fun b k hb => ?_
    rw [e, hdrop] at hb
    rw [e, Std.HashMap.getElem?_erase]
    -- behind the gap stands only what is renumbered, so a place in the old index is in front of it
    have hk : ∀ k, o.toList[k]? = some b → k ≤ n := fun k hk => by
      refine Nat.le_of_not_lt fun hnk => hb (List.mem_iff_getElem?.mpr ⟨k - (n + 1), ?_⟩)
      rw [List.getElem?_drop, Nat.add_sub_cancel' hnk]
      exact hk
    by_cases hab : a = b
    · subst hab
      simp only [beq_self_eq_true, if_true, reduceCtorEq, false_iff, not_and]
      intro hkn hka
      rw [List.getElem?_eraseIdx_of_lt hkn] at hka
      have := (List.getElem?_inj hlt h.nodup).mp (ha.trans hka.symm)
      omega
    · have hab' : (a == b) = false := by simpa using hab
      rw [hab']
      simp only [Bool.false_eq_true, if_false]
      rw [h.place]
      constructor
      · intro hb'
        have hne : k ≠ n := by
          rintro rfl
          rw [ha] at hb'
          exact hab (Option.some.inj hb')
        have hkn : k < n := Nat.lt_of_le_of_ne (hk k hb') hne
        exact ⟨hkn, by rw [List.getElem?_eraseIdx_of_lt hkn]; exact hb'⟩
      · rintro ⟨hkn, hb'⟩
        rwa [List.getElem?_eraseIdx_of_lt hkn] at hb'

theorem Valid.mem_erase (h : o.Valid) {a b : α} : b ∈ o.erase a ↔ b ∈ o ∧ b ≠ a := by
  rw [← mem_toList, h.toList_erase, List.mem_filter, decide_eq_true_iff]
  exact Iff.rfl

theorem toList_retain (o : Ordered α) (keep : α → Bool) :
    (o.retain keep).toList = o.toList.filter keep := by
  simp [retain, toList]

theorem mem_retain {keep : α → Bool} {a : α} : a ∈ o.retain keep ↔ a ∈ o ∧ keep a = true := by
  rw [← mem_toList, toList_retain, List.mem_filter]
  exact Iff.rfl

theorem getElem?_foldl_erase (gone : List α) (index : Std.HashMap α Nat) (b : α) :
    (gone.foldl (fun m a => m.erase a) index)[b]? = if b ∈ gone then none else index[b]? := by
  induction gone generalizing index with
  | nil => simp
  | cons a gone ih =>
    rw [List.foldl_cons, ih, Std.HashMap.getElem?_erase]
    by_cases hab : a = b
    · subst hab
      simp
    · have hab' : (a == b) = false := by simpa using hab
      simp [hab', Ne.symm hab]

theorem Valid.retain (h : o.Valid) (keep : α → Bool) : (o.retain keep).Valid := by
  have e : (o.items.filter keep).toList = o.toList.filter keep := by simp [toList]
  refine valid_renumber (by rw [e]; exact h.nodup.filter _) fun b k hb => ?_
  rw [e, List.drop_zero] at hb
  rw [getElem?_foldl_erase]
  have hnone : (if b ∈ o.toList.filter (fun a => !keep a) then none else o.index[b]?) = none := by
    split
    · rfl
    · rename_i hgone
      refine Option.eq_none_iff_forall_ne_some.mpr fun n hn => ?_
      have hmem := List.mem_of_getElem? ((h.place b n).mp hn)
      rw [List.mem_filter] at hb hgone
      cases hkeep : keep b with
      | true => exact hb ⟨hmem, hkeep⟩
      | false => exact hgone ⟨hmem, by rw [hkeep]; rfl⟩
  rw [hnone]
  simp

/-! ## 4. Comparison -/

/-- **Equal numbers of members and one inclusion** make the members the same, since none stands twice. -/
theorem Valid.sameMembers_iff {o p : Ordered α} (ho : o.Valid) (hp : p.Valid) :
    o.sameMembers p = true ↔ ∀ a, a ∈ o ↔ a ∈ p := by
  unfold sameMembers isSubset
  rw [Bool.and_eq_true, decide_eq_true_eq, List.all_eq_true, ← length_toList, ← length_toList]
  constructor
  · rintro ⟨hlen, hsub⟩ a
    have hsub' : o.toList ⊆ p.toList := fun b hb => hp.contains_iff.mp (hsub b hb)
    exact ((List.Nodup.subperm ho.nodup hsub').perm_of_length_le (Nat.le_of_eq hlen.symm)).mem_iff
  · intro h
    refine ⟨((List.perm_ext_iff_of_nodup ho.nodup hp.nodup).mpr h).length_eq, fun b hb => ?_⟩
    exact hp.contains_iff.mpr ((h b).mp hb)

theorem Valid.size_eq_length (h : o.Valid) {l : List α} (hl : l.Nodup) (hmem : ∀ a, a ∈ o ↔ a ∈ l) :
    o.size = l.length := by
  rw [← length_toList]
  exact ((List.perm_ext_iff_of_nodup h.nodup hl).mpr hmem).length_eq

end Lasso.Ordered
