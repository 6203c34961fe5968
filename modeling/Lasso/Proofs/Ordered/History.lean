import Lasso.Proofs.Ordered
/-!
# Ordered sets are lists without repetition

Sets are made, copied and changed, one after the other and in any order. This file compares every such history with
the same history of plain lists.

* `Operations` -- what can be done to a set, done to something else: to ordered sets (`sets`), and to lists (`lists`),
  where it is said in one line each;
* `Act`, `perform`, `run` -- one change to one of several sets, and a whole history of them;
* `Agrees.perform` -- **one change keeps sets and lists in step**, and both give the same answer; so does a history
  (`Agrees.run`);
* `compact` -- the loop that keeps some members in place: each one is written into the first free place before the next
  is read. **It ends in the members that stay** (`compact_eq_retain`);
* `histories_are_lists` -- what a history of sets leaves and answers is what the history of lists leaves and answers, and
  the index knows the place of each member.
-/

namespace Lasso.Ordered

variable {α : Type} [DecidableEq α] [Hashable α] {o : Ordered α} {a : α}

/-! ## 1. Changes and their answers -/

theorem Valid.add_snd (h : o.Valid) (a : α) : (o.add a).2 = decide (a ∉ o.toList) := by
  rw [add, h.contains_eq]
  by_cases ha : a ∈ o.toList <;> simp [ha]

theorem Valid.toList_remove (h : o.Valid) (a : α) : (o.remove a).1.toList = o.toList.erase a := by
  have herase := h.toList_erase a
  rw [Ordered.erase] at herase
  rw [herase, h.nodup.erase_eq_filter]
  congr 1
  funext b
  simp [bne, beq_eq_decide]

theorem Valid.remove_snd (h : o.Valid) (a : α) : (o.remove a).2 = decide (a ∈ o.toList) := by
  have hmem := h.contains_eq a
  rw [contains, Std.HashMap.contains_eq_isSome_getElem?] at hmem
  rw [← hmem, remove]
  cases o.index[a]? with
  | none => rfl
  | some n => rfl

theorem Valid.toList_clone (h : o.Valid) : o.clone.toList = o.toList := by
  rw [clone, toList_ofList_of_nodup h.nodup]

/-! ## 2. Histories -/

/-- What can be done to a set that is kept as a `σ`; a change may answer whether it changed anything. -/
structure Operations (α σ : Type) where
  make : List α → σ
  clone : σ → σ
  add : σ → α → σ × Bool
  remove : σ → α → σ × Bool
  retain : σ → (α → Bool) → σ

/-- The operations of ordered sets. -/
def sets : Operations α (Ordered α) where
  make := ofList
  clone := Ordered.clone
  add := Ordered.add
  remove := Ordered.remove
  retain := Ordered.retain

/-- **What they do to the list of members**: a list is made of first occurrences, a new member comes last, a member is
taken out where it stands, and what is kept stays in order. -/
def lists : Operations α (List α) where
  make := List.eraseDups
  clone l := l
  add l a := if a ∈ l then (l, false) else (l ++ [a], true)
  remove l a := (l.erase a, decide (a ∈ l))
  retain l keep := l.filter keep

/-- One act of a history. Sets are known by their numbers, in the order in which they were made. -/
inductive Act (α : Type) where
  | make (as : List α)
  | clone (i : Nat)
  | add (i : Nat) (a : α)
  | remove (i : Nat) (a : α)
  | retain (i : Nat) (keep : α → Bool)

section Acts

variable {σ : Type} (ops : Operations α σ)

/-- Changes the set with a number; without one nothing happens. -/
def change (ss : List σ) (i : Nat) (f : σ → σ × Option Bool) : List σ × Option Bool :=
  match ss[i]? with
  | none => (ss, none)
  | some s => (ss.set i (f s).1, (f s).2)

/-- The sets behind an act, and its answer if it gives one. -/
def perform (ss : List σ) : Act α → List σ × Option Bool
  | .make as => (ss ++ [ops.make as], none)
  | .clone i => (ss ++ (ss[i]?.map ops.clone).toList, none)
  | .add i a => change ss i fun s => ((ops.add s a).1, some (ops.add s a).2)
  | .remove i a => change ss i fun s => ((ops.remove s a).1, some (ops.remove s a).2)
  | .retain i keep => change ss i fun s => (ops.retain s keep, none)

/-- The sets behind a history, and its answers. -/
def run (ss : List σ) : List (Act α) → List σ × List (Option Bool)
  | [] => (ss, [])
  | act :: acts =>
    let next := perform ops ss act
    let last := run next.1 acts
    (last.1, next.2 :: last.2)

end Acts

/-- **Sets and lists are in step**: the index of each set is right, and its members are the list. -/
structure Agrees (os : List (Ordered α)) (ls : List (List α)) : Prop where
  valid : ∀ o ∈ os, o.Valid
  members : os.map toList = ls

section Step

variable {os : List (Ordered α)} {ls : List (List α)}

theorem Agrees.concat (h : Agrees os ls) (ho : o.Valid) {l : List α} (hl : o.toList = l) :
    Agrees (os ++ [o]) (ls ++ [l]) where
  valid p hp := by
    rcases List.mem_append.mp hp with hp | hp
    · exact h.valid p hp
    · rw [List.mem_singleton.mp hp]
      exact ho
  members := by rw [List.map_append, h.members, List.map_singleton, hl]

/-- A change keeps sets and lists in step if it does so to every valid set. -/
theorem Agrees.change (h : Agrees os ls) (i : Nat) {f : Ordered α → Ordered α × Option Bool}
    {g : List α → List α × Option Bool}
    (hf : ∀ o, o.Valid → (f o).1.Valid ∧ (f o).1.toList = (g o.toList).1 ∧ (f o).2 = (g o.toList).2) :
    Agrees (Ordered.change os i f).1 (Ordered.change ls i g).1 ∧
      (Ordered.change os i f).2 = (Ordered.change ls i g).2 := by
  have hget : ls[i]? = os[i]?.map toList := by rw [← h.members, List.getElem?_map]
  unfold Ordered.change
  rw [hget]
  cases ho : os[i]? with
  | none => exact ⟨h, rfl⟩
  | some o =>
    obtain ⟨hvalid, hlist, hanswer⟩ := hf o (h.valid o (List.mem_of_getElem? ho))
    refine ⟨⟨fun p hp => ?_, ?_⟩, hanswer⟩
    · rcases List.mem_or_eq_of_mem_set hp with hp | rfl
      · exact h.valid p hp
      · exact hvalid
    · show (os.set i (f o).1).map toList = ls.set i (g o.toList).1
      rw [List.map_set, h.members, hlist]

/-- **One act keeps sets and lists in step**, and both give the same answer. -/
theorem Agrees.perform (h : Agrees os ls) (act : Act α) :
    Agrees (Ordered.perform sets os act).1 (Ordered.perform lists ls act).1 ∧
      (Ordered.perform sets os act).2 = (Ordered.perform lists ls act).2 := by
  cases act with
  | make as => exact ⟨h.concat (valid_ofList as) (toList_ofList as), rfl⟩
  | clone i =>
    refine ⟨?_, rfl⟩
    have hget : ls[i]? = os[i]?.map toList := by rw [← h.members, List.getElem?_map]
    show Agrees (os ++ (os[i]?.map Ordered.clone).toList) (ls ++ (ls[i]?.map fun l => l).toList)
    rw [hget]
    cases ho : os[i]? with
    | none => simpa using h
    | some o => exact h.concat (valid_ofList _) (h.valid o (List.mem_of_getElem? ho)).toList_clone
  | add i a =>
    refine h.change i fun o ho => ⟨ho.insert a, ?_, ?_⟩
    · show (o.insert a).toList = _
      rw [ho.toList_insert]
      by_cases ha : a ∈ o.toList <;> simp [lists, ha]
    · show some (o.add a).2 = _
      rw [ho.add_snd]
      by_cases ha : a ∈ o.toList <;> simp [lists, ha]
  | remove i a =>
    exact h.change i fun o ho => ⟨ho.erase a, ho.toList_remove a, congrArg some (ho.remove_snd a)⟩
  | retain i keep => exact h.change i fun o ho => ⟨ho.retain keep, toList_retain o keep, rfl⟩

/-- **So does a whole history.** -/
theorem Agrees.run (h : Agrees os ls) (acts : List (Act α)) :
    Agrees (Ordered.run sets os acts).1 (Ordered.run lists ls acts).1 ∧
      (Ordered.run sets os acts).2 = (Ordered.run lists ls acts).2 := by
  induction acts generalizing os ls with
  | nil => exact ⟨h, rfl⟩
  | cons act acts ih =>
    obtain ⟨hstep, hanswer⟩ := h.perform act
    obtain ⟨hrest, hanswers⟩ := ih hstep
    exact ⟨hrest, congrArg₂ List.cons hanswer hanswers⟩

end Step

/-! ## 3. Keeping members in place -/

/-- How far a compaction is: the places, how many of them hold members that stay, and the index. -/
structure Compaction (α : Type) [DecidableEq α] [Hashable α] where
  items : Array α
  kept : Nat
  index : Std.HashMap α Nat

/-- Looks at the place `r`. A member that stays is written into the first place that is free. -/
def Compaction.step (keep : α → Bool) (s : Compaction α) (r : Nat) : Compaction α :=
  match s.items[r]? with
  | none => s
  | some a =>
    if keep a then { s with items := s.items.setIfInBounds s.kept a, kept := s.kept + 1 }
    else { s with index := s.index.erase a }

/-- Keeps the members that satisfy a condition within the same array. -/
def compact (o : Ordered α) (keep : α → Bool) : Ordered α :=
  let s := (List.range o.items.size).foldl (Compaction.step keep) ⟨o.items, 0, o.index⟩
  let items := s.items.take s.kept
  ⟨items, renumber items 0 s.index⟩

/-- The loop has looked at `r` places of `l`: those that stay stand in front, what comes is untouched, and what goes
is out of the index. -/
structure Compaction.Looked (keep : α → Bool) (l : List α) (index : Std.HashMap α Nat) (r : Nat)
    (s : Compaction α) : Prop where
  front : s.items.toList.take s.kept = (l.take r).filter keep
  ahead : s.items.toList.drop r = l.drop r
  behind : s.kept ≤ r
  index : s.index = ((l.take r).filter fun a => !keep a).foldl (fun m a => m.erase a) index

theorem Compaction.Looked.step {keep : α → Bool} {l : List α} {index : Std.HashMap α Nat} {r : Nat}
    {s : Compaction α} (h : s.Looked keep l index r) (hr : r < l.length) :
    (s.step keep r).Looked keep l index (r + 1) := by
  obtain ⟨hfront, hahead, hbehind, hindex⟩ := h
  have hget : s.items.toList[r]? = some l[r] := by
    rw [← List.head?_drop, hahead, List.head?_drop, List.getElem?_eq_getElem hr]
  have hnext : s.items.toList.drop (r + 1) = l.drop (r + 1) := by
    rw [← List.drop_drop, hahead, List.drop_drop]
  have htake : l.take (r + 1) = l.take r ++ [l[r]] := (List.take_append_getElem hr).symm
  have hitem : s.items[r]? = some l[r] := by rw [← Array.getElem?_toList, hget]
  unfold Compaction.step
  rw [hitem]
  cases hkeep : keep l[r] with
  | true =>
    have hlt : s.kept < s.items.toList.length :=
      Nat.lt_of_le_of_lt hbehind (List.getElem?_eq_some_iff.mp hget).1
    simp only [hkeep, if_true]
    refine ⟨?_, ?_, Nat.succ_le_succ hbehind, ?_⟩
    · rw [Array.toList_setIfInBounds, List.take_add_one, List.take_set_of_le (Nat.le_refl _), hfront,
        List.getElem?_set_self hlt, htake, List.filter_append]
      simp [hkeep]
    · rw [Array.toList_setIfInBounds, List.drop_set_of_lt (Nat.lt_succ_of_le hbehind), hnext]
    · rw [hindex, htake, List.filter_append]
      simp [hkeep]
  | false =>
    simp only [hkeep, Bool.false_eq_true, if_false]
    refine ⟨?_, hnext, Nat.le_succ_of_le hbehind, ?_⟩
    · rw [hfront, htake, List.filter_append]
      simp [hkeep]
    · rw [hindex, htake, List.filter_append, List.foldl_append]
      simp [hkeep]

theorem Compaction.looked_foldl (keep : α → Bool) (items : Array α) (index : Std.HashMap α Nat) {r : Nat}
    (hr : r ≤ items.size) :
    ((List.range r).foldl (Compaction.step keep) ⟨items, 0, index⟩).Looked keep items.toList index r := by
  induction r with
  | zero => exact ⟨rfl, rfl, Nat.le_refl 0, rfl⟩
  | succ r ih =>
    rw [List.range_succ, List.foldl_append]
    exact (ih (Nat.le_of_succ_le hr)).step (by rwa [Array.length_toList])

/-- **The loop ends in the members that stay**, and in the index without the others. -/
theorem compact_eq_retain (o : Ordered α) (keep : α → Bool) : o.compact keep = o.retain keep := by
  obtain ⟨hfront, -, -, hindex⟩ := Compaction.looked_foldl keep o.items o.index (Nat.le_refl _)
  have hall : o.items.toList.take o.items.size = o.items.toList := List.take_of_length_le (by simp)
  rw [hall] at hfront hindex
  unfold compact retain
  generalize (List.range o.items.size).foldl (Compaction.step keep) ⟨o.items, 0, o.index⟩ = s at hfront hindex
  have hitems : s.items.take s.kept = o.items.filter keep := by
    apply Array.toList_inj.mp
    simpa using hfront
  simp only [hitems, hindex]
  rfl

/-- **Ordered sets are lists without repetition.** Behind every history of making, copying and changing sets, the
    members of each set are those of the list with the same history and all answers are the same; the index knows
    the place of each member and of nothing else, and no member stands twice. Keeping members within the array ends
    in the same set as choosing them from the list. -/
theorem histories_are_lists (acts : List (Act α)) :
    (∀ o ∈ (run sets [] acts).1, o.toList.Nodup ∧
      ∀ (a : α) (n : Nat), o.index[a]? = some n ↔ o.toList[n]? = some a) ∧
    (run sets [] acts).1.map toList = (run lists [] acts).1 ∧
    (run sets [] acts).2 = (run lists [] acts).2 ∧
    ∀ (o : Ordered α) (keep : α → Bool), o.compact keep = o.retain keep := by
  have hstart : Agrees ([] : List (Ordered α)) [] := ⟨fun _ h => (nomatch h), rfl⟩
  obtain ⟨hagrees, hanswers⟩ := hstart.run acts
  exact ⟨fun o ho => ⟨(hagrees.valid o ho).nodup, (hagrees.valid o ho).place⟩, hagrees.members, hanswers,
    compact_eq_retain⟩

end Lasso.Ordered
