import Mathlib.Data.List.Basic
import Lasso.Files
/-!
# Writing and reading files

* `Files.Leads` -- the file that a path leads to, whether it exists or can be made; `Files.SameFile` -- two paths
  that lead to one file;
* `read_write` -- **what is written is read**, and can be written over (`exists_write_of_write`);
* `Keeps.write` -- **a file that another path leads to keeps its text**.
-/

namespace Lasso.Files

variable {fs fs' : Files} {path path' text t : String} {p q here names : List String}

/-! ## 1. One place -/

/-- The files with a text under the names of a path. -/
def put (fs : Files) (q : List String) (text : String) : Files :=
  { fs with entries := fs.entries.filter (fun e => e.1 ≠ q) ++ [(q, text)] }

theorem lookup_cons_eq (r : List String) (u : String) (es : List (List String × String)) (p : List String) :
    ((r, u) :: es).lookup p = if p = r then some u else es.lookup p := by
  by_cases h : p = r
  · rw [if_pos h, h, List.lookup_cons_self]
  · rw [if_neg h, List.lookup_cons, beq_false_of_ne h]

theorem lookup_put (fs : Files) (p q : List String) (text : String) :
    (fs.put q text).entries.lookup p = if p = q then some text else fs.entries.lookup p := by
  show (fs.entries.filter (fun e => e.1 ≠ q) ++ [(q, text)]).lookup p = _
  induction fs.entries with
  | nil => exact lookup_cons_eq q text [] p
  | cons e es ih =>
    obtain ⟨r, u⟩ := e
    rw [lookup_cons_eq]
    by_cases hr : r = q
    · rw [List.filter_cons_of_neg (by simp [hr]), ih, hr]
      by_cases h : p = q
      · rw [if_pos h, if_pos h]
      · rw [if_neg h, if_neg h, if_neg h]
    · rw [List.filter_cons_of_pos (by simp [hr]), List.cons_append, lookup_cons_eq, ih]
      by_cases h : p = q
      · rw [if_neg (by rw [h]; exact fun e => hr e.symm), if_pos h, if_pos h]
      · rw [if_neg h, if_neg h]

/-- A directory stays one. -/
theorem isDirectory_put (h : fs.isDirectory p = true) (q : List String) (text : String) :
    (fs.put q text).isDirectory p = true := by
  unfold isDirectory at h ⊢
  rw [Bool.or_eq_true] at h ⊢
  rcases h with h | h
  · exact .inl h
  · refine .inr ?_
    obtain ⟨e, he, hp⟩ := List.any_eq_true.mp h
    by_cases heq : e.1 = q
    · refine List.any_eq_true.mpr ⟨(q, text), List.mem_append_right _ List.mem_cons_self, ?_⟩
      rw [← heq]
      exact hp
    · exact List.any_eq_true.mpr ⟨e, List.mem_append_left _ (List.mem_filter.mpr ⟨he, by simp [heq]⟩), hp⟩

theorem at_put_self (fs : Files) (q : List String) (text : String) :
    (fs.put q text).at_ q = .file q text := by
  rw [at_, lookup_put, if_pos rfl]

/-- The names under which something stands are those of the place. -/
theorem at_cases (fs : Files) (p : List String) :
    (∃ t, fs.at_ p = .file p t) ∨ fs.at_ p = .directory p ∨ fs.at_ p = .free p := by
  unfold at_
  split
  · exact .inl ⟨_, rfl⟩
  · split
    · exact .inr (.inl rfl)
    · exact .inr (.inr rfl)

theorem at_put_of_file (hne : p ≠ q) (h : fs.at_ p = .file p t) (text : String) :
    (fs.put q text).at_ p = .file p t := by
  unfold at_ at h ⊢
  rw [lookup_put, if_neg hne]
  split at h
  · exact h
  · split at h <;> cases h

theorem at_put_of_directory (hne : p ≠ q) (h : fs.at_ p = .directory p) (text : String) :
    (fs.put q text).at_ p = .directory p := by
  unfold at_ at h ⊢
  rw [lookup_put, if_neg hne]
  split at h
  · cases h
  · split at h
    · rename_i hdirectory
      rw [if_pos (isDirectory_put hdirectory q text)]
    · cases h

/-! ## 2. Paths -/

/-- **The names lead from a directory to a place**, through directories. -/
inductive Ends (fs : Files) : List String → List String → List String → Prop where
  | stay (here : List String) (n : String) (rest p : List String) (hn : n = "" ∨ n = ".")
      (h : Ends fs here rest p) : Ends fs here (n :: rest) p
  | up (here rest p : List String) (h : Ends fs (above here) rest p) : Ends fs here (".." :: rest) p
  | down (here : List String) (n : String) (rest p : List String) (hn : n ∉ ["", ".", ".."])
      (hd : fs.at_ (here ++ [n]) = .directory (here ++ [n])) (h : Ends fs (here ++ [n]) rest p) :
      Ends fs here (n :: rest) p
  | last (here : List String) (n : String) (hn : n ∉ ["", ".", ".."]) : Ends fs here [n] (here ++ [n])

/-- The place is no directory. -/
def IsFilePlace (fs : Files) (p : List String) : Prop := fs.at_ p ≠ .directory p

theorem walk_stay (fs : Files) (here rest : List String) {n : String} (hn : n = "" ∨ n = ".") :
    fs.walk here (n :: rest) = fs.walk here rest := by
  rw [walk, if_pos (by simpa using hn)]

theorem walk_up (fs : Files) (here rest : List String) :
    fs.walk here (".." :: rest) = fs.walk (above here) rest := by
  rw [walk, if_neg (by decide), if_pos rfl]

theorem walk_down {n : String} (hn : n ∉ ["", ".", ".."]) (rest : List String)
    (hd : fs.at_ (here ++ [n]) = .directory p) : fs.walk here (n :: rest) = fs.walk p rest := by
  simp only [List.mem_cons, List.not_mem_nil, or_false, not_or] at hn
  rw [walk, if_neg (by simp [hn]), if_neg hn.2.2, hd]

theorem walk_last {n : String} (hn : n ∉ ["", ".", ".."]) (h : fs.IsFilePlace (here ++ [n])) :
    fs.walk here [n] = fs.at_ (here ++ [n]) := by
  simp only [List.mem_cons, List.not_mem_nil, or_false, not_or] at hn
  rw [walk, if_neg (by simp [hn]), if_neg hn.2.2]
  rcases fs.at_cases (here ++ [n]) with ⟨u, e⟩ | e | e
  · rw [e]
    rfl
  · exact absurd e h
  · rw [e]
    rfl

theorem Ends.walk_eq (h : Ends fs here names p) (hp : fs.IsFilePlace p) :
    fs.walk here names = fs.at_ p := by
  induction h with
  | stay here n rest p hn _ ih => rw [walk_stay _ _ _ hn, ih hp]
  | up here rest p _ ih => rw [walk_up, ih hp]
  | down here n rest p hn hd _ ih => rw [walk_down hn rest hd, ih hp]
  | last here n hn => exact walk_last hn hp

theorem ends_of_walk (h : (∃ t, fs.walk here names = .file p t) ∨ fs.walk here names = .free p) :
    Ends fs here names p ∧ fs.IsFilePlace p := by
  induction names generalizing here with
  | nil =>
    rcases h with ⟨t, h⟩ | h
    · cases h
    · cases h
  | cons n rest ih =>
    by_cases hstay : n = "" ∨ n = "."
    · rw [walk_stay _ _ _ hstay] at h
      obtain ⟨hends, hp⟩ := ih h
      exact ⟨.stay here n rest p hstay hends, hp⟩
    by_cases hup : n = ".."
    · subst hup
      rw [walk_up] at h
      obtain ⟨hends, hp⟩ := ih h
      exact ⟨.up here rest p hends, hp⟩
    have hn : n ∉ ["", ".", ".."] := by
      simp only [List.mem_cons, List.not_mem_nil, or_false, not_or]
      exact ⟨fun e => hstay (.inl e), fun e => hstay (.inr e), hup⟩
    by_cases hd : fs.at_ (here ++ [n]) = .directory (here ++ [n])
    · rw [walk_down hn rest hd] at h
      obtain ⟨hends, hp⟩ := ih h
      exact ⟨.down here n rest p hn hd hends, hp⟩
    cases rest with
    | nil =>
      rw [walk_last hn hd] at h
      have heq : p = here ++ [n] := by
        rcases fs.at_cases (here ++ [n]) with ⟨u, e⟩ | e | e
        · rw [e] at h
          rcases h with ⟨t, h⟩ | h <;> cases h
          rfl
        · exact absurd e hd
        · rw [e] at h
          rcases h with ⟨t, h⟩ | h <;> cases h
          rfl
      rw [heq]
      exact ⟨.last here n hn, hd⟩
    | cons m rest =>
      -- a name that is no directory must be the last one
      have hstop : fs.walk here (n :: m :: rest) = .notDirectory ∨ fs.walk here (n :: m :: rest) = .missing := by
        simp only [List.mem_cons, List.not_mem_nil, or_false, not_or] at hn
        rw [walk, if_neg (by simp [hn]), if_neg hup]
        rcases fs.at_cases (here ++ [n]) with ⟨u, e⟩ | e | e
        · rw [e]
          exact .inl rfl
        · exact absurd e hd
        · rw [e]
          exact .inr rfl
      rcases hstop with e | e
      · rw [e] at h
        rcases h with ⟨t, h⟩ | h <;> cases h
      · rw [e] at h
        rcases h with ⟨t, h⟩ | h <;> cases h

/-- **Writing a file changes no way**: what is passed on the way are directories. -/
theorem Ends.put (h : Ends fs here names p) (hq : fs.IsFilePlace q) (text : String) :
    Ends (fs.put q text) here names p := by
  induction h with
  | stay here n rest p hn _ ih => exact .stay here n rest p hn ih
  | up here rest p _ ih => exact .up here rest p ih
  | down here n rest p hn hd _ ih =>
    have hne : here ++ [n] ≠ q := by
      rintro rfl
      exact hq hd
    exact .down here n rest p hn (at_put_of_directory hne hd text) ih
  | last here n hn => exact .last here n hn

/-! ## 3. Reading and writing -/

/-- **The path leads to a file**, which may still have to be made. -/
def Leads (fs : Files) (path : String) (p : List String) : Prop :=
  path.isEmpty = false ∧ Ends fs (if path.startsWith "/" then ["/"] else []) (Text.parts '/' path) p ∧
    fs.IsFilePlace p

/-- The paths lead to one file. -/
def SameFile (fs : Files) (path path' : String) : Prop := ∃ p, fs.Leads path p ∧ fs.Leads path' p

theorem leads_iff : fs.Leads path p ↔ (∃ t, fs.find path = .file p t) ∨ fs.find path = .free p := by
  unfold find
  constructor
  · rintro ⟨hne, hends, hp⟩
    rw [hne, if_neg (by decide), hends.walk_eq hp]
    rcases fs.at_cases p with ⟨u, e⟩ | e | e
    · exact .inl ⟨u, e⟩
    · exact absurd e hp
    · exact .inr e
  · intro h
    cases hne : path.isEmpty with
    | true =>
      rw [hne, if_pos rfl] at h
      rcases h with ⟨t, h⟩ | h <;> cases h
    | false =>
      rw [hne, if_neg (by decide)] at h
      obtain ⟨hends, hp⟩ := ends_of_walk h
      exact ⟨hne, hends, hp⟩

theorem Leads.find_eq (h : fs.Leads path p) : fs.find path = fs.at_ p := by
  obtain ⟨hne, hends, hp⟩ := h
  rw [find, hne, if_neg (by decide), hends.walk_eq hp]

theorem Leads.unique (h : fs.Leads path p) (h' : fs.Leads path q) : p = q := by
  have he := h.find_eq.symm.trans h'.find_eq
  rcases fs.at_cases p with ⟨t, e⟩ | e | e <;> rcases fs.at_cases q with ⟨u, e'⟩ | e' | e'
  all_goals
    rw [e, e'] at he
    cases he
  all_goals rfl

theorem write_of_leads (h : fs.Leads path q) (text : String) : fs.write path text = .ok (fs.put q text) := by
  unfold write
  rcases leads_iff.mp h with ⟨t, e⟩ | e
  · rw [e]
    rfl
  · rw [e]
    rfl

theorem exists_leads_of_write (h : fs.write path text = .ok fs') :
    ∃ q, fs.Leads path q ∧ fs' = fs.put q text := by
  unfold write at h
  cases e : fs.find path with
  | file q t =>
    rw [e] at h
    cases h
    exact ⟨q, leads_iff.mpr (.inl ⟨t, e⟩), rfl⟩
  | free q =>
    rw [e] at h
    cases h
    exact ⟨q, leads_iff.mpr (.inr e), rfl⟩
  | _ =>
    rw [e] at h
    cases h

theorem read_of_leads (h : fs.Leads path p) (hp : fs.at_ p = .file p t) : fs.read path = .ok t := by
  rw [read, h.find_eq, hp]

theorem exists_leads_of_read (h : fs.read path = .ok t) : ∃ p, fs.Leads path p ∧ fs.at_ p = .file p t := by
  unfold read at h
  cases e : fs.find path with
  | file p u =>
    rw [e] at h
    cases h
    have hleads : fs.Leads path p := leads_iff.mpr (.inl ⟨t, e⟩)
    exact ⟨p, hleads, hleads.find_eq.symm.trans e⟩
  | _ =>
    rw [e] at h
    cases h

theorem Leads.put (h : fs.Leads path p) (hq : fs.IsFilePlace q) (text : String)
    (hp : (fs.put q text).IsFilePlace p) : (fs.put q text).Leads path p :=
  ⟨h.1, h.2.1.put hq text, hp⟩

theorem isFilePlace_put_self (fs : Files) (q : List String) (text : String) :
    (fs.put q text).IsFilePlace q := by
  rw [IsFilePlace, at_put_self]
  exact nofun

/-- **What is written is read.** -/
theorem read_write (h : fs.write path text = .ok fs') : fs'.read path = .ok text := by
  obtain ⟨q, hq, rfl⟩ := exists_leads_of_write h
  exact read_of_leads (hq.put hq.2.2 text (isFilePlace_put_self fs q text)) (at_put_self fs q text)

/-- A file that was written can be written over. -/
theorem exists_write_of_write (h : fs.write path text = .ok fs') (text' : String) :
    ∃ fs'', fs'.write path text' = .ok fs'' := by
  obtain ⟨q, hq, rfl⟩ := exists_leads_of_write h
  exact ⟨_, write_of_leads (hq.put hq.2.2 text (isFilePlace_put_self fs q text)) text'⟩

/-- **A file with a text, to which another path does not lead.** -/
structure Keeps (fs : Files) (path' path t : String) : Prop where
  reads : fs.read path = .ok t
  apart : ¬ fs.SameFile path path'

/-- It keeps its text when the other path is written to. -/
theorem Keeps.write (hk : fs.Keeps path' path t) (h : fs.write path' text = .ok fs') :
    fs'.Keeps path' path t := by
  obtain ⟨p, hp, hat⟩ := exists_leads_of_read hk.reads
  obtain ⟨q, hq, rfl⟩ := exists_leads_of_write h
  have hne : p ≠ q := by
    rintro rfl
    exact hk.apart ⟨p, hp, hq⟩
  have hat' := at_put_of_file hne hat text
  have hplace : (fs.put q text).IsFilePlace p := by
    rw [IsFilePlace, hat']
    exact nofun
  have hp' := hp.put hq.2.2 text hplace
  have hq' := hq.put hq.2.2 text (isFilePlace_put_self fs q text)
  refine ⟨read_of_leads hp' hat', ?_⟩
  rintro ⟨r, hr, hr'⟩
  exact hne ((hp'.unique hr).trans (hq'.unique hr').symm)

end Lasso.Files
