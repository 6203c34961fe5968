import Lasso.Command.Run
import Lasso.Proofs.Document.Searches
import Lasso.Proofs.Files
/-!
# The file of the search trees

The command that verifies documents writes their search trees to a file, if one is named. The file is made anew
for each document, so it tells of the last one only.

* `Asks` -- the arguments that ask to verify documents;
* `Job` -- a document that is verified, with the path of its file;
* `Job.exists_verifyFile` -- one document: its trees are in the file, all other files are as they were;
* `searchTree_of_last_document` -- **the file holds the trees of the last document**, one text per property in
  their order; those of all documents only if the others have none.
-/

namespace Lasso.Command

/-! ## 1. Arguments -/

/-- **The arguments ask to verify documents**, with the given options. -/
structure Asks (args : List String) (o : Options) (paths : List String) : Prop where
  chosen : ∃ rest, choose args = .ok (.verify, rest) ∧ parse .verify rest {} = .ok (o, paths)
  help : o.help = false

theorem Asks.run_eq {args paths : List String} {o : Options} (h : Asks args o paths) (w : World) :
    run w args = runCommand w .verify o paths := by
  obtain ⟨rest, hchoose, hparse⟩ := h.chosen
  rw [run, hchoose]
  simp only [hparse, h.help]
  rfl

/-- An argument that is no option. -/
def IsOperand (arg : String) : Prop := arg.toList.head? ≠ some '-'

instance (arg : String) : Decidable (IsOperand arg) := inferInstanceAs (Decidable (_ ≠ _))

theorem parse_of_operands {paths : List String} (h : ∀ p ∈ paths, IsOperand p) (o : Options) :
    parse .verify paths o = .ok (o, paths) := by
  induction paths with
  | nil => rfl
  | cons p paths ih =>
    have hp : p.toList.head? ≠ some '-' := h p List.mem_cons_self
    rw [parse]
    split
    · rename_i e
      rw [e] at hp
      exact absurd rfl hp
    · rename_i e
      rw [e] at hp
      exact absurd rfl hp
    · rename_i e
      rw [e] at hp
      exact absurd rfl hp
    · rw [ih fun q hq => h q (List.mem_cons_of_mem _ hq)]
      rfl

theorem takesNext_verify : takesNext .root "verify" = false := by decide +kernel

theorem plainArguments_verify (arg : String) (rest : List String) :
    plainArguments .root ("verify" :: arg :: rest) = "verify" :: plainArguments .root (arg :: rest) := by
  have hplain : (decide ("verify" ≠ "") && !"verify".startsWith "-") = true := by decide +kernel
  rw [plainArguments, takesNext_verify, if_neg Bool.false_ne_true, if_pos hplain]
  decide

theorem dropFirst_verify (arg : String) (rest : List String) :
    dropFirst .root "verify" ("verify" :: arg :: rest) = arg :: rest := by
  have hplain : (!"verify".startsWith "-" && decide ("verify" = "verify")) = true := by decide +kernel
  rw [dropFirst, takesNext_verify, if_neg Bool.false_ne_true, if_pos hplain]
  decide

/-- The usual way to ask for the search trees of documents. -/
theorem asks_searchTree (tree : String) {paths : List String} (h : ∀ p ∈ paths, IsOperand p) :
    Asks ("verify" :: "--search-tree" :: tree :: paths) { searchTree := tree } paths where
  chosen := by
    refine ⟨"--search-tree" :: tree :: paths, ?_, ?_⟩
    · rw [choose, plainArguments_verify]
      have hname : Name.ofText? "verify" = some .verify := by decide
      simp only [hname, dropFirst_verify]
    · rw [parse]
      exact parse_of_operands h _
  help := rfl

/-! ## 2. One document -/

/-- A document that is verified: the path and the text of its file, and what its verification finds. -/
structure Job where
  path : String
  text : String
  document : Document
  outcome : Document.Outcome

variable {c : Config} {o : Options} {fs fs' : Files} {j : Job} {jobs : List Job}

/-- **The text can be read as a document, which is verified without an error.** -/
structure Job.Sound (c : Config) (o : Options) (j : Job) : Prop where
  parsed : Document.parse j.text = .ok j.document
  verified : j.document.verify (documentOptions c o) none = .ok j.outcome

theorem concurrency_documentOptions (h : o.searchTree.isEmpty = false) :
    (documentOptions c o).concurrency = 1 := by
  rw [documentOptions, h]
  rfl

/-- **The file of the search trees holds those of the document**, and can be made again; files that it is not
    keep their texts. -/
theorem Job.exists_verifyFile (hj : j.Sound c o) (hread : fs.read j.path = .ok j.text)
    (htree : o.searchTree.isEmpty = false) (hwrite : ∃ made, fs.write o.searchTree "" = .ok made) :
    ∃ fs', verifyFile c o fs j.path = (.ok j.outcome.reports, fs') ∧
      fs'.read o.searchTree = .ok (String.join j.outcome.trees) ∧
      (∃ made, fs'.write o.searchTree "" = .ok made) ∧
      ∀ path text, fs.Keeps o.searchTree path text → fs'.Keeps o.searchTree path text := by
  obtain ⟨made, hmade⟩ := hwrite
  obtain ⟨fs', hfs'⟩ := Files.exists_write_of_write hmade (String.join j.outcome.trees)
  refine ⟨fs', ?_, Files.read_write hfs', Files.exists_write_of_write hfs' "",
    fun path text hkeeps => (hkeeps.write hmade).write hfs'⟩
  rw [verifyFile, hread]
  simp only [hj.parsed]
  rw [verifyDocument, hj.verified, htree, hmade]
  simp only [Except.mapError, hfs']
  rfl

/-! ## 3. All documents -/

/-- Whether some property of a document is violated. -/
def Job.violates (j : Job) : Bool := j.outcome.reports.any fun p => !p.holds

/-- What the loop leaves when all documents are sound. Only the first document may stand in the file of the search
    trees: it is read before that file is made. -/
theorem verifyAll_sound (colors : Bool) (htree : o.searchTree.isEmpty = false)
    (hsound : ∀ j ∈ jobs, j.Sound c o) (violated : Bool) (r : Result)
    (hwrite : ∃ made, r.files.write o.searchTree "" = .ok made)
    (hfirst : ∀ j ∈ jobs.head?, r.files.read j.path = .ok j.text)
    (hrest : ∀ j ∈ jobs.tail, r.files.Keeps o.searchTree j.path j.text) :
    (verifyAll c o colors (jobs.map (·.path)) violated r).failure? =
        (if violated || jobs.any Job.violates then some .violated else r.failure?) ∧
      ∀ j ∈ jobs.getLast?, (verifyAll c o colors (jobs.map (·.path)) violated r).files.read o.searchTree =
        .ok (String.join j.outcome.trees) := by
  induction jobs generalizing violated r with
  | nil =>
    refine ⟨?_, nofun⟩
    cases violated <;> rfl
  | cons j jobs ih =>
    obtain ⟨fs, hverify, hread, hagain, hkeeps⟩ :=
      Job.exists_verifyFile (hsound j List.mem_cons_self) (hfirst j rfl) htree hwrite
    have hstep : verifyAll c o colors ((j :: jobs).map (·.path)) violated r =
        verifyAll c o colors (jobs.map (·.path)) (violated || j.violates)
          { r with files := fs, out := r.out ++ printReports colors j.outcome.reports } := by
      rw [List.map_cons, verifyAll, hverify]
      rfl
    have hkept : ∀ k ∈ jobs, fs.Keeps o.searchTree k.path k.text := fun k hk => hkeeps _ _ (hrest k hk)
    obtain ⟨hfailure, hlast⟩ := ih (fun k hk => hsound k (List.mem_cons_of_mem _ hk)) (violated || j.violates)
      { r with files := fs, out := r.out ++ printReports colors j.outcome.reports } hagain
      (fun k hk => (hkept k (List.mem_of_mem_head? hk)).reads) fun k hk => hkept k (List.mem_of_mem_tail hk)
    rw [hstep]
    refine ⟨?_, fun k hk => ?_⟩
    · rw [hfailure, List.any_cons, Bool.or_assoc]
    · cases jobs with
      | nil =>
        cases hk
        cases h : violated || j.violates <;> exact hread
      | cons j' jobs => exact hlast k (by rw [List.getLast?_cons_cons] at hk; exact hk)

theorem join_append_eq_iff {xs ys : List String} :
    String.join (xs ++ ys) = String.join ys ↔ ∀ x ∈ xs, x = "" := by
  rw [← String.toList_inj, String.toList_join, String.toList_join, List.flatMap_append,
    List.append_left_eq_self, List.flatMap_eq_nil_iff]
  exact forall₂_congr fun x _ => String.toList_eq_nil_iff

/-- **What the command leaves when all documents are verified without an error**, the file can be made, and no
    document but the first stands in it. -/
theorem run_sound {w : World} {args : List String} (hargs : Asks args o (jobs.map (·.path)))
    (hlocal : o.remote.isEmpty = true) (htree : o.searchTree.isEmpty = false)
    (hprepare : prepare w .verify o (jobs.map (·.path)) = .ok c)
    (hwrite : ∃ made, w.files.write o.searchTree "" = .ok made) (hsound : ∀ k ∈ jobs, k.Sound c o)
    (hread : ∀ k ∈ jobs, w.files.read k.path = .ok k.text)
    (hapart : ∀ k ∈ jobs.tail, ¬ w.files.SameFile k.path o.searchTree) :
    (run w args).failure? = (if jobs.any Job.violates then some .violated else none) ∧
      ∀ j ∈ jobs.getLast?, (run w args).files.read o.searchTree = .ok (String.join j.outcome.trees) := by
  have hrun : run w args =
      verifyAll c o (w.colors && !o.noColor) (jobs.map (·.path)) false { files := w.files } := by
    rw [hargs.run_eq, runCommand, hprepare]
    simp only [hlocal]
    rfl
  rw [hrun]
  exact verifyAll_sound (w.colors && !o.noColor) htree hsound false { files := w.files } hwrite
    (fun k hk => hread k (List.mem_of_mem_head? hk)) fun k hk => ⟨hread k (List.mem_of_mem_tail hk), hapart k hk⟩

/-- **The file of the search trees holds those of the last document.** The documents are verified without an error,
    the file can be made, and no document but the first stands in it. Then the command fails only to say that a
    property is violated; the file holds the trees of the outer searches of the last document's properties, in their
    order; and that is all that the searches of all documents show only if those before the last show nothing. -/
theorem searchTree_of_last_document {w : World} {args : List String} (hargs : Asks args o (jobs.map (·.path)))
    (hlocal : o.remote.isEmpty = true) (htree : o.searchTree.isEmpty = false)
    (hprepare : prepare w .verify o (jobs.map (·.path)) = .ok c)
    (hwrite : ∃ made, w.files.write o.searchTree "" = .ok made) (hsound : ∀ k ∈ jobs, k.Sound c o)
    (hread : ∀ k ∈ jobs, w.files.read k.path = .ok k.text)
    (hapart : ∀ k ∈ jobs.tail, ¬ w.files.SameFile k.path o.searchTree) (hlast : j ∈ jobs.getLast?) :
    (run w args).failure? = (if jobs.any Job.violates then some .violated else none) ∧
      (run w args).files.read o.searchTree = .ok (String.join j.outcome.trees) ∧
      (∀ k ∈ jobs, k.document.Searches (documentOptions c o) k.outcome.trees) ∧
      ((run w args).files.read o.searchTree = .ok (String.join (jobs.flatMap (·.outcome.trees))) ↔
        ∀ k ∈ jobs.dropLast, ∀ t ∈ k.outcome.trees, t = "") := by
  obtain ⟨hfailure, hfile⟩ := run_sound hargs hlocal htree hprepare hwrite hsound hread hapart
  have hall : jobs.flatMap (·.outcome.trees) = jobs.dropLast.flatMap (·.outcome.trees) ++ j.outcome.trees := by
    rw [← List.dropLast_append_getLast? j hlast, List.flatMap_append, List.flatMap_singleton,
      List.dropLast_concat]
  refine ⟨hfailure, hfile j hlast, fun k hk => ?_, ?_⟩
  · exact Document.searches_of_verify (concurrency_documentOptions htree) (hsound k hk).verified
  · rw [hfile j hlast, Except.ok.injEq, hall, eq_comm, join_append_eq_iff]
    simp only [List.mem_flatMap, forall_exists_index, and_imp]
    exact ⟨fun h k hk t ht => h t k hk ht, fun h t k hk ht => h k hk t ht⟩

/-! ## 4. Two files with one document -/

/-- A wheel that turns for ever and is never stopped. -/
def wheelText : String :=
  "name: a\nsystem: \x7bstates: [s], initial: [s], actions: [g], propositions: [p], " ++
    "transitions: [\x7bfrom: s, action: g, to: s\x7d]\x7d\nproperties: [\x7bname: x, never: [p]\x7d]"

def wheelSystem : Document.System where
  states := ["s"]
  initial := ["s"]
  actions := ["g"]
  propositions := ["p"]
  transitions := [⟨"s", "g", "s"⟩]

def wheel : Document where
  name := "a"
  system? := some wheelSystem
  properties := [{ name := "x", never := ["p"] }]

theorem parse_wheelText : Document.parse wheelText = .ok wheel := by decide +kernel

theorem validate_wheel : wheel.validate = .ok () := by decide +kernel

/-- The wheel has search trees, for it turns as its property says. -/
theorem trees_wheel {vo : VerifyOptions} {texts : List String} (h : wheel.Searches vo texts) :
    ∃ text, texts = [text] ∧ text ≠ "" := by
  obtain ⟨hsystem, hproperties⟩ := Document.formed_of_validate validate_wheel
  cases h with
  | programs _ _ _ hs => cases hs
  | system s m m' hs hm hm' h =>
    obtain rfl : wheelSystem = s := Option.some.inj hs
    obtain rfl : m = m' := Except.ok.inj hm'
    obtain ⟨m', hbuild, hdescribes⟩ := (hsystem _ rfl).assemble wheel.name
    obtain rfl : m' = m := Except.ok.inj ((mapError_eq_ok.mpr hbuild).symm.trans hm)
    cases h with
    | @cons _ text _ _ htext hrest =>
      cases hrest
      have hx : m'.IsPath fun _ => "s" :=
        ⟨(hdescribes.initial _).mpr (by decide), fun _ => ⟨"g", (hdescribes.transitions _).mpr (by decide)⟩⟩
      refine ⟨text, rfl, htext.ne_empty hdescribes.consistent (hproperties _ (by decide)) hx
        (.never (by decide) fun i hi => ?_)⟩
      obtain ⟨l, hl, -⟩ := (hdescribes.label _ _).mp (hi "p" (by decide))
      cases hl

/-- Two files that hold the wheel. -/
def wheels : World where
  files := .ofList [("a", wheelText), ("b", wheelText)]

/-- The two files as they are verified. -/
def wheelJobs (out : Document.Outcome) : List Job := [⟨"a", wheelText, wheel, out⟩, ⟨"b", wheelText, wheel, out⟩]

theorem asks_wheels (out : Document.Outcome) : Asks ["verify", "--search-tree", "t", "a", "b"]
    { searchTree := "t" } ((wheelJobs out).map (·.path)) :=
  asks_searchTree "t" (by decide)

theorem exists_sound_wheels : ∃ c out,
    prepare wheels .verify { searchTree := "t" } ["a", "b"] = .ok c ∧
      ∀ k ∈ wheelJobs out, k.Sound c { searchTree := "t" } := by
  have hok : (prepare wheels .verify { searchTree := "t" } ["a", "b"]).isOk := by decide +kernel
  cases hc : prepare wheels .verify { searchTree := "t" } ["a", "b"] with
  | error e =>
    rw [hc] at hok
    cases hok
  | ok c =>
    obtain ⟨-, out, -, -, hout, -⟩ := (Document.verify_document_decides
      (o := documentOptions c { searchTree := "t" }) none validate_wheel rfl).1 wheelSystem rfl
    have hsound (path : String) : Job.Sound c { searchTree := "t" } ⟨path, wheelText, wheel, out⟩ :=
      ⟨parse_wheelText, hout⟩
    refine ⟨c, out, rfl, fun k hk => ?_⟩
    simp only [wheelJobs, List.mem_cons, List.not_mem_nil, or_false] at hk
    obtain rfl | rfl := hk
    · exact hsound "a"
    · exact hsound "b"

theorem read_wheels (out : Document.Outcome) : ∀ k ∈ wheelJobs out, wheels.files.read k.path = .ok k.text := by
  have hread : wheels.files.read "a" = .ok wheelText ∧ wheels.files.read "b" = .ok wheelText := by decide +kernel
  simpa [wheelJobs] using hread

theorem leads_wheels : wheels.files.Leads "t" ["t"] := Files.leads_iff.mpr (.inr (by decide +kernel))

theorem apart_wheels (out : Document.Outcome) :
    ∀ k ∈ (wheelJobs out).tail, ¬ wheels.files.SameFile k.path "t" := by
  have hb : wheels.files.Leads "b" ["b"] := Files.leads_iff.mpr (.inl ⟨wheelText, by decide +kernel⟩)
  simp only [wheelJobs, List.tail_cons, List.mem_singleton, forall_eq]
  rintro ⟨p, hp, ht⟩
  rw [hp.unique hb] at ht
  exact absurd (ht.unique leads_wheels) (by decide)

theorem searchTree_of_last_document_wheels : ∃ c out,
    prepare wheels .verify { searchTree := "t" } ["a", "b"] = .ok c ∧
      (∀ k ∈ wheelJobs out, k.Sound c { searchTree := "t" }) ∧
      (run wheels ["verify", "--search-tree", "t", "a", "b"]).files.read "t" = .ok (String.join out.trees) ∧
      ∃ text, out.trees = [text] ∧ text ≠ "" := by
  obtain ⟨c, out, hprepare, hsound⟩ := exists_sound_wheels
  obtain ⟨-, hfile, hsearches, -⟩ := searchTree_of_last_document (asks_wheels out) rfl rfl hprepare
    ⟨_, Files.write_of_leads leads_wheels ""⟩ hsound (read_wheels out) (apart_wheels out)
    (j := ⟨"b", wheelText, wheel, out⟩) rfl
  exact ⟨c, out, hprepare, hsound, hfile, trees_wheel (hsearches _ List.mem_cons_self)⟩

/-- **The search trees of both documents are not what the file holds.** -/
theorem searchTree_not_of_all_documents : ∃ c out,
    prepare wheels .verify { searchTree := "t" } ["a", "b"] = .ok c ∧
      (∀ k ∈ wheelJobs out, k.Sound c { searchTree := "t" }) ∧
      (run wheels ["verify", "--search-tree", "t", "a", "b"]).files.read "t" ≠
        .ok (String.join ((wheelJobs out).flatMap (·.outcome.trees))) := by
  obtain ⟨c, out, hprepare, hsound⟩ := exists_sound_wheels
  obtain ⟨-, hfile⟩ := run_sound (asks_wheels out) rfl rfl hprepare
    ⟨_, Files.write_of_leads leads_wheels ""⟩ hsound (read_wheels out) (apart_wheels out)
  refine ⟨c, out, hprepare, hsound, fun hboth => ?_⟩
  have hlast := hfile ⟨"b", wheelText, wheel, out⟩ rfl
  obtain ⟨text, htexts, hne⟩ : ∃ text, out.trees = [text] ∧ text ≠ "" := trees_wheel
    (Document.searches_of_verify (concurrency_documentOptions rfl) (hsound _ List.mem_cons_self).verified)
  have hall : (wheelJobs out).flatMap (·.outcome.trees) = out.trees ++ out.trees := by simp [wheelJobs]
  rw [hall] at hboth
  exact hne (join_append_eq_iff.mp (Except.ok.inj (hboth.symm.trans hlast)) text (by simp [htexts]))

end Lasso.Command
