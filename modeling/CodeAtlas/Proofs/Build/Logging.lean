import CodeAtlas.Proofs.Build.Verdict
import CodeAtlas.Proofs.Catalog.Journal

/-! # The log of a build

Every operation of a builder logs the diagnostics that it records, and so does the walk of a file.
A build takes over the diagnostics of its files without logging them again, and adds those of the
merge. So its log tells of each diagnostic that it adds, exactly once.
-/

namespace CodeAtlas

open Journal

namespace Builder

theorem journal_attach (b : Builder) (id : ComponentId) (name : String) :
    (b.attach id name).1.catalog.journal = b.catalog.journal := by
  unfold attach
  dsimp only
  split
  · rfl
  · split <;> rfl

theorem logs_closeTop (b : Builder) :
    Logs {} b.catalog.journal b.closeTop.state.catalog.journal := by
  unfold closeTop
  split
  · exact .refl _
  · rename_i frame below _
    dsimp only
    split
    · exact .refl _
    · generalize hattached : attach _ frame.component _ = attached
      have hjournal : attached.1.catalog.journal = b.catalog.journal := by
        rw [← hattached, journal_attach]
        rfl
      have hinsert := attached.1.catalog.logs_insert frame.component attached.2
      rw [hjournal] at hinsert
      generalize attached.1.catalog.insert frame.component attached.2 = inserted at hinsert
      obtain ⟨catalog, result⟩ := inserted
      cases result with
      | error => exact hinsert
      | ok => exact hinsert.next (logs_note _ (by simp))

theorem logs_closeMany (n : Nat) (b : Builder) :
    Logs {} b.catalog.journal (closeMany n b).state.catalog.journal := by
  induction n generalizing b with
  | zero => exact .refl _
  | succ n ih =>
    unfold closeMany Outcome.andThen
    split
    · exact b.logs_closeTop.next (ih _)
    · exact b.logs_closeTop

theorem logs_step (b : Builder) (op : Op) :
    Logs {} b.catalog.journal (b.step op).state.catalog.journal := by
  cases op with
  | beginPackage name prov =>
    change Logs {} b.catalog.journal (b.abandonOpen name prov.startLine).catalog.journal
    unfold abandonOpen
    split
    · exact .refl _
    · exact logs_record ..
  | openComponent =>
    rw [step]
    split <;> exact .refl _
  | nameDeclarator name =>
    rw [step]
    split
    · exact .refl _
    · split
      · exact .refl _
      · unfold nameDeclarator
        dsimp only
        split <;> exact .refl _
  | close =>
    rw [step]
    split
    · exact .refl _
    · rw [state_andThen_done]
      unfold Builder.close
      split
      · exact .refl _
      · exact logs_closeMany ..
  | endUnit =>
    rw [step, state_andThen_done]
    unfold Builder.endUnit
    split
    · exact .refl _
    · exact logs_closeMany ..
  | enrich =>
    rw [step]
    split
    · exact .refl _
    · split <;> exact .refl _
  | current =>
    rw [step]
    split <;> exact .refl _
  | addImport | enterSuppressed | exitSuppressed | resolve => exact .refl _

end Builder

namespace Java

theorem logs_follow (b : Builder) (visits : List Visit) :
    Logs {} b.catalog.journal (follow b visits).state.catalog.journal :=
  follow_state (I := fun b' => Logs {} b.catalog.journal b'.catalog.journal)
    (fun b' op _ h => h.next (b'.logs_step op)) (fun _ _ _ _ _ => trivial) (.refl _)

theorem logs_walk (policy : CollisionPolicy) (store : Store) (file : SourceFile)
    (mode : Suppression.Mode) (strict : Bool) :
    Logs {} {} (walk (.empty policy store) file mode strict).state.journal := by
  rcases walk_cases policy store file mode strict with ⟨path, cause, line, hw⟩ | hw
  · rw [hw]
    exact .refl _
  · have hstart : Logs {} {} (started policy store file.path mode).catalog.journal :=
      logs_note {} (by simp)
    have hfollow := hstart.next (logs_follow (started policy store file.path mode) file.root.walk)
    rw [hw]
    generalize follow (started policy store file.path mode) file.root.walk = done at hfollow
    obtain ⟨b, result⟩ := done
    cases result with
    | ok => exact hfollow.next (logs_note _ (by simp))
    | error => exact hfollow

end Java

variable {store final : Store} {config : Config} {files : List SourceFile}
  {reports : List FileReport}

/-- The report of a file logs its diagnostics, the one of a walk that failed among them. -/
theorem perm_reported_buildFile {file : SourceFile} {report : FileReport}
    (h : buildFile .java store file config = .ok report) :
    report.diagnostics.Perm (Log.reported report.catalog.journal.log) := by
  have hwalk := Java.logs_walk config.nameCollisions store file config.suppression
    config.failOnSyntaxErrors
  unfold buildFile Language.walk at h
  dsimp only at h
  split at h
  · cases h
    exact hwalk.perm_reported
  · split at h <;> cases h
    exact (hwalk.next (logs_record ..)).perm_reported

theorem perm_reported_buildFiles (h : buildFiles .java config store files = .ok (reports, final)) :
    ∀ report ∈ reports, report.diagnostics.Perm (Log.reported report.catalog.journal.log) := by
  induction files generalizing store reports with
  | nil =>
    cases h
    exact nofun
  | cons file rest ih =>
    obtain ⟨report, others, hfile, hrest, rfl⟩ := buildFiles_cons_iff.mp h
    exact List.forall_mem_cons.mpr ⟨perm_reported_buildFile hfile, ih hrest⟩

theorem Catalog.logs_addReport (c : Catalog) (report : FileReport) :
    Logs report.diagnostics c.journal (c.addReport report).journal := by
  rw [addReport_eq]
  exact (logs_absorb c.journal report.diagnostics).next (logs_merge ..)

theorem logs_addReports
    (h : ∀ report ∈ reports, report.diagnostics.Perm (Log.reported report.catalog.journal.log))
    (c : Catalog) : Logs (Log.reported (reports.flatMap (·.catalog.journal.log))) c.journal
      (reports.foldl Catalog.addReport c).journal := by
  induction reports generalizing c with
  | nil => exact .refl _
  | cons report rest ih =>
    obtain ⟨hreport, hrest⟩ := List.forall_mem_cons.mp h
    rw [List.flatMap_cons, Log.reported_append, List.foldl_cons]
    exact ((c.logs_addReport report).of_perm hreport).trans (ih hrest _)

/-- The entries of a build's log at the level of errors are those of the errors that it adds, each
exactly once, and if warnings are visible, the same holds of warnings. -/
theorem buildModel_logs_diagnostics (language : Language) (tag : String) (files : List SourceFile)
    (config : Config) (diagnostics : Diagnostics) :
    ((∀ file ∈ files, file.root.UnitsOutside) →
      ∃ model, buildModel language tag files config diagnostics = .ok model) ∧
    ∀ model, buildModel language tag files config diagnostics = .ok model →
      ∃ errors warnings,
        model.journal.diagnostics =
          ⟨diagnostics.errors ++ errors, diagnostics.warnings ++ warnings⟩ ∧
        (Log.entriesAt .error (Log.visible config.logLevel model.journal.log)).Perm
          (errors.map Log.diagnosticEntry) ∧
        (config.logLevel ≠ .error →
          (Log.entriesAt .warning (Log.visible config.logLevel model.journal.log)).Perm
            (warnings.map Log.diagnosticEntry)) := by
  constructor
  · intro hunits
    exact buildModel_returns hunits language tag config diagnostics
  · intro model hmodel
    cases language
    obtain ⟨reports, store, hbuild⟩ := buildFiles_of_buildModel hmodel
    rw [buildModel, hbuild] at hmodel
    obtain ⟨events, added, hlog, hds, hperm⟩ :
        Logs (Log.reported (reports.flatMap (·.catalog.journal.log)))
          ⟨diagnostics, reports.flatMap (·.catalog.journal.log)⟩ model.journal := by
      cases hmodel
      exact (logs_addReports (perm_reported_buildFiles hbuild) _).next
        (logs_note _ (by simp))
    rw [← Log.reported_append, ← hlog] at hperm
    exact ⟨added.errors, added.warnings, hds, Log.perm_entriesAt hperm⟩

/-- Three files of which one is unreadable. Of the other two, the first one has a class `A` twice
and the last one has it again. -/
def quarrelling : List SourceFile :=
  [.program "A.java" "package p; class A {}"
      [.package 8, .declaration "class_declaration" 17 [], .declaration "class_declaration" 17 []],
    { path := "X.java", source := .bytes [255], tree := .mk { type := "program" } [] },
    .program "B.java" "package p; class A {}"
      [.package 8, .declaration "class_declaration" 17 []]]

theorem buildModel_logs_diagnostics_quarrelling :
    (∀ file ∈ quarrelling, file.root.UnitsOutside) ∧
    ∃ (model : Catalog) (errors warnings : List Diagnostic),
      buildModel .java "java" quarrelling { logLevel := .debug } earlier = .ok model ∧
      errors.length = 2 ∧ warnings.length = 1 ∧
      (Log.entriesAt .error (Log.visible .debug model.journal.log)).Perm
        (errors.map Log.diagnosticEntry) ∧
      (Log.entriesAt .warning (Log.visible .debug model.journal.log)).Perm
        (warnings.map Log.diagnosticEntry) := by
  have hunits : ∀ file ∈ quarrelling, file.root.UnitsOutside := by decide +kernel
  obtain ⟨model, hmodel, hcount⟩ : ∃ model,
      buildModel .java "java" quarrelling { logLevel := .debug } earlier = .ok model ∧
        model.journal.diagnostics.errors.length = 3 ∧
        model.journal.diagnostics.warnings.length = 1 := by
    apply exists_of_toOption
    simp only [quarrelling, buildModel, buildFiles, buildFile, Language.walk,
      Java.walk_eq_walkTree]
    decide +kernel
  obtain ⟨-, hmodels⟩ :=
    buildModel_logs_diagnostics .java "java" quarrelling { logLevel := .debug } earlier
  obtain ⟨errors, warnings, hds, herrors, hwarnings⟩ := hmodels model hmodel
  rw [hds] at hcount
  refine ⟨hunits, model, errors, warnings, hmodel, ?_, ?_, herrors, hwarnings (by decide)⟩
  · simpa [earlier] using hcount.1
  · simpa [earlier] using hcount.2

end CodeAtlas
