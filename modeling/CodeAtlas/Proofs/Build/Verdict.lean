import CodeAtlas.Proofs.Build.Members
import CodeAtlas.Proofs.Catalog.Clashes

/-! # The verdict on a build

The only errors of a build are the faults of files whose walks failed and the clashes between files.
So a build is ok exactly if every file was walked to its end and files share nothing but packages.
-/

namespace CodeAtlas

open Catalog

variable {store final : Store} {config : Config} {files : List SourceFile}
  {reports : List FileReport} {policy : CollisionPolicy} {c : Catalog}
  {seen : List (String × ComponentId)}

theorem length_errors_buildFile {file : SourceFile} {report : FileReport}
    (h : buildFile .java store file config = .ok report) :
    report.diagnostics.errors.length = (!report.complete).toNat := by
  have herrors := Java.errors_walk config.nameCollisions store file config.suppression
    config.failOnSyntaxErrors
  unfold buildFile Language.walk at h
  dsimp only at h
  split at h
  · cases h
    exact congrArg List.length herrors
  · split at h <;> cases h
    rename_i d hd
    have hrecord := errors_record_error
      (Java.walk (.empty config.nameCollisions store) file config.suppression
        config.failOnSyntaxErrors).state.journal.diagnostics (Fault.diagnostic?_spec hd).1
    rw [herrors] at hrecord
    exact congrArg List.length hrecord

theorem length_errors_buildFiles (h : buildFiles .java config store files = .ok (reports, final)) :
    ∀ report ∈ reports, report.diagnostics.errors.length = (!report.complete).toNat := by
  induction files generalizing store reports with
  | nil =>
    cases h
    exact nofun
  | cons file rest ih =>
    obtain ⟨report, others, hfile, hrest, rfl⟩ := buildFiles_cons_iff.mp h
    exact List.forall_mem_cons.mpr ⟨length_errors_buildFile hfile, ih hrest⟩

theorem nodup_completeTables_singleton (report : FileReport) :
    (((completeTables [report]).flatMap Table.entries).map Prod.fst).Nodup := by
  cases h : report.complete <;> simp [completeTables, h, report.catalog.table.nodup]

theorem mem_completeTables_singleton {report : FileReport} {n : String} {id : ComponentId}
    (h : (n, id) ∈ (completeTables [report]).flatMap Table.entries) :
    report.catalog.get? n = some id := by
  cases hc : report.complete
  · simp [completeTables, hc] at h
  · exact Table.mem_entries_iff.mp (by simpa [completeTables, hc] using h)

/-- Taking over reports of different files adds an error for each one that failed and for each clash
of an entry with those of other files. -/
theorem adds_addReports (h : Tracks policy store seen c) (hs : Sourced store reports)
    (herrors : ∀ report ∈ reports, report.diagnostics.errors.length = (!report.complete).toNat)
    (hseen : ∀ entry ∈ seen, ∀ report ∈ reports,
      (store.get entry.2).sourceFile ≠ some report.path) :
    Diagnostics.Adds ((reports.filter (!·.complete)).length +
        clashes policy store seen ((completeTables reports).flatMap Table.entries))
      c.journal.diagnostics (reports.foldl addReport c).journal.diagnostics := by
  induction reports generalizing seen c with
  | nil => exact .refl _
  | cons report rest ih =>
    obtain ⟨hnot, hpaths⟩ := List.nodup_cons.mp hs.paths
    obtain ⟨hsource, hsources⟩ := List.forall_mem_cons.mp hs.source
    obtain ⟨herror, herrors⟩ := List.forall_mem_cons.mp herrors
    have htaken := h.taking report.diagnostics
    have hfirst : Diagnostics.Adds (!report.complete).toNat c.journal.diagnostics
        (c.taking report.diagnostics).journal.diagnostics := by
      rw [← herror]
      exact Diagnostics.adds_extend ..
    have hmerge := htaken.adds_merge (nodup_completeTables_singleton report)
      fun n current id hc hi => by
        rw [hsource n id (mem_completeTables_singleton hi)]
        exact hseen _ hc report List.mem_cons_self
    have hothers := ih (htaken.merge _) ⟨hpaths, hsources⟩ herrors fun entry hm other ho => by
      rcases List.mem_append.mp hm with hm | hm
      · exact hseen entry hm other (List.mem_cons_of_mem _ ho)
      · -- What has just been merged comes from the report, and no other report has its path.
        rw [hsource entry.1 entry.2 (mem_completeTables_singleton hm), Ne, Option.some.injEq]
        exact fun e => hnot (List.mem_map.mpr ⟨other, ho, e.symm⟩)
    have hfailed : ((report :: rest).filter (!·.complete)).length =
        (!report.complete).toNat + (rest.filter (!·.complete)).length := by
      cases hc : report.complete <;> simp [hc, Nat.add_comm]
    have hall := hfirst.trans (hmerge.trans hothers)
    rw [← addReport_eq] at hall
    rw [completeTables_cons, List.flatMap_append, clashes_append, hfailed, List.foldl_cons]
    convert hall using 1
    omega

theorem no_errors_iff : (reports.filter (!·.complete)).length +
      clashes policy store [] ((completeTables reports).flatMap Table.entries) = 0 ↔
    (∀ report ∈ reports, report.complete = true) ∧
      (reports.map (·.catalog.table)).Pairwise (Table.SharePackagesOnly store) := by
  rw [Nat.add_eq_zero_iff, clashes_eq_zero_iff .nil, List.nil_append,
    Table.pairwise_compatible_iff, List.length_eq_zero_iff, List.filter_eq_nil_iff]
  simp only [Bool.not_eq_true', Bool.not_eq_false]
  apply and_congr_right
  intro hcomplete
  rw [completeTables, List.filter_eq_self.mpr hcomplete]

/-- A build is ok exactly if its diagnostics were, every file was walked to its end, and any name of
two files is a package in both. Else it goes on from the diagnostics it was given, with an error for
each file that failed and for each clash between files. -/
theorem buildModel_ok_iff (language : Language) (tag : String) (files : List SourceFile)
    (config : Config) (diagnostics : Diagnostics) (hpaths : (files.map (·.path)).Nodup) :
    ((∀ file ∈ files, file.root.UnitsOutside) →
      ∃ model, buildModel language tag files config diagnostics = .ok model) ∧
    ∀ model, buildModel language tag files config diagnostics = .ok model →
      ∃ reports store, buildFiles language config {} files = .ok (reports, store) ∧
        (∀ report ∈ reports, report.catalog.store.Extends store) ∧
        (model.journal.diagnostics.ok = true ↔ diagnostics.ok = true ∧
          (∀ report ∈ reports, report.complete = true) ∧
          (reports.map (·.catalog.table)).Pairwise (Table.SharePackagesOnly store)) ∧
        Diagnostics.Adds ((reports.filter (!·.complete)).length +
            clashes config.nameCollisions store []
              ((completeTables reports).flatMap Table.entries))
          diagnostics model.journal.diagnostics := by
  constructor
  · intro hunits
    exact buildModel_returns hunits language tag config diagnostics
  · intro model hmodel
    cases language
    obtain ⟨reports, store, hbuild⟩ := buildFiles_of_buildModel hmodel
    rw [buildModel, hbuild] at hmodel
    cases hmodel
    obtain ⟨hpath, hsource⟩ := buildFiles_sources hbuild
    have hadds := adds_addReports (tracks_empty config.nameCollisions store
        ⟨diagnostics, reports.flatMap (·.catalog.journal.log)⟩)
      ⟨hpath ▸ hpaths, hsource⟩ (length_errors_buildFiles hbuild) (by simp)
    exact ⟨reports, store, hbuild, (buildFiles_extends hbuild).2,
      hadds.ok_iff.trans (and_congr_right fun _ => no_errors_iff), hadds⟩

def amicable : List SourceFile :=
  [file "A.java" 17, file "B.java" 28]
where
  file (path : String) (name : Nat) : SourceFile :=
    .program path "package p; class A {} class B {}"
      [.package 8, .declaration "class_declaration" name []]

def earlier : Diagnostics where
  errors := [{ kind := .malformedInput, severity := .error, message := "unreadable" }]

/-- Among the contested files one fails and one class clashes, which adds two errors. Files that
share a package and nothing else are ok. -/
theorem buildModel_ok_iff_contested :
    (contested.map (·.path)).Nodup ∧ (amicable.map (·.path)).Nodup ∧
    (∃ model, buildModel .java "java" contested {} earlier = .ok model ∧
      model.journal.diagnostics.ok = false ∧ Diagnostics.Adds 2 earlier model.journal.diagnostics) ∧
    ∃ model, buildModel .java "java" amicable {} {} = .ok model ∧
      model.journal.diagnostics.ok = true := by
  have hcontested : (contested.map (·.path)).Nodup := by decide
  have hamicable : (amicable.map (·.path)).Nodup := by decide
  obtain ⟨built, hbuilt, hcount⟩ : ∃ built, buildFiles .java {} {} contested = .ok built ∧
      (built.1.filter (!·.complete)).length + clashes .lastWriteWins built.2 []
        ((completeTables built.1).flatMap Table.entries) = 2 := by
    apply exists_of_toOption
    simp only [contested, buildFiles, buildFile, Language.walk, Java.walk_eq_walkTree]
    decide +kernel
  obtain ⟨built', hbuilt', hcount'⟩ : ∃ built, buildFiles .java {} {} amicable = .ok built ∧
      (built.1.filter (!·.complete)).length + clashes .lastWriteWins built.2 []
        ((completeTables built.1).flatMap Table.entries) = 0 := by
    apply exists_of_toOption
    simp only [amicable, amicable.file, buildFiles, buildFile, Language.walk,
      Java.walk_eq_walkTree]
    decide +kernel
  obtain ⟨hok, hmodels⟩ := buildModel_ok_iff .java "java" contested {} earlier hcontested
  obtain ⟨hok', hmodels'⟩ := buildModel_ok_iff .java "java" amicable {} {} hamicable
  obtain ⟨model, hmodel⟩ := hok (by decide +kernel)
  obtain ⟨model', hmodel'⟩ := hok' (by decide +kernel)
  obtain ⟨reports, store, hbuild, -, -, hadds⟩ := hmodels model hmodel
  obtain ⟨reports', store', hbuild', -, hiff, -⟩ := hmodels' model' hmodel'
  cases hbuilt.symm.trans hbuild
  cases hbuilt'.symm.trans hbuild'
  have htwo : Diagnostics.Adds 2 earlier model.journal.diagnostics := hcount ▸ hadds
  refine ⟨hcontested, hamicable, ⟨model, hmodel, ?_, htwo⟩, model', hmodel',
    hiff.mpr ⟨rfl, no_errors_iff.mp hcount'⟩⟩
  rw [← Bool.not_eq_true, htwo.ok_iff]
  exact fun h => absurd h.2 (by decide)

end CodeAtlas
