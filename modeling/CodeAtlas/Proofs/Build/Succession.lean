import Mathlib.Algebra.GroupWithZero.Nat
import CodeAtlas.Proofs.Build.Packages
import CodeAtlas.Proofs.Catalog.Succession
import CodeAtlas.Proofs.Java.Sharing

/-! # Names in a build

However the files of a build look, no walk changes a component of another file, and merging changes
nothing but lists of children. So the catalog of a build has the names of the complete reports, each
for the component that wins it, and whatever does not win is reported or absorbed.
-/

namespace CodeAtlas

open Builder

variable {store final : Store} {config : Config} {files : List SourceFile}
  {reports : List FileReport}

theorem Java.walk_extends (policy : CollisionPolicy) (store : Store) (file : SourceFile)
    (mode : Suppression.Mode) (strict : Bool) :
    store.Extends (walk (.empty policy store) file mode strict).state.store := by
  rcases walk_cases policy store file mode strict with ⟨path, cause, line, hw⟩ | hw
  · rw [hw]
    exact .refl store
  · have hkept := kept_follow (fun _ op hs h => Fresh.step h hs op)
      (sound_started policy store file.path mode) (fresh_started mode) file.root.walk
    rw [hw]
    generalize follow (started policy store file.path mode) file.root.walk = done at hkept
    obtain ⟨b, result⟩ := done
    cases result <;> exact hkept.2.kept

theorem buildFile_eq {file : SourceFile} {report : FileReport}
    (h : buildFile .java store file config = .ok report) :
    report.path = file.path ∧
      report.catalog.store = (Java.walk (.empty config.nameCollisions store) file
        config.suppression config.failOnSyntaxErrors).state.store ∧
      report.catalog.table = (Java.walk (.empty config.nameCollisions store) file
        config.suppression config.failOnSyntaxErrors).state.table := by
  unfold buildFile Language.walk at h
  dsimp only at h
  split at h
  · cases h
    exact ⟨rfl, rfl, rfl⟩
  · split at h <;> cases h
    exact ⟨rfl, rfl, rfl⟩

theorem buildFile_extends {file : SourceFile} {report : FileReport}
    (h : buildFile .java store file config = .ok report) :
    store.Extends report.catalog.store := by
  rw [(buildFile_eq h).2.1]
  exact Java.walk_extends ..

theorem buildFiles_cons_iff {file : SourceFile} {rest : List SourceFile} :
    buildFiles .java config store (file :: rest) = .ok (reports, final) ↔
      ∃ report others, buildFile .java store file config = .ok report ∧
        buildFiles .java config report.catalog.store rest = .ok (others, final) ∧
        report :: others = reports := by
  rw [buildFiles]
  cases buildFile .java store file config with
  | error fault => simp [bind, Except.bind]
  | ok report =>
    simp only [bind, Except.bind, Except.ok.injEq, exists_and_left, exists_eq_left']
    cases buildFiles .java config report.catalog.store rest with
    | error fault => simp
    | ok built => simp [pure, Except.pure, Prod.ext_iff, and_comm]

theorem buildFile_ok {file : SourceFile} (h : file.root.UnitsOutside) (config : Config)
    (store : Store) : ∃ report, buildFile .java store file config = .ok report := by
  obtain ⟨-, hfault⟩ := Java.walk_contained store config.nameCollisions file
    config.suppression config.failOnSyntaxErrors h
  unfold buildFile Language.walk
  dsimp only
  split
  · exact ⟨_, rfl⟩
  · rename_i fault e
    obtain ⟨d, hd⟩ := hfault fault e
    simp only [hd]
    exact ⟨_, rfl⟩

theorem buildFiles_ok (h : ∀ file ∈ files, file.root.UnitsOutside) (config : Config)
    (store : Store) :
    ∃ reports final, buildFiles .java config store files = .ok (reports, final) := by
  induction files generalizing store with
  | nil => exact ⟨[], store, rfl⟩
  | cons file rest ih =>
    obtain ⟨hfile, hrest⟩ := List.forall_mem_cons.mp h
    obtain ⟨report, hreport⟩ := buildFile_ok hfile config store
    obtain ⟨reports, final, hreports⟩ := ih hrest report.catalog.store
    exact ⟨report :: reports, final,
      buildFiles_cons_iff.mpr ⟨report, reports, hreport, hreports, rfl⟩⟩

/-- Files with no unit inside of an annotation type can be built. -/
theorem buildModel_returns (h : ∀ file ∈ files, file.root.UnitsOutside) (language : Language)
    (tag : String) (config : Config) (diagnostics : Diagnostics) :
    ∃ model, buildModel language tag files config diagnostics = .ok model := by
  cases language
  obtain ⟨reports, store, hbuild⟩ := buildFiles_ok h config {}
  rw [buildModel, hbuild]
  exact ⟨_, rfl⟩

theorem buildFiles_of_buildModel {tag : String} {diagnostics : Diagnostics} {model : Catalog}
    (h : buildModel .java tag files config diagnostics = .ok model) :
    ∃ reports store, buildFiles .java config {} files = .ok (reports, store) := by
  rw [buildModel] at h
  cases hbuild : buildFiles .java config {} files with
  | error fault =>
    rw [hbuild] at h
    cases h
  | ok built => exact ⟨built.1, built.2, rfl⟩

theorem buildFiles_extends (h : buildFiles .java config store files = .ok (reports, final)) :
    store.Extends final ∧ ∀ report ∈ reports, report.catalog.store.Extends final := by
  induction files generalizing store reports with
  | nil =>
    cases h
    exact ⟨.refl _, nofun⟩
  | cons file rest ih =>
    obtain ⟨report, others, hfile, hrest, rfl⟩ := buildFiles_cons_iff.mp h
    obtain ⟨hkept, hothers⟩ := ih hrest
    exact ⟨(buildFile_extends hfile).trans hkept, List.forall_mem_cons.mpr ⟨hkept, hothers⟩⟩

theorem Diagnostics.length_ofKind_extend (ds other : Diagnostics) (kind : DiagnosticKind) :
    ((ds.extend other).ofKind kind).length =
      (ds.ofKind kind).length + (other.ofKind kind).length := by
  simp only [extend, ofKind, List.filter_append, List.length_append]
  omega

namespace Catalog

variable {policy : CollisionPolicy} {c : Catalog} {seen : List (String × ComponentId)}

def taking (c : Catalog) (ds : Diagnostics) : Catalog :=
  { c with journal := c.journal.absorb ds }

theorem collisions_taking (c : Catalog) (report : FileReport) :
    (c.taking report.diagnostics).collisions = c.collisions + report.catalog.collisions :=
  Diagnostics.length_ofKind_extend ..

theorem Tracks.taking (h : Tracks policy store seen c) (ds : Diagnostics) :
    Tracks policy store seen (c.taking ds) :=
  h.of_eq rfl rfl rfl

theorem addReport_eq (c : Catalog) (report : FileReport) : c.addReport report =
    (c.taking report.diagnostics).merge ((completeTables [report]).flatMap Table.entries) := by
  unfold addReport
  cases h : report.complete <;> simp [completeTables, h, merge, Catalog.taking]

end Catalog

theorem completeTables_cons (report : FileReport) (reports : List FileReport) :
    completeTables (report :: reports) = completeTables [report] ++ completeTables reports := by
  cases h : report.complete <;> simp [completeTables, h]

section Reports

open Catalog

variable {policy : CollisionPolicy} {c : Catalog} {seen : List (String × ComponentId)}

theorem tracks_addReports (h : Tracks policy store seen c) (reports : List FileReport) :
    Tracks policy store (seen ++ (completeTables reports).flatMap Table.entries)
      (reports.foldl addReport c) := by
  induction reports generalizing seen c with
  | nil => exact (List.append_nil seen).symm ▸ h
  | cons report rest ih =>
    rw [completeTables_cons, List.flatMap_append, ← List.append_assoc, List.foldl_cons,
      addReport_eq]
    exact ih ((h.taking report.diagnostics).merge _)

/-- What complete reports bring adds names, is reported, or is absorbed. -/
theorem account_addReports (h : Tracks policy store seen c) (reports : List FileReport) :
    ∃ reported, (reports.foldl addReport c).collisions =
        c.collisions + (reports.map (·.catalog.collisions)).sum + reported ∧
      c.size + ((completeTables reports).map Table.size).sum =
        (reports.foldl addReport c).size + reported +
          absorptions policy store seen ((completeTables reports).flatMap Table.entries) := by
  induction reports generalizing seen c with
  | nil => exact ⟨0, rfl, rfl⟩
  | cons report rest ih =>
    have htaken := h.taking report.diagnostics
    have hcollisions := c.collisions_taking report
    have hsize : (c.taking report.diagnostics).size = c.size := rfl
    have hlength (tables : List (Table ComponentId)) :
        (tables.flatMap Table.entries).length = (tables.map Table.size).sum :=
      List.length_flatMap
    obtain ⟨first, hfirst, hentries⟩ :=
      htaken.account ((completeTables [report]).flatMap Table.entries)
    obtain ⟨others, hothers, hrest⟩ :=
      ih (htaken.merge ((completeTables [report]).flatMap Table.entries))
    rw [completeTables_cons, List.flatMap_append, absorptions_append, List.map_append,
      List.sum_append, List.foldl_cons, addReport_eq, List.map_cons, List.sum_cons]
    rw [hlength] at hentries
    exact ⟨first + others, by omega, by omega⟩

/-- Files with no unit inside of an annotation type are walked, and the build returns. Its catalog
has the names of the complete reports, in the order in which they first come, each for the component
that wins it. Merging changes nothing but lists of children. All that complete reports bring adds a
name, is reported as a collision, or is a package that is absorbed. -/
theorem buildModel_winners (language : Language) (tag : String) (files : List SourceFile)
    (config : Config) (diagnostics : Diagnostics) :
    ((∀ file ∈ files, file.root.UnitsOutside) → ∃ reports store model,
      buildFiles language config {} files = .ok (reports, store) ∧
      buildModel language tag files config diagnostics = .ok model) ∧
    ∀ reports store, buildFiles language config {} files = .ok (reports, store) →
      ∃ model, buildModel language tag files config diagnostics = .ok model ∧
        (∀ report ∈ reports, report.catalog.store.Extends store) ∧ store.Alike model.store ∧
        model.table.keys = ((completeTables reports).flatMap Table.keys).eraseDups ∧
        (∀ name, model.get? name =
          winner config.nameCollisions store ((completeTables reports).filterMap (·.get? name))) ∧
        ∃ reported, model.collisions = (diagnostics.ofKind .nameCollision).length +
            (reports.map (·.catalog.collisions)).sum + reported ∧
          ((completeTables reports).map Table.size).sum = model.size + reported +
            absorptions config.nameCollisions store []
              ((completeTables reports).flatMap Table.entries) := by
  constructor
  · intro hunits
    obtain ⟨model, hmodel⟩ := buildModel_returns hunits language tag config diagnostics
    cases language
    obtain ⟨reports, store, hbuild⟩ := buildFiles_ok hunits config {}
    exact ⟨reports, store, model, hbuild, hmodel⟩
  · cases language
    intro reports store hbuild
    have hstart := tracks_empty config.nameCollisions store
      ⟨diagnostics, reports.flatMap (·.catalog.journal.log)⟩
    have htracks := tracks_addReports hstart reports
    obtain ⟨reported, hcollisions, hsizes⟩ := account_addReports hstart reports
    rw [buildModel, hbuild]
    refine ⟨_, rfl, (buildFiles_extends hbuild).2, htracks.alike, ?_, fun name => ?_, reported,
      hcollisions, ?_⟩
    · have hkeys := htracks.keys_eq
      rw [List.nil_append, List.map_flatMap] at hkeys
      exact hkeys
    · rw [← claimants_flatMap]
      exact htracks.get?_eq name
    · exact (Nat.zero_add _).symm.trans hsizes

/-- Two files of a package `p`, and one between them that is unreadable. The first one has classes
`A` and `B`, the last one has `A` again. -/
def contested : List SourceFile :=
  [.program "A.java" "package p; class A {} class B {}"
      [.package 8, .declaration "class_declaration" 17 [], .declaration "class_declaration" 28 []],
    { path := "X.java", source := .bytes [255], tree := .mk { type := "program" } [.package 8] },
    .program "B.java" "package p; class A {}"
      [.package 8, .declaration "class_declaration" 17 []]]

theorem buildModel_winners_contested :
    (∀ file ∈ contested, file.root.UnitsOutside) ∧
    ∃ reports store model, buildFiles .java {} {} contested = .ok (reports, store) ∧
      reports.map (·.complete) = [true, false, true] ∧
      buildModel .java "java" contested {} {} = .ok model ∧
      model.table.keys = ["p.A", "p.B", "p"] ∧ model.get? "p.A" = some ⟨4⟩ ∧
      model.get? "p" = some ⟨0⟩ ∧ model.collisions = 1 ∧ 5 = model.size + 1 + 1 := by
  have hunits : ∀ file ∈ contested, file.root.UnitsOutside := by decide +kernel
  obtain ⟨⟨reports, store⟩, hbuild, hcomplete, hkeys, hclass, hpackage, hcollisions, hsizes,
      habsorbed⟩ : ∃ built, buildFiles .java {} {} contested = .ok built ∧
        built.1.map (·.complete) = [true, false, true] ∧
        ((completeTables built.1).flatMap Table.keys).eraseDups = ["p.A", "p.B", "p"] ∧
        winner .lastWriteWins built.2 ((completeTables built.1).filterMap (·.get? "p.A")) =
          some ⟨4⟩ ∧
        winner .lastWriteWins built.2 ((completeTables built.1).filterMap (·.get? "p")) =
          some ⟨0⟩ ∧
        (built.1.map (·.catalog.collisions)).sum = 0 ∧
        ((completeTables built.1).map Table.size).sum = 5 ∧
        absorptions .lastWriteWins built.2 []
          ((completeTables built.1).flatMap Table.entries) = 1 := by
    apply exists_of_toOption
    simp only [contested, buildFiles, buildFile, Language.walk, Java.walk_eq_walkTree]
    decide +kernel
  obtain ⟨-, hwinners⟩ := buildModel_winners .java "java" contested {} {}
  obtain ⟨model, hmodel, -, -, hkeys', hget, reported, hcount, htotal⟩ :=
    hwinners reports store hbuild
  dsimp only at *
  have hsize : model.size = 3 := by
    have hlength := congrArg List.length (hkeys'.trans hkeys)
    rwa [Table.keys, List.length_map] at hlength
  rw [hcollisions] at hcount
  rw [hsizes, habsorbed] at htotal
  refine ⟨hunits, reports, store, model, hbuild, hcomplete, hmodel, hkeys'.trans hkeys,
    (hget "p.A").trans hclass, (hget "p").trans hpackage, ?_, by omega⟩
  rw [hcount]
  change 0 + 0 + reported = 1
  omega

end Reports

end CodeAtlas
