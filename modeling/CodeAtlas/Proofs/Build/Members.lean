import Mathlib.Data.List.Nodup
import CodeAtlas.Proofs.Build.Succession

/-! # Members and their types

A build decides for each name by itself which component has it in the end. So a type may win its
name while members of another type of this name win theirs. The members of all types come from the
files of their types exactly if a file that wins the name of a member always wins that of its type.
-/

namespace CodeAtlas

open Builder Catalog

/-- Every component comes from the file of the one that has its parent's name, packages apart. -/
def Catalog.MembersAtHome (c : Catalog) : Prop :=
  ∀ n member p type, c.get? n = some member → (c.store.get member).parentName = some p →
    c.get? p = some type → (c.store.get type).kind ≠ .package →
    (c.store.get member).sourceFile = (c.store.get type).sourceFile

instance (c : Catalog) : Decidable c.MembersAtHome :=
  decidable_of_iff (∀ entry ∈ c.table.entries, ∀ entry' ∈ c.table.entries,
    (c.store.get entry.2).parentName = some entry'.1 →
    (c.store.get entry'.2).kind ≠ .package →
    (c.store.get entry.2).sourceFile = (c.store.get entry'.2).sourceFile) (by
    simp only [MembersAtHome, Prod.forall, Table.mem_entries_iff]
    constructor
    · intro h n member p type hn hp ht
      exact h n member hn p type ht hp
    · intro h n member hn p type ht hp
      exact h n member p type hn hp ht)

variable {store final : Store} {config : Config} {files : List SourceFile}
  {reports : List FileReport} {policy : CollisionPolicy} {model : Catalog}

theorem Java.walk_sources (policy : CollisionPolicy) (store : Store) (file : SourceFile)
    (mode : Suppression.Mode) (strict : Bool) (n : String) (id : ComponentId)
    (h : (walk (.empty policy store) file mode strict).state.get? n = some id) :
    (walk (.empty policy store) file mode strict).state.store.Has id ∧
      ((walk (.empty policy store) file mode strict).state.store.get id).sourceFile =
        some file.path := by
  rcases walk_cases policy store file mode strict with ⟨path, cause, line, hw⟩ | hw
  · rw [hw] at h
    cases h
  · have hkept := kept_follow (I := fun b => OneSource b ∧ b.path = some file.path)
      (fun _ op hs h => ⟨h.1.step hs op, (hs.path_step op).trans h.2⟩)
      (sound_started policy store file.path mode)
      ⟨oneSource_started policy store file.path mode, rfl⟩ file.root.walk
    rw [hw] at h ⊢
    generalize follow (started policy store file.path mode) file.root.walk = done at h hkept
    obtain ⟨b, result⟩ := done
    obtain ⟨hs, hone, hpath⟩ := hkept
    have hgoal (hi : b.catalog.get? n = some id) :
        b.store.Has id ∧ (b.store.get id).sourceFile = some file.path :=
      ⟨(hs.named n id hi).1, (hone.named n id hi).trans hpath⟩
    cases result <;> exact hgoal h

structure Sourced (store : Store) (reports : List FileReport) : Prop where
  paths : (reports.map (·.path)).Nodup
  source : ∀ report ∈ reports, ∀ n id, report.catalog.get? n = some id →
    (store.get id).sourceFile = some report.path

theorem buildFiles_sources (h : buildFiles .java config store files = .ok (reports, final)) :
    reports.map (·.path) = files.map (·.path) ∧
      ∀ report ∈ reports, ∀ n id, report.catalog.get? n = some id →
        (final.get id).sourceFile = some report.path := by
  induction files generalizing store reports with
  | nil =>
    cases h
    exact ⟨rfl, nofun⟩
  | cons file rest ih =>
    obtain ⟨report, others, hfile, hrest, rfl⟩ := buildFiles_cons_iff.mp h
    obtain ⟨hpath, hstore, htable⟩ := buildFile_eq hfile
    obtain ⟨hpaths, hothers⟩ := ih hrest
    refine ⟨by simp [hpath, hpaths], List.forall_mem_cons.mpr ⟨fun n id hi => ?_, hothers⟩⟩
    have hwalk := Java.walk_sources config.nameCollisions store file config.suppression
      config.failOnSyntaxErrors n id
    rw [Catalog.get?, ← htable, ← hstore] at hwalk
    obtain ⟨hhas, hsource⟩ := hwalk hi
    rw [(buildFiles_extends hrest).1.get_eq id hhas, hpath]
    exact hsource

def wins (policy : CollisionPolicy) (store : Store) (reports : List FileReport) (name : String) :
    Option ComponentId :=
  winner policy store ((completeTables reports).filterMap (·.get? name))

/-- A file that wins the name of a member wins the name of its type, packages apart. -/
def WinTogether (policy : CollisionPolicy) (store : Store) (reports : List FileReport) : Prop :=
  ∀ report ∈ reports, report.complete = true → ∀ n member p type,
    report.catalog.get? n = some member → (store.get member).parentName = some p →
    wins policy store reports n = some member → wins policy store reports p = some type →
    (store.get type).kind ≠ .package → report.catalog.get? p = some type

theorem mem_of_wins {n : String} {id : ComponentId} (h : wins policy store reports n = some id) :
    ∃ report ∈ reports, report.complete = true ∧ report.catalog.get? n = some id := by
  obtain ⟨table, hm, hi⟩ := List.mem_filterMap.mp (winner_mem h)
  obtain ⟨report, hr, rfl⟩ := List.mem_map.mp hm
  obtain ⟨hr, hcomplete⟩ := List.mem_filter.mp hr
  exact ⟨report, hr, hcomplete, hi⟩

theorem Sourced.eq_of_path (h : Sourced store reports) {report other : FileReport}
    (hr : report ∈ reports) (ho : other ∈ reports) (hp : report.path = other.path) :
    report = other :=
  List.inj_on_of_nodup_map h.paths hr ho hp

/-- Members are at home if the files that win their names win the names of their types. -/
theorem membersAtHome_iff (hs : Sourced store reports) (ha : store.Alike model.store)
    (hg : ∀ n, model.get? n = wins policy store reports n) :
    model.MembersAtHome ↔ WinTogether policy store reports := by
  simp only [MembersAtHome, hg, ha.parentName_eq, ha.kind_eq, ha.sourceFile_eq]
  constructor
  · intro h report hr hcomplete n member p type hmember hparent hn hp hkind
    obtain ⟨other, ho, -, htype⟩ := mem_of_wins hp
    have hsource := h n member p type hn hparent hp hkind
    rw [hs.source report hr n member hmember, hs.source other ho p type htype] at hsource
    rw [hs.eq_of_path hr ho (Option.some.inj hsource)]
    exact htype
  · intro h n member p type hn hparent hp hkind
    obtain ⟨report, hr, hcomplete, hmember⟩ := mem_of_wins hn
    have htype := h report hr hcomplete n member p type hmember hparent hn hp hkind
    rw [hs.source report hr n member hmember, hs.source report hr p type htype]

theorem winTogether_of_apart (hs : Sourced store reports)
    (h : ∀ report ∈ reports, ∀ other ∈ reports, report.complete = true → other.complete = true →
      report.path ≠ other.path → ∀ n member p type, report.catalog.get? n = some member →
      (store.get member).parentName = some p → other.catalog.get? p = some type →
      (store.get type).kind = .package) : WinTogether policy store reports := by
  intro report hr hcomplete n member p type hmember hparent _ hp hkind
  obtain ⟨other, ho, hcomplete', htype⟩ := mem_of_wins hp
  by_cases hpath : report.path = other.path
  · rw [hs.eq_of_path hr ho hpath]
    exact htype
  · exact absurd
      (h report hr other ho hcomplete hcomplete' hpath n member p type hmember hparent htype) hkind

/-- A build of files with different paths gives a catalog in which every component comes from one of
the complete reports. Members are at home exactly if files win the names of members and of their
types together, which they do if no file has a type with the name of a parent in another one. -/
theorem buildModel_membersAtHome_iff (language : Language) (tag : String) (files : List SourceFile)
    (config : Config) (diagnostics : Diagnostics)
    (hfiles : ∀ file ∈ files, file.root.LeadsWithPackage)
    (hpaths : (files.map (·.path)).Nodup) :
    ∃ reports store model, buildFiles language config {} files = .ok (reports, store) ∧
      buildModel language tag files config diagnostics = .ok model ∧
      reports.map (·.path) = files.map (·.path) ∧
      (∀ n id, model.get? n = some id → ∃ report ∈ reports, report.complete = true ∧
        report.catalog.get? n = some id ∧ (model.store.get id).sourceFile = some report.path) ∧
      (model.MembersAtHome ↔ WinTogether config.nameCollisions store reports) ∧
      ((∀ report ∈ reports, ∀ other ∈ reports, report.complete = true → other.complete = true →
        report.path ≠ other.path → ∀ n member p type, report.catalog.get? n = some member →
        (store.get member).parentName = some p → other.catalog.get? p = some type →
        (store.get type).kind = .package) → model.MembersAtHome) := by
  cases language
  have hunits (file : SourceFile) (hm : file ∈ files) : file.root.UnitsOutside :=
    Place.unitsOutside_of_program (hfiles file hm).program (hfiles file hm).programs
  obtain ⟨reports, store, hbuild⟩ := buildFiles_ok hunits config {}
  obtain ⟨hpath, hsource⟩ := buildFiles_sources hbuild
  have hs : Sourced store reports := ⟨hpath ▸ hpaths, hsource⟩
  have htracks := tracks_addReports (tracks_empty config.nameCollisions store
    ⟨diagnostics, reports.flatMap (·.catalog.journal.log)⟩) reports
  rw [buildModel, hbuild]
  refine ⟨reports, store, _, rfl, rfl, hpath, ?_⟩
  generalize hmodel : Catalog.note _ _ = model
  have ha : store.Alike model.store := hmodel ▸ htracks.alike
  have hg (n : String) : model.get? n = wins config.nameCollisions store reports n := by
    rw [wins, ← claimants_flatMap, ← hmodel]
    exact htracks.get?_eq n
  have hiff := membersAtHome_iff hs ha hg
  refine ⟨fun n id hi => ?_, hiff, fun h => hiff.mpr (winTogether_of_apart hs h)⟩
  obtain ⟨report, hr, hcomplete, hid⟩ := mem_of_wins ((hg n).symm.trans hi)
  refine ⟨report, hr, hcomplete, hid, ?_⟩
  rw [ha.sourceFile_eq]
  exact hsource report hr n id hid

def classFile (path : String) (fields : List Nat) : SourceFile :=
  .program path "package p; class A x y"
    [.package 8, .declaration "class_declaration" 17 (fields.map fun first =>
      .mk { type := "field_declaration" } [.declaration "variable_declarator" first []])]

/-- Both files have the class `A` with a field `x`. The second class replaces the first one, and its
field replaces the first one's. -/
theorem buildModel_membersAtHome_iff_paired :
    let files := [classFile "A.java" [19], classFile "B.java" [21, 19]]
    (∀ file ∈ files, file.root.LeadsWithPackage) ∧ (files.map (·.path)).Nodup ∧
    ∃ reports store model, buildFiles .java {} {} files = .ok (reports, store) ∧
      buildModel .java "java" files {} {} = .ok model ∧
      model.table.keys = ["p.A.x", "p.A", "p", "p.A.y"] ∧ model.MembersAtHome ∧
      WinTogether .lastWriteWins store reports := by
  intro files
  have hfiles : ∀ file ∈ files, file.root.LeadsWithPackage := by decide +kernel
  have hpaths : (files.map (·.path)).Nodup := by decide +kernel
  obtain ⟨reports, store, model, hbuild, hmodel, -, -, hiff, -⟩ :=
    buildModel_membersAtHome_iff .java "java" files {} {} hfiles hpaths
  obtain ⟨model', hmodel', hkeys, hhome⟩ : ∃ model,
      buildModel .java "java" files {} {} = .ok model ∧
      model.table.keys = ["p.A.x", "p.A", "p", "p.A.y"] ∧ model.MembersAtHome := by
    apply exists_of_toOption
    simp only [files, buildModel, buildFiles, buildFile, Language.walk, Java.walk_eq_walkTree]
    decide +kernel
  cases hmodel.symm.trans hmodel'
  exact ⟨hfiles, hpaths, reports, store, model, hbuild, hmodel, hkeys, hhome, hiff.mp hhome⟩

/-- A field of a class that has lost its name stays below the class that has won it. If collisions
are refused, a field of a class that is refused comes below the one that is kept. -/
theorem divided_not_membersAtHome :
    let one := classFile "A.java" [19]
    let other := classFile "B.java" []
    (∀ file ∈ [one, other], file.root.LeadsWithPackage) ∧
    (∃ model, buildModel .java "java" [one, other] {} {} = .ok model ∧
      model.table.keys = ["p.A.x", "p.A", "p"] ∧ ¬ model.MembersAtHome) ∧
    ∃ model, buildModel .java "java" [other, one] { nameCollisions := .error } {} = .ok model ∧
      model.table.keys = ["p.A", "p", "p.A.x"] ∧ ¬ model.MembersAtHome := by
  intro one other
  refine ⟨by decide +kernel, ?_, ?_⟩
  all_goals
    apply exists_of_toOption
    simp only [one, other, buildModel, buildFiles, buildFile, Language.walk, Java.walk_eq_walkTree]
    decide +kernel

end CodeAtlas
