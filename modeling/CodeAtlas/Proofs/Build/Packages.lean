import CodeAtlas.Proofs.Build.Containment
import CodeAtlas.Proofs.Java.Ordinary

/-! # Packages that span files

A build walks files one after the other over one store, and no walk touches components of another
file. So the tables of the complete reports can be merged in turn, and in the end every package
lists exactly the components that the catalog has with its name as their parent's name.
-/

namespace CodeAtlas

theorem Place.unitsOutside_of_program {root : Place} (hp : root.form = .program)
    (h : root.preorder.countP (·.form == .program) = 1) : root.UnitsOutside := by
  have hprograms := Place.countP_children_of_program hp h
  intro a ha hform q hq hprogram
  rw [Place.preorder_eq] at ha
  rcases List.mem_cons.mp ha with rfl | ha
  · rw [hp] at hform
    cases hform
  · obtain ⟨c, hc, ha⟩ := List.mem_flatMap.mp ha
    have hq := Place.mem_preorder_trans ha hq
    exact List.countP_eq_zero.mp hprograms q (List.mem_flatMap.mpr ⟨c, hc, hq⟩) (by simp [hprogram])

/-- What a report adds to a store: new components only, and if it is complete, a bundle of them. -/
structure FileReport.Brings (store : Store) (report : FileReport) : Prop where
  kept : store.Extends report.catalog.store
  names : ∀ id, (report.catalog.store.get id).NamedByParent
  bundle : report.complete = true →
    ∃ package?, Bundle report.catalog.store report.catalog.table package?
  new : report.complete = true → ∀ n id, report.catalog.get? n = some id → ¬ store.Has id

variable {store : Store} {config : Config}

theorem buildFile_ordinary {file : SourceFile} (h : file.root.Ordinary)
    (hs : ∀ id, (store.get id).NamedByParent) (hmode : config.suppression = .depth) :
    ∃ report, buildFile .java store file config = .ok report ∧ report.Brings store := by
  have hunits := Place.unitsOutside_of_program h.program h.programs
  obtain ⟨-, hfault⟩ := Java.walk_contained store config.nameCollisions file
    config.suppression config.failOnSyntaxErrors hunits
  rw [hmode] at hfault
  have hwalk (catalog : Catalog) (result : Except Fault Unit)
      (hw : Java.walk (.empty config.nameCollisions store) file .depth config.failOnSyntaxErrors =
        ⟨catalog, result⟩) := Java.walk_ordinary h hs hw
  unfold buildFile Language.walk
  dsimp only
  rw [hmode]
  generalize Java.walk _ file .depth config.failOnSyntaxErrors = walked at hfault hwalk
  obtain ⟨catalog, result⟩ := walked
  obtain ⟨hkept, hnames, hbundle⟩ := hwalk catalog result rfl
  cases result with
  | ok => exact ⟨_, rfl, hkept, hnames, fun _ => (hbundle rfl).1, fun _ => (hbundle rfl).2⟩
  | error fault =>
    obtain ⟨d, hd⟩ := hfault fault rfl
    simp only [hd]
    exact ⟨_, rfl, hkept, hnames, nofun, nofun⟩

def completeTables (reports : List FileReport) : List (Table ComponentId) :=
  (reports.filter (·.complete)).map (·.catalog.table)

theorem completeTables_cons_of_complete {report : FileReport} (h : report.complete = true)
    (reports : List FileReport) :
    completeTables (report :: reports) = report.catalog.table :: completeTables reports := by
  simp [completeTables, h]

theorem completeTables_cons_of_incomplete {report : FileReport} (h : report.complete = false)
    (reports : List FileReport) :
    completeTables (report :: reports) = completeTables reports := by
  simp [completeTables, h]

structure Built (store final : Store) (reports : List FileReport) : Prop where
  kept : store.Extends final
  bundles : ∀ t ∈ completeTables reports, ∃ package?, Bundle final t package?
  new : ∀ t ∈ completeTables reports, ∀ n id, t.get? n = some id → ¬ store.Has id
  apart : (completeTables reports).Pairwise Table.Apart

theorem Built.cons {final : Store} {report : FileReport} {reports : List FileReport}
    (h : Built report.catalog.store final reports) (ha : report.Brings store) :
    Built store final (report :: reports) := by
  have hkept := ha.kept.trans h.kept
  have hnew (t : Table ComponentId) (ht : t ∈ completeTables reports) (n : String)
      (id : ComponentId) (hi : t.get? n = some id) : ¬ store.Has id :=
    fun hh => h.new t ht n id hi (ha.kept.has id hh)
  cases hc : report.complete with
  | false =>
    have htables := completeTables_cons_of_incomplete hc reports
    exact ⟨hkept, by rw [htables]; exact h.bundles, by rw [htables]; exact hnew,
      by rw [htables]; exact h.apart⟩
  | true =>
    have htables := completeTables_cons_of_complete hc reports
    obtain ⟨package?, hbundle⟩ := ha.bundle hc
    constructor
    · exact hkept
    · rw [htables]
      exact List.forall_mem_cons.mpr ⟨⟨package?, hbundle.of_extends h.kept⟩, h.bundles⟩
    · rw [htables]
      exact List.forall_mem_cons.mpr ⟨ha.new hc, hnew⟩
    · rw [htables, List.pairwise_cons]
      refine ⟨fun t ht m n id hm hn => ?_, h.apart⟩
      exact h.new t ht n id hn (hbundle.named m id hm).1

theorem buildFiles_ordinary {files : List SourceFile} (h : ∀ file ∈ files, file.root.Ordinary)
    (hs : ∀ id, (store.get id).NamedByParent) (hmode : config.suppression = .depth) :
    ∃ reports final, buildFiles .java config store files = .ok (reports, final) ∧
      Built store final reports := by
  induction files generalizing store with
  | nil => exact ⟨[], store, rfl, .refl store, nofun, nofun, .nil⟩
  | cons file rest ih =>
    obtain ⟨hfile, hrest⟩ := List.forall_mem_cons.mp h
    obtain ⟨report, hreport, hadds⟩ := buildFile_ordinary hfile hs hmode
    obtain ⟨reports, final, hreports, hbuilt⟩ := ih hrest hadds.names
    refine ⟨report :: reports, final, ?_, hbuilt.cons hadds⟩
    rw [buildFiles, hreport]
    simp only [bind, Except.bind, hreports]
    rfl

/-- Reports are merged one after the other, and packages span those merged so far. -/
theorem spanned_addReports {reports : List FileReport} (done : List (Table ComponentId))
    {catalog : Catalog}
    (hbundles : ∀ t ∈ done ++ completeTables reports, ∃ package?, Bundle store t package?)
    (hagree : PackagesAgree store (done ++ completeTables reports))
    (hapart : (done ++ completeTables reports).Pairwise Table.Apart)
    (hg : catalog.Gathered store (done.flatMap Table.entries))
    (hs : catalog.Spanned store fun _ => False) :
    (∃ seen, (reports.foldl Catalog.addReport catalog).Gathered store seen) ∧
      (reports.foldl Catalog.addReport catalog).Spanned store fun _ => False := by
  induction reports generalizing done catalog with
  | nil => exact ⟨⟨_, hg⟩, hs⟩
  | cons report rest ih =>
    rw [List.foldl_cons, Catalog.addReport]
    have hg' : Catalog.Gathered store (done.flatMap Table.entries)
        { catalog with journal := catalog.journal.absorb report.diagnostics } :=
      ⟨hg.alike, hg.named, hg.origin, hg.present, hg.untouched⟩
    have hs' : Catalog.Spanned store (fun _ => False)
        { catalog with journal := catalog.journal.absorb report.diagnostics } :=
      hs.of_eq rfl rfl
    cases hc : report.complete with
    | false =>
      rw [completeTables_cons_of_incomplete hc] at hbundles hagree hapart
      exact ih done hbundles hagree hapart hg' hs'
    | true =>
      rw [completeTables_cons_of_complete hc] at hbundles hagree hapart
      obtain ⟨package?, hbundle⟩ := hbundles report.catalog.table (by simp)
      have hjoins : Joins store done report.catalog.table package? := by
        refine ⟨hbundle, fun t ht => hbundles t (List.mem_append_left _ ht), ?_, ?_⟩
        · refine hagree.subset (List.cons_subset.mpr ⟨by simp, List.subset_append_left _ _⟩)
        · intro t ht
          exact (List.pairwise_append.mp hapart).2.2 t ht _ List.mem_cons_self
      obtain ⟨hg'', hs''⟩ := hjoins.merge hg' hs'
      rw [List.append_cons] at hbundles hagree hapart
      exact ih _ hbundles hagree hapart hg'' hs''

theorem gathered_empty (policy : CollisionPolicy) (store : Store) (journal : Journal) :
    Catalog.Gathered store [] ⟨policy, store, .empty, journal⟩ :=
  ⟨.refl store, nofun, nofun, nofun, fun _ _ => rfl⟩

/-- If the complete reports of ordinary files agree on packages, a build gives a catalog in which
every package lists exactly the components that have its name as their parent's name, each once. -/
theorem buildModel_spans (language : Language) (tag : String) (files : List SourceFile)
    (config : Config) (diagnostics : Diagnostics) (hfiles : ∀ file ∈ files, file.root.Ordinary)
    (hmode : config.suppression = .depth)
    (hagree : ∀ reports store, buildFiles language config {} files = .ok (reports, store) →
      PackagesAgree store (completeTables reports)) :
    ∃ model, buildModel language tag files config diagnostics = .ok model ∧
      ∀ p package, model.get? p = some package → (model.store.get package).kind = .package →
        (model.store.get package).children.Nodup ∧
        ∀ child, child ∈ (model.store.get package).children ↔
          ∃ name, model.get? name = some child ∧ (model.store.get child).parentName = some p := by
  cases language
  have hempty (id : ComponentId) : (Store.get {} id).NamedByParent :=
    Builder.namedByParent_of_unnamed rfl
  obtain ⟨reports, store, hbuild, hbuilt⟩ := buildFiles_ordinary hfiles hempty hmode
  obtain ⟨⟨seen, hg⟩, hs⟩ := spanned_addReports [] hbuilt.bundles
    (hagree reports store hbuild) hbuilt.apart
    (gathered_empty config.nameCollisions store
      ⟨diagnostics, reports.flatMap (·.catalog.journal.log)⟩) ⟨nofun, nofun⟩
  rw [buildModel, hbuild]
  exact ⟨_, rfl, fun p package hp hk => hs.children hg.alike hp hk⟩

theorem exists_of_toOption {ε α : Type} {e : Except ε α} {P : α → Prop} [DecidablePred P]
    (h : e.toOption.any (fun a => decide (P a)) = true) : ∃ a, e = .ok a ∧ P a := by
  cases e with
  | error => cases h
  | ok a => exact ⟨a, rfl, by simpa [Except.toOption] using h⟩

/-- Two files of a package `p`. The first one has classes `A` and `B`, the second one has `A`
again. -/
def sharing : List SourceFile :=
  [.program "A.java" "package p; class A {} class B {}"
      [.package 8, .declaration "class_declaration" 17 [], .declaration "class_declaration" 28 []],
    .program "B.java" "package p; class A {}"
      [.mk { type := "comment" } [], .package 8, .declaration "class_declaration" 17 []]]

theorem buildModel_spans_sharing :
    (∀ file ∈ sharing, file.root.Ordinary) ∧ ∃ model,
      buildModel .java "java" sharing { suppression := .depth } {} = .ok model ∧
      ∃ package, model.get? "p" = some package ∧ (model.store.get package).children.length = 2 ∧
        (model.store.get package).children.Nodup ∧
        ∀ child, child ∈ (model.store.get package).children ↔
          ∃ name, model.get? name = some child ∧
            (model.store.get child).parentName = some "p" := by
  have hfiles : ∀ file ∈ sharing, file.root.Ordinary := by decide +kernel
  obtain ⟨built, hbuilt, hagree⟩ : ∃ built,
      buildFiles .java { suppression := .depth } {} sharing = .ok built ∧
        PackagesAgree built.2 (completeTables built.1) := by
    apply exists_of_toOption
    simp only [sharing, buildFiles, buildFile, Language.walk, Java.walk_eq_walkTree]
    decide +kernel
  obtain ⟨model, hmodel, hspans⟩ := buildModel_spans .java "java" sharing
    { suppression := .depth } {} hfiles rfl fun reports store h => by
      cases hbuilt.symm.trans h
      exact hagree
  obtain ⟨model', hmodel', hp, hk, hlength⟩ : ∃ model,
      buildModel .java "java" sharing { suppression := .depth } {} = .ok model ∧
        model.get? "p" = some ⟨0⟩ ∧ (model.store.get ⟨0⟩).kind = .package ∧
        (model.store.get ⟨0⟩).children.length = 2 := by
    apply exists_of_toOption
    simp only [sharing, buildModel, buildFiles, buildFile, Language.walk, Java.walk_eq_walkTree]
    decide +kernel
  cases hmodel.symm.trans hmodel'
  exact ⟨hfiles, model, hmodel, ⟨0⟩, hp, hlength, hspans "p" ⟨0⟩ hp hk⟩

/-- A class `y` that is closed before the variable `a` around it has its name, and a package with
the name that components without a name go by. -/
def outlying : List SourceFile :=
  [.program "Y.java" "class y { } a;"
      [.mk { type := "local_variable_declaration" }
        [.declaration "class_declaration" 6 [], .declaration "variable_declarator" 12 []]],
    .program "Z.java" "package <anonymous>;"
      [.mk { type := "package_declaration" } [.mk { type := "identifier", span := (8, 19) } []]]]

/-- The package does not list the class, though it has the name of the class's parent. -/
theorem outlying_not_listed :
    (∀ file ∈ outlying, file.root.Ordinary) ∧
    (∃ reports store,
      buildFiles .java { suppression := .depth } {} outlying = .ok (reports, store) ∧
        PackagesKeepKind store (completeTables reports)) ∧
    ∃ model, buildModel .java "java" outlying { suppression := .depth } {} = .ok model ∧
      ∃ package child, model.get? "<anonymous>" = some package ∧
        (model.store.get package).kind = .package ∧ model.get? "<anonymous>.y" = some child ∧
        (model.store.get child).parentName = some "<anonymous>" ∧
        child ∉ (model.store.get package).children := by
  refine ⟨by decide +kernel, ?_, ?_⟩
  · obtain ⟨built, hbuilt, hkeep⟩ : ∃ built,
        buildFiles .java { suppression := .depth } {} outlying = .ok built ∧
          PackagesKeepKind built.2 (completeTables built.1) := by
      apply exists_of_toOption
      simp only [outlying, buildFiles, buildFile, Language.walk, Java.walk_eq_walkTree]
      decide +kernel
    exact ⟨built.1, built.2, hbuilt, hkeep⟩
  · obtain ⟨model, hmodel, hfacts⟩ : ∃ model,
        buildModel .java "java" outlying { suppression := .depth } {} = .ok model ∧
          model.get? "<anonymous>" = some ⟨2⟩ ∧ (model.store.get ⟨2⟩).kind = .package ∧
          model.get? "<anonymous>.y" = some ⟨1⟩ ∧
          (model.store.get ⟨1⟩).parentName = some "<anonymous>" ∧
          ⟨1⟩ ∉ (model.store.get ⟨2⟩).children := by
      apply exists_of_toOption
      simp only [outlying, buildModel, buildFiles, buildFile, Language.walk, Java.walk_eq_walkTree]
      decide +kernel
    exact ⟨model, hmodel, ⟨2⟩, ⟨1⟩, hfacts⟩

end CodeAtlas
