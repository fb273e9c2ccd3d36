import CodeAtlas.Build
import CodeAtlas.Proofs.Java.Sharing

/-! # Building apart and walking together

A build walks each file into a catalog of its own and merges the catalogs. Where the last write
wins, walking the files one after the other into one catalog leads to the same names, in the same
order, and to the same components with the same children.
-/

namespace CodeAtlas

open Builder

def Java.walkAll (catalog : Catalog) (mode : Suppression.Mode) (strict : Bool) :
    List SourceFile → Outcome Catalog Unit
  | [] => .ok catalog ()
  | file :: rest =>
    (walk catalog file mode strict).andThen fun catalog => walkAll catalog mode strict rest

variable {config : Config} {file : SourceFile} {s t : Store} {c c' m m' : Catalog} {strict : Bool}

theorem Java.follow_of_walk_empty
    (h : (walk (.empty .lastWriteWins {}) file .depth strict).result = .ok ()) (s : Store) :
    ∃ b, follow (started .lastWriteWins s file.path .depth) file.root.walk = .ok b () := by
  obtain ⟨b, hb, -⟩ := follow_of_walk (Outcome.eq_ok_of_isOk (by rw [h]; rfl))
  obtain ⟨b', hb', -⟩ := follow_of_shape ⟨sound_started .lastWriteWins s file.path .depth, rfl⟩
    ⟨sound_started .lastWriteWins {} file.path .depth, rfl⟩ rfl hb
  exact ⟨b', hb'⟩

theorem Builder.Shared.of_eq (h : Shared t s c m) (hcp : c'.policy = c.policy)
    (hct : c'.table = c.table) (hcs : c'.store = c.store) (hmp : m'.policy = m.policy)
    (hmt : m'.table = m.table) (hms : m'.store = m.store) : Shared t s c' m' where
  size_eq := by rw [hcs, h.size_eq]
  policy_eq := hcp.trans h.policy_eq
  named := by
    unfold Catalog.get?
    rw [hct, hcs]
    exact h.named
  holds := h.holds.of_eq hct hcs
  agrees := h.agrees.of_eq hcp hct hcs hmp hmt hms

theorem buildFile_of_walk (hmode : config.suppression = .depth)
    (hpolicy : config.nameCollisions = .lastWriteWins)
    (h : Java.walk (.empty .lastWriteWins s) file .depth config.failOnSyntaxErrors = .ok m ()) :
    buildFile .java s file config = .ok ⟨file.path, m, true⟩ := by
  unfold buildFile Language.walk
  dsimp only
  rw [hpolicy, hmode, h]
  rfl

/-- One file more: its report is complete, and adding it does what walking the file does. -/
theorem buildFile_shared (hmode : config.suppression = .depth)
    (hpolicy : config.nameCollisions = .lastWriteWins) (hfile : file.root.OneUnit)
    (hwalk : (Java.walk (.empty .lastWriteWins {}) file .depth
      config.failOnSyntaxErrors).result = .ok ()) (s : Store) :
    ∃ report, buildFile .java s file config = .ok report ∧ s.Widens report.catalog.store ∧
      ∀ t c m, report.catalog.store.Widens t → Shared t s c m →
        ∃ c', Java.walk c file .depth config.failOnSyntaxErrors = .ok c' () ∧
          Shared t report.catalog.store c' (m.addReport report) := by
  obtain ⟨b, hb⟩ := Java.follow_of_walk_empty hwalk s
  have hparse := Java.parse_of_walk hwalk
  have hfresh := Java.fresh_follow (Java.fresh_started .depth)
    (Java.sound_started .lastWriteWins s file.path .depth) hb
  have hown : Java.walk (.empty .lastWriteWins s) file .depth config.failOnSyntaxErrors =
      .ok _ () :=
    (Java.walk_eq_ok_iff hparse).mpr ⟨b, hb, rfl⟩
  refine ⟨_, buildFile_of_walk hmode hpolicy hown, hfresh.widens, fun t c m ht h => ?_⟩
  have h' : Shared t s c { m with journal := m.journal.absorb b.catalog.journal.diagnostics } :=
    h.of_eq rfl rfl rfl rfl rfl rfl
  obtain ⟨a, ha, hshared⟩ := Java.shared_follow h' hfile hb ht.toExtends (hfresh.widens.trans ht)
  exact ⟨_, (Java.walk_eq_ok_iff hparse).mpr ⟨a, ha, rfl⟩, hshared.of_eq rfl rfl rfl rfl rfl rfl⟩

theorem buildFiles_shared (hmode : config.suppression = .depth)
    (hpolicy : config.nameCollisions = .lastWriteWins) {files : List SourceFile}
    (hfiles : ∀ file ∈ files, file.root.OneUnit)
    (hwalks : ∀ file ∈ files, (Java.walk (.empty .lastWriteWins {}) file .depth
      config.failOnSyntaxErrors).result = .ok ()) (s : Store) :
    ∃ reports t, buildFiles .java config s files = .ok (reports, t) ∧ s.Widens t ∧
      ∀ c m, Shared t s c m →
        ∃ c', Java.walkAll c .depth config.failOnSyntaxErrors files = .ok c' () ∧
          Shared t t c' (reports.foldl Catalog.addReport m) := by
  induction files generalizing s with
  | nil => exact ⟨[], s, rfl, .refl s, fun c m h => ⟨c, rfl, h⟩⟩
  | cons file rest ih =>
    obtain ⟨hfile, hfiles⟩ := List.forall_mem_cons.mp hfiles
    obtain ⟨hwalk, hwalks⟩ := List.forall_mem_cons.mp hwalks
    obtain ⟨report, hreport, hwiden, hshare⟩ := buildFile_shared hmode hpolicy hfile hwalk s
    obtain ⟨reports, t, hreports, hwidens, hshares⟩ := ih hfiles hwalks report.catalog.store
    refine ⟨report :: reports, t, ?_, hwiden.trans hwidens, fun c m h => ?_⟩
    · rw [buildFiles, hreport]
      simp only [bind, Except.bind, hreports]
      rfl
    · obtain ⟨c₁, hc₁, h₁⟩ := hshare t c m hwidens h
      obtain ⟨c₂, hc₂, h₂⟩ := hshares c₁ _ h₁
      refine ⟨c₂, ?_, h₂⟩
      rw [Java.walkAll, hc₁, Outcome.andThen_ok, hc₂]

/-- Files that can each be walked to the end are walked to the end into one catalog too, and this
catalog is that of the build: it has the same names, in the same order, for the same components. -/
theorem buildModel_eq_walkAll (tag : String) (files : List SourceFile) (config : Config)
    (diagnostics : Diagnostics) (hfiles : ∀ file ∈ files, file.root.OneUnit)
    (hmode : config.suppression = .depth) (hpolicy : config.nameCollisions = .lastWriteWins)
    (hwalks : ∀ file ∈ files, (Java.walk (.empty .lastWriteWins {}) file .depth
      config.failOnSyntaxErrors).result = .ok ()) :
    ∃ shared model,
      Java.walkAll (.empty .lastWriteWins {}) .depth config.failOnSyntaxErrors files =
        .ok shared () ∧
      buildModel .java tag files config diagnostics = .ok model ∧
      model.table = shared.table ∧ model.store = shared.store := by
  obtain ⟨reports, t, hbuild, -, hshares⟩ := buildFiles_shared hmode hpolicy hfiles hwalks {}
  have hstart : Shared t {} (.empty .lastWriteWins {})
      { policy := config.nameCollisions, store := t, table := .empty,
        journal := ⟨diagnostics, reports.flatMap (·.catalog.journal.log)⟩ } := by
    refine ⟨rfl, rfl, nofun, ⟨nofun, nofun⟩, hpolicy, rfl, rfl, nofun, nofun, fun _ _ => rfl⟩
  obtain ⟨shared, hshared, h⟩ := hshares _ _ hstart
  rw [buildModel, hbuild]
  refine ⟨shared, _, hshared, rfl, h.agrees.table_eq, ?_⟩
  exact Store.eq_of_get (h.agrees.size_eq.trans h.size_eq.symm) h.agrees.agree

/-- Two files of a package `p` and one without a package. The first one has a class `A` with two
methods `f` and a class `B`, the second one has a class `A` with one method `f`, and in the third
one `p` is a class with a class `B`. -/
def overlapping : List SourceFile :=
  [file "A.java" [.package 8, type 17 [method, method], type 21 []],
    file "B.java" [.mk { type := "comment" } [], .package 8, type 17 [method]],
    file "C.java" [type 8 [type 21 []]]]
where
  file (path : String) (declarations : List Node) : SourceFile :=
    .program path "package p; class A f B" declarations
  type (name : Nat) (members : List Node) : Node := .declaration "class_declaration" name members
  method : Node := .declaration "method_declaration" 19 []

/-- The names stay in the order in which they first came, though nothing of the first file is left.
The class `p` that has replaced the package lists the class `B` but not the class `A`. -/
theorem buildModel_eq_walkAll_overlapping :
    (∀ file ∈ overlapping, file.root.OneUnit) ∧ ∃ shared model,
      Java.walkAll (.empty .lastWriteWins {}) .depth true overlapping = .ok shared () ∧
      buildModel .java "java" overlapping { suppression := .depth } {} = .ok model ∧
      model.table = shared.table ∧ model.store = shared.store ∧
      model.table.entries = [("p.A.f", ⟨7⟩), ("p.A", ⟨6⟩), ("p.B", ⟨9⟩), ("p", ⟨8⟩)] ∧
      (model.store.get ⟨8⟩).children = [⟨9⟩] := by
  have hfiles : ∀ file ∈ overlapping, file.root.OneUnit := by decide +kernel
  have hwalks : ∀ file ∈ overlapping,
      (Java.walk (.empty .lastWriteWins {}) file .depth true).result.isOk = true := by
    simp only [Java.walk_eq_walkTree]
    decide +kernel
  obtain ⟨shared, model, hshared, hmodel, htable, hstore⟩ :=
    buildModel_eq_walkAll "java" overlapping { suppression := .depth } {} hfiles rfl rfl
      fun file hm => congrArg Outcome.result (Outcome.eq_ok_of_isOk (hwalks file hm))
  have hfacts : let walked := Java.walkAll (.empty .lastWriteWins {}) .depth true overlapping
      walked.state.table.entries = [("p.A.f", ⟨7⟩), ("p.A", ⟨6⟩), ("p.B", ⟨9⟩), ("p", ⟨8⟩)] ∧
        (walked.state.store.get ⟨8⟩).children = [⟨9⟩] := by
    simp only [overlapping, Java.walkAll, Java.walk_eq_walkTree]
    decide +kernel
  have hshared : Java.walkAll (.empty .lastWriteWins {}) .depth true overlapping =
    .ok shared () := hshared
  rw [hshared] at hfacts
  exact ⟨hfiles, shared, model, hshared, hmodel, htable, hstore, by rw [htable]; exact hfacts.1,
    by rw [hstore]; exact hfacts.2⟩

end CodeAtlas
