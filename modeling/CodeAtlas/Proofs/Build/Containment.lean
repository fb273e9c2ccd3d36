import CodeAtlas.Build
import CodeAtlas.Proofs.Builder.OneSource
import CodeAtlas.Proofs.Java.Quiet

/-! # Failures stay in their file

Walking a file always gives a report, unless the file has a compilation unit inside an annotation
type. The report is complete exactly if it has no error, and an incomplete one has exactly one
error, which names the file.
-/

namespace CodeAtlas

/-- No program stands below an annotation type declaration. -/
def Place.UnitsOutside (root : Place) : Prop :=
  ∀ a ∈ root.preorder, a.form = .annotationTypeDeclaration → ∀ q ∈ a.preorder, q.form ≠ .program

instance (root : Place) : Decidable root.UnitsOutside :=
  inferInstanceAs (Decidable (∀ a ∈ root.preorder, a.form = .annotationTypeDeclaration →
    ∀ q ∈ a.preorder, q.form ≠ .program))

def UnitsAwake : Suppression → List Visit → Prop
  | _, [] => True
  | s, visit :: rest =>
    (∀ p, visit = .exit p → p.form = .program → s.active = false) ∧
      UnitsAwake (visit.suppress s) rest

theorem unitsAwake_append {s : Suppression} {first second : List Visit} :
    UnitsAwake s (first ++ second) ↔
      UnitsAwake s first ∧ UnitsAwake (first.foldl Visit.suppress s) second := by
  induction first generalizing s with
  | nil => simp [UnitsAwake]
  | cons visit rest ih => simp only [List.cons_append, UnitsAwake, ih, List.foldl_cons, and_assoc]

theorem unitsAwake_of_no_program {visits : List Visit}
    (h : ∀ visit ∈ visits, visit.place.form ≠ .program) (s : Suppression) :
    UnitsAwake s visits := by
  induction visits generalizing s with
  | nil => trivial
  | cons visit rest ih =>
    obtain ⟨hv, hrest⟩ := List.forall_mem_cons.mp h
    refine ⟨?_, ih hrest _⟩
    rintro p rfl hp
    exact absurd hp hv

namespace Place

variable {p : Place}

theorem UnitsOutside.child (h : p.UnitsOutside) {c : Place} (hc : c ∈ p.namedChildren) :
    c.UnitsOutside := by
  intro a ha
  apply h a
  rw [preorder_eq]
  exact List.mem_cons_of_mem _ (List.mem_flatMap.mpr ⟨c, List.mem_of_mem_filter hc, ha⟩)

theorem unitsAwake_walk (h : p.UnitsOutside) {s : Suppression} (hs : s.depth = 0) :
    UnitsAwake s p.walk := by
  induction p using induction generalizing s with
  | h p ih =>
    by_cases hp : p.form = .annotationTypeDeclaration
    · refine unitsAwake_of_no_program (fun visit hv => ?_) s
      exact h p p.mem_preorder_self hp _ (mem_preorder_of_mem_walk hv)
    · have hchildren (ps : List Place) (hps : ∀ c ∈ ps, c ∈ p.namedChildren) {s : Suppression}
          (hs : s.depth = 0) : UnitsAwake s (ps.flatMap walk) := by
        induction ps generalizing s with
        | nil => trivial
        | cons c rest ihs =>
          obtain ⟨hc, hrest⟩ := List.forall_mem_cons.mp hps
          rw [List.flatMap_cons, unitsAwake_append]
          exact ⟨ih c hc (h.child hc) hs, ihs hrest (c.depth_foldl_walk s hs)⟩
      have hend := depth_foldl_siblings p.namedChildren (fun c _ => c.depth_foldl_walk) hs
      rw [walk_eq]
      simp only [UnitsAwake, unitsAwake_append, Visit.suppress, hp, if_false, and_true]
      refine ⟨by simp, hchildren p.namedChildren (fun _ => id) hs, fun _ _ _ => ?_⟩
      simp [Suppression.active, hend]

end Place

namespace Java

variable {b : Builder}

theorem endUnit_notMem_enterOps (p : Place) (e : Option Kind) : .endUnit ∉ p.enterOps e := by
  have he := p.entry_enterOps e
  generalize p.enterOps e = ops at he
  have hno {ops : List Op} (h : ∀ op ∈ ops, op.Enriches) : .endUnit ∉ ops := fun hm => h _ hm
  cases he with
  | opens _ _ hp | declares _ _ hp =>
    rintro (_ | ⟨_, hm⟩)
    exact hno hp hm
  | package | suppresses | imports => simp
  | enriches _ _ _ _ _ hp => exact hno hp

theorem endUnit_notMem_exitOps {p : Place} (hp : p.form ≠ .program) : .endUnit ∉ p.exitOps := by
  by_cases ho : (p.opens? none).isSome
  · simp [Place.exitOps_of_opens ho]
  by_cases ha : p.form = .annotationTypeDeclaration
  · simp [Place.exitOps_of_suppresses ha]
  · simp [Place.exitOps_of_plain (by simpa using ho) hp ha]

end Java

namespace Builder

variable {b : Builder} {fault : Fault}

/-- The faults that end a walk. -/
def Ends (fault : Fault) : Prop :=
  fault = .scopeUnderflow ∨ ∃ name path, fault = .nameCollision name path

theorem Sound.ends_step (hs : Sound b) {op : Op} (ho : op = .endUnit → b.suppressed = false)
    (h : (b.step op).result = .error fault) : Ends fault := by
  rcases hs.fault_step h with h | h | ⟨e, hsup⟩
  · exact .inl h
  · exact .inr h
  · rw [ho e] at hsup
    cases hsup

theorem Sound.ends_run (hs : Sound b) {ops : List Op} (ho : .endUnit ∉ ops)
    (h : (b.run ops).result = .error fault) : Ends fault := by
  induction ops generalizing b with
  | nil => cases h
  | cons op rest ih =>
    obtain ⟨hop, hrest⟩ := not_or.mp (List.mem_cons.not.mp ho)
    unfold Builder.run Outcome.andThen at h
    split at h
    · exact ih (hs.step op) hrest h
    · cases h
      exact hs.ends_step (fun e => absurd e.symm hop) ‹_›

end Builder

namespace Java

variable {b : Builder} {visits : List Visit} {fault : Fault}

theorem ends_visit (hs : b.Sound) {visit : Visit}
    (ha : ∀ p, visit = .exit p → p.form = .program → b.suppressed = false)
    (h : (b.run (opsFor b visit)).result = .error fault) : Builder.Ends fault := by
  cases visit with
  | enter p => exact hs.ends_run (endUnit_notMem_enterOps p _) h
  | exit p =>
    by_cases hp : p.form = .program
    · simp only [opsFor, Place.exitOps_of_program hp, Builder.run, Outcome.andThen] at h
      split at h
      · cases h
      · cases h
        exact hs.ends_step (fun _ => ha p rfl hp) ‹_›
    · exact hs.ends_run (endUnit_notMem_exitOps hp) h

theorem ends_follow (fault : Fault) (hs : b.Sound) (ha : UnitsAwake b.suppression visits)
    (h : (follow b visits).result = .error fault) : Builder.Ends fault := by
  induction visits generalizing b with
  | nil => cases h
  | cons visit rest ih =>
    unfold follow at h
    cases e : b.run (opsFor b visit) with
    | mk s result =>
      rw [e] at h
      cases result with
      | ok =>
        refine ih (hs.run e) ?_ h
        rw [Builder.suppression_run e, foldl_suppress_opsFor]
        exact ha.2
      | error =>
        cases h
        exact ends_visit hs ha.1 (congrArg Outcome.result e)

theorem oneSource_started (policy : CollisionPolicy) (store : Store) (path : String)
    (mode : Suppression.Mode) : (started policy store path mode).OneSource :=
  ⟨by simp [started, builder, Builder.start], nofun, rfl⟩

theorem errors_follow (visits : List Visit) (hs : b.Sound) (h : b.OneSource) :
    (follow b visits).state.catalog.journal.diagnostics.errors = [] :=
  (kept_follow (fun _ op hs h => Builder.OneSource.step h hs op) hs h visits).2.errors_eq

end Java

theorem Fault.diagnostic?_spec {path : String} {fault : Fault} {d : Diagnostic}
    (h : fault.diagnostic? path = some d) : d.severity = .error ∧ d.path = some path ∧
      d.kind ∈ [.malformedInput, .scopeUnderflow, .nameCollision] := by
  cases fault <;> cases h <;> simp

theorem Builder.Ends.diagnostic? {fault : Fault} (h : Builder.Ends fault) (path : String) :
    ∃ d, fault.diagnostic? path = some d := by
  rcases h with rfl | ⟨name, file, rfl⟩ <;> exact ⟨_, rfl⟩

theorem errors_record_error (ds : Diagnostics) {d : Diagnostic} (h : d.severity = .error) :
    (ds.record d).errors = ds.errors ++ [d] := by
  rw [Diagnostics.record, if_pos h]

theorem Java.errors_walk (policy : CollisionPolicy) (store : Store) (file : SourceFile)
    (mode : Suppression.Mode) (strict : Bool) :
    (walk (.empty policy store) file mode strict).state.journal.diagnostics.errors = [] := by
  rcases walk_cases policy store file mode strict with ⟨path, cause, line, hw⟩ | hw
  · rw [hw]
    rfl
  · have herrors := errors_follow file.root.walk (sound_started policy store file.path mode)
      (oneSource_started policy store file.path mode)
    rw [hw]
    generalize follow _ file.root.walk = done at herrors
    obtain ⟨s, result⟩ := done
    cases result <;> exact herrors

/-- A walk leaves no error in its catalog, and if it fails, its fault can be reported. -/
theorem Java.walk_contained (store : Store) (policy : CollisionPolicy) (file : SourceFile)
    (mode : Suppression.Mode) (strict : Bool) (h : file.root.UnitsOutside) :
    (walk (.empty policy store) file mode strict).state.journal.diagnostics.errors = [] ∧
      ∀ fault, (walk (.empty policy store) file mode strict).result = .error fault →
        ∃ d, fault.diagnostic? file.path = some d := by
  refine ⟨errors_walk policy store file mode strict, ?_⟩
  rcases walk_cases policy store file mode strict with ⟨path, cause, line, hw⟩ | hw
  · rw [hw]
    rintro _ ⟨⟩
    exact ⟨_, rfl⟩
  · have hends (fault : Fault) := ends_follow fault (sound_started policy store file.path mode)
      (Place.unitsAwake_walk h (s := { mode }) rfl)
    rw [hw]
    generalize follow _ file.root.walk = done at hends
    obtain ⟨s, result⟩ := done
    cases result with
    | ok => exact nofun
    | error fault =>
      rintro _ ⟨⟩
      exact (hends _ rfl).diagnostic? file.path

/-- A file always gives a report. The report is complete exactly if it has no errors, and else its
one error names the file and why its walk ended. -/
theorem buildFile_contained (store : Store) (file : SourceFile) (config : Config)
    (h : file.root.UnitsOutside) :
    ∃ report, buildFile .java store file config = .ok report ∧ report.path = file.path ∧
      (report.complete = true ↔ report.diagnostics.ok = true) ∧
      (report.complete = false → ∃ d, report.diagnostics.errors = [d] ∧
        d.kind ∈ [.malformedInput, .scopeUnderflow, .nameCollision] ∧ d.path = some file.path) := by
  obtain ⟨herrors, hfault⟩ := Java.walk_contained store config.nameCollisions file
    config.suppression config.failOnSyntaxErrors h
  unfold buildFile Language.walk
  dsimp only
  generalize Java.walk _ file config.suppression config.failOnSyntaxErrors = walked
    at herrors hfault
  obtain ⟨catalog, result⟩ := walked
  cases result with
  | ok =>
    refine ⟨_, rfl, rfl, ?_, nofun⟩
    simpa [FileReport.diagnostics, Diagnostics.ok] using herrors
  | error fault =>
    obtain ⟨d, hd⟩ := hfault fault rfl
    obtain ⟨hsev, hpath, hkind⟩ := Fault.diagnostic?_spec hd
    have hrecord : (catalog.journal.diagnostics.record d).errors = [d] := by
      rw [errors_record_error _ hsev, show catalog.journal.diagnostics.errors = [] from herrors]
      rfl
    simp only [hd]
    refine ⟨_, rfl, rfl, ?_, fun _ => ⟨d, hrecord, hkind, hpath⟩⟩
    simp [FileReport.diagnostics, Diagnostics.ok, Catalog.record, Journal.record, hrecord]

def straySource : SourceFile where
  path := "Stray.java"
  source := .text "@interface A {} @B"
  tree := .mk { type := "program" }
    [.mk { type := "annotation_type_declaration" }
      [.mk { type := "class_declaration" } [.mk { type := "program_body" } []]],
    .mk { type := "marker_annotation" } [.mk { type := "identifier", field := "name" } []]]

theorem buildFile_contained_stray :
    straySource.root.UnitsOutside ∧ ∃ report, buildFile .java {} straySource {} = .ok report ∧
      report.complete = false ∧ ∃ d, report.diagnostics.errors = [d] ∧
        d.kind ∈ [.malformedInput, .scopeUnderflow, .nameCollision] ∧
        d.path = some "Stray.java" := by
  have hunits : straySource.root.UnitsOutside := by decide +kernel
  obtain ⟨report, hreport, -, -, herror⟩ := buildFile_contained {} straySource {} hunits
  have hfailed : (buildFile .java {} straySource {}).toOption.map FileReport.complete =
      some false := by
    rw [buildFile, Language.walk, Java.walk_eq_walkTree]
    decide +kernel
  have hcomplete : report.complete = false := by
    rw [hreport] at hfailed
    exact Option.some.inj hfailed
  exact ⟨hunits, report, hreport, hcomplete, herror hcomplete⟩

end CodeAtlas
