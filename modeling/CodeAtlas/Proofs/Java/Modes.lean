import CodeAtlas.Proofs.Java.Muted

/-! # Flag mode and depth mode

What a builder does depends on its suppression only through whether that is active. A walk in flag
mode and one in depth mode are in step as long as both are suppressed at the same visits, which they
are if no annotation type stands below another one.
-/

namespace CodeAtlas

theorem Outcome.mapState_andThen {σ τ α β : Type} (o : Outcome σ α) {f : σ → τ}
    {next : σ → Outcome σ β} {next' : τ → Outcome τ β}
    (h : ∀ s, next' (f s) = (next s).mapState f) :
    (o.mapState f).andThen next' = (o.andThen next).mapState f := by
  obtain ⟨s, result⟩ := o
  cases result with
  | ok => exact h s
  | error => rfl

def Op.Steady (op : Op) : Prop := ∀ s, op.suppress s = s

namespace Builder

variable {b : Builder} {s : Suppression} {ops : List Op}

def suppressing (b : Builder) (s : Suppression) : Builder := { b with suppression := s }

theorem attach_suppressing (b : Builder) (s : Suppression) (id : ComponentId) (name : String) :
    (b.suppressing s).attach id name =
      ((b.attach id name).1.suppressing s, (b.attach id name).2) := by
  have hfind : (b.suppressing s).scope.find? (b.suppressing s).store = b.scope.find? b.store := rfl
  unfold attach
  dsimp only
  rw [hfind]
  split
  · rfl
  · split <;> rfl

theorem closeTop_suppressing (b : Builder) (s : Suppression) :
    (b.suppressing s).closeTop = b.closeTop.mapState (·.suppressing s) := by
  obtain ⟨catalog, path, ⟨frames, pushed⟩, resolver, suppression⟩ := b
  cases frames with
  | nil => rfl
  | cons frame below =>
    have hattach (store : Store) := attach_suppressing
      ⟨{ catalog with store }, path, ⟨below, pushed⟩, resolver, suppression⟩ s frame.component
    cases hq : (catalog.store.get frame.component).qualifiedName with
    | some current =>
      simp only [closeTop, suppressing, store, hq]
      rfl
    | none =>
      simp only [closeTop, suppressing, store, withStore, hq] at hattach ⊢
      rw [hattach]
      dsimp only
      generalize attach _ _ _ = attached
      obtain ⟨attached, parent⟩ := attached
      cases h : (attached.catalog.insert frame.component parent).result <;> simp only <;> rfl

theorem closeMany_suppressing (n : Nat) (b : Builder) (s : Suppression) :
    closeMany n (b.suppressing s) = (closeMany n b).mapState (·.suppressing s) := by
  induction n generalizing b with
  | zero => rfl
  | succ n ih =>
    rw [closeMany, closeMany, closeTop_suppressing]
    exact Outcome.mapState_andThen _ ih

theorem abandonOpen_suppressing (b : Builder) (s : Suppression) (name : String) (line : Int) :
    (b.suppressing s).abandonOpen name line = (b.abandonOpen name line).suppressing s := by
  obtain ⟨catalog, path, ⟨frames, pushed⟩, resolver, suppression⟩ := b
  cases frames <;> rfl

theorem nameDeclarator_suppressing (b : Builder) (s : Suppression) (top : Frame) (name : String) :
    (b.suppressing s).nameDeclarator top name = (b.nameDeclarator top name).suppressing s := by
  have hstore : (b.suppressing s).store = b.store := rfl
  unfold nameDeclarator
  rw [hstore]
  dsimp only
  split <;> rfl

/-- Builders of which both or neither are suppressed do the same. -/
theorem step_suppressing (h : s.active = b.suppressed) (op : Op) :
    (b.suppressing s).step op = (b.step op).mapState (·.suppressing (op.suppress s)) := by
  have hsup : (b.suppressing s).suppressed = b.suppressed := h
  have hscope : (b.suppressing s).scope = b.scope := rfl
  have hdone (n : Nat) : (closeMany n (b.suppressing s)).andThen (.ok · Reply.done) =
      ((closeMany n b).andThen (.ok · Reply.done)).mapState (·.suppressing s) := by
    rw [closeMany_suppressing]
    exact Outcome.mapState_andThen _ fun _ => rfl
  cases op with
  | addImport | enterSuppressed | exitSuppressed => rfl
  | beginPackage name prov =>
    rw [step, step, beginPackage, beginPackage, abandonOpen_suppressing]
    rfl
  | openComponent =>
    rw [step, step, hsup]
    split <;> rfl
  | nameDeclarator name =>
    rw [step, step, hsup, hscope]
    split
    · rfl
    · split
      · rfl
      · rw [nameDeclarator_suppressing]
        rfl
  | close =>
    rw [step, step, hsup, close, close, hscope]
    split
    · rfl
    · split
      · rfl
      · exact hdone _
  | endUnit =>
    rw [step, step, endUnit, endUnit, hsup, hscope]
    split
    · rfl
    · exact hdone _
  | enrich what =>
    rw [step, step, hsup, hscope]
    split
    · rfl
    · split <;> rfl
  | current =>
    rw [step, step, hscope]
    split <;> rfl
  | resolve token =>
    rw [step, step, hsup]
    rfl

theorem run_suppressing (h : s.active = b.suppressed) (hops : ∀ op ∈ ops, op.Steady) :
    (b.suppressing s).run ops = (b.run ops).mapState (·.suppressing s) := by
  induction ops generalizing b with
  | nil => rfl
  | cons op rest ih =>
    obtain ⟨hop, hrest⟩ := List.forall_mem_cons.mp hops
    have hkept := (b.suppression_step op).trans (hop b.suppression)
    rw [run, run, step_suppressing h, hop s]
    generalize b.step op = o at hkept
    obtain ⟨b', result⟩ := o
    cases result with
    | ok => exact ih (h.trans (congrArg Suppression.active hkept).symm) hrest
    | error => rfl

end Builder

namespace Place

variable {p : Place} {ops : List Op}

theorem Entry.steady (h : Entry p ops) (ha : p.form ≠ .annotationTypeDeclaration) :
    ∀ op ∈ ops, op.Steady := by
  have hrest {ops : List Op} (h : ∀ op ∈ ops, op.Enriches) : ∀ op ∈ ops, op.Steady := by
    intro op hm s
    cases op with
    | enterSuppressed | exitSuppressed => cases h _ hm
    | _ => rfl
  cases h with
  | opens _ _ h | declares _ _ h => exact List.forall_mem_cons.mpr ⟨fun _ => rfl, hrest h⟩
  | package | imports => exact List.forall_mem_singleton.mpr fun _ => rfl
  | suppresses _ hf => exact absurd hf ha
  | enriches _ _ _ _ _ h => exact hrest h

theorem steady_exitOps (ha : p.form ≠ .annotationTypeDeclaration) :
    ∀ op ∈ p.exitOps, op.Steady := by
  by_cases ho : (p.opens? none).isSome
  · rw [exitOps_of_opens ho]
    exact List.forall_mem_singleton.mpr fun _ => rfl
  · by_cases hp : p.form = .program
    · rw [exitOps_of_program hp]
      exact List.forall_mem_singleton.mpr fun _ => rfl
    · simp [exitOps_of_plain (by simpa using ho) hp ha]

end Place

theorem Suppression.active_eq {s t : Suppression} (hs : s.depth = 0) (ht : t.depth = 0) :
    s.active = t.active := by
  simp [active, hs, ht]

/-- Suppression is active in both cases or in none whenever a visit is made. -/
def Concur : Suppression → Suppression → List Visit → Prop
  | _, _, [] => True
  | s, t, visit :: rest => s.active = t.active ∧ Concur (visit.suppress s) (visit.suppress t) rest

theorem concur_refl (s : Suppression) (visits : List Visit) : Concur s s visits := by
  induction visits generalizing s with
  | nil => trivial
  | cons visit rest ih => exact ⟨rfl, ih _⟩

theorem concur_append {s t : Suppression} {first second : List Visit} :
    Concur s t (first ++ second) ↔
      Concur s t first ∧
        Concur (first.foldl Visit.suppress s) (first.foldl Visit.suppress t) second := by
  induction first generalizing s t with
  | nil => simp [Concur]
  | cons visit rest ih => simp only [List.cons_append, Concur, ih, List.foldl_cons, and_assoc]

namespace Java

open Builder

variable {b : Builder} {s : Suppression} {visits : List Visit}

theorem opsFor_suppressing (b : Builder) (s : Suppression) (visit : Visit) :
    opsFor (b.suppressing s) visit = opsFor b visit :=
  rfl

theorem run_visit_suppressing (h : s.active = b.suppressed) (visit : Visit) :
    (b.suppressing s).run (opsFor b visit) =
      (b.run (opsFor b visit)).mapState (·.suppressing (visit.suppress s)) := by
  cases visit with
  | enter p =>
    rw [opsFor, Visit.suppress]
    by_cases ha : p.form = .annotationTypeDeclaration
    · rw [if_pos ha, Place.enterOps_of_suppresses ha]
      rfl
    · rw [if_neg ha]
      exact run_suppressing h ((p.entry_enterOps _).steady ha)
  | exit p =>
    rw [opsFor, Visit.suppress]
    by_cases ha : p.form = .annotationTypeDeclaration
    · rw [if_pos ha, Place.exitOps_of_suppresses ha]
      rfl
    · rw [if_neg ha]
      exact run_suppressing h (Place.steady_exitOps ha)

theorem exists_follow_suppressing (h : Concur s b.suppression visits) :
    ∃ t, follow (b.suppressing s) visits = (follow b visits).mapState (·.suppressing t) := by
  induction visits generalizing b s with
  | nil => exact ⟨s, rfl⟩
  | cons visit rest ih =>
    obtain ⟨hactive, hrest⟩ := h
    rw [follow, follow, opsFor_suppressing, run_visit_suppressing hactive]
    cases hrun : b.run (opsFor b visit) with
    | mk b' result =>
      cases result with
      | ok =>
        apply ih
        rw [suppression_run hrun, foldl_suppress_opsFor]
        exact hrest
      | error => exact ⟨visit.suppress s, rfl⟩

/-- Walks that are suppressed at the same visits leave the same catalog, or stop with the same
fault. -/
theorem follow_suppressing (h : Concur s b.suppression visits) :
    (follow (b.suppressing s) visits).mapState Builder.catalog =
      (follow b visits).mapState Builder.catalog := by
  obtain ⟨t, ht⟩ := exists_follow_suppressing h
  rw [ht]
  rfl

end Java

namespace Place

variable {p : Place} {s t : Suppression}

def AnnotationTypesApart (root : Place) : Prop :=
  ∀ a ∈ root.preorder, a.form = .annotationTypeDeclaration →
    ∀ c ∈ a.children, ∀ q ∈ c.preorder, q.form ≠ .annotationTypeDeclaration

instance (root : Place) : Decidable root.AnnotationTypesApart :=
  inferInstanceAs (Decidable (∀ a ∈ root.preorder, a.form = .annotationTypeDeclaration →
    ∀ c ∈ a.children, ∀ q ∈ c.preorder, q.form ≠ .annotationTypeDeclaration))

theorem AnnotationTypesApart.child (h : p.AnnotationTypesApart) {c : Place}
    (hc : c ∈ p.namedChildren) : c.AnnotationTypesApart := by
  intro a ha
  apply h a
  rw [preorder_eq]
  exact List.mem_cons_of_mem _ (List.mem_flatMap.mpr ⟨c, List.mem_of_mem_filter hc, ha⟩)

theorem concur_of_lacks {visits : List Visit}
    (h : ∀ visit ∈ visits, visit.place.form ≠ .annotationTypeDeclaration)
    (hactive : s.active = t.active) : Concur s t visits ∧
      visits.foldl Visit.suppress s = s ∧ visits.foldl Visit.suppress t = t := by
  induction visits with
  | nil => exact ⟨trivial, rfl, rfl⟩
  | cons visit rest ih =>
    obtain ⟨hvisit, hrest⟩ := List.forall_mem_cons.mp h
    have hsame (s : Suppression) : visit.suppress s = s := by
      cases visit <;> exact if_neg hvisit
    obtain ⟨h₁, h₂, h₃⟩ := ih hrest
    rw [Concur, List.foldl_cons, List.foldl_cons, hsame, hsame]
    exact ⟨⟨hactive, h₁⟩, h₂, h₃⟩

theorem concur_annotationType (hp : p.form = .annotationTypeDeclaration)
    (h : p.AnnotationTypesApart) (hs : s.depth = 0) (ht : t.depth = 0) : Concur s t p.walk := by
  have hlacks : ∀ visit ∈ p.namedChildren.flatMap walk,
      visit.place.form ≠ .annotationTypeDeclaration := by
    intro visit hv
    obtain ⟨c, hc, hv⟩ := List.mem_flatMap.mp hv
    exact h p p.mem_preorder_self hp c (List.mem_of_mem_filter hc) _ (mem_preorder_of_mem_walk hv)
  -- Both are active from the entry to the exit, since nothing in between changes them.
  have hactive : s.enter.active = t.enter.active := by
    rw [Suppression.active_enter, Suppression.active_enter]
  obtain ⟨h₁, h₂, h₃⟩ := concur_of_lacks hlacks hactive
  rw [walk_eq]
  simp only [Concur, concur_append, Visit.suppress, hp, if_true, h₂, h₃]
  exact ⟨Suppression.active_eq hs ht, h₁, hactive, trivial⟩

/-- Walks that start outside suppression concur, whatever their modes are. -/
theorem concur_walk (h : p.AnnotationTypesApart) (hs : s.depth = 0) (ht : t.depth = 0) :
    Concur s t p.walk := by
  induction p using induction generalizing s t with
  | h p ih =>
    by_cases hp : p.form = .annotationTypeDeclaration
    · exact concur_annotationType hp h hs ht
    · have hchildren (ps : List Place) (hps : ∀ c ∈ ps, c ∈ p.namedChildren) {s t : Suppression}
          (hs : s.depth = 0) (ht : t.depth = 0) : Concur s t (ps.flatMap walk) := by
        induction ps generalizing s t with
        | nil => trivial
        | cons c rest ihs =>
          obtain ⟨hc, hrest⟩ := List.forall_mem_cons.mp hps
          rw [List.flatMap_cons, concur_append]
          exact ⟨ih c hc (h.child hc) hs ht,
            ihs hrest (c.depth_foldl_walk s hs) (c.depth_foldl_walk t ht)⟩
      have hend {s : Suppression} (hs : s.depth = 0) :=
        depth_foldl_siblings p.namedChildren (fun c _ => c.depth_foldl_walk) hs
      rw [walk_eq]
      simp only [Concur, concur_append, Visit.suppress, hp, if_false, and_true]
      exact ⟨Suppression.active_eq hs ht, hchildren p.namedChildren (fun _ => id) hs ht,
        Suppression.active_eq (hend hs) (hend ht)⟩

end Place

namespace Java

/-- If no annotation type of a file stands below another one, its walk in flag mode and its walk in
depth mode end in the same way, with the same catalog. -/
theorem walk_flag_eq_walk_depth (catalog : Catalog) (file : SourceFile) (strict : Bool)
    (h : file.root.AnnotationTypesApart) :
    walk catalog file .flag strict = walk catalog file .depth strict := by
  rcases parse_cases file strict with ⟨path, cause, line, hp⟩ | hp
  · simp only [walk, hp]
  · have hstep := Place.concur_walk h (s := { mode := .flag }) (t := { mode := .depth }) rfl rfl
    rw [walk_of_parse hp, walk_of_parse hp]
    exact congrArg (Outcome.andThen · _)
      (follow_suppressing (b := startedIn catalog file.path .depth) hstep)

/-- A class `C` in a package `p`, with annotation types before it. The class is also in the first of
them, below what is given. -/
def afterAnnotationTypes (inner : List Node) : SourceFile :=
  .program "C.java" "package p; class C {}"
    [.package 8, annotationType (inner ++ [type]), annotationType [], type]
where
  type : Node := .declaration "class_declaration" 17 []
  annotationType (members : List Node) : Node :=
    .mk { type := "annotation_type_declaration" } members

theorem walk_flag_eq_walk_depth_beside :
    let file := afterAnnotationTypes []
    let catalog := Catalog.empty .error {}
    file.root.AnnotationTypesApart ∧
      walk catalog file .flag true = walk catalog file .depth true ∧
      (walk catalog file .flag true).result.isOk = true ∧
      (walk catalog file .flag true).state.table.keys = ["p.C", "p"] := by
  intro file catalog
  have hapart : file.root.AnnotationTypesApart := by decide +kernel
  refine ⟨hapart, walk_flag_eq_walk_depth catalog file true hapart, ?_⟩
  rw [walk_eq_walkTree]
  decide +kernel

-- An annotation type inside of another one ends suppression early in flag mode, so that the class
-- is met twice.
example :
    let file := afterAnnotationTypes [afterAnnotationTypes.annotationType []]
    let collisions (mode : Suppression.Mode) :=
      (walkTree (.empty .lastWriteWins {}) file mode true).state.journal.diagnostics.warnings.length
    collisions .flag = 1 ∧ collisions .depth = 0 := by
  decide +kernel

end Java

end CodeAtlas
