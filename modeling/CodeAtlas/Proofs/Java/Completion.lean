import CodeAtlas.Proofs.Builder.Endings
import CodeAtlas.Proofs.Java.Sharing

/-! # Units with a package come to an end

In a unit whose package comes first the package stays open until the end of the unit, so there is
always something for the walk to add to or to close. A walk that gets to its end has closed all that
it has opened, the package last.
-/

namespace CodeAtlas

theorem Place.not_closes_enterOps (p : Place) (e : Option Kind) :
    ∀ op ∈ p.enterOps e, ¬ op.Closes := by
  have he := p.entry_enterOps e
  generalize p.enterOps e = ops at he
  have hno {ops : List Op} (h : ∀ op ∈ ops, op.Enriches) : ∀ op ∈ ops, ¬ op.Closes := by
    intro op hm hc
    have hop := h op hm
    cases op <;> trivial
  cases he with
  | opens _ _ h => exact List.forall_mem_cons.mpr ⟨id, hno h⟩
  | declares _ _ h => exact List.forall_mem_cons.mpr ⟨id, hno h⟩
  | package | suppresses | imports => simp [Op.Closes]
  | enriches _ _ _ _ _ h => exact hno h

namespace Java

open Builder Place

variable {b b' : Builder} {p root : Place} {policy : CollisionPolicy} {store : Store}

structure Busy (b : Builder) : Prop extends Ready 0 b where
  frames_ne_nil : b.scope.frames ≠ []

theorem Busy.within (h : Busy b) (name : String) : Within 0 b (.nameDeclarator name) := by
  obtain ⟨top, below, hf⟩ := List.exists_cons_of_ne_nil h.frames_ne_nil
  exact .inr ⟨top, by rw [Scope.top?, hf]; rfl, Nat.zero_le _⟩

theorem Busy.follow (h : Busy b) (hp : Enclosed p) (hf : follow b p.walk = .ok b' ()) :
    Busy b' := by
  obtain ⟨more, hm, -⟩ := moves_walk (R := fun _ => True) h.toReady (fun _ _ _ _ _ => trivial) hp
    (fun _ => h.within "") hf
  refine ⟨h.toReady.after hf hm, ?_⟩
  rw [hm.frames_eq]
  exact List.append_ne_nil_of_right_ne_nil more h.frames_ne_nil

theorem Ready.visit {visit : Visit} (h : Ready 0 b)
    (hrun : b.run (opsFor b visit) = .ok b' ()) : Ready 0 b' where
  reached := reached_run h.reached hrun
  mode_eq := by
    rw [suppression_run hrun, foldl_suppress_opsFor, ← h.mode_eq]
    exact mode_foldl_suppress [visit] b.suppression
  le_pushed := Nat.zero_le _

theorem Busy.enter (h : Busy b) (p : Place) : (b.run (opsFor b (.enter p))).Safe Busy := by
  have hsafe := safe_run h.frames_ne_nil (p.not_closes_enterOps b.currentKind?)
  exact ⟨hsafe.avoids, fun b₁ _ h₁ => ⟨h.toReady.visit h₁, hsafe.reaches b₁ () h₁⟩⟩

theorem Busy.exit (h : Busy b) (p : Place) : (b.run p.exitOps).Safe fun _ => True := by
  have hone := safe_run_singleton h.frames_ne_nil
  unfold exitOps
  split
  · exact hone .close
  · split
    · exact hone .endUnit
    · exact hone .exitSuppressed
    · exact Outcome.safe_ok trivial

theorem safe_siblings {ps : List Place} (h : Busy b)
    (ih : ∀ c ∈ ps, ∀ {b}, Busy b → (follow b c.walk).Safe Busy) :
    (follow b (ps.flatMap Place.walk)).Safe Busy := by
  induction ps generalizing b with
  | nil => exact Outcome.safe_ok h
  | cons c rest ihs =>
    obtain ⟨ihc, ihrest⟩ := List.forall_mem_cons.mp ih
    rw [List.flatMap_cons, follow_append]
    exact (ihc h).andThen fun b₁ h₁ => ihs h₁ ihrest

/-- A walk in its place that starts with something open does not underflow. -/
theorem safe_walk (h : Busy b) (hp : Enclosed p) : (follow b p.walk).Safe Busy := by
  induction p using Place.induction generalizing b with
  | h p ih =>
    refine ⟨?_, fun b' _ hf => h.follow hp hf⟩
    have hsafe := (h.enter p).andThen fun b₁ h₁ =>
      (safe_siblings h₁ fun c hc {_} hb => ih c hc hb (hp.child hc)).andThen
        fun b₂ h₂ => h₂.exit p
    rw [follow_walk_eq]
    exact hsafe.avoids

theorem safe_enter_package (hready : Ready 0 b) (hframes : b.scope.frames = [])
    (hp : p.form = .packageDeclaration) : (b.run (opsFor b (.enter p))).Safe Busy := by
  obtain ⟨prov, hops⟩ := enterOps_of_package hp b.currentKind?
  obtain ⟨reply, hbegin⟩ := step_beginPackage hframes p.dottedName prov
  have hrun : b.run (opsFor b (.enter p)) = .ok (b.packaged p.dottedName prov) () := by
    rw [opsFor, hops, run, hbegin]
    rfl
  rw [hrun]
  refine Outcome.safe_ok ⟨hready.visit hrun, ?_⟩
  rw [frames_packaged hframes]
  exact List.cons_ne_nil _ _

theorem follow_of_asks_nothing {ps : List Place} (h : ∀ c ∈ ps, c.Asks fun _ => False)
    (b : Builder) : follow b (ps.flatMap Place.walk) = .ok b () := by
  have hvisits : ∀ visit ∈ ps.flatMap Place.walk, opsFor b visit = [] := by
    intro visit hv
    obtain ⟨c, hc, hv⟩ := List.mem_flatMap.mp hv
    exact List.eq_nil_iff_forall_not_mem.mpr (h c hc visit hv b)
  generalize ps.flatMap Place.walk = visits at hvisits
  induction visits with
  | nil => rfl
  | cons visit rest ih =>
    obtain ⟨hv, hrest⟩ := List.forall_mem_cons.mp hvisits
    rw [follow, hv]
    exact ih hrest

theorem safe_unit (hroot : root.LeadsWithPackage)
    (hcomments : ∀ c ∈ root.namedChildren.takeWhile (·.form == .comment), c.node.children.isEmpty)
    (hready : Ready 0 b) (hframes : b.scope.frames = []) :
    (follow b root.walk).Safe fun _ => True := by
  obtain ⟨before, package, after, hsplit, hleading, hpackage, -, hinside, hafter⟩ := hroot.split
  have hnothing := asks_of_leading_comments hcomments hsplit hleading
  have hin : (follow b package.walk).Safe Busy := by
    rw [follow_walk_eq, exitOps_of_package hpackage]
    refine (safe_enter_package hready hframes hpackage).andThen fun b₁ h₁ => ?_
    refine (safe_siblings h₁ fun c hc {_} h => safe_walk h (hinside c hc)).andThen fun b₂ h₂ => ?_
    exact Outcome.safe_ok h₂
  rw [follow_walk_eq, opsFor, enterOps_of_program hroot.program, run, Outcome.andThen_ok, hsplit,
    List.flatMap_append, List.flatMap_cons, follow_append, follow_of_asks_nothing hnothing,
    Outcome.andThen_ok, follow_append]
  refine (hin.andThen fun b₁ h₁ => ?_).andThen fun b₂ (h₂ : Busy b₂) => h₂.exit root
  exact safe_siblings h₁ fun c hc {_} h => safe_walk h (hafter c hc)

theorem hasKind_follow {visits : List Visit} {id : ComponentId} {kind : Kind} (hs : Sound b)
    (h : HasKind id kind b) (hf : follow b visits = .ok b' ()) : HasKind id kind b' := by
  have hkept := (kept_follow (fun _ op hs h => HasKind.step h hs op) hs h visits).2
  rwa [hf] at hkept

section Packaged

variable (policy : CollisionPolicy) (store : Store) (path name : String) (prov : Provenance)

theorem sound_inPackage : ((started policy store path .depth).inPackage name).Sound :=
  (sound_started policy store path .depth).vacate (emptied_inPackage rfl name).toVacated

theorem inside_packaged :
    Inside (store.add ((started policy store path .depth).package name prov)).2
      ((started policy store path .depth).package name prov).label
      ((started policy store path .depth).packaged name prov).scope.pushed
      ((started policy store path .depth).packaged name prov) :=
  inside_package (sound_inPackage policy store path name)
    ((lone_started policy store path .depth).vacate (emptied_inPackage rfl name).toVacated) rfl
    (get?_started policy store path .depth) (blank_package _ name prov)

theorem settled_packaged :
    Settled store ((started policy store path .depth).packaged name prov) := by
  have hstart : Settled store ((started policy store path .depth).inPackage name) :=
    fun _ hi => .inl hi
  exact hstart.adding ((sound_inPackage policy store path name).fits_inner _)

theorem hasKind_packaged :
    HasKind (store.add ((started policy store path .depth).package name prov)).2 .package
      ((started policy store path .depth).packaged name prov) := by
  have hin := inside_packaged policy store path name prov
  refine ⟨hin.outermost.has hin.sound, ?_⟩
  exact congrArg Component.kind (Store.get_add_new _ _)

end Packaged

/-- What a walk to the end of a unit that its package leads leaves: nothing is open, all components
that are not of the store are final, and the package has the last key. It is called by its dotted
name, or anonymous if that is empty. -/
structure Completed (store : Store) (root : Place) (scope : Scope) (catalog : Catalog) : Prop where
  frames_eq : scope.frames = []
  final : ∀ id, catalog.store.Has id → ¬ store.Has id → (catalog.store.get id).isFinal = true
  last : ∃ package ∈ root.namedChildren, package.form = .packageDeclaration ∧
    ∃ rest id, catalog.table.entries =
      rest ++ [(if package.dottedName = "" then anonymousName else package.dottedName, id)] ∧
      ¬ store.Has id ∧ (catalog.store.get id).kind = .package ∧
      ∀ entry ∈ rest, (catalog.store.get entry.2).kind ≠ .package

theorem completed_follow {path : String} (hroot : root.LeadsWithPackage)
    (hcomments : ∀ c ∈ root.namedChildren.takeWhile (·.form == .comment), c.node.children.isEmpty)
    (hf : follow (started policy store path .depth) root.walk = .ok b ()) :
    Completed store root b.scope b.catalog := by
  obtain ⟨before, package, after, hsplit, hleading, hpackage, hbefore, hinside, hafter⟩ :=
    hroot.split
  obtain ⟨prov, _, _, b₁, b₃, hw⟩ := packageWalk hroot.program hsplit hpackage
    (R := fun _ => True)
    (fun c hm => ⟨hbefore c hm, asks_of_leading_comments hcomments hsplit hleading c hm⟩)
    (fun c hm => ⟨hinside c hm, fun _ _ _ _ _ => trivial⟩)
    (fun c hm => ⟨hafter c hm, fun _ _ _ _ _ => trivial⟩)
    (ready_started policy store path) rfl rfl hf
  obtain ⟨-, rfl⟩ := eq_of_inner_nothing hw.leading
  have hin := inside_packaged policy store path package.dottedName prov
  have hin₃ := hw.inside.inside hin
  have hframes := hw.frames_inside.trans (frames_packaged hw.frames_before _ _)
  -- All that is new is open or final, and in the end nothing is open.
  have hsettled : Settled store b := by
    have hopened := settled_packaged policy store path package.dottedName prov
    have hclosed := (hw.inside.settled hin.sound hopened).closeTop hin₃.sound
      (by rw [hframes]; exact List.cons_ne_nil _ _)
    rwa [hw.close] at hclosed
  have hempty : b.scope.frames = [] := by
    have hclosed := b₃.frames_closeTop
    rw [hw.close, hframes] at hclosed
    exact congrArg Scope.frames hclosed
  obtain ⟨-, hattached, hfree, htable⟩ := hin₃.close_package hframes hw.close
  have hentries := Table.entries_put hfree ▸ congrArg Table.entries htable
  have hkind := hasKind_follow hin.sound
    (hasKind_packaged policy store path package.dottedName prov) hw.follow_inside
  have hfresh := fresh_follow (fresh_started .depth) (sound_started policy store path .depth) hf
  refine ⟨hempty, fun id hi hn => ?_, package, by simp [hsplit], hpackage, _, _, hentries, ?_, ?_,
    ?_⟩
  · rcases hsettled id hi with hs | ⟨f, hm, -⟩ | hfinal
    · exact absurd hs hn
    · simp [hempty] at hm
    · exact hfinal
  · apply hfresh.named
    rw [Catalog.get?, htable, Table.get?_put, if_pos rfl]
  · exact (hattached.kind_eq _).trans hkind.2
  · rintro ⟨n, id⟩ hm hk
    have hget := Table.mem_entries_iff.mp hm
    have hid := Option.some.inj (hin₃.lone.named n id hget ((hattached.kind_eq id).symm.trans hk))
    exact hin₃.sound.ne_open hget (by rw [hframes]; exact List.mem_cons_self) hid.symm

/-- The walk of a file that its package leads does not underflow, whatever is in the catalog it goes
into. If it gets to its end in a catalog of its own, it has closed all that it has opened, and the
package last. -/
theorem walk_ends_with_package (file : SourceFile) (strict : Bool)
    (hroot : file.root.LeadsWithPackage)
    (hcomments : ∀ c ∈ file.root.namedChildren.takeWhile (·.form == .comment),
      c.node.children.isEmpty) :
    (∀ catalog, (walk catalog file .depth strict).result ≠ .error .scopeUnderflow) ∧
    ∀ policy store model, walk (.empty policy store) file .depth strict = .ok model () →
      ∃ b, follow (started policy store file.path .depth) file.root.walk = .ok b () ∧
        model = b.catalog.note (.walkFinished file.path b.catalog.size) ∧
        Completed store file.root b.scope model := by
  constructor
  · intro catalog
    rcases parse_cases file strict with ⟨path, cause, line, hp⟩ | hp
    · simp [walk, hp, Outcome.fail]
    · have hready : Ready 0 (startedIn catalog file.path .depth) := ⟨.new, rfl, Nat.zero_le _⟩
      have hunit := safe_unit hroot hcomments hready rfl
      have hwalk : (walk catalog file .depth strict).Safe fun _ => True := by
        rw [walk_of_parse hp]
        refine (hunit.mapState (R := fun _ => True) fun _ => id).andThen fun _ _ => ?_
        exact Outcome.safe_ok trivial
      exact hwalk.avoids
  · intro policy store model hw
    obtain ⟨b, hf, rfl⟩ := follow_of_walk hw
    obtain ⟨hframes, hfinal, hlast⟩ := completed_follow hroot hcomments hf
    exact ⟨b, hf, rfl, hframes, hfinal, hlast⟩

/-- A package `p` with a class `A` that has a field of two declarators and a method, and with an
annotation type that has a class. -/
def nested : SourceFile :=
  .program "A.java" "package p; class A x y f"
    [.mk { type := "comment" } [], .package 8,
      .declaration "class_declaration" 17
        [.mk { type := "field_declaration" }
          [.declaration "variable_declarator" 19 [], .declaration "variable_declarator" 21 []],
        .declaration "method_declaration" 23 []],
      .declaration "annotation_type_declaration" 17 [.declaration "class_declaration" 17 []]]

theorem walk_ends_with_package_nested :
    (∀ catalog, (walk catalog nested .depth true).result ≠ .error .scopeUnderflow) ∧
    ∃ model b, walk (.empty .error {}) nested .depth true = .ok model () ∧
      follow (started .error {} nested.path .depth) nested.root.walk = .ok b () ∧
      Completed {} nested.root b.scope model ∧
      model.table.keys = ["p.A.y", "p.A.x", "p.A.f", "p.A", "p"] := by
  obtain ⟨havoids, hends⟩ := walk_ends_with_package nested true (by decide +kernel)
    (by decide +kernel)
  have hok : (walk (.empty .error {}) nested .depth true).result.isOk = true := by
    rw [walk_eq_walkTree]
    decide +kernel
  have hkeys : (walk (.empty .error {}) nested .depth true).state.table.keys =
      ["p.A.y", "p.A.x", "p.A.f", "p.A", "p"] := by
    rw [walk_eq_walkTree]
    decide +kernel
  have hwalk := Outcome.eq_ok_of_isOk hok
  obtain ⟨b, hf, -, hcompleted⟩ := hends .error {} _ hwalk
  exact ⟨havoids, _, b, hwalk, hf, hcompleted, hkeys⟩

end Java

end CodeAtlas
