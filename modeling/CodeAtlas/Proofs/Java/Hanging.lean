import CodeAtlas.Proofs.Builder.Owners
import CodeAtlas.Proofs.Catalog.Hanging
import CodeAtlas.Proofs.Java.Units

/-! # How the components of a unit hang together

In a unit with one leading package, each component that has a parent's name is listed exactly once
by all components that the walk has made. The component that lists it need not be the one that the
catalog has under the parent's name, since it may have been replaced or renamed. The catalog hangs
together exactly if that has not happened.
-/

namespace CodeAtlas

namespace Builder

variable {b b' e : Builder} {c : Component}

theorem Hung.exclusive (h : Hung b) (hs : Sound b) : b.catalog.Exclusive :=
  ⟨fun name id hi => (hs.named name id hi).2, h.attached, h.nodup, h.unique, h.held⟩

theorem Tree.emptied (h : Tree none 0 b) (he : Emptied b e) : Tree none 0 e := by
  have hstore : e.store = b.store := he.store_eq
  have hget (n : String) : e.catalog.get? n = b.catalog.get? n := by
    rw [Catalog.get?, he.table_eq, Catalog.get?]
  refine ⟨h.sound.vacate he.toVacated, h.hung.of_eq hget ?_ ?_ ?_, h.lone.vacate he.toVacated⟩
  all_goals exact fun id => by rw [hstore]

theorem Tree.package (h : Tree none 0 b) (hf : b.scope.frames = []) (hc : c.Blank) :
    Tree (some (b.store.add c).2) (b.adding (b.innerFrame c) c).scope.pushed
      (b.adding (b.innerFrame c) c) :=
  ⟨h.sound.adding hc (h.sound.fits_inner c), h.hung.adding h.sound hc, h.lone.package h.sound hf⟩

end Builder

namespace Java

open Builder

variable {file : SourceFile} {policy : CollisionPolicy} {strict : Bool} {catalog : Catalog}

theorem tree_started (policy : CollisionPolicy) (path : String) (mode : Suppression.Mode) :
    Tree none 0 (started policy {} path mode) := by
  have hchildren (id : ComponentId) :
      ((started policy {} path mode).store.get id).children = [] := by
    rw [Store.get_of_not_has (by simp [Store.Has, started, builder, start, store, Catalog.note,
      Catalog.empty])]
    rfl
  refine ⟨sound_started policy {} path mode, ⟨?_, ?_, ?_, ?_, ?_⟩,
    lone_started policy {} path mode⟩
  · intro owner child hm
    rw [hchildren] at hm
    cases hm
  · intro owner child hm
    rw [hchildren] at hm
    cases hm
  · intro owner
    rw [hchildren]
    exact List.nodup_nil
  · intro owner owner' child hm
    rw [hchildren] at hm
    cases hm
  · intro n child p hi
    rw [get?_started] at hi
    cases hi

/-- What the walk of a unit with one package leaves is exclusive. -/
theorem exclusive_follow (h : file.root.LeadsWithPackage) {b : Builder}
    (hf : follow (started policy {} file.path .depth) file.root.walk = .ok b ()) :
    b.catalog.Exclusive := by
  obtain ⟨before, package, after, hsplit, -, hpackage, hbefore, hinside, hafter⟩ := h.split
  have hasks (c : Place) : c.Asks fun _ => True := fun _ _ _ _ _ => trivial
  obtain ⟨prov, _, _, b₁, b₃, hw⟩ := packageWalk h.program hsplit hpackage
    (fun c hc => ⟨hbefore c hc, hasks c⟩) (fun c hc => ⟨hinside c hc, hasks c⟩)
    (fun c hc => ⟨hafter c hc, hasks c⟩) (ready_started policy {} file.path) rfl rfl hf
  have ht₁ : Tree none 0 b₁ :=
    hw.leading.keeps (fun _ _ _ _ _ hw hstep h => h.step hw hstep)
      (tree_started policy file.path .depth)
  have he := emptied_inPackage hw.frames_before package.dottedName
  have ht₂ := (ht₁.emptied he).package he.frames_eq (b₁.blank_package package.dottedName prov)
  have ht₃ := hw.inside.keeps (fun _ _ _ _ _ hw hstep h => Tree.step h hw hstep) ht₂
  have ht := ht₃.closeTop (by simp [hw.frames_inside, frames_packaged hw.frames_before])
  rw [hw.close] at ht
  exact ht.hung.exclusive ht.sound

/-- Each component with a parent's name is listed once by all components that the walk has made, and
by the component of that name exactly if owners keep their names. Children and roots make up the
catalog, but for orphans and stale children. -/
theorem walk_hangs_iff (h : file.root.LeadsWithPackage)
    (hw : walk (.empty .lastWriteWins {}) file .depth strict = .ok catalog ()) :
    (∀ name child p, catalog.get? name = some child →
      (catalog.store.get child).parentName = some p →
        ∃ owner, (catalog.store.get owner).children.count child = 1 ∧
          ∀ owner', child ∈ (catalog.store.get owner').children → owner' = owner) ∧
    (catalog.Hangs ↔ catalog.KeepsOwners) ∧
    catalog.listed.length + catalog.roots.length + catalog.orphans.length =
      catalog.size + catalog.stale.length := by
  obtain ⟨b, hf, rfl⟩ := follow_of_walk hw
  have he : (b.catalog.note (.walkFinished file.path b.catalog.size)).Exclusive := by
    obtain ⟨h₁, h₂, h₃, h₄, h₅⟩ := exclusive_follow h hf
    exact ⟨h₁, h₂, h₃, h₄, h₅⟩
  refine ⟨fun name child p hg hp => ?_, he.hangs_iff, he.listed_add_roots⟩
  obtain ⟨owner, hm⟩ := he.held name child p hg hp
  exact ⟨owner, he.count_eq_one hm, fun owner' hm' => he.unique owner' owner child hm' hm⟩

/-- A class `C` in a package `p` with two methods `f`, each with one parameter. The source gives
the names of the parameters. -/
def overloads (source : String) : SourceFile :=
  .program "C.java" source
    [.package 8, .declaration "class_declaration" 17 [method 26 32, method 43 49]]
where
  method (name parameter : Nat) : Node :=
    .declaration "method_declaration" name [.declaration "formal_parameter" parameter []]

def competing : SourceFile := overloads "package p; class C { void f(int a) {} void f(int b) {} }"

def repeated : SourceFile := overloads "package p; class C { void f(int a) {} void f(int a) {} }"

/-- The parameter of the first of two methods `f` stays in the catalog, but the second one, which
the catalog has, does not list it. -/
theorem competing_not_hangs :
    competing.root.LeadsWithPackage ∧ ∃ catalog,
      walk (.empty .lastWriteWins {}) competing .depth true = .ok catalog () ∧ ¬ catalog.Hangs ∧
        catalog.listed.length + catalog.roots.length ≠ catalog.size := by
  refine ⟨by decide +kernel, ?_⟩
  rw [walk_eq_walkTree]
  exact ⟨_, Outcome.eq_ok_of_isOk (by decide +kernel), by decide +kernel⟩

/-- If the parameters have one name, the second method and its parameter replace the first ones, and
the catalog hangs together. -/
theorem walk_hangs_iff_repeated :
    repeated.root.LeadsWithPackage ∧ ∃ catalog,
      walk (.empty .lastWriteWins {}) repeated .depth true = .ok catalog () ∧ catalog.Hangs ∧
        catalog.KeepsOwners ∧ catalog.size = 4 := by
  have hleads : repeated.root.LeadsWithPackage := by decide +kernel
  have hwalk := walk_eq_walkTree (.empty .lastWriteWins {}) repeated .depth true
  have hok := Outcome.eq_ok_of_isOk
    (o := walkTree (.empty .lastWriteWins {}) repeated .depth true) (by decide +kernel)
  have hhangs : (walkTree (.empty .lastWriteWins {}) repeated .depth true).state.Hangs := by
    decide +kernel
  have hw := hwalk.trans hok
  exact ⟨hleads, _, hw, hhangs, (walk_hangs_iff hleads hw).2.1.mp hhangs, by decide +kernel⟩

end Java

end CodeAtlas
