import Mathlib.Data.List.Flatten
import CodeAtlas.Proofs.Builder.Owners
import CodeAtlas.Proofs.Java.Discipline

/-! # Compilation units with a package

A unit whose first named child, comments apart, is its only package. Its walk goes through what
stands before the package with nothing open in the end, opens the package, stays inside it to the
end of the unit and then closes it.
-/

namespace CodeAtlas

/-- The root is a program whose first named child, comments apart, is a package declaration, and
there is no other package or program. -/
structure Place.LeadsWithPackage (root : Place) : Prop where
  program : root.form = .program
  leading : (root.namedChildren.find? (·.form != .comment)).map Place.form =
    some .packageDeclaration
  packages : root.preorder.countP (·.form == .packageDeclaration) = 1
  programs : root.preorder.countP (·.form == .program) = 1

/-- The root is the only program. There is no package, or one that leads it, with nothing but
childless comments before it. -/
structure Place.OneUnit (root : Place) : Prop where
  program : root.form = .program
  programs : root.preorder.countP (·.form == .program) = 1
  packages : root.preorder.countP (·.form == .packageDeclaration) = 0 ∨ root.LeadsWithPackage ∧
    ∀ c ∈ root.namedChildren.takeWhile (·.form == .comment), c.node.children.isEmpty

namespace Place

open Java Builder

variable {root : Place}

instance (root : Place) : Decidable root.LeadsWithPackage :=
  decidable_of_iff (root.form = .program ∧
    (root.namedChildren.find? (·.form != .comment)).map Place.form = some .packageDeclaration ∧
    root.preorder.countP (·.form == .packageDeclaration) = 1 ∧
    root.preorder.countP (·.form == .program) = 1)
    ⟨fun ⟨h₁, h₂, h₃, h₄⟩ => ⟨h₁, h₂, h₃, h₄⟩, fun ⟨h₁, h₂, h₃, h₄⟩ => ⟨h₁, h₂, h₃, h₄⟩⟩

instance (root : Place) : Decidable root.OneUnit :=
  decidable_of_iff (root.form = .program ∧ root.preorder.countP (·.form == .program) = 1 ∧
    (root.preorder.countP (·.form == .packageDeclaration) = 0 ∨ root.LeadsWithPackage ∧
      ∀ c ∈ root.namedChildren.takeWhile (·.form == .comment), c.node.children.isEmpty))
    ⟨fun ⟨h₁, h₂, h₃⟩ => ⟨h₁, h₂, h₃⟩, fun ⟨h₁, h₂, h₃⟩ => ⟨h₁, h₂, h₃⟩⟩

theorem countP_namedChildren_le (p : Place) (test : Place → Bool) :
    (p.namedChildren.flatMap preorder).countP test ≤ (p.children.flatMap preorder).countP test :=
  List.Sublist.countP_le (List.filter_sublist.flatMap _)

theorem enclosed_of_countP {p : Place} (h : p.preorder.countP (·.form == .packageDeclaration) = 0)
    (h' : p.preorder.countP (·.form == .program) = 0) : Enclosed p := by
  intro visit hv
  have hm := mem_preorder_of_mem_walk hv
  exact ⟨by simpa using List.countP_eq_zero.mp h _ hm,
    by simpa using List.countP_eq_zero.mp h' _ hm⟩

theorem countP_of_mem {ps : List Place} {c : Place} {test : Place → Bool}
    (h : (ps.flatMap preorder).countP test = 0) (hc : c ∈ ps) : c.preorder.countP test = 0 :=
  List.countP_eq_zero.mpr fun q hq =>
    List.countP_eq_zero.mp h q (List.mem_flatMap.mpr ⟨c, hc, hq⟩)

theorem countP_children_of_program (hp : root.form = .program)
    (h : root.preorder.countP (·.form == .program) = 1) :
    (root.children.flatMap preorder).countP (·.form == .program) = 0 := by
  rw [preorder_eq, List.countP_cons] at h
  simpa [hp] using h

theorem enclosed_of_no_package (hp : root.form = .program)
    (hprograms : root.preorder.countP (·.form == .program) = 1)
    (hpackages : root.preorder.countP (·.form == .packageDeclaration) = 0) :
    ∀ c ∈ root.namedChildren, Enclosed c := by
  rw [preorder_eq, List.countP_cons] at hpackages
  intro c hc
  have hchild := List.mem_of_mem_filter hc
  exact enclosed_of_countP (countP_of_mem (by omega) hchild)
    (countP_of_mem (countP_children_of_program hp hprograms) hchild)

/-- What stands in a program apart from its leading package holds no package and no program. -/
theorem LeadsWithPackage.split (h : root.LeadsWithPackage) :
    ∃ before package after, root.namedChildren = before ++ package :: after ∧
      (∀ c ∈ before, c.form = .comment) ∧ package.form = .packageDeclaration ∧
      (∀ c ∈ before, Enclosed c) ∧ (∀ c ∈ package.namedChildren, Enclosed c) ∧
      ∀ c ∈ after, Enclosed c := by
  obtain ⟨package, hfind, hform⟩ := Option.map_eq_some_iff.mp h.leading
  obtain ⟨-, before, after, hsplit, hbefore⟩ := List.find?_eq_some_iff_append.mp hfind
  have hpackages := h.packages
  have hprograms := h.programs
  have hle := countP_namedChildren_le root (·.form == .packageDeclaration)
  have hle' := countP_namedChildren_le root (·.form == .program)
  have hin := countP_namedChildren_le package (·.form == .packageDeclaration)
  have hin' := countP_namedChildren_le package (·.form == .program)
  rw [preorder_eq, List.countP_cons] at hpackages hprograms
  rw [hsplit, List.flatMap_append, List.flatMap_cons, preorder_eq package, List.countP_append,
    List.cons_append, List.countP_cons, List.countP_append] at hle hle'
  simp only [h.program, hform, beq_self_eq_true, if_true] at hpackages hprograms hle hle'
  have hno {ps : List Place} (h₁ : (ps.flatMap preorder).countP (·.form == .packageDeclaration) = 0)
      (h₂ : (ps.flatMap preorder).countP (·.form == .program) = 0) : ∀ c ∈ ps, Enclosed c :=
    fun c hc => enclosed_of_countP (countP_of_mem h₁ hc) (countP_of_mem h₂ hc)
  refine ⟨before, package, after, hsplit, ?_, hform, hno ?_ ?_, hno ?_ ?_, hno ?_ ?_⟩
  · simpa using hbefore
  all_goals omega

theorem enterOps_of_program (h : root.form = .program) (e : Option Kind) :
    root.enterOps e = [] := by
  simp [enterOps, opens?, h, Form.opens?, usageOps]

theorem enterOps_of_package {package : Place} (h : package.form = .packageDeclaration)
    (e : Option Kind) : ∃ prov, package.enterOps e = [.beginPackage package.dottedName prov] := by
  simp [enterOps, opens?, h, Form.opens?, usageOps]

theorem exitOps_of_package {package : Place} (h : package.form = .packageDeclaration) :
    package.exitOps = [] := by
  simp [exitOps, opens?, h, Form.opens?]

theorem not_declares_of_mem {p c : Place} (h : p.form.ownsDeclarators = false)
    (hc : c ∈ p.namedChildren) : ¬ c.Declares := by
  intro hd
  rw [hd.owner hc] at h
  cases h

end Place

namespace Java

open Builder Place

variable {b b' : Builder} {R R' : Op → Prop} {k : Nat} {root : Place}

theorem lone_started (policy : CollisionPolicy) (store : Store) (path : String)
    (mode : Suppression.Mode) : Lone none 0 (started policy store path mode) :=
  ⟨nofun, nofun, nofun, nofun⟩

theorem moves_siblings {p : Place} (hp : p.form.ownsDeclarators = false) {ps : List Place}
    (hc : ∀ c ∈ ps, c ∈ p.namedChildren) (he : ∀ c ∈ ps, Enclosed c) (ha : ∀ c ∈ ps, c.Asks R)
    (hready : Ready k b) (h : follow b (ps.flatMap Place.walk) = .ok b' ()) :
    b'.suppression = b.suppression ∧ Moves R k b (trace b (ps.flatMap Place.walk)) b' [] := by
  have hd (c : Place) (hm : c ∈ ps) : ¬ c.Declares := not_declares_of_mem hp (hc c hm)
  obtain ⟨hs, more, hm, -, hnone⟩ := moves_children le_rfl ps
    (fun c hm {_ _} hb hw hf => moves_walk hb (ha c hm) (he c hm) hw hf) hready
    (fun c hm hdecl => absurd hdecl (hd c hm)) h
  rw [hnone (.inr hd)] at hm
  exact ⟨hs, hm⟩

theorem closeMany_of_endUnit (hs : b.suppressed = false) (h : b.run [.endUnit] = .ok b' ()) :
    closeMany b.scope.frames.length b = .ok b' () := by
  obtain ⟨b₁, _, hstep, hnil⟩ := Outcome.eq_ok_of_andThen h
  obtain ⟨rfl, -⟩ := Outcome.ok_inj hnil
  simp only [Builder.step, Builder.endUnit, hs] at hstep
  obtain ⟨b₂, _, hclose, hdone⟩ := Outcome.eq_ok_of_andThen hstep
  obtain ⟨rfl, -⟩ := Outcome.ok_inj hdone
  exact hclose

/-- How the walk of a program goes from `b` to `b'`: through what stands before the package to `b₁`,
with nothing open, then on with the package open to `b₃`, and last the package is closed. -/
structure PackageWalk (R' R : Op → Prop) (root package : Place) (before after : List Place)
    (prov : Provenance) (ops ops' : List Op) (b b₁ b₃ b' : Builder) : Prop where
  follow_before : follow b (before.flatMap Place.walk) = .ok b₁ ()
  leading : Inner R' 0 b ops b₁
  frames_before : b₁.scope.frames = []
  suppression_before : b₁.suppression = b.suppression
  follow_inside : follow (b₁.packaged package.dottedName prov)
    (package.namedChildren.flatMap Place.walk ++ after.flatMap Place.walk) = .ok b₃ ()
  inside : Inner R (b₁.packaged package.dottedName prov).scope.pushed
    (b₁.packaged package.dottedName prov) ops' b₃
  frames_inside : b₃.scope.frames = (b₁.packaged package.dottedName prov).scope.frames
  suppressed_eq : b₃.suppressed = false
  close : b₃.closeTop = .ok b' ()
  trace_eq : trace b root.walk = ops ++ .beginPackage package.dottedName prov :: ops' ++ [.endUnit]

theorem packageWalk {before after : List Place} {package : Place} (hprogram : root.form = .program)
    (hsplit : root.namedChildren = before ++ package :: after)
    (hpackage : package.form = .packageDeclaration)
    (hbefore : ∀ c ∈ before, Enclosed c ∧ c.Asks R')
    (hinside : ∀ c ∈ package.namedChildren, Enclosed c ∧ c.Asks R)
    (hafter : ∀ c ∈ after, Enclosed c ∧ c.Asks R) (hready : Ready 0 b)
    (hsup : b.suppressed = false) (hframes : b.scope.frames = [])
    (h : follow b root.walk = .ok b' ()) :
    ∃ prov ops ops' b₁ b₃, PackageWalk R' R root package before after prov ops ops' b b₁ b₃ b' := by
  have hmem (c : Place) (hc : c ∈ before ∨ c ∈ after) : c ∈ root.namedChildren := by
    rw [hsplit]
    rcases hc with hc | hc <;> simp [hc]
  have hroot : root.form.ownsDeclarators = false := by rw [hprogram]; rfl
  obtain ⟨b₀, b₃, h₀, h, hend, htrace⟩ := follow_walk h
  rw [opsFor, enterOps_of_program hprogram] at h₀ htrace
  obtain ⟨rfl, -⟩ := Outcome.ok_inj h₀
  rw [hsplit, List.flatMap_append, List.flatMap_cons] at h htrace
  rw [follow_append] at h
  obtain ⟨b₁, _, h₁, h⟩ := Outcome.eq_ok_of_andThen h
  rw [follow_append] at h
  obtain ⟨b₄, _, h₄, h₅⟩ := Outcome.eq_ok_of_andThen h
  -- Nothing is left open before the package.
  obtain ⟨hs₁, hm₁⟩ := moves_siblings hroot (fun c hc => hmem c (.inl hc))
    (fun c hc => (hbefore c hc).1) (fun c hc => (hbefore c hc).2) hready h₁
  have hready₁ := hready.after h₁ hm₁
  have hframes₁ : b₁.scope.frames = [] := by rw [hm₁.frames_eq, hframes]; rfl
  obtain ⟨b₂, b₂', h₂, hin, hout, htrace'⟩ := follow_walk h₄
  obtain ⟨prov, hops⟩ := enterOps_of_package hpackage b₁.currentKind?
  rw [opsFor, hops] at h₂ htrace'
  rw [exitOps_of_package hpackage] at hout htrace'
  obtain ⟨rfl, -⟩ := Outcome.ok_inj hout
  obtain ⟨reply, hbegin⟩ := step_beginPackage hframes₁ package.dottedName prov
  have hs₂ := suppression_run h₂
  have hreached₂ := reached_run hready₁.reached h₂
  rw [run, hbegin, Outcome.andThen_ok, run] at h₂
  obtain ⟨rfl, -⟩ := Outcome.ok_inj h₂
  have hready₂ : Ready (b₁.packaged package.dottedName prov).scope.pushed
      (b₁.packaged package.dottedName prov) :=
    ⟨hreached₂, (congrArg _ hs₂).trans hready₁.mode_eq, le_rfl⟩
  -- Inside the package, its own children come before what follows it.
  obtain ⟨hs₄, hm₄⟩ := moves_siblings (p := package) (by rw [hpackage]; rfl) (fun _ => id)
    (fun c hc => (hinside c hc).1) (fun c hc => (hinside c hc).2) hready₂ hin
  obtain ⟨hs₅, hm₅⟩ := moves_siblings hroot (fun c hc => hmem c (.inr hc))
    (fun c hc => (hafter c hc).1) (fun c hc => (hafter c hc).2) (hready₂.after hin hm₄) h₅
  have hmoves := hm₄.append hm₅
  have hsup₃ : b₃.suppressed = false := by
    rw [suppressed, hs₅, hs₄, hs₂]
    exact (Java.suppressed_eq hs₁).trans hsup
  rw [exitOps_of_program hprogram] at hend htrace
  rw [trace_append h₁, trace_append h₄, htrace'] at htrace
  refine ⟨prov, _, _, b₁, b₃, h₁, hm₁.inner, hframes₁, hs₁, ?_, hmoves.inner, hmoves.frames_eq,
    hsup₃, ?_, by rw [htrace]; simp⟩
  · rw [follow_append]
    exact (congrArg (Outcome.andThen · _) hin).trans h₅
  · have hclose := closeMany_of_endUnit hsup₃ hend
    rw [hmoves.frames_eq, frames_packaged hframes₁] at hclose
    obtain ⟨b₆, _, htop, hdone⟩ := Outcome.eq_ok_of_andThen hclose
    obtain ⟨rfl, -⟩ := Outcome.ok_inj hdone
    exact htop

/-- The walk of a program without a package ends as it began, with nothing open. -/
theorem follow_unit_of_no_package (hprogram : root.form = .program)
    (hchildren : ∀ c ∈ root.namedChildren, Enclosed c ∧ c.Asks R) (hready : Ready 0 b)
    (hsup : b.suppressed = false) (hframes : b.scope.frames = [])
    (h : follow b root.walk = .ok b' ()) :
    ∃ inside, follow b (root.namedChildren.flatMap Place.walk) = .ok b' () ∧
      Inner R 0 b inside b' ∧ b'.scope.frames = [] ∧ trace b root.walk = inside ++ [.endUnit] := by
  obtain ⟨b₀, b₁, h₀, h₁, hend, htrace⟩ := follow_walk h
  rw [opsFor, enterOps_of_program hprogram] at h₀ htrace
  obtain ⟨rfl, -⟩ := Outcome.ok_inj h₀
  obtain ⟨hs, hm⟩ := moves_siblings (by rw [hprogram]; rfl) (fun _ => id)
    (fun c hc => (hchildren c hc).1) (fun c hc => (hchildren c hc).2) hready h₁
  have hframes₁ : b₁.scope.frames = [] := by rw [hm.frames_eq, hframes]; rfl
  rw [exitOps_of_program hprogram] at hend htrace
  have hclose := closeMany_of_endUnit ((suppressed_eq hs).trans hsup) hend
  rw [hframes₁] at hclose
  obtain ⟨rfl, -⟩ := Outcome.ok_inj hclose
  exact ⟨_, h₁, hm.inner, hframes₁, htrace⟩

end Java

end CodeAtlas
