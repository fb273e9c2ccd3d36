import Mathlib.Algebra.GroupWithZero.Nat
import CodeAtlas.Proofs.Builder.Histories
import CodeAtlas.Proofs.Builder.Tally

/-! # No component is lost

Whatever operations a builder performs on a catalog in which the last write wins, every component
that was ever opened is still open, has added a name or a collision to the catalog, has met a
package of its name there, or is named in the report of a package declaration that abandoned it.
-/

namespace CodeAtlas

theorem Diagnostics.ofKind_record_of_ne (ds : Diagnostics) {d : Diagnostic} {kind : DiagnosticKind}
    (h : d.kind ≠ kind) : (ds.record d).ofKind kind = ds.ofKind kind := by
  unfold record ofKind
  split <;> simp [h]

/-- The number of components that package declarations have abandoned, by their reports. -/
def Catalog.abandoned (catalog : Catalog) : Nat :=
  ((catalog.journal.diagnostics.ofKind .anomalousScopeReentry).map (·.names.length)).sum

namespace Catalog

variable {d : Diagnostic}

theorem collisions_record_of_ne (c : Catalog) (h : d.kind ≠ .nameCollision) :
    (c.record d).collisions = c.collisions :=
  congrArg List.length (c.journal.diagnostics.ofKind_record_of_ne h)

theorem abandoned_record_of_ne (c : Catalog) (h : d.kind ≠ .anomalousScopeReentry) :
    (c.record d).abandoned = c.abandoned :=
  congrArg (fun ds => (ds.map (·.names.length)).sum) (c.journal.diagnostics.ofKind_record_of_ne h)

theorem abandoned_record (c : Catalog) (h : d.kind = .anomalousScopeReentry) :
    (c.record d).abandoned = d.names.length + c.abandoned := by
  have hperm := c.journal.diagnostics.ofKind_record_perm d
  rw [h] at hperm
  exact (hperm.map (·.names.length)).sum_nat

end Catalog

theorem Scope.length_openNames (scope : Scope) (store : Store) :
    (scope.openNames store).length = scope.frames.length := by
  have hlength (frames : List Frame) : (namesFrom store frames).length = frames.length := by
    induction frames with
    | nil => rfl
    | cons frame below ih => exact congrArg (· + 1) ih
  rw [openNames, List.length_reverse, hlength]

namespace Builder

variable {b : Builder} {frame : Frame} {below : List Frame} {k : Nat}

/-- How often a package is closed while the catalog has a package of its name. -/
def packagesMet (closings : List Builder) : Nat := closings.countP meetsPackage

theorem packagesMet_append (first second : List Builder) :
    packagesMet (first ++ second) = packagesMet first + packagesMet second :=
  List.countP_append

/-- All components that have been opened are accounted for, with `k` packages that have met one of
their name. -/
def Accounted (k : Nat) (b : Builder) : Prop :=
  b.scope.pushed = b.scope.frames.length + b.catalog.size + b.catalog.collisions + k +
    b.catalog.abandoned

section Closing

variable {name : String} {t : Store} {after : Catalog} {placement : Placement}

/-- A closed component that is not refused adds a name or a collision, or meets a package. -/
theorem Closing.account (hc : Closing b frame below name t after placement)
    (hr : placement ≠ .refused) :
    after.size + after.collisions + (if b.meetsPackage = true then 1 else 0) =
        b.catalog.size + b.catalog.collisions + 1 ∧
      after.abandoned = b.catalog.abandoned := by
  have habandoned (existing : ComponentId) : (Catalog.replace (b.catalog.withStore t) name existing
      frame.component (b.openParent below name)).abandoned = b.catalog.abandoned := by
    rw [Catalog.abandoned, Catalog.journal_replace]
    exact b.catalog.abandoned_record_of_ne nofun
  by_cases ha : placement = .absorbed
  · rw [if_pos (hc.absorbed_iff.mp ha)]
    subst ha
    obtain ⟨existing, -, -, -, rfl⟩ := hc.placed.of_absorbed
    simp only [Catalog.size, Catalog.collisions, Catalog.abandoned, Catalog.table_absorb,
      Catalog.journal_absorb]
    exact ⟨rfl, rfl⟩
  · rw [if_neg fun h => ha (hc.absorbed_iff.mpr h)]
    refine ⟨hc.size_add_collisions ha hr, ?_⟩
    cases placement with
    | added =>
      obtain ⟨-, rfl⟩ := hc.placed.of_added
      rfl
    | absorbed => exact absurd rfl ha
    | refused => exact absurd rfl hr
    | replaced =>
      obtain ⟨existing, -, -, rfl⟩ := hc.placed.of_replaced
      exact habandoned existing

end Closing

theorem Accounted.closeTop (h : Accounted k b) (hs : Sound b)
    (hp : b.catalog.policy = .lastWriteWins) (hne : b.scope.frames ≠ []) :
    Accounted (k + packagesMet [b]) b.closeTop.state := by
  obtain ⟨frame, below, hf⟩ := List.exists_cons_of_ne_nil hne
  obtain ⟨name, t, after, placement, hc⟩ := hs.closing hf
  obtain ⟨hadded, habandoned⟩ := hc.account (hc.ne_refused hp)
  have hmet : packagesMet [b] = if b.meetsPackage = true then 1 else 0 := List.countP_singleton
  have hsize : b.closeTop.state.catalog.size = after.size := congrArg Table.size hc.table_eq
  have hcollisions : b.closeTop.state.catalog.collisions = after.collisions := by
    rw [Catalog.collisions, hc.diagnostics_eq, Catalog.collisions]
  have hreports : b.closeTop.state.catalog.abandoned = after.abandoned := by
    rw [Catalog.abandoned, hc.diagnostics_eq, Catalog.abandoned]
  unfold Accounted at h ⊢
  rw [hf, List.length_cons] at h
  rw [hc.scope_eq, hsize, hcollisions, hreports, habandoned, hmet]
  dsimp only
  omega

structure Balanced (k : Nat) (b : Builder) : Prop where
  policy_eq : b.catalog.policy = .lastWriteWins
  accounted : Accounted k b

theorem Balanced.closeMany (h : Balanced k b) (hs : Sound b) {n : Nat}
    (hn : n ≤ b.scope.frames.length) :
    Balanced (k + packagesMet (closings n b)) (closeMany n b).state := by
  have hmany := closeMany_closings
    (I := fun earlier b => Balanced (k + packagesMet earlier) b ∧ Sound b)
    (fun earlier b ⟨h, hs⟩ hne => ?_) [] ⟨h, hs⟩ hn
  · exact hmany.1
  · refine ⟨hs.result_closeTop h.policy_eq hne, ⟨(policy_closeTop hs hne).trans h.policy_eq, ?_⟩,
      hs.closeTop hne⟩
    rw [packagesMet_append, ← Nat.add_assoc]
    exact h.accounted.closeTop hs h.policy_eq hne

theorem Accounted.adding (h : Accounted k b) (frame : Frame) (c : Component) :
    Accounted k (b.adding frame c) := by
  change b.scope.pushed + 1 = b.scope.frames.length + 1 + b.catalog.size +
    b.catalog.collisions + k + b.catalog.abandoned
  unfold Accounted at h
  omega

/-- A package declaration names what it abandons. -/
theorem Accounted.abandonOpen (h : Accounted k b) (name : String) (line : Int) :
    Accounted k (b.abandonOpen name line) := by
  unfold Builder.abandonOpen
  split
  · exact h
  · have hcollisions := b.catalog.collisions_record_of_ne (d := b.reentry name line) nofun
    have habandoned := b.catalog.abandoned_record (d := b.reentry name line) rfl
    have hnames : (b.reentry name line).names.length = b.scope.frames.length := by
      rw [reentry, List.length_map, Scope.length_openNames]
    unfold Accounted at h ⊢
    change b.scope.pushed = 0 + b.catalog.size + (b.catalog.record _).collisions + k +
      (b.catalog.record _).abandoned
    omega

theorem Balanced.step (h : Balanced k b) (hs : Sound b) (op : Op) :
    Balanced (k + packagesMet (b.closingsBy op)) (b.step op).state := by
  cases op with
  | beginPackage name prov =>
    have he := emptied_abandonOpen b name prov.startLine
    exact ⟨he.policy_eq.trans h.policy_eq,
      (h.accounted.abandonOpen name prov.startLine).adding _ _⟩
  | addImport | enterSuppressed | exitSuppressed | resolve => exact ⟨h.policy_eq, h.accounted⟩
  | openComponent =>
    rw [Builder.step]
    split
    · exact h
    · exact ⟨h.policy_eq, h.accounted.adding _ _⟩
  | nameDeclarator name =>
    rw [Builder.step]
    split
    · exact h
    · split
      · exact h
      · rename_i top _
        cases hn : (b.store.get top.component).hasName with
        | true =>
          rw [nameDeclarator_of_named hn]
          exact ⟨h.policy_eq, h.accounted.adding _ _⟩
        | false =>
          rw [nameDeclarator_of_unnamed hn]
          exact ⟨h.policy_eq, h.accounted⟩
  | close =>
    rw [Builder.step, closingsBy]
    split
    · exact h
    · rw [state_andThen_done, Builder.close, Scope.groupSize?]
      cases b.scope.top? with
      | none => exact h
      | some top => exact h.closeMany hs (b.countP_le_length top)
  | endUnit =>
    rw [Builder.step, closingsBy, state_andThen_done, endUnit]
    cases b.suppressed with
    | false => exact h.closeMany hs le_rfl
    | true => cases b.scope.frames <;> exact h
  | enrich what =>
    rw [Builder.step]
    split
    · exact h
    · split
      · exact h
      · exact ⟨h.policy_eq, h.accounted⟩
  | current =>
    rw [Builder.step]
    split <;> exact h

theorem Balanced.perform (h : Balanced k b) (hs : Sound b) (ops : List Op) :
    Balanced (k + packagesMet (b.closingsIn ops)) (b.perform ops) := by
  induction ops generalizing b k with
  | nil => exact h
  | cons op rest ih =>
    rw [closingsIn, packagesMet_append, ← Nat.add_assoc]
    exact ih (h.step hs op) (hs.step op)

/-- After any operations, whether they failed or not, the components ever opened are those that are
open, one for each name of the catalog and for each collision, the packages that have met one of
their name, and those that package declarations have abandoned and named. -/
theorem opened_conserved (store : Store) (path : Option String) (mode : Suppression.Mode)
    (builtin : List (String × String)) (ops : List Op) :
    let first := start (.empty .lastWriteWins store) path mode builtin
    let last := first.perform ops
    last.scope.pushed = last.scope.frames.length + last.catalog.size + last.catalog.collisions +
      packagesMet (first.closingsIn ops) + last.catalog.abandoned := by
  intro first last
  have hfirst : Balanced 0 first := ⟨rfl, rfl⟩
  have hlast := (hfirst.perform (sound_start ..) ops).accounted
  rwa [Nat.zero_add] at hlast

-- Two methods of one name collide, a package declaration abandons the class and the package around
-- them, the package that it begins is closed, and the next one of its name meets it.
example :
    let first := start (.empty .lastWriteWins {}) none .flag []
    let ops := [.beginPackage "p" ⟨1, 1, "", none⟩,
      .openComponent .classType ⟨1, 1, "", none⟩ "A" true,
      .openComponent .method ⟨1, 1, "", none⟩ "f" false, .close,
      .openComponent .method ⟨2, 2, "", none⟩ "f" false, .close,
      .beginPackage "p" ⟨3, 3, "", none⟩, .endUnit, .beginPackage "p" ⟨4, 4, "", none⟩, .close,
      .close, .beginPackage "q" ⟨5, 5, "", none⟩]
    let last := first.perform ops
    last.scope.pushed = 7 ∧ last.scope.frames.length = 1 ∧ last.catalog.size = 2 ∧
      last.catalog.collisions = 1 ∧ packagesMet (first.closingsIn ops) = 1 ∧
      last.catalog.abandoned = 2 := by
  decide +kernel

end Builder

end CodeAtlas
