import CodeAtlas.Proofs.Builder.Lockstep
import CodeAtlas.Proofs.Builder.Shape
import CodeAtlas.Proofs.Java.Ordinary

/-! # Walks into a shared catalog

Whether a walk gets to its end does not depend on the catalog it goes into, if the last write wins.
So a unit can be walked into a catalog of its own and into one that other files share. What the
second walk makes of the shared catalog is what comes of merging the first one's catalog into it.
-/

namespace CodeAtlas

namespace Builder

open Catalog (Holds Laid Matches)

variable {a a' b b' : Builder} {s t : Store} {base m : Catalog} {frame : Frame} {k : Nat}
  {package : ComponentId} {name : String}

theorem run_endUnit_of_frames (h : b.scope.frames = []) : b.run [.endUnit] = .ok b () := by
  simp [run, step, endUnit, h, closeMany]

theorem Inner.inside {R : Op → Prop} {ops : List Op} (h : Inner R k b ops b')
    (hi : Inside package name k b) : Inside package name k b' :=
  h.keeps (fun b b' op reply _ hw hstep hi => by
    have hs := hi.sound.step op
    rw [hstep] at hs
    exact hi.advance hs (hw.advance hstep)) hi

theorem InStep.holds (h : InStep s base a b) (hb : Holds s base) : Holds b.store a.catalog := by
  refine ⟨fun n id hn => h.has_iff.mp (h.sound.named n id hn).1, fun id _ child hm => ?_⟩
  by_cases hi : s.Has id
  · exact h.fresh.kept.has child (h.laid.overlay.listed hb hi hm)
  · rw [h.laid.same id hi] at hm
    exact (h.fresh.own id hi child hm).2

/-- What holds between two files of the store `s` that their walks have led to, of a shared catalog
and of a catalog that the tables of the walks have been merged into. The store `t` is the one that
all walks lead to in the end. -/
structure Shared (t s : Store) (c m : Catalog) : Prop where
  size_eq : c.store.cells.size = s.cells.size
  policy_eq : c.policy = .lastWriteWins
  named : ∀ n id, c.get? n = some id → c.store.Has id ∧ (c.store.get id).qualifiedName = some n
  holds : Holds s c
  agrees : Matches t c m

theorem Shared.has_iff {c : Catalog} (h : Shared t s c m) (id : ComponentId) :
    c.store.Has id ↔ s.Has id := by
  rw [Store.Has, Store.Has, h.size_eq]

theorem Shared.of_inStep (h : Shared t s base m) (hs : InStep s base a b) (hl : Lone none k b)
    (ht : b.store.Extends t) (hw : s.Widens t) :
    Shared t b.store a.catalog (m.merge b.catalog.table.entries) := by
  refine ⟨hs.size_eq, hs.laid.overlay.policy_eq, hs.sound.named, hs.holds h.holds, ?_⟩
  refine hs.laid.matches h.holds h.policy_eq h.has_iff (fun id => hs.has_iff) hs.fresh.kept.has ht
    hw (fun n id hn => ⟨(hs.own_sound.named n id hn).1, fun hk => ?_⟩) h.agrees
  cases hl.named n id hn hk

theorem InStep.holds_attached {below : List Frame} {t₁ t' : Store} {after after' : Catalog}
    {placement placement' : Placement} (hs : InStep s base a b) (hb : Holds s base)
    (hca : Closing a frame below name t₁ after placement)
    (hcb : Closing b frame below name t' after' placement') :
    Holds t' (a.catalog.withStore t₁) := by
  have hholds := hs.holds hb
  have hhas (id : ComponentId) : t'.Has id ↔ b.store.Has id := hcb.attached.has_iff id
  refine ⟨fun n id hn => (hhas id).mpr (hholds.named n id hn), fun id hi child hm => ?_⟩
  rw [hhas]
  rcases hca.attached.mem_children hm with hm | ⟨rfl, -⟩
  · exact hholds.listed id ((hhas id).mp hi) child hm
  · exact hs.own_sound.has frame (by simp [hcb.frames_eq])

theorem Shared.matches_attached {t₁ t' : Store} {after after' : Catalog}
    {placement placement' : Placement} (h : Shared t s base m) (hs : InStep s base a b)
    (hi : Inside frame.component name k b) (hf : b.scope.frames = [frame])
    (hca : Closing a frame [] name t₁ after placement)
    (hcb : Closing b frame [] name t' after' placement') (ht : t'.Extends t) (hw : s.Widens t) :
    Matches t (a.catalog.withStore t₁) (m.merge b.catalog.table.entries) := by
  have hhas (id : ComponentId) : t₁.Has id ↔ t'.Has id := by
    rw [hca.attached.has_iff, hcb.attached.has_iff, hs.has_iff]
  refine (hs.laid_attached hf hca hcb).matches h.holds h.policy_eq h.has_iff hhas (fun id hi => ?_)
    ht hw (fun n id hn => ⟨?_, fun hk => ?_⟩) h.agrees
  · rw [Catalog.store_withStore, hcb.attached.has_iff]
    exact hs.fresh.kept.has id hi
  · rw [Catalog.store_withStore, hcb.attached.has_iff]
    exact (hi.sound.named n id hn).1
  · rw [Catalog.store_withStore, hcb.attached.kind_eq] at hk
    have hid := Option.some.inj (hi.lone.named n id hn hk)
    have hframe : frame ∈ b.scope.frames := by simp [hf]
    exact hi.sound.ne_open hn hframe hid.symm

/-- Builders in step that have only a package open, which is then closed. -/
theorem Shared.of_package (h : Shared t s base m) (hs : InStep s base a b)
    (hi : Inside package name k b) (hf : b.scope.frames = [frame]) (ha : a.closeTop = .ok a' ())
    (hb : b.closeTop = .ok b' ()) (ht : b'.store.Extends t) (hw : s.Widens t) :
    Shared t b'.store a'.catalog (m.merge b'.catalog.table.entries) := by
  have hfa : a.scope.frames = [frame] := by rw [hs.scope_eq, hf]
  obtain ⟨rfl, hparent, hfree, t', after', placement', hcb⟩ := hi.closing_package hf
  obtain ⟨name', t₁, after, placement, hca⟩ := hs.sound.closing hfa
  obtain rfl : name' = name := by
    rw [← hca.name_eq, ← hcb.name_eq, hs.name_eq hf]
  obtain rfl := hcb.eq_added hfree
  have hplace := hca.place_eq
  rw [hs.openParent_eq hf, hparent] at hplace
  have hsound := hs.sound.closeTop (by rw [hfa]; exact List.cons_ne_nil _ _)
  obtain rfl : a.closeTop.state = a' := congrArg Outcome.state ha
  obtain rfl : b.closeTop.state = b' := congrArg Outcome.state hb
  have hstore : b.closeTop.state.store = t' := hcb.store_eq
  rw [hstore] at ht ⊢
  have hhas (id : ComponentId) : t₁.Has id ↔ t'.Has id := by
    rw [hca.attached.has_iff, hcb.attached.has_iff, hs.has_iff]
  have hx : t'.Has frame.component := by
    rw [hcb.attached.has_iff]
    exact hi.outermost.has hi.sound
  have hholds := hs.holds_attached h.holds hca hcb
  have hmatches := h.matches_attached hs hi hf hca hcb ht hw
  have hentries : m.merge b.closeTop.state.catalog.table.entries =
      ((m.merge b.catalog.table.entries).place name' frame.component none).1 := by
    rw [hcb.table_eq, Table.entries_put hfree, Catalog.merge, List.foldl_append]
    exact Catalog.mergeEntry_of_lastWriteWins (hmatches.policy_eq.trans hs.laid.overlay.policy_eq) _
  have hpolicy := Catalog.policy_place (a.catalog.withStore t₁) name' frame.component none
  have hsize := Catalog.alike_place (a.catalog.withStore t₁) name' frame.component none
  have hlast := hmatches.place (n := name') (hholds.of_has_iff hhas) ((hhas _).mpr hx)
  have hheld : Holds t' ((a.catalog.withStore t₁).place name' frame.component none).1 :=
    hholds.place (fun id => (hhas id).mpr) hx
  rw [hplace] at hpolicy hsize hlast hheld
  refine ⟨?_, ?_, hsound.named, ?_, ?_⟩
  · rw [hca.store_eq, hsize.size_eq, Catalog.store_withStore, hca.attachedStore_eq,
      size_attachedStore, hcb.attachedStore_eq, size_attachedStore, hs.size_eq]
  · rw [hca.policy_eq, hpolicy]
    exact hs.laid.overlay.policy_eq
  · exact hheld.of_eq hca.table_eq hca.store_eq
  · rw [hentries]
    exact hlast.of_eq hca.policy_eq hca.table_eq hca.store_eq rfl rfl rfl

end Builder

namespace Java

open Builder

variable {a a' b b' : Builder} {visits : List Visit} {s t : Store} {base m : Catalog}
  {root : Place} {path : String}

theorem run_trace (h : follow b visits = .ok b' ()) : b.run (trace b visits) = .ok b' () := by
  induction visits generalizing b with
  | nil => exact h
  | cons visit rest ih =>
    obtain ⟨b₁, _, h₁, h₂⟩ := Outcome.eq_ok_of_andThen h
    rw [trace, run_append, h₁, Outcome.andThen_ok]
    exact ih h₂

/-- Builders of one shape follow visits alike, whatever is in their catalogs. -/
theorem follow_of_shape (ha : Lenient a) (hb : Lenient b) (hab : a.shape = b.shape)
    (h : follow b visits = .ok b' ()) :
    ∃ a', follow a visits = .ok a' () ∧ trace a visits = trace b visits := by
  induction visits generalizing a b with
  | nil => exact ⟨a, rfl, rfl⟩
  | cons visit rest ih =>
    have hops : opsFor a visit = opsFor b visit := by
      cases visit with
      | enter p => rw [opsFor, opsFor, currentKind?_eq, currentKind?_eq, hab]
      | exit p => rfl
    obtain ⟨b₁, _, h₁, h₂⟩ := Outcome.eq_ok_of_andThen h
    obtain ⟨a₁, h₁', ha₁, hb₁, hab₁⟩ := run_of_shape ha hb hab h₁
    obtain ⟨a₂, h₂', htrace⟩ := ih ha₁ hb₁ hab₁ h₂
    refine ⟨a₂, ?_, ?_⟩
    · rw [follow, hops, h₁', Outcome.andThen_ok, h₂']
    · rw [trace, trace, hops, h₁, h₁']
      exact congrArg _ htrace

theorem fresh_follow (h : Fresh s b) (hs : Sound b) (hf : follow b visits = .ok b' ()) :
    Fresh s b' := by
  have hkept := (kept_follow (fun _ op hs h => Fresh.step h hs op) hs h visits).2
  rwa [hf] at hkept

theorem inStep_started (h : Shared t s base m) (path : String) :
    InStep s base (startedIn base path .depth) (started .lastWriteWins s path .depth) where
  scope_eq := rfl
  path_eq := rfl
  resolver_eq := rfl
  suppression_eq := rfl
  size_eq := h.size_eq
  laid := by
    refine ⟨(Catalog.over_self h.policy_eq).of_eq rfl rfl fun _ _ => rfl, rfl, fun id hi => ?_⟩
    exact (Store.get_of_not_has (mt (h.has_iff id).mp hi)).trans (Store.get_of_not_has hi).symm
  fresh := fresh_started .depth
  sound := ⟨.nil, nofun, nofun, nofun, nofun, .nil, h.named⟩
  own_sound := sound_started .lastWriteWins s path .depth

theorem shared_of_no_package (h : Shared t s base m) (hprogram : root.form = .program)
    (henclosed : ∀ c ∈ root.namedChildren, Enclosed c)
    (hb : follow (started .lastWriteWins s path .depth) root.walk = .ok b' ())
    (ha : (startedIn base path .depth).run
      (trace (started .lastWriteWins s path .depth) root.walk) = .ok a' ())
    (ht : b'.store.Extends t) (hw : s.Widens t) :
    Shared t b'.store a'.catalog (m.merge b'.catalog.table.entries) := by
  obtain ⟨inside, -, hinner, hframes, htrace⟩ := follow_unit_of_no_package hprogram
    (R := fun _ => True) (fun c hc => ⟨henclosed c hc, fun _ _ _ _ _ => trivial⟩)
    (ready_started .lastWriteWins s path) rfl rfl hb
  rw [htrace, run_append] at ha
  obtain ⟨a₁, _, ha₁, hend⟩ := Outcome.eq_ok_of_andThen ha
  obtain ⟨hstep, hlone⟩ := hinner.inStep (inStep_started h path) h.holds
    (lone_started .lastWriteWins s path .depth) ha₁
  rw [run_endUnit_of_frames (by rw [hstep.scope_eq, hframes])] at hend
  obtain ⟨rfl, -⟩ := Outcome.ok_inj hend
  exact h.of_inStep hstep hlone ht hw

theorem shared_of_package (h : Shared t s base m) (hp : root.LeadsWithPackage)
    (hc : ∀ c ∈ root.namedChildren.takeWhile (·.form == .comment), c.node.children.isEmpty)
    (hb : follow (started .lastWriteWins s path .depth) root.walk = .ok b' ())
    (ha : (startedIn base path .depth).run
      (trace (started .lastWriteWins s path .depth) root.walk) = .ok a' ())
    (ht : b'.store.Extends t) (hw : s.Widens t) :
    Shared t b'.store a'.catalog (m.merge b'.catalog.table.entries) := by
  obtain ⟨before, package, after, hsplit, hcomments, hpackage, hbefore, hinside, hafter⟩ := hp.split
  obtain ⟨prov, _, ops, b₁, b₃, hwalk⟩ := packageWalk hp.program hsplit hpackage
    (R := fun _ => True)
    (fun c hm => ⟨hbefore c hm, Place.asks_of_leading_comments hc hsplit hcomments c hm⟩)
    (fun c hm => ⟨hinside c hm, fun _ _ _ _ _ => trivial⟩)
    (fun c hm => ⟨hafter c hm, fun _ _ _ _ _ => trivial⟩)
    (ready_started .lastWriteWins s path) rfl rfl hb
  obtain ⟨rfl, rfl⟩ := eq_of_inner_nothing hwalk.leading
  -- The shared builder opens the package, and goes on in step with the other one.
  obtain ⟨reply, hbegin⟩ := step_beginPackage (b := startedIn base path .depth) rfl
    package.dottedName prov
  rw [hwalk.trace_eq, List.nil_append, List.cons_append, run, hbegin, Outcome.andThen_ok,
    run_append] at ha
  obtain ⟨a₃, _, ha₃, hend⟩ := Outcome.eq_ok_of_andThen ha
  have he := emptied_inPackage hwalk.frames_before package.dottedName
  have hin := inside_package ((sound_started .lastWriteWins s path .depth).vacate he.toVacated)
    ((lone_started .lastWriteWins s path .depth).vacate he.toVacated) he.frames_eq
    (get?_started .lastWriteWins s path .depth)
    ((started .lastWriteWins s path .depth).blank_package package.dottedName prov)
  obtain ⟨hstep, -⟩ := hwalk.inside.inStep
    ((inStep_started h path).packaged package.dottedName prov) h.holds hin.lone ha₃
  have hframes := hwalk.frames_inside.trans (frames_packaged hwalk.frames_before _ _)
  have hclose := closeMany_of_endUnit (hstep.suppressed_eq.trans hwalk.suppressed_eq) hend
  rw [hstep.scope_eq, hframes] at hclose
  obtain ⟨a₄, _, htop, hdone⟩ := Outcome.eq_ok_of_andThen hclose
  obtain ⟨rfl, -⟩ := Outcome.ok_inj hdone
  exact h.of_package hstep (hwalk.inside.inside hin) hframes htop hwalk.close ht hw

/-- Walking a unit into the shared catalog does what merging its own catalog does. -/
theorem shared_follow (h : Shared t s base m) (hroot : root.OneUnit)
    (hb : follow (started .lastWriteWins s path .depth) root.walk = .ok b' ())
    (ht : b'.store.Extends t) (hw : s.Widens t) :
    ∃ a', follow (startedIn base path .depth) root.walk = .ok a' () ∧
      Shared t b'.store a'.catalog (m.merge b'.catalog.table.entries) := by
  have hstart := inStep_started h path
  obtain ⟨a', ha, htrace⟩ := follow_of_shape ⟨hstart.sound, h.policy_eq⟩ ⟨hstart.own_sound, rfl⟩
    rfl hb
  have hrun := run_trace ha
  rw [htrace] at hrun
  refine ⟨a', ha, ?_⟩
  rcases hroot.packages with hp | ⟨hp, hc⟩
  · exact shared_of_no_package h hroot.program
      (Place.enclosed_of_no_package hroot.program hroot.programs hp) hb hrun ht hw
  · exact shared_of_package h hp hc hb hrun ht hw

end Java

end CodeAtlas
