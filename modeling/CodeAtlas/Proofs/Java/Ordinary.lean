import CodeAtlas.Proofs.Builder.Fresh
import CodeAtlas.Proofs.Builder.Housed
import CodeAtlas.Proofs.Java.Units

/-! # Ordinary units

A unit is ordinary if it has one program and at most one package, which leads it, and if no
declared name has a dot. The walk of an ordinary unit leaves a table that is ready to be merged, in
which its package lists all that is directly in it.
-/

namespace CodeAtlas

namespace Place

open Java

variable {p root : Place}

def GivesName (p : Place) : Prop :=
  (p.opens? none).isSome ∧ p.form.ownsDeclarators = false ∨ p.Declares

instance (p : Place) : Decidable p.GivesName :=
  inferInstanceAs (Decidable ((p.opens? none).isSome ∧ p.form.ownsDeclarators = false ∨ p.Declares))

/-- The place is that of one unit, and no declared name has a dot. -/
structure Ordinary (root : Place) : Prop extends root.OneUnit where
  names : ∀ p ∈ root.preorder, p.GivesName → Dotted.hasDot (p.fieldText "name") = false

instance (root : Place) : Decidable root.Ordinary :=
  decidable_of_iff (root.OneUnit ∧
    ∀ p ∈ root.preorder, p.GivesName → Dotted.hasDot (p.fieldText "name") = false)
    ⟨fun ⟨h, hn⟩ => ⟨h, hn⟩, fun ⟨h, hn⟩ => ⟨h, hn⟩⟩

theorem dotless_of_enriches {op : Op} (h : op.Enriches) : op.Dotless := by
  cases op with
  | enrich => trivial
  | _ => cases h

theorem dotless_exitOps (p : Place) : ∀ op ∈ p.exitOps, op.Dotless := by
  unfold exitOps
  split
  · simp [Op.Dotless]
  · split <;> simp [Op.Dotless]

theorem dotless_enterOps (h : p.GivesName → Dotted.hasDot (p.fieldText "name") = false)
    (e : Option Kind) : ∀ op ∈ p.enterOps e, op.Dotless := by
  have hentry := p.entry_enterOps e
  generalize p.enterOps e = ops at hentry
  cases hentry with
  | opens ho _ hrest =>
    refine List.forall_mem_cons.mpr ⟨?_, fun op hm => dotless_of_enriches (hrest op hm)⟩
    intro name hname
    unfold declaredName? at hname
    split at hname
    · cases hname
    · rename_i hown
      dsimp only at hname
      split at hname
      · cases hname
      · cases hname
        exact h (.inl ⟨ho, by simpa using hown⟩)
  | package | suppresses | imports => simp [Op.Dotless]
  | declares _ hd hrest =>
    exact List.forall_mem_cons.mpr ⟨h (.inr hd), fun op hm => dotless_of_enriches (hrest op hm)⟩
  | enriches _ _ _ _ _ hops => exact fun op hm => dotless_of_enriches (hops op hm)

theorem Ordinary.asks (h : root.Ordinary) : root.Asks Op.Dotless := by
  intro visit hv b
  cases visit with
  | enter p => exact dotless_enterOps (h.names p (mem_preorder_of_mem_walk hv)) _
  | exit p => exact p.dotless_exitOps

theorem asks_of_childless_comment {c : Place} (hf : c.form = .comment)
    (hc : c.node.children.isEmpty) : c.Asks fun _ => False := by
  have hchildren : c.namedChildren = [] := by
    rw [namedChildren, children, List.isEmpty_iff.mp hc]
    rfl
  intro visit hv b op hop
  rw [walk_eq, hchildren] at hv
  simp only [List.flatMap_nil, List.nil_append, List.mem_cons, List.not_mem_nil, or_false] at hv
  rcases hv with rfl | rfl
  · simp [opsFor, enterOps, opens?, hf, Form.opens?, usageOps] at hop
  · simp [opsFor, exitOps, opens?, hf, Form.opens?] at hop

theorem asks_of_leading_comments
    (hc : ∀ c ∈ root.namedChildren.takeWhile (·.form == .comment), c.node.children.isEmpty)
    {before after : List Place} {package : Place}
    (hsplit : root.namedChildren = before ++ package :: after)
    (hbefore : ∀ c ∈ before, c.form = .comment) :
    ∀ c ∈ before, c.Asks fun _ => False := by
  intro c hm
  refine asks_of_childless_comment (hbefore c hm) (hc c ?_)
  rw [hsplit, List.takeWhile_append_of_pos fun c hm => by simpa using hbefore c hm]
  exact List.mem_append_left _ hm

end Place

namespace Java

open Builder

variable {policy : CollisionPolicy} {store : Store} {path : String} {root : Place} {b b' : Builder}

theorem labelled_started (h : ∀ id, (store.get id).NamedByParent) (mode : Suppression.Mode) :
    Labelled (started policy store path mode) :=
  ⟨fun _ _ _ e => absurd e (by simp [started, builder, start]), h⟩

theorem fresh_started (mode : Suppression.Mode) :
    Fresh store (started policy store path mode) := by
  refine ⟨.refl store, nofun, nofun, fun id hi child hm => ?_⟩
  have hget : (started policy store path mode).store.get id = default := Store.get_of_not_has hi
  rw [hget] at hm
  cases hm

theorem eq_of_inner_nothing {ops : List Op} (h : Inner (fun _ => False) 0 b ops b') :
    ops = [] ∧ b' = b := by
  cases h with
  | nil => exact ⟨rfl, rfl⟩
  | cons hno => exact hno.elim

theorem bundle_of_package (h : root.Ordinary) (hp : root.LeadsWithPackage)
    (hc : ∀ c ∈ root.namedChildren.takeWhile (·.form == .comment), c.node.children.isEmpty)
    (hs : ∀ id, (store.get id).NamedByParent)
    (hf : follow (started policy store path .depth) root.walk = .ok b' ()) :
    ∃ package?, Bundle b'.store b'.catalog.table package? := by
  obtain ⟨before, package, after, hsplit, hcomments, hpackage, hbefore, hinside, hafter⟩ := hp.split
  have hmem (c : Place) (hc : c ∈ package :: after) : c.Asks Op.Dotless :=
    h.asks.child (hsplit ▸ List.mem_append_right _ hc)
  obtain ⟨prov, _, _, b₁, b₃, hw⟩ := packageWalk h.program hsplit hpackage
    (fun c hm => ⟨hbefore c hm, Place.asks_of_leading_comments hc hsplit hcomments c hm⟩)
    (fun c hm => ⟨hinside c hm, (hmem package List.mem_cons_self).child hm⟩)
    (fun c hm => ⟨hafter c hm, hmem c (List.mem_cons_of_mem _ hm)⟩)
    (ready_started policy store path) rfl rfl hf
  obtain ⟨-, rfl⟩ := eq_of_inner_nothing hw.leading
  have he := emptied_inPackage hw.frames_before package.dottedName
  have hhoused := housed_package ((sound_started policy store path .depth).vacate he.toVacated)
    ((labelled_started hs .depth).vacate he.toVacated)
    ((lone_started policy store path .depth).vacate he.toVacated) he.frames_eq
    (get?_started policy store path .depth)
    ((started policy store path .depth).blank_package package.dottedName prov) rfl
  have hhoused := hw.inside.keeps (fun _ _ _ _ hr hw hstep h => Housed.step h hr hw hstep) hhoused
  exact ⟨_, hhoused.bundle (hw.frames_inside.trans (frames_packaged hw.frames_before _ _)) hw.close⟩

theorem bundle_of_no_package (h : root.Ordinary)
    (hp : root.preorder.countP (·.form == .packageDeclaration) = 0)
    (hs : ∀ id, (store.get id).NamedByParent)
    (hf : follow (started policy store path .depth) root.walk = .ok b' ()) :
    Bundle b'.store b'.catalog.table none := by
  have henclosed (c : Place) (hc : c ∈ root.namedChildren) : Enclosed c ∧ c.Asks Op.Dotless :=
    ⟨Place.enclosed_of_no_package h.program h.programs hp c hc, h.asks.child hc⟩
  obtain ⟨_, -, hinner, -⟩ := follow_unit_of_no_package h.program henclosed
    (ready_started policy store path) rfl rfl hf
  obtain ⟨hsound, hlabelled, hlone⟩ := hinner.keeps
    (I := fun b => Sound b ∧ Labelled b ∧ Lone none 0 b)
    (fun b b' op reply hr hw hstep ⟨hs, hl, hlone⟩ => by
      have hs' := hs.step op
      have hl' := hl.step hs hr
      rw [hstep] at hs' hl'
      exact ⟨hs', hl', hlone.advance hs (hw.advance hstep)⟩)
    ⟨sound_started policy store path .depth, labelled_started hs .depth,
      lone_started policy store path .depth⟩
  refine ⟨⟨b'.catalog.table.entries, by simp, ?_⟩, hsound.named, ?_, nofun, nofun, nofun⟩
  · rintro ⟨n, id⟩ hm hk
    cases hlone.named n id (Table.mem_entries_iff.mp hm) hk
  · exact fun n id hi hk => (hlabelled.names id).parentName_eq (hsound.named n id hi).2 hk

theorem bundle_follow (h : root.Ordinary) (hs : ∀ id, (store.get id).NamedByParent)
    (hf : follow (started policy store path .depth) root.walk = .ok b' ()) :
    ∃ package?, Bundle b'.store b'.catalog.table package? := by
  rcases h.packages with hp | ⟨hp, hc⟩
  · exact ⟨none, bundle_of_no_package h hp hs hf⟩
  · exact bundle_of_package h hp hc hs hf

/-- However the walk of an ordinary unit ends, it leaves the components of the store as they were,
and all components are named by their parents. If it gets to its end, it leaves a bundle of new
components. -/
theorem walk_ordinary {file : SourceFile} (h : file.root.Ordinary)
    (hs : ∀ id, (store.get id).NamedByParent) {strict : Bool} {catalog : Catalog}
    {result : Except Fault Unit}
    (hw : walk (.empty policy store) file .depth strict = ⟨catalog, result⟩) :
    store.Extends catalog.store ∧ (∀ id, (catalog.store.get id).NamedByParent) ∧
      (result = .ok () → (∃ package?, Bundle catalog.store catalog.table package?) ∧
        ∀ n id, catalog.get? n = some id → ¬ store.Has id) := by
  rcases walk_cases policy store file .depth strict with ⟨path, cause, line, hfail⟩ | hfollow
  · rw [hfail] at hw
    cases hw
    exact ⟨.refl store, hs, nofun⟩
  · rw [hfollow] at hw
    have hkept := follow_state (I := fun b => Sound b ∧ Labelled b ∧ Fresh store b)
      (fun b op hr ⟨h₁, h₂, h₃⟩ => ⟨h₁.step op, h₂.step h₁ hr, h₃.step h₁ op⟩) h.asks
      ⟨sound_started policy store file.path .depth, labelled_started hs .depth,
        fresh_started .depth⟩
    have hbundle (b' : Builder)
        (hf : follow (started policy store file.path .depth) file.root.walk = .ok b' ()) :=
      bundle_follow h hs hf
    generalize follow (started policy store file.path .depth) file.root.walk = done at *
    obtain ⟨b, result⟩ := done
    obtain ⟨-, hlabelled, hfresh⟩ := hkept
    cases result with
    | error =>
      cases hw
      exact ⟨hfresh.kept, hlabelled.names, nofun⟩
    | ok =>
      cases hw
      exact ⟨hfresh.kept, hlabelled.names, fun _ => ⟨hbundle b rfl, hfresh.named⟩⟩

end Java

end CodeAtlas
