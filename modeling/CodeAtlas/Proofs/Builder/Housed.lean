import CodeAtlas.Proofs.Builder.Inside
import CodeAtlas.Proofs.Builder.Naming
import CodeAtlas.Proofs.Catalog.Merging

/-! # What a package lists

While a package is the outermost open component and no name has a dot, it lists exactly those
components of the catalog that have its name as their parent's name.
-/

namespace CodeAtlas.Builder

variable {b b' : Builder} {frame : Frame} {below : List Frame} {c : Component} {k : Nat}
  {package : ComponentId} {name : String}

structure Filled (package : ComponentId) (name : String) (b : Builder) : Prop where
  kind_eq : (b.store.get package).kind = .package
  attached : ∀ n id, b.catalog.get? n = some id → ∃ p, (b.store.get id).parentName = some p
  nodup : (b.store.get package).children.Nodup
  lists : ∀ child, child ∈ (b.store.get package).children ↔
    (∃ n, b.catalog.get? n = some child) ∧ (b.store.get child).parentName = some name

theorem Filled.of_eq (h : Filled package name b) (hg : ∀ n, b'.catalog.get? n = b.catalog.get? n)
    (hk : (b'.store.get package).kind = (b.store.get package).kind)
    (hp : ∀ id, (b'.store.get id).parentName = (b.store.get id).parentName)
    (hc : (b'.store.get package).children = (b.store.get package).children) :
    Filled package name b' where
  kind_eq := hk.trans h.kind_eq
  attached := by simpa only [hg, hp] using h.attached
  nodup := by simpa only [hc] using h.nodup
  lists := by simpa only [hc, hg, hp] using h.lists

theorem Filled.adding (h : Filled package name b) (hb : c.Blank) (hh : b.store.Has package) :
    Filled package name (b.adding frame c) := by
  refine h.of_eq (fun _ => rfl) ?_ (fun id => ?_) ?_
  · rw [store_adding, Store.get_add_of_has hh]
  · rw [store_adding, Store.get_add]
    split
    · rename_i e
      rw [e, hb.parentName_eq, Store.get_of_not_has (b.store.not_has_new c)]
      rfl
    · rfl
  · rw [store_adding, Store.get_add_of_has hh]

theorem Filled.enrich (h : Filled package name b) {id : ComponentId} {f : Component → Component}
    (hf : Component.Enriched f) : Filled package name (b.withStore (b.store.modify id f)) :=
  h.of_eq (fun _ => rfl) (Store.field_modify Component.kind hf.kind_eq _)
    (Store.field_modify Component.parentName hf.parentName_eq)
    (Store.field_modify Component.children hf.children_eq _)

/-- What holds while the operations of a walk stay inside a package and give no name with a dot. -/
structure Housed (package : ComponentId) (name : String) (k : Nat) (b : Builder) : Prop
    extends Inside package name k b where
  labelled : Labelled b
  filled : Filled package name b

theorem housed_package (hs : Sound b) (hl : Labelled b) (hlone : Lone none k b)
    (hf : b.scope.frames = []) (hempty : ∀ n, b.catalog.get? n = none) (hc : c.Blank)
    (hk : c.kind = .package) :
    Housed (b.store.add c).2 c.label (b.adding (b.innerFrame c) c).scope.pushed
      (b.adding (b.innerFrame c) c) := by
  have hnew : (b.adding (b.innerFrame c) c).store.get (b.store.add c).2 = c :=
    Store.get_add_new b.store c
  refine ⟨inside_package hs hlone hf hempty hc,
    hl.adding hs hc (hs.fits_inner c) (.inr ⟨hf, hk⟩), ?_⟩
  constructor
  · rw [hnew, hk]
  · intro n id hi
    rw [get?_adding, hempty] at hi
    cases hi
  · rw [hnew, hc.children_eq]
    exact List.nodup_nil
  · intro child
    simp [hc.children_eq, hempty]

/-- A component in a package is attached to the package exactly if its name is cut where that one
ends. -/
structure Lodged (package : ComponentId) (name : String) (b : Builder) (frame : Frame)
    (below : List Frame) (n : String) : Prop where
  isSome : (b.openParent below n).isSome
  parent_iff : b.openParent below n = some package ↔ Dotted.qualifier n = name

theorem Housed.lodged (h : Housed package name k b) (hf : b.scope.frames = frame :: below)
    (hne : frame.component ≠ package) {n : String}
    (hname : Scope.nameIn b.store frame below = n) : Lodged package name b frame below n := by
  obtain ⟨more, root, rfl, rfl, hroot, hparents⟩ := h.outermost.split hf hne
  have hdistinct := h.sound.distinct
  rw [hf] at hdistinct
  have hfind : Scope.find? ⟨more ++ [root], b.scope.pushed⟩ b.store name = some root.component := by
    rw [← h.label_eq]
    exact Scope.find?_outermost hroot more b.scope.pushed
  obtain ⟨-, hdistinct⟩ := List.nodup_cons.mp hdistinct
  rcases h.labelled.openParent_cases h.sound hf hname with ⟨hnone, -⟩ | ⟨parent, hp, hq, -, -⟩
  · exact absurd hnone (hparents frame List.mem_cons_self)
  refine ⟨by rw [hp]; rfl, fun e => ?_, fun e => ?_⟩
  · rw [openParent, if_neg hq] at e
    exact Scope.openNames_unique hdistinct (Scope.mem_openNames_of_find? e)
      (Scope.mem_openNames_of_find? hfind)
  · rw [openParent, if_neg hq, e]
    exact hfind

section Closing

variable {n : String} {t : Store} {after : Catalog} {placement : Placement}

theorem Housed.not_mem_children (h : Housed package name k b) (hf : frame ∈ b.scope.frames) :
    frame.component ∉ (b.store.get package).children := by
  intro hm
  obtain ⟨⟨n, hi⟩, -⟩ := (h.filled.lists _).mp hm
  exact h.sound.ne_open hi hf rfl

theorem Housed.qualifier_of_mem (h : Housed package name k b) {existing : ComponentId}
    (hi : b.catalog.get? n = some existing) (hm : existing ∈ (b.store.get package).children) :
    Dotted.qualifier n = name := by
  have hq := (h.sound.named n existing hi).2
  -- The only package is still open, so that the catalog does not have it.
  have hk : (b.store.get existing).kind ≠ .package := by
    intro hk
    obtain rfl := Option.some.inj (h.lone.named n existing hi hk)
    obtain ⟨more, root, hframes, rfl, -⟩ := h.outermost
    exact h.sound.ne_open hi (by simp [hframes]) rfl
  have hp := ((h.filled.lists existing).mp hm).2
  rw [(h.labelled.names existing).parentName_eq hq hk, Dotted.parent?] at hp
  split at hp
  · cases hp
  · exact Option.some.inj hp

/-- After a component has been closed, the package lists what it listed and what has been attached
to it, but for a component that has been replaced. -/
theorem Housed.mem_children_iff (h : Housed package name k b)
    (hc : Closing b frame below n t after placement) (hl : Lodged package name b frame below n)
    (ha : placement ≠ .absorbed) (hr : placement ≠ .refused) (child : ComponentId) :
    child ∈ (after.store.get package).children ↔
      (child ∈ (b.store.get package).children ∨
        child = frame.component ∧ Dotted.qualifier n = name) ∧
      b.catalog.get? n ≠ some child := by
  have hattach : child ∈ (t.get package).children ↔ child ∈ (b.store.get package).children ∨
      child = frame.component ∧ Dotted.qualifier n = name := by
    rw [hc.attached.children_eq, ← hl.parent_iff]
    split <;> simp_all
  rw [← hattach]
  cases placement with
  | added =>
    obtain ⟨hnone, rfl⟩ := hc.placed.of_added
    have hnone : b.catalog.get? n = none := hnone
    simp [hnone]
  | absorbed => exact absurd rfl ha
  | refused => exact absurd rfl hr
  | replaced =>
    obtain ⟨existing, he, -, rfl⟩ := hc.placed.of_replaced
    have he : b.catalog.get? n = some existing := he
    rw [Catalog.children_replace]
    split
    · simp [he, eq_comm (a := child)]
    · rename_i hno
      have hnot : existing ∉ (t.get package).children := by
        intro hm
        rcases hc.attached.mem_children hm with hm | ⟨-, hp⟩
        · exact hno (.inl (hl.parent_iff.mpr (h.qualifier_of_mem he hm)))
        · exact hno (.inl hp)
      refine ⟨fun hm => ⟨hm, fun e => ?_⟩, And.left⟩
      obtain rfl := Option.some.inj (he.symm.trans e)
      exact hnot hm

theorem Housed.filled_closing (h : Housed package name k b)
    (hc : Closing b frame below n t after placement) (hl : Lodged package name b frame below n)
    (hr : placement ≠ .refused) : Filled package name b.closeTop.state := by
  have hframe : frame ∈ b.scope.frames := by simp [hc.frames_eq]
  have ha := h.lone.not_absorbed h.sound hc
  have hstore : b.closeTop.state.store = after.store := hc.store_eq
  have hget (m : String) : b.closeTop.state.catalog.get? m =
      if m = n then some frame.component else b.catalog.get? m := by
    rw [Catalog.get?, hc.table_eq]
    exact hc.get?_eq ha hr m
  have hparent (id : ComponentId) : (after.store.get id).parentName =
      if id = frame.component then some (Dotted.qualifier n) else (b.store.get id).parentName := by
    rw [hc.alike.parentName_eq, hc.attached.parentName_eq]
    simp [hl.isSome]
  constructor
  · rw [hstore, hc.alike.kind_eq, hc.attached.kind_eq]
    exact h.filled.kind_eq
  · intro m id hi
    rw [hstore, hparent]
    split
    · exact ⟨_, rfl⟩
    · rename_i hne
      rw [hget] at hi
      split at hi
      · exact absurd (Option.some.inj hi).symm hne
      · exact h.filled.attached m id hi
  · rw [hstore]
    refine List.Nodup.sublist (hc.children_sublist ha package) ?_
    exact hc.attached.nodup_children h.filled.nodup (h.not_mem_children hframe)
  · intro child
    rw [hstore, h.mem_children_iff hc hl ha hr, hparent]
    by_cases e : child = frame.component
    · subst e
      have hnone : b.catalog.get? n ≠ some frame.component := fun hi =>
        h.sound.ne_open hi hframe rfl
      have hcurrent : ∃ m, b.closeTop.state.catalog.get? m = some frame.component :=
        ⟨n, by rw [hget, if_pos rfl]⟩
      simp [h.not_mem_children hframe, hnone, hcurrent]
    · have hcurrent : (∃ m, b.closeTop.state.catalog.get? m = some child) ↔
          (∃ m, b.catalog.get? m = some child) ∧ b.catalog.get? n ≠ some child := by
        simp only [hget]
        constructor
        · rintro ⟨m, hm⟩
          split at hm
          · exact absurd (Option.some.inj hm).symm e
          · exact ⟨⟨m, hm⟩, fun hn => absurd (h.sound.name_unique hm hn) ‹_›⟩
        · rintro ⟨⟨m, hm⟩, hn⟩
          refine ⟨m, ?_⟩
          rw [if_neg, hm]
          rintro rfl
          exact hn hm
      simp only [e, false_and, or_false, if_false, h.filled.lists child, hcurrent]
      exact and_right_comm

end Closing

theorem Housed.closeTop (h : Housed package name k b) (hf : b.scope.frames = frame :: below)
    (hne : frame.component ≠ package) (hc : b.closeTop = .ok b' ()) : Housed package name k b' := by
  obtain ⟨n, t, after, placement, hclosing⟩ := h.sound.closing hf
  have hr : placement ≠ .refused := by
    intro e
    have hresult := hclosing.result_eq
    rw [hc, if_pos e] at hresult
    cases hresult
  have hfilled := h.filled_closing hclosing (h.lodged hf hne hclosing.name_eq) hr
  have hlabelled := h.labelled.closeTop h.sound (by simp [hf])
  rw [hc] at hfilled hlabelled
  exact ⟨h.toInside.closeTop hf hne hc, hlabelled, hfilled⟩

theorem Housed.step (h : Housed package name k b) {op : Op} {reply : Reply} (ho : op.Dotless)
    (hw : Within k b op) (hstep : b.step op = .ok b' reply) : Housed package name k b' := by
  have hsound := h.sound.step op
  have hlabelled := h.labelled.step h.sound ho
  rw [hstep] at hsound hlabelled
  have ha := hw.advance hstep
  refine ⟨h.toInside.advance hsound ha, hlabelled, ?_⟩
  have hhas := h.outermost.has h.sound
  cases ha with
  | still ha =>
    have hstore : b'.store = b.store := congrArg Catalog.store ha.catalog_eq
    refine h.filled.of_eq (fun n => by rw [ha.catalog_eq]) ?_ ?_ ?_
    · rw [hstore]
    · exact fun id => by rw [hstore]
    · rw [hstore]
  | inside hb => exact h.filled.adding hb hhas
  | renamed declared ht hk =>
    obtain ⟨below, hf⟩ := frames_of_top? ht
    have hne := h.ne_package (by simp [hf]) hk
    refine h.filled.of_eq (fun _ => rfl) ?_ ?_ ?_
    · rw [store_withStore, Store.get_modify_of_ne hne.symm]
    · exact Store.field_modify Component.parentName fun _ => rfl
    · rw [store_withStore, Store.get_modify_of_ne hne.symm]
  | beside _ _ hb => exact h.filled.adding hb hhas
  | enriched id hf => exact h.filled.enrich hf
  | closed ht hk hc =>
    have hkept := closeMany_keeps (I := Housed package name k) (P := fun f => k ≤ f.group)
      (fun b b' frame below h hf hk hc => h.closeTop hf (h.ne_package (by simp [hf]) hk) hc)
      h (fun f hm => (h.sound.group_of_mem_take ht f hm).symm ▸ hk) hc
    exact hkept.filled

/-- When the package is closed in the end, the catalog has it last. -/
theorem Housed.bundle (h : Housed package name k b) (hf : b.scope.frames = [frame])
    (hc : b.closeTop = .ok b' ()) :
    Bundle b'.store b'.catalog.table (some (name, package)) := by
  obtain ⟨hpackage, ha, hfree, htable⟩ := h.close_package hf hc
  have hframe : frame ∈ b.scope.frames := by simp [hf]
  have hne : b.scope.frames ≠ [] := by simp [hf]
  have hsound := h.sound.closeTop hne
  have hlabelled := h.labelled.closeTop h.sound hne
  rw [hc] at hsound hlabelled
  have hopen {n : String} {id : ComponentId} (hi : b.catalog.get? n = some id) : id ≠ package :=
    hpackage ▸ h.sound.ne_open hi hframe
  have hparent (id : ComponentId) :
      (b'.store.get id).parentName = (b.store.get id).parentName := by
    rw [ha.parentName_eq]
    simp
  have hroot : (b'.store.get package).parentName = none := by
    rw [hparent, ← hpackage]
    exact h.sound.unattached frame hframe
  have hchildren : (b'.store.get package).children = (b.store.get package).children := by
    rw [ha.children_eq]
    simp
  constructor
  · refine ⟨b.catalog.table.entries, by rw [htable, Table.entries_put hfree]; rfl, ?_⟩
    rintro ⟨n, id⟩ hm hk
    have hi := Table.mem_entries_iff.mp hm
    rw [ha.kind_eq] at hk
    exact hopen hi (Option.some.inj (h.lone.named n id hi hk)).symm
  · exact hsound.named
  · exact fun n id hi hk => (hlabelled.names id).parentName_eq (hsound.named n id hi).2 hk
  · rintro _ _ ⟨⟩
    refine ⟨?_, hroot⟩
    rw [ha.kind_eq]
    exact h.filled.kind_eq
  · rintro _ _ ⟨⟩
    rw [hchildren]
    exact h.filled.nodup
  · rintro _ _ ⟨⟩ child
    rw [hchildren, h.filled.lists, hparent, and_congr_left_iff]
    intro hp
    simp only [htable, Table.get?_put]
    constructor
    · rintro ⟨n, hi⟩
      refine ⟨n, ?_⟩
      rw [if_neg]
      · exact hi
      · rintro rfl
        rw [hfree] at hi
        cases hi
    · rintro ⟨n, hi⟩
      split at hi
      · cases hi
        rw [hparent, hp] at hroot
        cases hroot
      · exact ⟨n, hi⟩

end CodeAtlas.Builder
