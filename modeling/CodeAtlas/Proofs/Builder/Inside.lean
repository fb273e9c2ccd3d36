import CodeAtlas.Proofs.Builder.Owners

/-! # Inside a package

While a package is the outermost open component, all others are nested in it. What is closed then
gets a longer name than the package's own, so that name is free when the package is closed.
-/

namespace CodeAtlas.Builder

variable {b b' : Builder} {frame : Frame} {below : List Frame} {c : Component} {k : Nat}
  {package : ComponentId} {name : String}

def Outermost (package : ComponentId) (b : Builder) : Prop :=
  ∃ more root, b.scope.frames = more ++ [root] ∧ root.component = package ∧ root.parent = none ∧
    ∀ f ∈ more, f.parent ≠ none

theorem Outermost.has (h : Outermost package b) (hs : Sound b) : b.store.Has package := by
  obtain ⟨more, root, hframes, rfl, -⟩ := h
  exact hs.has root (by simp [hframes])

theorem Outermost.push (h : Outermost package b) (hf : b'.scope.frames = frame :: b.scope.frames)
    (hp : frame.parent ≠ none) : Outermost package b' := by
  obtain ⟨more, root, hframes, hroot, hnone, hparents⟩ := h
  refine ⟨frame :: more, root, by rw [hf, hframes]; rfl, hroot, hnone, ?_⟩
  exact List.forall_mem_cons.mpr ⟨hp, hparents⟩

theorem Outermost.split (h : Outermost package b) (hf : b.scope.frames = frame :: below)
    (hne : frame.component ≠ package) : ∃ more root, below = more ++ [root] ∧
      root.component = package ∧ root.parent = none ∧ ∀ f ∈ frame :: more, f.parent ≠ none := by
  obtain ⟨more, root, hframes, hroot, hnone, hparents⟩ := h
  rw [hf] at hframes
  cases more with
  | nil =>
    obtain ⟨rfl, -⟩ := List.cons.inj hframes
    exact absurd hroot hne
  | cons f more =>
    obtain ⟨rfl, rfl⟩ := List.cons.inj hframes
    exact ⟨more, root, rfl, hroot, hnone, hparents⟩

/-- The operations stay inside the package, and all names of the catalog are longer than its. -/
structure Inside (package : ComponentId) (name : String) (k : Nat) (b : Builder) : Prop where
  sound : Sound b
  lone : Lone (some package) k b
  outermost : Outermost package b
  label_eq : (b.store.get package).label = name
  longer : ∀ n id, b.catalog.get? n = some id → name.length < n.length

theorem inside_package (hs : Sound b) (hlone : Lone none k b) (hf : b.scope.frames = [])
    (hempty : ∀ n, b.catalog.get? n = none) (hc : c.Blank) :
    Inside (b.store.add c).2 c.label (b.adding (b.innerFrame c) c).scope.pushed
      (b.adding (b.innerFrame c) c) := by
  refine ⟨hs.adding hc (hs.fits_inner c), hlone.package hs hf,
    ⟨[], b.innerFrame c, ?_, rfl, ?_, by simp⟩, ?_, ?_⟩
  · rw [frames_adding, hf]
    rfl
  · simp [innerFrame, Scope.top?, hf]
  · rw [store_adding, Store.get_add_new]
  · intro n id hi
    rw [get?_adding, hempty] at hi
    cases hi

theorem Inside.ne_package (h : Inside package name k b) {f : Frame} (hf : f ∈ b.scope.frames)
    (hk : k ≤ f.group) : f.component ≠ package := by
  intro e
  have hlt := h.lone.outer f hf (by rw [e])
  omega

theorem Inside.parent_top (h : Inside package name k b) {top : Frame}
    (ht : b.scope.top? = some top) (hk : k ≤ top.group) : top.parent ≠ none := by
  obtain ⟨below, hf⟩ := frames_of_top? ht
  obtain ⟨more, root, -, -, -, hparents⟩ :=
    h.outermost.split hf (h.ne_package (by simp [hf]) hk)
  exact hparents top List.mem_cons_self

theorem Inside.length_lt (h : Inside package name k b) (hf : b.scope.frames = frame :: below)
    (hne : frame.component ≠ package) :
    name.length < (Scope.nameIn b.store frame below).length := by
  obtain ⟨more, root, rfl, rfl, hroot, hparents⟩ := h.outermost.split hf hne
  have hnested := h.sound.nested
  rw [hf] at hnested
  rw [← h.label_eq]
  exact hnested.length_nameIn hroot hparents

theorem Inside.closeTop (h : Inside package name k b) (hf : b.scope.frames = frame :: below)
    (hne : frame.component ≠ package) (hc : b.closeTop = .ok b' ()) :
    Inside package name k b' := by
  have hframes : b.scope.frames ≠ [] := by simp [hf]
  obtain ⟨n, t, after, placement, hclosing⟩ := h.sound.closing hf
  have hsound := h.sound.closeTop hframes
  have hlone := h.lone.closeTop h.sound hframes
  have hscope := hclosing.scope_eq
  have hstore := hclosing.store_eq
  have htable := hclosing.table_eq
  rw [hc] at hsound hlone hscope hstore htable
  have hstore : b'.store = after.store := hstore
  obtain ⟨more, root, hbelow, hroot, hnone, hparents⟩ := h.outermost.split hf hne
  refine ⟨hsound, hlone, ⟨more, root, ?_, hroot, hnone, ?_⟩, ?_, fun m id hi => ?_⟩
  · rw [show b'.scope = _ from hscope]
    exact hbelow
  · exact fun f hm => hparents f (List.mem_cons_of_mem _ hm)
  · rw [hstore, hclosing.alike.label_eq, hclosing.attached.label_eq]
    exact h.label_eq
  · rw [Catalog.get?, show b'.catalog.table = _ from htable] at hi
    rcases hclosing.get?_cases hi with hi | ⟨rfl, -⟩
    · exact h.longer m id hi
    · rw [← hclosing.name_eq]
      exact h.length_lt hf hne

theorem Inside.advance (h : Inside package name k b) (hs : Sound b') (ha : Advance k b b') :
    Inside package name k b' := by
  have hlone := h.lone.advance h.sound ha
  have hhas := h.outermost.has h.sound
  have hadd {frame : Frame} {c : Component} :
      ((b.adding frame c).store.get package).label = name := by
    rw [store_adding, Store.get_add_of_has hhas]
    exact h.label_eq
  cases ha with
  | still ha =>
    refine ⟨hs, hlone, ?_, ?_, ?_⟩
    · rw [Outermost, ha.scope_eq]
      exact h.outermost
    · rw [store, ha.catalog_eq]
      exact h.label_eq
    · rw [ha.catalog_eq]
      exact h.longer
  | inside =>
    refine ⟨hs, hlone, h.outermost.push rfl ?_, hadd, h.longer⟩
    obtain ⟨more, root, hframes, -⟩ := h.outermost
    cases more <;> simp [innerFrame, Scope.top?, hframes]
  | renamed declared ht hk =>
    obtain ⟨below, hf⟩ := frames_of_top? ht
    have hne := h.ne_package (by simp [hf]) hk
    refine ⟨hs, hlone, h.outermost, ?_, h.longer⟩
    rw [store_withStore, Store.get_modify_of_ne hne.symm]
    exact h.label_eq
  | beside ht hk =>
    have hparent := h.parent_top ht hk
    exact ⟨hs, hlone, h.outermost.push rfl hparent, hadd, h.longer⟩
  | enriched _ hf =>
    refine ⟨hs, hlone, h.outermost, ?_, h.longer⟩
    exact (Store.field_modify Component.label
      (fun c => by simp only [Component.label, hf.shortName_eq]) _).trans h.label_eq
  | closed ht hk hc =>
    exact closeMany_keeps (P := fun f => k ≤ f.group)
      (fun b b' frame below h hf hk hc =>
        h.closeTop hf (h.ne_package (by simp [hf]) hk) hc)
      h (fun f hm => (h.sound.group_of_mem_take ht f hm).symm ▸ hk) hc

/-- A package is closed under its own name, which nothing of the catalog has, and without a
parent. -/
theorem Inside.closing_package (h : Inside package name k b) (hf : b.scope.frames = [frame]) :
    frame.component = package ∧ b.openParent [] name = none ∧ b.catalog.get? name = none ∧
      ∃ t after placement, Closing b frame [] name t after placement := by
  obtain ⟨more, root, hframes, rfl, hroot, -⟩ := h.outermost
  obtain rfl : root = frame := by
    rw [hf] at hframes
    cases more with
    | nil => exact (List.cons.inj hframes).1.symm
    | cons => simp at hframes
  obtain ⟨n, t, after, placement, hclosing⟩ := h.sound.closing hf
  obtain rfl : n = name := by
    rw [← hclosing.name_eq, Scope.nameIn_of_parent_none hroot, h.label_eq]
  refine ⟨rfl, ?_, ?_, t, after, placement, hclosing⟩
  · unfold openParent
    split <;> rfl
  · cases e : b.catalog.get? n with
    | none => rfl
    | some id => exact absurd (h.longer n id e) (lt_irrefl _)

theorem Inside.close_package (h : Inside package name k b) (hf : b.scope.frames = [frame])
    (hc : b.closeTop = .ok b' ()) :
    frame.component = package ∧ Attached b.store b'.store package name none ∧
      b.catalog.get? name = none ∧ b'.catalog.table = b.catalog.table.put name package := by
  obtain ⟨rfl, hparent, hfree, t, after, placement, hclosing⟩ := h.closing_package hf
  obtain rfl := hclosing.eq_added hfree
  have hattached := hclosing.attached
  have hstore := hclosing.store_eq
  have htable := hclosing.table_eq
  rw [hparent] at hattached
  rw [hc] at hstore htable
  refine ⟨rfl, ?_, hfree, htable⟩
  rw [show b'.store = t from hstore]
  exact hattached

end CodeAtlas.Builder
