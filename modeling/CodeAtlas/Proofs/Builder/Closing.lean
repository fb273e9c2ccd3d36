import CodeAtlas.Proofs.Builder.Effect

/-! # Closing components

The scope, suppression and the catalog after the innermost component has been closed, and the rule
by which a property that closing one component keeps is kept when many are closed.
-/

namespace CodeAtlas.Builder

variable {b b' : Builder} {frame : Frame} {below : List Frame}

def popped (b : Builder) (below : List Frame) (store : Store) : Builder :=
  { b with scope := ⟨below, b.scope.pushed⟩, catalog := b.catalog.withStore store }

theorem mem_of_openParent {name : String} {parent : ComponentId}
    (h : b.openParent below name = some parent) : ∃ f ∈ below, f.component = parent := by
  unfold openParent at h
  split at h
  · cases h
  · obtain ⟨inner, f, outer, e, _, rfl⟩ :=
      Scope.mem_openNames_iff.mp (Scope.mem_openNames_of_find? h)
    have e : below = inner ++ f :: outer := e
    exact ⟨f, e ▸ List.mem_append_right inner List.mem_cons_self, rfl⟩

theorem has_openParent {name : String} {parent : ComponentId}
    (hb : ∀ f ∈ below, b.store.Has f.component) (h : b.openParent below name = some parent) :
    b.store.Has parent := by
  obtain ⟨f, hm, rfl⟩ := mem_of_openParent h
  exact hb f hm

theorem attach_named (b : Builder) {id : ComponentId} (hi : b.store.Has id) (below : List Frame)
    (name : String) : (b.popped below (b.store.modify id (·.withName name))).attach id name =
      (b.popped below (attachedStore b.store id name (b.openParent below name)),
        b.openParent below name) := by
  by_cases hq : Dotted.qualifier name = ""
  · have hp : b.openParent below name = none := by simp [openParent, hq]
    rw [hp]
    simp [attach, hq, attachedStore]
  · have hfind : (b.popped below (b.store.modify id (·.withName name))).scope.find?
        (b.popped below (b.store.modify id (·.withName name))).store (Dotted.qualifier name) =
          b.openParent below name := by
      rw [openParent, if_neg hq]
      exact Scope.find?_congr (fun f _ => (attached_named hi name).label_eq f.component) _
    cases hp : b.openParent below name with
    | none => simp only [attach, if_neg hq, hfind, hp, attachedStore]
    | some parent =>
      simp only [attach, if_neg hq, hfind, hp]
      rfl

/-- Closing the innermost component names it, attaches it and places it in the catalog. -/
theorem closeTop_eq (hf : b.scope.frames = frame :: below)
    (hh : ∀ f ∈ b.scope.frames, b.store.Has f.component)
    (hq : (b.store.get frame.component).qualifiedName = none) {name : String}
    (hname : Scope.nameIn b.store frame below = name) {t : Store}
    (ht : t = attachedStore b.store frame.component name (b.openParent below name)) :
    Attached b.store t frame.component name (b.openParent below name) ∧
      b.closeTop =
        match Catalog.place (b.catalog.withStore t) name frame.component
          (b.openParent below name) with
        | (placed, .refused) => .fail { b.popped below t with catalog := placed }
            (.nameCollision name (b.store.get frame.component).sourceFile)
        | (placed, _) => .ok
            { b.popped below t with
              catalog := placed.note
                (.componentFinalized name (b.store.get frame.component).kind b.path) } () := by
  rw [hf] at hh
  have hi : b.store.Has frame.component := hh frame List.mem_cons_self
  have hattached : Attached b.store t frame.component name (b.openParent below name) := by
    rw [ht]
    exact attached hi name fun p => has_openParent fun f h => hh f (List.mem_cons_of_mem _ h)
  have ha := b.attach_named hi below name
  rw [← ht] at ha
  refine ⟨hattached, ?_⟩
  have hname' := hattached.qualifiedName_eq frame.component
  rw [if_pos rfl] at hname'
  have hsource := hattached.sourceFile_eq frame.component
  have hpopped : withStore { b with scope := ⟨below, b.scope.pushed⟩ }
      (b.store.modify frame.component (·.withName name)) =
      b.popped below (b.store.modify frame.component (·.withName name)) := rfl
  have hcatalog : (b.popped below t).catalog = b.catalog.withStore t := rfl
  unfold closeTop
  simp only [hf, hname, hq, hpopped, ha, hcatalog, Catalog.insert, Catalog.store_withStore, hname',
    hsource]
  rcases Catalog.place (b.catalog.withStore t) name frame.component
    (b.openParent below name) with ⟨placed, placement⟩
  cases placement <;> rfl

theorem frames_attach (b : Builder) (id : ComponentId) (name : String) :
    (b.attach id name).1.scope = b.scope := by
  unfold attach
  dsimp only
  split
  · rfl
  · split <;> rfl

theorem frames_closeTop (b : Builder) :
    b.closeTop.state.scope = ⟨b.scope.frames.tail, b.scope.pushed⟩ := by
  unfold closeTop
  split
  · rename_i h
    cases hs : b.scope
    simp_all [Outcome.fail]
  · rename_i frame below h
    dsimp only
    split
    · simp [Outcome.fail, h]
    · split <;> simp [Outcome.fail, Outcome.ok, frames_attach, withStore, h]

theorem closeMany_add (m n : Nat) (b : Builder) :
    closeMany (m + n) b = (closeMany m b).andThen (closeMany n) := by
  induction m generalizing b with
  | zero => rw [Nat.zero_add, closeMany, Outcome.andThen_ok]
  | succ m ih =>
    rw [Nat.succ_add, closeMany, closeMany, Outcome.andThen_assoc]
    exact congrArg b.closeTop.andThen (funext ih)

theorem suppression_attach (b : Builder) (id : ComponentId) (name : String) :
    (b.attach id name).1.suppression = b.suppression := by
  unfold attach
  dsimp only
  split
  · rfl
  · split <;> rfl

theorem suppression_closeTop (b : Builder) : b.closeTop.state.suppression = b.suppression := by
  unfold closeTop
  split
  · rfl
  · dsimp only
    split
    · rfl
    · split <;> simp [Outcome.fail, Outcome.ok, suppression_attach, withStore]

theorem suppression_closeMany (n : Nat) (b : Builder) :
    (closeMany n b).state.suppression = b.suppression := by
  induction n generalizing b with
  | zero => rfl
  | succ n ih =>
    unfold closeMany Outcome.andThen
    split
    · exact (ih _).trans b.suppression_closeTop
    · exact b.suppression_closeTop

/-- What closing one component keeps, closing many keeps. -/
theorem closeMany_state {I : Builder → Prop}
    (step : ∀ b, I b → b.scope.frames ≠ [] → I b.closeTop.state) (n : Nat) {b : Builder}
    (h : I b) (hn : n ≤ b.scope.frames.length) : I (closeMany n b).state := by
  induction n generalizing b with
  | zero => exact h
  | succ n ih =>
    have hne : b.scope.frames ≠ [] := by
      intro e
      simp [e] at hn
    have h' := step b h hne
    have hf := b.frames_closeTop
    unfold closeMany Outcome.andThen
    split
    · apply ih h'
      rw [hf, List.length_tail]
      omega
    · exact h'

theorem closeMany_keeps {I : Builder → Prop} {P : Frame → Prop}
    (step : ∀ b b' frame below, I b → b.scope.frames = frame :: below → P frame →
      b.closeTop = .ok b' () → I b') {n : Nat} (h : I b) (hp : ∀ f ∈ b.scope.frames.take n, P f)
    (hc : closeMany n b = .ok b' ()) : I b' := by
  induction n generalizing b with
  | zero =>
    obtain ⟨rfl, -⟩ := Outcome.ok_inj hc
    exact h
  | succ n ih =>
    obtain ⟨b₁, _, h₁, h₂⟩ := Outcome.eq_ok_of_andThen hc
    have hscope := b.frames_closeTop
    rw [h₁] at hscope
    cases hf : b.scope.frames with
    | nil =>
      rw [closeTop, hf] at h₁
      exact absurd h₁ Outcome.fail_ne_ok
    | cons frame below =>
      rw [hf, List.take_succ_cons, List.forall_mem_cons] at hp
      refine ih (step b b₁ frame below h hf hp.1 h₁) ?_ h₂
      rw [show b₁.scope = _ from hscope, hf]
      exact hp.2

theorem frames_of_closeMany {n : Nat} (h : closeMany n b = .ok b' ()) :
    b'.scope = ⟨b.scope.frames.drop n, b.scope.pushed⟩ := by
  induction n generalizing b with
  | zero =>
    obtain ⟨rfl, -⟩ := Outcome.ok_inj h
    rfl
  | succ n ih =>
    obtain ⟨b₁, _, h₁, h₂⟩ := Outcome.eq_ok_of_andThen h
    have hf := b.frames_closeTop
    rw [h₁] at hf
    rw [ih h₂, show b₁.scope = _ from hf]
    simp

end CodeAtlas.Builder
