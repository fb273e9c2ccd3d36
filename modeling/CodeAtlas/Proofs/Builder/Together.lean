import CodeAtlas.Proofs.Builder.Gathering
import CodeAtlas.Proofs.Builder.Shape

/-! # Components opened together

The components that a declaration names are opened one beside the other, in one group. While they
are open, only the newest one changes.
-/

namespace CodeAtlas

theorem Store.modify_add_new (store : Store) (c : Component) (f : Component → Component) :
    (store.add c).1.modify (store.add c).2 f = (store.add (f c)).1 := by
  have hhas : (store.add c).1.Has (store.add c).2 := has_add_iff.mpr (.inr rfl)
  apply eq_of_get
  · simp [add, modify]
  · intro id _
    by_cases hid : id = (store.add c).2
    · rw [hid, get_modify_self hhas, get_add_new]
      exact (get_add_new store (f c)).symm
    · rw [get_modify_of_ne hid, get_add, if_neg hid, get_add]
      exact (if_neg hid).symm

def namingOps (decls : List (String × List Enrichment)) : List Op :=
  decls.flatMap fun decl => .nameDeclarator decl.1 :: decl.2.map .enrich

namespace Builder

variable {b : Builder} {c : Component} {older : List Component}

def memberFrame (b : Builder) (n : Nat) : Frame :=
  ⟨b.scope.pushed + n, ⟨b.store.cells.size + n⟩, b.scope.top?.map Frame.slot, b.scope.pushed⟩

def together (b : Builder) : List Component → Builder
  | [] => b
  | c :: older => (b.together older).adding (b.memberFrame older.length) c

def memberFrames (b : Builder) : Nat → List Frame
  | 0 => []
  | n + 1 => b.memberFrame n :: b.memberFrames n

theorem size_together (b : Builder) (cs : List Component) :
    (b.together cs).store.cells.size = b.store.cells.size + cs.length := by
  induction cs with
  | nil => rfl
  | cons c older ih =>
    rw [together, store_adding, Store.add, Array.size_push, ih, List.length_cons, Nat.add_assoc]

theorem scope_together (b : Builder) (cs : List Component) : (b.together cs).scope =
    ⟨b.memberFrames cs.length ++ b.scope.frames, b.scope.pushed + cs.length⟩ := by
  induction cs with
  | nil => rfl
  | cons c older ih => simp [together, adding, ih, memberFrames, Nat.add_assoc]

theorem field_together {α : Type} (field : Builder → α)
    (hf : ∀ b frame c, field (adding b frame c) = field b) (b : Builder) (cs : List Component) :
    field (b.together cs) = field b := by
  induction cs with
  | nil => rfl
  | cons c older ih => exact (hf _ _ c).trans ih

theorem suppressed_together (b : Builder) (cs : List Component) :
    (b.together cs).suppressed = b.suppressed :=
  field_together suppressed (fun _ _ _ => rfl) b cs

theorem resolver_together (b : Builder) (cs : List Component) :
    (b.together cs).resolver = b.resolver :=
  field_together resolver (fun _ _ _ => rfl) b cs

theorem new_together (b : Builder) (c : Component) (cs : List Component) :
    ((b.together cs).store.add c).2 = (b.memberFrame cs.length).component := by
  rw [Store.add, size_together]
  rfl

theorem get_together_of_has {id : ComponentId} (h : b.store.Has id) (cs : List Component) :
    (b.together cs).store.Has id ∧ (b.together cs).store.get id = b.store.get id := by
  induction cs with
  | nil => exact ⟨h, rfl⟩
  | cons c older ih =>
    rw [together, store_adding, Store.get_add_of_has ih.1]
    exact ⟨Store.has_add_iff.mpr (.inl ih.1), ih.2⟩

theorem get_newest (b : Builder) (c : Component) (older : List Component) :
    (b.together (c :: older)).store.get (b.memberFrame older.length).component = c := by
  rw [← new_together b c, together, store_adding, Store.get_add_new]

theorem map_get_together (b : Builder) (cs : List Component) :
    (List.range cs.length).map (fun i => (b.together cs).store.get (b.memberFrame i).component) =
      cs.reverse := by
  induction cs with
  | nil => rfl
  | cons c older ih =>
    have hold : ∀ i ∈ List.range older.length,
        (b.together (c :: older)).store.get (b.memberFrame i).component =
          (b.together older).store.get (b.memberFrame i).component := by
      intro i hi
      apply Store.get_add_of_has
      rw [Store.Has, size_together]
      exact Nat.add_lt_add_left (List.mem_range.mp hi) _
    rw [List.length_cons, List.range_succ, List.map_append, List.map_congr_left hold, ih,
      List.map_singleton, get_newest, List.reverse_cons]

theorem top?_together (b : Builder) (c : Component) (older : List Component) :
    (b.together (c :: older)).scope.top? = some (b.memberFrame older.length) :=
  rfl

theorem modify_newest (b : Builder) (c : Component) (older : List Component)
    (f : Component → Component) :
    (b.together (c :: older)).withStore ((b.together (c :: older)).store.modify
      (b.memberFrame older.length).component f) = b.together (f c :: older) := by
  have hmodify := Store.modify_add_new (b.together older).store c f
  rw [new_together] at hmodify
  rw [together, store_adding, hmodify]
  rfl

theorem beside_newest (b : Builder) (c next : Component) (older : List Component) :
    (b.together (c :: older)).beside (b.memberFrame older.length) next =
      b.together (next :: c :: older) := by
  have hframe : (b.together (c :: older)).siblingFrame (b.memberFrame older.length) next =
      b.memberFrame (c :: older).length := by
    rw [siblingFrame, new_together, scope_together]
    rfl
  change _ = (b.together (c :: older)).adding (b.memberFrame (c :: older).length) next
  rw [← hframe]
  rfl

section Steps

variable (hs : b.suppressed = false)
include hs

theorem step_openComponent (kind : Kind) (prov : Provenance) (withImports : Bool) :
    ∃ reply, b.step (.openComponent kind prov none withImports) =
      .ok (b.together [b.fresh kind prov none withImports]) reply := by
  rw [step, if_neg (by simp [hs])]
  exact ⟨_, rfl⟩

theorem step_enrich (c : Component) (older : List Component) (what : Enrichment) :
    ∃ reply, (b.together (c :: older)).step (.enrich what) =
      .ok (b.together (what.apply b.resolver c :: older)) reply := by
  rw [step, suppressed_together, if_neg (by simp [hs]), top?_together]
  dsimp only
  rw [resolver_together, modify_newest]
  exact ⟨_, rfl⟩

theorem step_nameDeclarator_of_unnamed (hc : c.hasName = false) (older : List Component)
    (name : String) : (b.together (c :: older)).step (.nameDeclarator name) =
      .ok (b.together ({ c with shortName := some name } :: older)) .done := by
  rw [step, suppressed_together, if_neg (by simp [hs]), top?_together]
  dsimp only
  rw [nameDeclarator_of_unnamed (by rwa [get_newest]), modify_newest]

theorem step_nameDeclarator_of_named (hc : c.hasName = true) (older : List Component)
    (name : String) : (b.together (c :: older)).step (.nameDeclarator name) =
      .ok (b.together ({ c.sibling with shortName := some name } :: c :: older)) .done := by
  rw [step, suppressed_together, if_neg (by simp [hs]), top?_together]
  dsimp only
  rw [nameDeclarator_of_named (by rwa [get_newest]), get_newest, beside_newest]

theorem run_enrich (c : Component) (older : List Component) (whats : List Enrichment) :
    (b.together (c :: older)).run (whats.map .enrich) =
      .ok (b.together (c.gather b.resolver whats :: older)) () := by
  induction whats generalizing c with
  | nil => rfl
  | cons what rest ih =>
    obtain ⟨reply, hstep⟩ := step_enrich hs c older what
    rw [List.map_cons, run, hstep, Outcome.andThen_ok, ih]
    rfl

/-- Each name after the first one opens a component beside those that are open. -/
theorem run_successors (hc : c.hasName = true) (older : List Component)
    {decls : List (String × List Enrichment)} (hn : ∀ decl ∈ decls, decl.1 ≠ "") :
    (b.together (c :: older)).run (namingOps decls) =
      .ok (b.together ((c.successors b.resolver decls).reverse ++ c :: older)) () := by
  induction decls generalizing c older with
  | nil => rfl
  | cons decl rest ih =>
    obtain ⟨hname, hrest⟩ := List.forall_mem_cons.mp hn
    have hnext : (Component.gather b.resolver { c.sibling with shortName := some decl.1 }
        decl.2).hasName = true := by
      rw [hasName_congr ((Component.enriched_gather b.resolver decl.2).shortName_eq _)]
      simpa [hasName_eq] using hname
    rw [namingOps, List.flatMap_cons, run_append, run, step_nameDeclarator_of_named hs hc,
      Outcome.andThen_ok, run_enrich hs, Outcome.andThen_ok]
    rw [← namingOps, ih hnext (c :: older) hrest, Component.successors, List.reverse_cons,
      List.append_assoc]
    rfl

theorem run_fromDeclaration (kind : Kind) (prov : Provenance) (withImports : Bool)
    (first : List Enrichment) {decls : List (String × List Enrichment)} (hne : decls ≠ [])
    (hn : ∀ decl ∈ decls, decl.1 ≠ "") :
    b.run (.openComponent kind prov none withImports ::
        (first.map .enrich ++ namingOps decls)) =
      .ok (b.together ((b.fresh kind prov none withImports).fromDeclaration b.resolver first
        decls).reverse) () := by
  obtain ⟨decl, rest, rfl⟩ := List.exists_cons_of_ne_nil hne
  obtain ⟨hname, hrest⟩ := List.forall_mem_cons.mp hn
  obtain ⟨reply, hopen⟩ := step_openComponent hs kind prov withImports
  have hfirst := Component.enriched_gather b.resolver first
  have hdecl := Component.enriched_gather b.resolver decl.2
  have hunnamed :
      ((b.fresh kind prov none withImports).gather b.resolver first).hasName = false := by
    rw [hasName_congr (hfirst.shortName_eq _)]
    rfl
  have hnamed : (Component.gather b.resolver
      { (b.fresh kind prov none withImports).gather b.resolver first with shortName := some decl.1 }
      decl.2).hasName = true := by
    rw [hasName_congr (hdecl.shortName_eq _)]
    simpa [hasName_eq] using hname
  rw [run, hopen, Outcome.andThen_ok, run_append, run_enrich hs, Outcome.andThen_ok, namingOps,
    List.flatMap_cons, run_append, run, step_nameDeclarator_of_unnamed hs hunnamed,
    Outcome.andThen_ok, run_enrich hs, Outcome.andThen_ok, ← namingOps,
    run_successors hs hnamed [] hrest, Component.fromDeclaration, List.reverse_cons]

end Steps

end Builder

end CodeAtlas
