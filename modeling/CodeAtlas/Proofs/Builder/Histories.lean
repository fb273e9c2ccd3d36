import Mathlib.Data.List.Nodup
import CodeAtlas.Proofs.Builder.Children

/-! # Histories of builders

Builders that work one after the other on a catalog in which the last write wins. As long as no
name has a dot and no component with children gets its first name, all children are where their
names say, whatever else the builders do.
-/

namespace CodeAtlas.Builder

variable {b b' : Builder} {op : Op} {absorbed : List ComponentId}

/-- The operation gives no first name to a component that has children. -/
def NamesEarly (b : Builder) (op : Op) : Prop :=
  ∀ name top, op = .nameDeclarator name → b.suppressed = false → b.scope.top? = some top →
    (b.store.get top.component).hasName = false → name ≠ "" →
      (b.store.get top.component).children = []

structure Consistent (absorbed : List ComponentId) (b : Builder) : Prop where
  sound : Sound b
  labelled : Labelled b
  listed : Listed b
  kept : Kept absorbed b
  policy_eq : b.catalog.policy = .lastWriteWins

theorem Consistent.mono (h : Consistent absorbed b) (more : List ComponentId) :
    Consistent (absorbed ++ more) b :=
  ⟨h.sound, h.labelled, h.listed, h.kept.mono more, h.policy_eq⟩

theorem Consistent.closeTop (h : Consistent absorbed b) (hne : b.scope.frames ≠ []) :
    Consistent (absorbed ++ [b].filterMap absorbed?) b.closeTop.state where
  sound := h.sound.closeTop hne
  labelled := h.labelled.closeTop h.sound hne
  listed := h.listed.closeTop h.sound hne
  kept := h.kept.closeTop h.listed h.sound h.labelled h.policy_eq hne
  policy_eq := (policy_closeTop h.sound hne).trans h.policy_eq

theorem Consistent.closeMany (h : Consistent absorbed b) {n : Nat}
    (hn : n ≤ b.scope.frames.length) :
    Consistent (absorbed ++ (closings n b).filterMap absorbed?) (closeMany n b).state := by
  refine closeMany_closings
    (I := fun earlier => Consistent (absorbed ++ earlier.filterMap absorbed?))
    (fun earlier b h hne => ?_) [] (h.mono []) hn
  refine ⟨h.sound.result_closeTop h.policy_eq hne, ?_⟩
  rw [List.filterMap_append, ← List.append_assoc]
  exact h.closeTop hne

theorem Consistent.vacate (h : Consistent absorbed b) (he : Vacated b b') :
    Consistent absorbed b' where
  sound := h.sound.vacate he
  labelled := h.labelled.vacate he
  listed := h.listed.shrink (shrinks_vacate he)
  kept := by
    refine h.kept.shrink h.listed (shrinks_vacate he) (fun q id hi => ?_) fun id _ => ?_
    · rw [Catalog.get?, he.table_eq]
      exact hi
    · rw [store, he.store_eq, store]
  policy_eq := he.policy_eq.trans h.policy_eq

theorem Consistent.adding (h : Consistent absorbed b) {frame : Frame} {c : Component} (hc : c.Blank)
    (hf : Fits b frame c)
    (hl : Dotted.hasDot c.label = false ∨ b.scope.frames = [] ∧ c.kind = .package) :
    Consistent absorbed (b.adding frame c) where
  sound := h.sound.adding hc hf
  labelled := h.labelled.adding h.sound hc hf hl
  listed := h.listed.shrink (h.sound.shrinks_adding hc hf)
  kept := h.kept.shrink h.listed (h.sound.shrinks_adding hc hf) (fun _ _ => id)
    fun id hh => by rw [store_adding, Store.get_add_of_has hh]
  policy_eq := h.policy_eq

theorem Consistent.of_agree (h : Consistent absorbed b) (ha : Agree b b') :
    Consistent absorbed b' := by
  have hstore : b'.store = b.store := congrArg Catalog.store ha.catalog_eq
  have hs : Shrinks b b' := by
    apply shrinks_of_eq ha.scope_eq
    · exact fun n => by rw [ha.catalog_eq]
    all_goals exact fun id => by rw [hstore]
  constructor
  · exact h.sound.of_eq hstore (congrArg Catalog.table ha.catalog_eq) ha.scope_eq
  · exact h.labelled.of_eq hstore ha.scope_eq
  · exact h.listed.shrink hs
  · refine h.kept.shrink h.listed hs (fun q id hi => ?_) fun id _ => by rw [hstore]
    rw [ha.catalog_eq]
    exact hi
  · rw [ha.catalog_eq]
    exact h.policy_eq

theorem Consistent.step (h : Consistent absorbed b) (ho : op.Dotless) (hn : NamesEarly b op) :
    Consistent (absorbed ++ (b.closingsBy op).filterMap absorbed?) (b.step op).state := by
  have hlabelled := h.labelled.step h.sound ho
  have hsound := h.sound.step op
  have he := b.step_effect op
  generalize b.step op = o at he hlabelled hsound
  cases he with
  | still ha => exact (h.of_agree ha).mono _
  | underflow => exact h.mono _
  | heldOpen => exact h.mono _
  | began name prov he =>
    have h' := h.vacate he.toVacated
    refine Consistent.mono (h'.adding (b.blank_package name prov) (h'.sound.fits_inner _) ?_) _
    exact .inr ⟨he.frames_eq, rfl⟩
  | opened kind prov shortName withImports =>
    refine Consistent.mono (h.adding (b.blank_fresh kind prov shortName withImports)
      (h.sound.fits_inner _) ?_) _
    exact .inl (Component.hasDot_label ho)
  | renamed name hsup ht hnamed =>
    have hs := h.sound.shrinks_rename ht name hnamed (hn name _ rfl hsup ht hnamed)
    have hkept := h.kept.shrink h.listed hs (fun _ _ => id)
      (fun id _ => Store.field_modify Component.kind (fun _ => by rfl) id)
    exact ⟨hsound, hlabelled, h.listed.shrink hs, hkept.mono _, h.policy_eq⟩
  | joined name _ ht =>
    refine Consistent.mono (h.adding (blank_sibling _ name) (h.sound.fits_sibling ht _) ?_) _
    refine .inl (Component.hasDot_label ?_)
    rintro _ ⟨⟩
    exact ho
  | @enriched what top _ _ =>
    have hw := what.enriched b.resolver
    have hs := shrinks_enrich (b := b) top.component hw
    have hkept := h.kept.shrink h.listed hs (fun _ _ => id)
      (fun id _ => Store.field_modify Component.kind hw.kind_eq id)
    exact ⟨hsound, hlabelled, h.listed.shrink hs, hkept.mono _, h.policy_eq⟩
  | @closed top hs ht =>
    rw [state_andThen_done, closingsBy_close hs ht]
    exact h.closeMany (b.countP_le_length top)
  | ended hs =>
    rw [state_andThen_done, closingsBy_endUnit hs]
    exact h.closeMany le_rfl

/-- Builders one after the other on a catalog that was empty at first, and what their operations
left, whether they failed or not. The packages are those that have been absorbed by others. -/
inductive History : List ComponentId → Builder → Prop
  | start (path : Option String) (mode : Suppression.Mode) (builtin : List (String × String)) :
      History [] (.start (.empty .lastWriteWins {}) path mode builtin)
  | step {absorbed : List ComponentId} {b : Builder} {op : Op} : History absorbed b →
      op.Dotless → NamesEarly b op →
      History (absorbed ++ (b.closingsBy op).filterMap absorbed?) (b.step op).state
  | handOver {absorbed : List ComponentId} {b : Builder} (path : Option String)
      (mode : Suppression.Mode) (builtin : List (String × String)) : History absorbed b →
      History absorbed (.start b.catalog path mode builtin)

theorem consistent_start (path : Option String) (mode : Suppression.Mode)
    (builtin : List (String × String)) :
    Consistent [] (.start (.empty .lastWriteWins {}) path mode builtin) := by
  have hget (id : ComponentId) : Store.get {} id = default :=
    Store.get_of_not_has (by simp [Store.Has])
  have hstanding {n : String} {id : ComponentId}
      (h : (start (.empty .lastWriteWins {}) path mode builtin).Standing n id) : False := by
    rcases h with h | h
    · simp [start, Scope.openNames, Scope.namesFrom] at h
    · simp [start, Catalog.empty, Catalog.get?, Table.get?, Table.empty] at h
  have hopen {n : String} {id : ComponentId} (h : (n, id) ∈ Scope.openNames {} {}) : False := by
    simp [Scope.openNames, Scope.namesFrom] at h
  refine ⟨sound_start .., ⟨fun inner f outer e => ?_, fun id => ?_⟩,
    ⟨fun _ _ _ h => (hstanding h).elim, fun _ _ _ h => (hstanding h).elim,
      fun _ _ h => (hstanding h).elim, fun _ _ _ _ _ h => (hstanding h).elim,
      fun _ _ h => (hopen h).elim⟩, fun _ _ _ _ h => (hstanding h).elim, rfl⟩
  · simp [start] at e
  · apply namedByParent_of_unnamed
    exact congrArg Component.qualifiedName (hget id)

theorem History.consistent (h : History absorbed b) : Consistent absorbed b := by
  induction h with
  | start path mode builtin => exact consistent_start path mode builtin
  | step _ ho hn ih => exact ih.step ho hn
  | handOver path mode builtin _ ih => exact ih.vacate ⟨rfl, rfl, rfl, rfl⟩

/-- A child of a standing component is named after it, known under that name unless it is a package
that has been absorbed, and listed nowhere else. A component without a parent has its short name
alone. -/
theorem History.children_of_standing (h : History absorbed b) :
    (∀ name owner child, b.Standing name owner → child ∈ (b.store.get owner).children →
      ∃ short, (b.store.get child).shortName = some short ∧
        (b.store.get child).qualifiedName = some (name ++ "." ++ short) ∧
        (b.store.get child).parentName = some name ∧
        (b.catalog.get? (name ++ "." ++ short) = some child ∨
          child ∈ absorbed ∧ (b.store.get child).kind = .package) ∧
        (b.store.get owner).children.count child = 1 ∧
        ∀ name' owner', b.Standing name' owner' →
          child ∈ (b.store.get owner').children → owner' = owner) ∧
    ∀ id name, (b.store.get id).qualifiedName = some name → (b.store.get id).parentName = none →
      (b.store.get id).shortName = some name := by
  obtain ⟨-, hlabelled, hlisted, hkept, -⟩ := h.consistent
  constructor
  · intro name owner child hs hm
    obtain ⟨q, hq⟩ := hlisted.final name owner child hs hm
    have hp := hlisted.parent name owner child hs hm
    obtain ⟨short, hshort, hname⟩ := hlabelled.names child q hq
    rw [hp] at hname
    obtain ⟨-, -, rfl⟩ := hname
    refine ⟨short, hshort, hq, hp, hkept name owner child _ hs hm hq, ?_, ?_⟩
    · exact List.count_eq_one_of_mem (hlisted.nodup name owner hs) hm
    · intro name' owner' hs' hm'
      exact hlisted.unique name' name owner' owner child hs' hs hm' hm
  · intro id name hq hp
    obtain ⟨short, hshort, hname⟩ := hlabelled.names id name hq
    rw [hp] at hname
    rw [hshort, hname.1]

def perform (b : Builder) (ops : List Op) : Builder := ops.foldl (fun b op => (b.step op).state) b

theorem History.perform (h : History absorbed b) (ops : List Op) (ho : ∀ op ∈ ops, op.Dotless)
    (hn : ∀ op ∈ ops, ∀ name, op ≠ .nameDeclarator name) {more : List ComponentId}
    (hm : (b.closingsIn ops).filterMap absorbed? = more) :
    History (absorbed ++ more) (b.perform ops) := by
  subst hm
  induction ops generalizing b absorbed with
  | nil =>
    rw [closingsIn, List.filterMap_nil, List.append_nil]
    exact h
  | cons op rest ih =>
    simp only [List.forall_mem_cons] at ho hn
    rw [closingsIn, List.filterMap_append, ← List.append_assoc]
    exact ih (h.step ho.1 fun name _ e => absurd e (hn.1 name)) ho.2 hn.2

def overloaded : Builder :=
  perform (.start (.empty .lastWriteWins {}) none .flag [])
    [.beginPackage "p" ⟨1, 1, "", none⟩, .openComponent .classType ⟨1, 1, "", none⟩ "A" true,
      .openComponent .method ⟨1, 1, "", none⟩ "f" false, .close,
      .openComponent .method ⟨2, 2, "", none⟩ "f" false, .close]

theorem History.children_of_standing_overloaded :
    History [] overloaded ∧ overloaded.Standing "p.A" ⟨1⟩ ∧
      (overloaded.store.get ⟨1⟩).children = [⟨3⟩] ∧
      overloaded.catalog.get? ("p.A" ++ "." ++ "f") = some ⟨3⟩ ∧
      ∀ name owner, overloaded.Standing name owner →
        ⟨3⟩ ∈ (overloaded.store.get owner).children → owner = ⟨1⟩ := by
  have hhistory : History [] overloaded :=
    (History.start none .flag []).perform _ (by simp [Op.Dotless]; decide) (by simp)
      (by decide +kernel)
  have hopen : overloaded.Standing "p.A" ⟨1⟩ := .inl (by decide +kernel)
  have hmem : ⟨3⟩ ∈ (overloaded.store.get ⟨1⟩).children := by decide +kernel
  obtain ⟨short, hshort, -, -, hget, -, hunique⟩ :=
    hhistory.children_of_standing.1 "p.A" ⟨1⟩ ⟨3⟩ hopen hmem
  have hf : (overloaded.store.get ⟨3⟩).shortName = some "f" := by decide +kernel
  obtain rfl : short = "f" := Option.some.inj (hshort.symm.trans hf)
  have hknown := hget.resolve_right fun h => List.not_mem_nil h.1
  exact ⟨hhistory, hopen, by decide +kernel, hknown, hunique⟩

def reopened : Builder :=
  perform (.start (.empty .lastWriteWins {}) none .flag [])
    [.beginPackage "a" ⟨1, 1, "", none⟩, .openComponent .package ⟨1, 1, "", none⟩ "b" false, .close,
      .openComponent .package ⟨2, 2, "", none⟩ "b" false, .close]

/-- A package that has been absorbed into one of its name stays listed in the package around it. -/
theorem reopened_lists_absorbed :
    History [⟨2⟩] reopened ∧ reopened.Standing "a" ⟨0⟩ ∧ ⟨2⟩ ∈ (reopened.store.get ⟨0⟩).children ∧
      (reopened.store.get ⟨2⟩).qualifiedName = some "a.b" ∧
      reopened.catalog.get? "a.b" = some ⟨1⟩ := by
  refine ⟨(History.start none .flag []).perform _ (by simp [Op.Dotless]; decide) (by simp)
    (by decide +kernel), ?_⟩
  exact ⟨.inl (by decide +kernel), by decide +kernel⟩

end CodeAtlas.Builder
