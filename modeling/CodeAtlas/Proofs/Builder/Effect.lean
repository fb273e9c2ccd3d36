import CodeAtlas.Builder
import CodeAtlas.Proofs.Catalog.Placement
import CodeAtlas.Proofs.Scope.Nesting

/-! # What an operation can do

Each operation of a builder leaves the catalog and the scope alone, opens, names or enriches a
component, or closes components one by one. Closing a component names it, attaches it to the open
component found under the qualifier of its name, and places it in the catalog.
-/

namespace CodeAtlas

namespace Outcome

variable {σ α β : Type} {o : Outcome σ α} {next : σ → Outcome σ β} {s : σ} {a : α} {b : β}

@[simp] theorem andThen_ok : (Outcome.ok s a).andThen next = next s := rfl

@[simp] theorem andThen_fail {fault : Fault} :
    (Outcome.fail s fault : Outcome σ α).andThen next = .fail s fault :=
  rfl

theorem andThen_assoc {γ : Type} (o : Outcome σ α) (f : σ → Outcome σ β) (g : σ → Outcome σ γ) :
    (o.andThen f).andThen g = o.andThen fun s => (f s).andThen g := by
  obtain ⟨s, result⟩ := o
  cases result <;> rfl

theorem eq_ok_of_andThen {t : σ} (h : o.andThen next = .ok t b) :
    ∃ s a, o = .ok s a ∧ next s = .ok t b := by
  obtain ⟨s, result⟩ := o
  cases result with
  | ok a => exact ⟨s, a, rfl, h⟩
  | error fault => simp [andThen, ok] at h

theorem fail_ne_ok {fault : Fault} {t : σ} : (Outcome.fail s fault : Outcome σ α) ≠ .ok t a := by
  simp [fail, ok]

theorem eq_ok_of_isOk {o : Outcome σ Unit} (h : o.result.isOk = true) : o = .ok o.state () := by
  obtain ⟨s, result⟩ := o
  cases result with
  | ok => rfl
  | error => cases h

theorem ok_inj {t : σ} {a' : α} (h : (Outcome.ok s a) = .ok t a') : s = t ∧ a = a' := by
  simpa [ok] using h

end Outcome

namespace Component

@[simp] theorem label_withName (c : Component) (name : String) :
    (c.withName name).label = c.label :=
  label_of_shortName rfl c.label_ne_empty

end Component

/-- The operation does nothing under suppression. -/
def Op.Guarded : Op → Prop
  | .openComponent .. | .nameDeclarator _ | .close | .enrich _ => True
  | _ => False

namespace Builder

variable {b b' : Builder} {frame top : Frame} {below : List Frame}

structure Agree (b b' : Builder) : Prop where
  catalog_eq : b'.catalog = b.catalog
  scope_eq : b'.scope = b.scope
  path_eq : b'.path = b.path

/-- The builder `b'` has what `b` has in its catalog, and nothing open. -/
structure Vacated (b b' : Builder) : Prop where
  store_eq : b'.catalog.store = b.catalog.store
  table_eq : b'.catalog.table = b.catalog.table
  policy_eq : b'.catalog.policy = b.catalog.policy
  frames_eq : b'.scope.frames = []

structure Emptied (b b' : Builder) : Prop extends Vacated b b' where
  errors_eq : b'.catalog.journal.diagnostics.errors = b.catalog.journal.diagnostics.errors
  path_eq : b'.path = b.path

def package (b : Builder) (name : String) (prov : Provenance) : Component :=
  { kind := .package, shortName := name, packageName := name, sourceFile := b.path,
    code := prov.code, comment := prov.comment, startLine := prov.startLine,
    endLine := prov.endLine }

def beside (b : Builder) (top : Frame) (c : Component) : Builder :=
  { b.withStore (b.store.add c).1 with scope := b.scope.pushBeside top (b.store.add c).2 }

/-- What an operation makes of a builder. -/
inductive Effect (b : Builder) : Op → Outcome Builder Reply → Prop
  | still {op : Op} {b' : Builder} {reply : Reply} : Agree b b' → Effect b op (.ok b' reply)
  | underflow {op : Op} : b.scope.frames = [] → Effect b op (.fail b .scopeUnderflow)
  | heldOpen : b.suppressed = true → b.scope.frames ≠ [] →
      Effect b .endUnit (.fail b .unitHeldOpen)
  | began (name : String) (prov : Provenance) {b' : Builder} : Emptied b b' →
      Effect b (.beginPackage name prov)
        (.ok (b'.push (b.package name prov)).1 (.component (b'.push (b.package name prov)).2))
  | opened (kind : Kind) (prov : Provenance) (shortName : Option String) (withImports : Bool) :
      b.suppressed = false → Effect b (.openComponent kind prov shortName withImports)
        (.ok (b.push (b.fresh kind prov shortName withImports)).1
          (.component (b.push (b.fresh kind prov shortName withImports)).2))
  | renamed (name : String) {top : Frame} : b.suppressed = false → b.scope.top? = some top →
      (b.store.get top.component).hasName = false → Effect b (.nameDeclarator name)
        (.ok (b.withStore (b.store.modify top.component ({ · with shortName := some name }))) .done)
  | joined (name : String) {top : Frame} : b.suppressed = false → b.scope.top? = some top →
      (b.store.get top.component).hasName = true → Effect b (.nameDeclarator name)
        (.ok (b.beside top { (b.store.get top.component).sibling with shortName := some name })
          .done)
  | enriched (what : Enrichment) {top : Frame} : b.suppressed = false →
      b.scope.top? = some top → Effect b (.enrich what)
        (.ok (b.withStore (b.store.modify top.component (what.apply b.resolver)))
          (enrichmentReply b.resolver what))
  | closed {top : Frame} : b.suppressed = false → b.scope.top? = some top → Effect b .close
      ((closeMany (b.scope.frames.countP (·.group == top.group)) b).andThen (.ok · .done))
  | ended : b.suppressed = false →
      Effect b .endUnit ((closeMany b.scope.frames.length b).andThen (.ok · .done))

@[simp] theorem store_withStore (b : Builder) (store : Store) :
    (b.withStore store).store = store :=
  rfl

@[simp] theorem scope_withStore (b : Builder) (store : Store) :
    (b.withStore store).scope = b.scope :=
  rfl

@[simp] theorem get?_withStore (b : Builder) (store : Store) (name : String) :
    (b.withStore store).catalog.get? name = b.catalog.get? name :=
  rfl

theorem step_guarded (hs : b.suppressed = true) {op : Op} (hg : op.Guarded) :
    b.step op = .ok b .done := by
  cases op with
  | openComponent | nameDeclarator | close | enrich =>
    rw [step, hs]
    rfl
  | _ => cases hg

theorem agree_refl (b : Builder) : Agree b b := ⟨rfl, rfl, rfl⟩

theorem frames_eq_nil_of_top? (h : b.scope.top? = none) : b.scope.frames = [] := by
  simpa [Scope.top?] using h

theorem frames_of_top? (h : b.scope.top? = some top) : ∃ below, b.scope.frames = top :: below := by
  unfold Scope.top? at h
  cases e : b.scope.frames with
  | nil => simp [e] at h
  | cons frame below =>
    rw [e] at h
    cases h
    exact ⟨below, rfl⟩

theorem emptied_abandonOpen (b : Builder) (name : String) (line : Int) :
    Emptied b (b.abandonOpen name line) := by
  unfold abandonOpen
  split
  · rename_i h
    exact ⟨⟨rfl, rfl, rfl, List.isEmpty_iff.mp h⟩, rfl, rfl⟩
  · exact ⟨⟨rfl, rfl, rfl, rfl⟩, rfl, rfl⟩

theorem Emptied.enterPackage (h : Emptied b b') (name : String) :
    Emptied b { b' with resolver := b'.resolver.enterPackage name } :=
  ⟨⟨h.store_eq, h.table_eq, h.policy_eq, h.frames_eq⟩, h.errors_eq, h.path_eq⟩

theorem beginPackage_effect (b : Builder) (name : String) (prov : Provenance) :
    Effect b (.beginPackage name prov) (b.step (.beginPackage name prov)) := by
  have h := b.emptied_abandonOpen name prov.startLine
  have e : b.package name prov = (b.abandonOpen name prov.startLine).package name prov := by
    simp only [package, h.path_eq]
  have he := Effect.began name prov (h.enterPackage name)
  rwa [e] at he

theorem nameDeclarator_of_named {top : Frame} (h : (b.store.get top.component).hasName = true)
    (name : String) : b.nameDeclarator top name =
      b.beside top { (b.store.get top.component).sibling with shortName := some name } := by
  simp [nameDeclarator, h, beside]

theorem nameDeclarator_of_unnamed {top : Frame} (h : (b.store.get top.component).hasName = false)
    (name : String) : b.nameDeclarator top name =
      b.withStore (b.store.modify top.component ({ · with shortName := some name })) := by
  simp [nameDeclarator, h]

theorem nameDeclarator_effect (b : Builder) (name : String) :
    Effect b (.nameDeclarator name) (b.step (.nameDeclarator name)) := by
  cases hs : b.suppressed with
  | true => simpa [step, hs] using Effect.still (agree_refl b)
  | false =>
    cases ht : b.scope.top? with
    | none => simpa [step, hs, ht] using Effect.underflow (frames_eq_nil_of_top? ht)
    | some top =>
      cases hn : (b.store.get top.component).hasName with
      | true => simpa [step, hs, ht, nameDeclarator_of_named hn] using Effect.joined name hs ht hn
      | false =>
        simpa [step, hs, ht, nameDeclarator_of_unnamed hn] using Effect.renamed name hs ht hn

theorem step_effect (b : Builder) (op : Op) : Effect b op (b.step op) := by
  cases op with
  | beginPackage name prov => exact b.beginPackage_effect name prov
  | addImport name => exact .still ⟨rfl, rfl, rfl⟩
  | openComponent kind prov shortName withImports =>
    cases hs : b.suppressed with
    | true => simpa [step, hs] using Effect.still (agree_refl b)
    | false => simpa [step, hs] using Effect.opened kind prov shortName withImports hs
  | nameDeclarator name => exact b.nameDeclarator_effect name
  | close =>
    cases hs : b.suppressed with
    | true => simpa [step, hs] using Effect.still (agree_refl b)
    | false =>
      cases ht : b.scope.top? with
      | none =>
        simpa [step, hs, close, Scope.groupSize?, ht] using
          Effect.underflow (frames_eq_nil_of_top? ht)
      | some top => simpa [step, hs, close, Scope.groupSize?, ht] using Effect.closed hs ht
  | endUnit =>
    cases hs : b.suppressed with
    | true =>
      cases hf : b.scope.frames with
      | nil => simpa [step, endUnit, hs, hf, closeMany] using Effect.still (agree_refl b)
      | cons frame below => simpa [step, endUnit, hs, hf] using Effect.heldOpen hs (by simp [hf])
    | false => simpa [step, endUnit, hs] using Effect.ended hs
  | enterSuppressed => exact .still ⟨rfl, rfl, rfl⟩
  | exitSuppressed => exact .still ⟨rfl, rfl, rfl⟩
  | enrich what =>
    cases hs : b.suppressed with
    | true => simpa [step, hs] using Effect.still (agree_refl b)
    | false =>
      cases ht : b.scope.top? with
      | none => simpa [step, hs, ht] using Effect.underflow (frames_eq_nil_of_top? ht)
      | some top => simpa [step, hs, ht] using Effect.enriched what hs ht
  | current =>
    cases ht : b.scope.top? with
    | none => simpa [step, ht] using Effect.underflow (frames_eq_nil_of_top? ht)
    | some top => simpa [step, ht] using Effect.still (agree_refl b)
  | resolve token => exact .still (agree_refl b)

/-- The open component that a component of the given name is attached to when it closes, with the
given frames around it. -/
def openParent (b : Builder) (below : List Frame) (name : String) : Option ComponentId :=
  if Dotted.qualifier name = "" then none
  else Scope.find? ⟨below, b.scope.pushed⟩ b.store (Dotted.qualifier name)

/-- The store `t` is `s` after a component has been named and attached. -/
structure Attached (s t : Store) (id : ComponentId) (name : String)
    (parent : Option ComponentId) : Prop where
  has_iff : ∀ other, t.Has other ↔ s.Has other
  kind_eq : ∀ other, (t.get other).kind = (s.get other).kind
  sourceFile_eq : ∀ other, (t.get other).sourceFile = (s.get other).sourceFile
  label_eq : ∀ other, (t.get other).label = (s.get other).label
  shortName_eq : ∀ other, (t.get other).shortName =
    if other = id then some (s.get id).label else (s.get other).shortName
  qualifiedName_eq : ∀ other, (t.get other).qualifiedName =
    if other = id then some name else (s.get other).qualifiedName
  parentName_eq : ∀ other, (t.get other).parentName =
    if other = id ∧ parent.isSome then some (Dotted.qualifier name) else (s.get other).parentName
  children_eq : ∀ other, (t.get other).children =
    if parent = some other then (s.get other).children ++ [id] else (s.get other).children
  get_eq : ∀ other, other ≠ id → parent ≠ some other → t.get other = s.get other

theorem attached_named {s : Store} {id : ComponentId} (h : s.Has id) (name : String) :
    Attached s (s.modify id (·.withName name)) id name none where
  has_iff _ := Store.has_modify_iff
  kind_eq := Store.field_modify Component.kind fun _ => rfl
  sourceFile_eq := Store.field_modify Component.sourceFile fun _ => rfl
  label_eq := Store.field_modify Component.label fun c => c.label_withName name
  shortName_eq other := by rw [Store.get_modify h]; split <;> rfl
  qualifiedName_eq other := by rw [Store.get_modify h]; split <;> rfl
  parentName_eq other := by
    simp only [Option.isSome_none, Bool.false_eq_true, and_false, if_false]
    exact Store.field_modify Component.parentName (fun _ => by rfl) other
  children_eq other := by
    simp only [reduceCtorEq, if_false]
    exact Store.field_modify Component.children (fun _ => by rfl) other
  get_eq other hne _ := Store.get_modify_of_ne hne

theorem Attached.addChild {s t : Store} {id parent : ComponentId} {name : String}
    (h : Attached s t id name none) (hi : s.Has id) (hp : s.Has parent) :
    Attached s (t.addChild parent id (Dotted.qualifier name)) id name (some parent) where
  has_iff other := Store.has_addChild_iff.trans (h.has_iff other)
  kind_eq other := (Store.field_addChild Component.kind (fun _ _ => rfl) (fun _ _ => rfl)
    other).trans (h.kind_eq other)
  sourceFile_eq other := (Store.field_addChild Component.sourceFile (fun _ _ => rfl)
    (fun _ _ => rfl) other).trans (h.sourceFile_eq other)
  label_eq other := (Store.field_addChild Component.label (fun _ _ => rfl) (fun _ _ => rfl)
    other).trans (h.label_eq other)
  shortName_eq other := (Store.field_addChild Component.shortName (fun _ _ => rfl)
    (fun _ _ => rfl) other).trans (h.shortName_eq other)
  qualifiedName_eq other := (Store.field_addChild Component.qualifiedName (fun _ _ => rfl)
    (fun _ _ => rfl) other).trans (h.qualifiedName_eq other)
  parentName_eq other := by
    rw [Store.parentName_addChild ((h.has_iff id).mpr hi), h.parentName_eq]
    simp
  children_eq other := by
    rw [Store.children_addChild ((h.has_iff parent).mpr hp), h.children_eq]
    simp [eq_comm (a := other)]
  get_eq other hne hno := by
    rw [Store.addChild, Store.get_modify_of_ne fun e => hno (congrArg some e.symm),
      Store.get_modify_of_ne hne]
    exact h.get_eq other hne (by simp)

def attachedStore (s : Store) (id : ComponentId) (name : String) (parent : Option ComponentId) :
    Store :=
  match parent with
  | none => s.modify id (·.withName name)
  | some parent => (s.modify id (·.withName name)).addChild parent id (Dotted.qualifier name)

theorem attached {s : Store} {id : ComponentId} (hi : s.Has id) (name : String)
    {parent : Option ComponentId} (hp : ∀ p, parent = some p → s.Has p) :
    Attached s (attachedStore s id name parent) id name parent := by
  cases parent with
  | none => exact attached_named hi name
  | some parent => exact (attached_named hi name).addChild hi (hp parent rfl)

section Children

variable {s t : Store} {id owner child : ComponentId} {name : String} {parent : Option ComponentId}

theorem Attached.mem_children (h : Attached s t id name parent)
    (hm : child ∈ (t.get owner).children) :
    child ∈ (s.get owner).children ∨ child = id ∧ parent = some owner := by
  rw [h.children_eq] at hm
  split at hm
  · rcases List.mem_append.mp hm with hm | hm
    · exact .inl hm
    · exact .inr ⟨List.mem_singleton.mp hm, ‹_›⟩
  · exact .inl hm

theorem Attached.nodup_children (h : Attached s t id name parent)
    (hnodup : (s.get owner).children.Nodup) (hnew : id ∉ (s.get owner).children) :
    (t.get owner).children.Nodup := by
  rw [h.children_eq]
  split
  · refine List.nodup_append.mpr ⟨hnodup, by simp, ?_⟩
    rintro child hm _ hm' rfl
    exact hnew (List.mem_singleton.mp hm' ▸ hm)
  · exact hnodup

end Children

end Builder

end CodeAtlas
