import CodeAtlas.Component.Store

/-! # What changes of a store keep

Adding a component and changing one leave all others as they are. Most changes touch only the
children that components list; two stores that differ in nothing else are alike.
-/

namespace CodeAtlas

def Component.bare (c : Component) : Component := { c with children := [] }

/-- A completed component, by its names and the indices of its children. -/
def Component.ofNames (kind : Kind) (name : String) (parentName : Option String)
    (children : List Nat) : Component :=
  { kind, qualifiedName := name, parentName, children := children.map .mk }

namespace Store

variable {store : Store} {id other : ComponentId} {c : Component} {f : Component → Component}

def Has (store : Store) (id : ComponentId) : Prop := id.index < store.cells.size

theorem get_of_not_has (h : ¬ store.Has id) : store.get id = default := by
  simp [get, get?, Array.getElem?_eq_none (Nat.le_of_not_lt h)]

theorem get?_of_has (h : store.Has id) : store.get? id = some (store.get id) := by
  simp [get, get?, Array.getElem?_eq_getElem h]

theorem not_has_new (store : Store) (c : Component) : ¬ store.Has (store.add c).2 := by
  simp [Has, add]

theorem has_add_iff : (store.add c).1.Has id ↔ store.Has id ∨ id = (store.add c).2 := by
  cases id with
  | mk index => simp only [Has, add, Array.size_push, ComponentId.mk.injEq]; omega

theorem get_add (store : Store) (c : Component) (id : ComponentId) :
    (store.add c).1.get id = if id = (store.add c).2 then c else store.get id := by
  unfold get
  rw [get?_add]
  split <;> rfl

theorem get_add_of_has (h : store.Has id) : (store.add c).1.get id = store.get id := by
  rw [get_add, if_neg]
  rintro rfl
  exact not_has_new store c h

@[simp] theorem get_add_new (store : Store) (c : Component) :
    (store.add c).1.get (store.add c).2 = c := by
  rw [get_add, if_pos rfl]

@[simp] theorem has_modify_iff : (store.modify id f).Has other ↔ store.Has other := by
  simp [Has, modify]

theorem get_modify_self (h : store.Has id) : (store.modify id f).get id = f (store.get id) := by
  rw [get, get?_modify, if_pos rfl, get?_of_has h]
  rfl

theorem get_modify_of_ne (h : other ≠ id) : (store.modify id f).get other = store.get other := by
  rw [get, get?_modify, if_neg h, get]

theorem get_modify (h : store.Has id) (other : ComponentId) :
    (store.modify id f).get other = if other = id then f (store.get id) else store.get other := by
  split
  · rename_i e
    rw [e, get_modify_self h]
  · rename_i e
    exact get_modify_of_ne e

theorem modify_same (store : Store) (id : ComponentId) : (store.modify id fun c => c) = store := by
  refine congrArg Store.mk (Array.ext_getElem? fun i => ?_)
  rw [Array.getElem?_modify]
  split <;> simp

theorem modify_modify (store : Store) (id : ComponentId) (f g : Component → Component) :
    (store.modify id f).modify id g = store.modify id fun c => g (f c) := by
  refine congrArg Store.mk (Array.ext_getElem? fun i => ?_)
  simp only [modify, Array.getElem?_modify]
  split <;> simp [Function.comp_def]

theorem eq_of_get {s t : Store} (hs : t.cells.size = s.cells.size)
    (h : ∀ id, s.Has id → t.get id = s.get id) : t = s := by
  obtain ⟨cells⟩ := s
  obtain ⟨cells'⟩ := t
  refine congrArg Store.mk (Array.ext hs fun i hi hi' => ?_)
  have hget := h ⟨i⟩ hi'
  simpa [get, get?, hi, hi'] using hget

theorem field_modify {α : Type} (field : Component → α) (hf : ∀ c, field (f c) = field c)
    (other : ComponentId) : field ((store.modify id f).get other) = field (store.get other) := by
  by_cases h : store.Has id
  · rw [get_modify h]
    split
    · rename_i e
      rw [hf, e]
    · rfl
  · by_cases e : other = id
    · rw [e, get_of_not_has h, get_of_not_has (by simpa using h)]
    · rw [get_modify_of_ne e]

structure Extends (s t : Store) : Prop where
  has : ∀ id, s.Has id → t.Has id
  get_eq : ∀ id, s.Has id → t.get id = s.get id

namespace Extends

variable {s t u : Store}

theorem refl (s : Store) : Extends s s := ⟨fun _ h => h, fun _ _ => rfl⟩

theorem trans (h : Extends s t) (h' : Extends t u) : Extends s u :=
  ⟨fun id hi => h'.has id (h.has id hi),
    fun id hi => (h'.get_eq id (h.has id hi)).trans (h.get_eq id hi)⟩

theorem add (h : Extends s t) (c : Component) : Extends s (t.add c).1 :=
  h.trans ⟨fun _ hi => has_add_iff.mpr (.inl hi), fun _ hi => get_add_of_has hi⟩

theorem modify (h : Extends s t) (hi : ¬ s.Has id) (f : Component → Component) :
    Extends s (t.modify id f) where
  has other ho := has_modify_iff.mpr (h.has other ho)
  get_eq other ho := by
    have hne : other ≠ id := by
      rintro rfl
      exact hi ho
    rw [get_modify_of_ne hne]
    exact h.get_eq other ho

end Extends

/-- The second store extends the first one by components that list none of the first one. -/
structure Widens (s t : Store) : Prop extends Extends s t where
  own : ∀ id, ¬ s.Has id → ∀ child ∈ (t.get id).children, ¬ s.Has child

namespace Widens

variable {s t u : Store}

theorem refl (s : Store) : Widens s s := by
  refine ⟨.refl s, fun id hi child hm => ?_⟩
  rw [get_of_not_has hi] at hm
  cases hm

theorem trans (h : Widens s t) (h' : Widens t u) : Widens s u := by
  refine ⟨h.toExtends.trans h'.toExtends, fun id hi child hm => ?_⟩
  by_cases ht : t.Has id
  · rw [h'.get_eq id ht] at hm
    exact h.own id hi child hm
  · exact fun hs => h'.own id ht child hm (h.has child hs)

end Widens

structure Alike (s t : Store) : Prop where
  size_eq : t.cells.size = s.cells.size
  bare_eq : ∀ id, (t.get id).bare = (s.get id).bare

namespace Alike

variable {s t u : Store}

theorem refl (s : Store) : Alike s s := ⟨rfl, fun _ => rfl⟩

theorem trans (h : Alike s t) (h' : Alike t u) : Alike s u :=
  ⟨h'.size_eq.trans h.size_eq, fun id => (h'.bare_eq id).trans (h.bare_eq id)⟩

theorem has_iff (h : Alike s t) : t.Has id ↔ s.Has id := by
  simp only [Has, h.size_eq]

theorem field_eq {α : Type} (h : Alike s t) (field : Component → α)
    (hf : ∀ c, field c.bare = field c) (id : ComponentId) :
    field (t.get id) = field (s.get id) := by
  rw [← hf, h.bare_eq, hf]

theorem kind_eq (h : Alike s t) (id : ComponentId) : (t.get id).kind = (s.get id).kind :=
  h.field_eq Component.kind (fun _ => rfl) id

theorem shortName_eq (h : Alike s t) (id : ComponentId) :
    (t.get id).shortName = (s.get id).shortName :=
  h.field_eq Component.shortName (fun _ => rfl) id

theorem qualifiedName_eq (h : Alike s t) (id : ComponentId) :
    (t.get id).qualifiedName = (s.get id).qualifiedName :=
  h.field_eq Component.qualifiedName (fun _ => rfl) id

theorem parentName_eq (h : Alike s t) (id : ComponentId) :
    (t.get id).parentName = (s.get id).parentName :=
  h.field_eq Component.parentName (fun _ => rfl) id

theorem sourceFile_eq (h : Alike s t) (id : ComponentId) :
    (t.get id).sourceFile = (s.get id).sourceFile :=
  h.field_eq Component.sourceFile (fun _ => rfl) id

theorem label_eq (h : Alike s t) (id : ComponentId) : (t.get id).label = (s.get id).label :=
  h.field_eq Component.label (fun _ => rfl) id

end Alike

theorem alike_modify (hf : ∀ c, (f c).bare = c.bare) : Alike store (store.modify id f) :=
  ⟨by simp [modify], field_modify Component.bare hf⟩

theorem alike_filterChildren (store : Store) (owner : ComponentId) (keep : ComponentId → Bool) :
    Alike store (store.filterChildren owner keep) :=
  alike_modify fun _ => rfl

theorem children_filterChildren (store : Store) (owner : ComponentId) (keep : ComponentId → Bool)
    (id : ComponentId) : ((store.filterChildren owner keep).get id).children =
      if id = owner then (store.get id).children.filter keep else (store.get id).children := by
  unfold filterChildren
  by_cases e : id = owner
  · subst e
    by_cases h : store.Has id
    · simp [get_modify_self h]
    · rw [get_of_not_has h, get_of_not_has (by simpa using h)]
      simp [default]
  · rw [get_modify_of_ne e, if_neg e]

section AddChild

variable {parent child : ComponentId} {name : String}

theorem has_addChild_iff : (store.addChild parent child name).Has id ↔ store.Has id := by
  simp [addChild]

theorem field_addChild {α : Type} (field : Component → α)
    (hp : ∀ c p, field { c with parentName := p } = field c)
    (hc : ∀ c cs, field { c with children := cs } = field c) (id : ComponentId) :
    field ((store.addChild parent child name).get id) = field (store.get id) := by
  unfold addChild
  rw [field_modify field fun c => hc c _, field_modify field fun c => hp c _]

theorem parentName_addChild (h : store.Has child) (id : ComponentId) :
    ((store.addChild parent child name).get id).parentName =
      if id = child then some name else (store.get id).parentName := by
  have hp : ∀ s : Store, ((s.modify parent fun c =>
      { c with children := c.children ++ [child] }).get id).parentName = (s.get id).parentName := by
    intro s
    apply field_modify Component.parentName
    intro c
    rfl
  rw [addChild, hp, get_modify h]
  split <;> rfl

theorem children_addChild (h : store.Has parent) (id : ComponentId) :
    ((store.addChild parent child name).get id).children =
      if id = parent then (store.get id).children ++ [child] else (store.get id).children := by
  have hc : ∀ id,
      ((store.modify child fun c => { c with parentName := some name }).get id).children =
        (store.get id).children := field_modify Component.children fun _ => rfl
  unfold addChild
  rw [get_modify (by simpa using h)]
  split
  · rename_i e
    simp [hc, e]
  · exact hc id

end AddChild

end Store

end CodeAtlas
