import CodeAtlas.Proofs.Component.Store
import CodeAtlas.Proofs.Text.Dotted
import CodeAtlas.Scope

/-! # Nesting of open components

Frames come onto a scope in two ways, inside the innermost frame or beside it. So the parent of a
frame is always a frame further out, and the provisional name of a component is that of the
component it is nested in, a dot and its own label.
-/

namespace CodeAtlas

namespace Component

theorem label_ne_empty (c : Component) : c.label ≠ "" := by
  unfold label
  split
  · split
    · decide
    · assumption
  · decide

theorem label_of_shortName {c : Component} {name : String} (h : c.shortName = some name)
    (hn : name ≠ "") : c.label = name := by
  simp [label, h, hn]

theorem hasDot_label {c : Component}
    (h : ∀ name, c.shortName = some name → Dotted.hasDot name = false) :
    Dotted.hasDot c.label = false := by
  unfold label
  split
  · rename_i name e
    split
    · decide
    · exact h name e
  · decide

end Component

namespace Scope

/-- Frames as they come onto a scope, innermost first. -/
inductive Nested : List Frame → Prop
  | nil : Nested []
  | inside {frame : Frame} {below : List Frame} : Nested below →
      (∀ f ∈ below, f.slot < frame.slot) → frame.parent = below.head?.map Frame.slot →
      frame.group = frame.slot → Nested (frame :: below)
  | beside {frame top : Frame} {below : List Frame} : Nested (top :: below) →
      (∀ f ∈ top :: below, f.slot < frame.slot) → frame.parent = top.parent →
      frame.group = top.group → Nested (frame :: top :: below)

theorem Nested.tail {frame : Frame} {below : List Frame} (h : Nested (frame :: below)) :
    Nested below := by
  cases h with
  | inside h _ _ _ => exact h
  | beside h _ _ _ => exact h

theorem Nested.slot_lt {frame : Frame} {below : List Frame} (h : Nested (frame :: below)) :
    ∀ f ∈ below, f.slot < frame.slot := by
  cases h with
  | inside _ hs _ _ => exact hs
  | beside _ hs _ _ => exact hs

theorem Nested.of_append {inner outer : List Frame} (h : Nested (inner ++ outer)) :
    Nested outer := by
  induction inner with
  | nil => exact h
  | cons _ _ ih => exact ih h.tail

theorem Nested.group_le {frames : List Frame} (h : Nested frames) :
    ∀ f ∈ frames, f.group ≤ f.slot := by
  induction h with
  | nil => simp
  | inside _ _ _ hg ih =>
    intro f hf
    rcases List.mem_cons.mp hf with rfl | hf
    · exact hg.le
    · exact ih f hf
  | @beside frame top below _ hs _ hg ih =>
    intro f hf
    rcases List.mem_cons.mp hf with rfl | hf
    · have ht := ih top List.mem_cons_self
      have hlt := hs top List.mem_cons_self
      omega
    · exact ih f hf

theorem Nested.group_le_top {frame : Frame} {below : List Frame} (h : Nested (frame :: below)) :
    ∀ f ∈ below, f.group ≤ frame.group := by
  generalize e : frame :: below = frames at h
  induction h generalizing frame below with
  | nil => cases e
  | inside hn hs _ hg _ =>
    obtain ⟨rfl, rfl⟩ := List.cons.inj e
    intro f hf
    have hle := hn.group_le f hf
    have hlt := hs f hf
    omega
  | beside _ _ _ hg ih =>
    obtain ⟨rfl, rfl⟩ := List.cons.inj e
    rw [List.forall_mem_cons, hg]
    exact ⟨le_rfl, ih rfl⟩

theorem Nested.group_of_mem_take {frames : List Frame} (h : Nested frames) {g : Nat}
    (hg : ∀ f ∈ frames, f.group ≤ g) :
    ∀ f ∈ frames.take (frames.countP (·.group == g)), f.group = g := by
  induction frames with
  | nil => simp
  | cons frame below ih =>
    have hbelow (f : Frame) (hf : f ∈ below) : f.group ≤ g := hg f (List.mem_cons_of_mem _ hf)
    by_cases e : frame.group = g
    · rw [List.countP_cons_of_pos (by simpa using e), List.take_succ_cons, List.forall_mem_cons]
      exact ⟨e, ih h.tail hbelow⟩
    · have hlt : frame.group < g := lt_of_le_of_ne (hg frame List.mem_cons_self) e
      have hnone : (frame :: below).countP (·.group == g) = 0 := by
        rw [List.countP_eq_zero, List.forall_mem_cons]
        refine ⟨by simpa using e, fun f hf => ?_⟩
        have hle := h.group_le_top f hf
        simp only [beq_iff_eq]
        omega
      simp [hnone]

theorem Nested.parent_below {frame : Frame} {below : List Frame} (h : Nested (frame :: below)) :
    frame.parent = none ∨ ∃ inner f outer, below = inner ++ f :: outer ∧
      frame.parent = some f.slot := by
  generalize e : frame :: below = frames at h
  induction h generalizing frame below with
  | nil => cases e
  | inside _ _ hp _ _ =>
    obtain ⟨rfl, rfl⟩ := List.cons.inj e
    cases below with
    | nil => exact .inl hp
    | cons top below => exact .inr ⟨[], top, below, rfl, hp⟩
  | @beside _ top _ _ _ hp _ ih =>
    obtain ⟨rfl, rfl⟩ := List.cons.inj e
    rcases ih rfl with h | ⟨inner, f, outer, rfl, h⟩
    · exact .inl (hp.trans h)
    · exact .inr ⟨top :: inner, f, outer, rfl, hp.trans h⟩

theorem lineage_none (frames : List Frame) : lineage frames none = [] := by
  induction frames with
  | nil => rfl
  | cons frame below ih => simp [lineage, ih]

theorem Nested.lineage_append {inner outer : List Frame} {f : Frame}
    (h : Nested (inner ++ f :: outer)) :
    lineage (inner ++ f :: outer) (some f.slot) = f.component :: lineage outer f.parent := by
  induction inner with
  | nil => simp [lineage]
  | cons frame inner ih =>
    have hlt : f.slot < frame.slot := h.slot_lt f (by simp)
    have hne : some f.slot ≠ some frame.slot := by simp; omega
    simp only [List.cons_append, lineage, if_neg hne]
    exact ih h.tail

variable {store : Store}

theorem nameIn_of_parent_none {frame : Frame} (h : frame.parent = none) (below : List Frame) :
    nameIn store frame below = (store.get frame.component).label := by
  simp [nameIn, h, lineage_none, Dotted.join]

theorem Nested.nameIn_of_parent {inner outer : List Frame} {frame f : Frame}
    (h : Nested (inner ++ f :: outer)) (hp : frame.parent = some f.slot) :
    nameIn store frame (inner ++ f :: outer) =
      nameIn store f outer ++ "." ++ (store.get frame.component).label := by
  unfold nameIn
  rw [hp, h.lineage_append, List.reverse_cons, List.map_append, List.map_singleton]
  exact Dotted.join_concat (by simp) _

theorem Nested.nameIn_ne_empty {frame : Frame} {below : List Frame}
    (h : Nested (frame :: below)) : nameIn store frame below ≠ "" := by
  rcases h.parent_below with hp | ⟨inner, f, outer, rfl, hp⟩
  · rw [nameIn_of_parent_none hp]
    exact Component.label_ne_empty _
  · rw [h.tail.nameIn_of_parent hp]
    exact Dotted.append_dot_ne_empty _ _

/-- The open components with their names are the frames, each named by the frames around it. -/
theorem mem_namesFrom_iff {frames : List Frame} {name : String} {id : ComponentId} :
    (name, id) ∈ namesFrom store frames ↔
      ∃ inner f outer, frames = inner ++ f :: outer ∧ name = nameIn store f outer ∧
        id = f.component := by
  induction frames with
  | nil => simp [namesFrom]
  | cons frame below ih =>
    simp only [namesFrom, List.mem_cons, Prod.mk.injEq, ih]
    constructor
    · rintro (⟨rfl, rfl⟩ | ⟨inner, f, outer, rfl, rfl, rfl⟩)
      · exact ⟨[], frame, below, rfl, rfl, rfl⟩
      · exact ⟨frame :: inner, f, outer, rfl, rfl, rfl⟩
    · rintro ⟨inner, f, outer, e, rfl, rfl⟩
      cases inner with
      | nil =>
        obtain ⟨rfl, rfl⟩ := List.cons.inj e
        exact .inl ⟨rfl, rfl⟩
      | cons g inner =>
        obtain ⟨rfl, rfl⟩ := List.cons.inj e
        exact .inr ⟨inner, f, outer, rfl, rfl, rfl⟩

theorem mem_components_of_mem_lineage {frames : List Frame} {slot : Option Nat} {id : ComponentId}
    (h : id ∈ lineage frames slot) : ∃ f ∈ frames, f.component = id := by
  induction frames generalizing slot with
  | nil => simp [lineage] at h
  | cons frame below ih =>
    unfold lineage at h
    split at h
    · rcases List.mem_cons.mp h with rfl | h
      · exact ⟨frame, List.mem_cons_self, rfl⟩
      · obtain ⟨f, hf, e⟩ := ih h
        exact ⟨f, List.mem_cons_of_mem _ hf, e⟩
    · obtain ⟨f, hf, e⟩ := ih h
      exact ⟨f, List.mem_cons_of_mem _ hf, e⟩

theorem nameIn_congr {s t : Store} {frame : Frame} {below : List Frame}
    (h : ∀ f ∈ frame :: below, (t.get f.component).label = (s.get f.component).label) :
    nameIn t frame below = nameIn s frame below := by
  unfold nameIn
  congr 1
  apply List.map_congr_left
  intro id hid
  rw [List.mem_reverse] at hid
  rcases List.mem_cons.mp hid with rfl | hid
  · exact h frame List.mem_cons_self
  · obtain ⟨f, hf, rfl⟩ := mem_components_of_mem_lineage hid
    exact h f (List.mem_cons_of_mem _ hf)

theorem topName?_congr {s t : Store} (scope : Scope)
    (h : ∀ f ∈ scope.frames, (t.get f.component).label = (s.get f.component).label) :
    scope.topName? t = scope.topName? s := by
  unfold topName?
  split
  · rfl
  · rename_i hf
    rw [hf] at h
    rw [nameIn_congr h]

theorem namesFrom_congr {s t : Store} {frames : List Frame}
    (h : ∀ f ∈ frames, (t.get f.component).label = (s.get f.component).label) :
    namesFrom t frames = namesFrom s frames := by
  induction frames with
  | nil => rfl
  | cons frame below ih =>
    rw [namesFrom, namesFrom, nameIn_congr h, ih fun f hf => h f (List.mem_cons_of_mem _ hf)]

theorem find?_congr {s t : Store} {scope : Scope}
    (h : ∀ f ∈ scope.frames, (t.get f.component).label = (s.get f.component).label)
    (name : String) : scope.find? t name = scope.find? s name := by
  simp only [find?, openNames, namesFrom_congr h]

theorem mem_openNames_iff {scope : Scope} {name : String} {id : ComponentId} :
    (name, id) ∈ scope.openNames store ↔
      ∃ inner f outer, scope.frames = inner ++ f :: outer ∧ name = nameIn store f outer ∧
        id = f.component := by
  rw [openNames, List.mem_reverse, mem_namesFrom_iff]

theorem mem_openNames_of_find? {scope : Scope} {name : String} {id : ComponentId}
    (h : scope.find? store name = some id) : (name, id) ∈ scope.openNames store := by
  simp only [find?, Option.map_eq_some_iff] at h
  obtain ⟨⟨n, i⟩, h, rfl⟩ := h
  have hn := List.find?_some h
  simp only [beq_iff_eq] at hn
  exact hn ▸ List.mem_of_find?_eq_some h

theorem find?_of_mem_openNames {scope : Scope} {name : String} {id : ComponentId}
    (h : (name, id) ∈ scope.openNames store) : ∃ other, scope.find? store name = some other := by
  cases e : scope.find? store name with
  | some other => exact ⟨other, rfl⟩
  | none =>
    simp only [find?, Option.map_eq_none_iff, List.find?_eq_none] at e
    simpa using e _ h

/-- An inner frame is found only if no outer one has the name. -/
theorem find?_cons (frame : Frame) (below : List Frame) (pushed : Nat) (name : String) :
    find? ⟨frame :: below, pushed⟩ store name = (find? ⟨below, pushed⟩ store name).or
      (if nameIn store frame below = name then some frame.component else none) := by
  simp only [find?, openNames, namesFrom, List.reverse_cons, List.find?_append, Option.map_or]
  congr 1
  by_cases e : nameIn store frame below = name <;> simp [e]

theorem find?_outermost {root : Frame} (h : root.parent = none) (more : List Frame) (pushed : Nat) :
    find? ⟨more ++ [root], pushed⟩ store (store.get root.component).label =
      some root.component := by
  induction more with
  | nil =>
    rw [List.nil_append, find?_cons, nameIn_of_parent_none h, if_pos rfl]
    rfl
  | cons frame more ih => rw [List.cons_append, find?_cons, ih, Option.some_or]

theorem Nested.length_nameIn {frame root : Frame} {more : List Frame}
    (h : Nested (frame :: (more ++ [root]))) (hr : root.parent = none)
    (hp : ∀ f ∈ frame :: more, f.parent ≠ none) :
    (store.get root.component).label.length < (nameIn store frame (more ++ [root])).length := by
  induction e : more.length using Nat.strong_induction_on generalizing frame more with
  | _ size ih =>
    rcases h.parent_below with hnone | ⟨inner, f, outer, hsplit, hf⟩
    · exact absurd hnone (hp frame List.mem_cons_self)
    have hn := h.tail
    rw [hsplit] at hn
    rw [hsplit, hn.nameIn_of_parent hf, String.length_append, String.length_append]
    have hdot : ".".length = 1 := rfl
    -- The frame around is the outermost one, or it is nested in that one itself.
    rcases outer.eq_nil_or_concat with rfl | ⟨outer, last, rfl⟩
    · obtain ⟨-, rfl⟩ := List.append_singleton_inj.mp hsplit
      rw [nameIn_of_parent_none hr]
      omega
    · rw [List.concat_eq_append, ← List.cons_append, ← List.append_assoc] at hsplit
      obtain ⟨rfl, rfl⟩ := List.append_singleton_inj.mp hsplit
      have hinner : Nested (f :: (outer ++ [root])) := by simpa using hn.of_append
      have hparents (g : Frame) (hg : g ∈ f :: outer) : g.parent ≠ none :=
        hp g (List.mem_cons_of_mem _ (List.mem_append_right _ hg))
      have hlt := ih outer.length (by simp at e; omega) hinner hparents rfl
      rw [List.concat_eq_append]
      omega

theorem find?_of_cons {frame : Frame} {below : List Frame} {pushed : Nat} {name : String}
    {id : ComponentId} (hf : find? ⟨frame :: below, pushed⟩ store name = some id)
    (hm : (name, id) ∈ openNames ⟨below, pushed⟩ store) :
    find? ⟨below, pushed⟩ store name = some id := by
  obtain ⟨other, ho⟩ := find?_of_mem_openNames hm
  rwa [find?_cons frame below pushed, ho, Option.some_or, ← ho] at hf

theorem mem_openNames_cons {frame : Frame} {below : List Frame} {pushed : Nat} {name : String}
    {id : ComponentId} :
    (name, id) ∈ openNames ⟨frame :: below, pushed⟩ store ↔
      (name = nameIn store frame below ∧ id = frame.component) ∨
        (name, id) ∈ openNames ⟨below, pushed⟩ store := by
  simp only [openNames, List.mem_reverse, namesFrom, List.mem_cons, Prod.mk.injEq]

theorem openNames_congr {s t : Store} {scope : Scope}
    (h : ∀ f ∈ scope.frames, (t.get f.component).label = (s.get f.component).label) :
    scope.openNames t = scope.openNames s := by
  simp only [openNames, namesFrom_congr h]

theorem openNames_unique {scope : Scope} (hd : (scope.frames.map Frame.component).Nodup)
    {m n : String} {id : ComponentId} (hm : (m, id) ∈ scope.openNames store)
    (hn : (n, id) ∈ scope.openNames store) : m = n := by
  obtain ⟨frames, pushed⟩ := scope
  induction frames with
  | nil => simp [openNames, namesFrom] at hm
  | cons frame below ih =>
    obtain ⟨hnot, hd⟩ := List.nodup_cons.mp hd
    have outer {name : String} (h : (name, frame.component) ∈ openNames ⟨below, pushed⟩ store) :
        False := by
      obtain ⟨inner, f, outer, e, -, hi⟩ := mem_openNames_iff.mp h
      have e : below = inner ++ f :: outer := e
      exact hnot (hi ▸ List.mem_map_of_mem (e ▸ List.mem_append_right inner List.mem_cons_self))
    rcases mem_openNames_cons.mp hm with ⟨rfl, rfl⟩ | hm
    · rcases mem_openNames_cons.mp hn with ⟨rfl, -⟩ | hn
      · rfl
      · exact (outer hn).elim
    · rcases mem_openNames_cons.mp hn with ⟨rfl, rfl⟩ | hn
      · exact (outer hm).elim
      · exact ih hd hm hn

/-- The components on the way outwards from the frame of a number, from each frame to its parent. -/
inductive Climbs (frames : List Frame) : Option Nat → List ComponentId → Prop
  | stop : Climbs frames none []
  | up {f : Frame} {ids : List ComponentId} : f ∈ frames → Climbs frames f.parent ids →
      Climbs frames (some f.slot) (f.component :: ids)

theorem Climbs.mono {frames more : List Frame} (hsub : frames ⊆ more) {slot : Option Nat}
    {ids : List ComponentId} (h : Climbs frames slot ids) : Climbs more slot ids := by
  induction h with
  | stop => exact .stop
  | up hf _ ih => exact .up (hsub hf) ih

/-- The way outwards from a frame is finite. It leads along the components that name the frame. -/
theorem Nested.climbs {f : Frame} {outer : List Frame} (h : Nested (f :: outer)) :
    Climbs (f :: outer) (some f.slot) (f.component :: lineage outer f.parent) := by
  induction e : outer.length using Nat.strong_induction_on generalizing f outer with
  | _ size ih =>
    apply Climbs.up List.mem_cons_self
    rcases h.parent_below with hp | ⟨inner, g, rest, rfl, hp⟩
    · rw [hp, lineage_none]
      exact .stop
    · rw [hp, h.tail.lineage_append]
      apply (ih rest.length (by simp at e; omega) h.tail.of_append rfl).mono
      exact fun _ hg => List.mem_cons_of_mem _ (List.mem_append_right _ hg)

inductive Reached : Scope → Prop
  | new : Reached {}
  | push {scope : Scope} (id : ComponentId) : Reached scope → Reached (scope.push id)
  | pushSibling {scope scope' : Scope} {id : ComponentId} : Reached scope →
      scope.pushSibling? id = some scope' → Reached scope'
  | pop {scope scope' : Scope} {frame : Frame} : Reached scope →
      scope.pop? = some (frame, scope') → Reached scope'
  | clear {scope : Scope} : Reached scope → Reached scope.clear

/-- Frames that came onto a scope are nested, and their numbers have been used. -/
theorem Reached.nested {scope : Scope} (h : Reached scope) :
    Nested scope.frames ∧ ∀ f ∈ scope.frames, f.slot < scope.pushed := by
  induction h with
  | new => exact ⟨.nil, by simp⟩
  | push id _ ih =>
    obtain ⟨hn, hlt⟩ := ih
    refine ⟨.inside hn hlt rfl rfl, List.forall_mem_cons.mpr ⟨Nat.lt_succ_self _, ?_⟩⟩
    exact fun f hf => Nat.lt_succ_of_lt (hlt f hf)
  | @pushSibling scope _ id _ he ih =>
    obtain ⟨hn, hlt⟩ := ih
    obtain ⟨top, ht, rfl⟩ := Option.map_eq_some_iff.mp he
    obtain ⟨below, hf⟩ := List.head?_eq_some_iff.mp ht
    refine ⟨?_, List.forall_mem_cons.mpr ⟨Nat.lt_succ_self _, ?_⟩⟩
    · rw [hf] at hn hlt
      simp only [pushBeside, hf]
      exact .beside hn hlt rfl rfl
    · exact fun f hf => Nat.lt_succ_of_lt (hlt f hf)
  | pop _ he ih =>
    unfold pop? at he
    split at he
    · cases he
    · rename_i hf
      cases he
      rw [hf] at ih
      exact ⟨ih.1.tail, fun f hm => ih.2 f (List.mem_cons_of_mem _ hm)⟩
  | clear => exact ⟨.nil, by simp [Scope.clear]⟩

theorem Reached.group_lt {scope : Scope} (h : Reached scope) :
    ∀ f ∈ scope.frames, f.group < scope.pushed :=
  fun f hf => (h.nested.1.group_le f hf).trans_lt (h.nested.2 f hf)

theorem Reached.tail {scope : Scope} (h : Reached scope) :
    Reached ⟨scope.frames.tail, scope.pushed⟩ := by
  cases hf : scope.frames with
  | nil =>
    obtain ⟨frames, pushed⟩ := scope
    obtain rfl : frames = [] := hf
    exact h
  | cons frame below =>
    have he : scope.pop? = some (frame, ⟨below, scope.pushed⟩) := by simp [pop?, hf]
    exact h.pop he

end Scope

end CodeAtlas
