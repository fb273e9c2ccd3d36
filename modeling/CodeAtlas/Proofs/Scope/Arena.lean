import Mathlib.Logic.Function.Iterate
import CodeAtlas.Proofs.Scope.Distinct

/-! # All frames of a scope

A scope shows the frames that are open. Together with those that have been closed they make an
arena, in which each frame has its number as its index. Whatever is done to a scope, parents come
before the frames inside of them, frames that were declared together lie next to each other, and
they have been opened inside the frame beneath.
-/

namespace CodeAtlas

namespace Scope

variable {frames inner between outer : List Frame} {f g top : Frame}

theorem Nested.increasing (h : Nested frames) :
    (frames.reverse.map Frame.slot).Pairwise (· < ·) := by
  rw [List.pairwise_map, List.pairwise_reverse]
  induction frames with
  | nil => exact .nil
  | cons frame below ih => exact List.pairwise_cons.mpr ⟨h.slot_lt, ih h.tail⟩

theorem Nested.contiguous (h : Nested (inner ++ f :: (between ++ g :: outer)))
    (hg : f.group = g.group) : ∀ m ∈ between, m.group = f.group := by
  intro m hm
  have hinner := h.of_append
  have hle : m.group ≤ f.group := hinner.group_le_top m (List.mem_append_left _ hm)
  obtain ⟨first, last, rfl⟩ := List.append_of_mem hm
  have houter : Nested (first ++ m :: (last ++ g :: outer)) := by simpa using hinner.tail
  have hge : g.group ≤ m.group := houter.of_append.group_le_top g (by simp)
  omega

theorem Nested.group_split {below : List Frame} (h : Nested (f :: below)) :
    f :: below = (f :: below).filter (·.group == f.group) ++
      (f :: below).filter (·.group != f.group) :=
  h.eq_filter_append (List.forall_mem_cons.mpr ⟨le_rfl, h.group_le_top⟩)

theorem Nested.beneath (h : Nested frames) (hf : f ∈ frames) :
    ∃ inner first outer, frames = inner ++ first :: outer ∧ first.group = f.group ∧
      (∀ g ∈ outer, g.group ≠ f.group) ∧ f.parent = outer.head?.map Frame.slot := by
  obtain ⟨before, below, rfl⟩ := List.append_of_mem hf
  have hnested := h.of_append
  have hsplit := hnested.group_split
  have hmem : f ∈ (f :: below).filter (·.group == f.group) := by simp
  have hmembers : ∀ g ∈ (f :: below).filter (·.group == f.group), g.group = f.group := by simp
  have houter : ∀ g ∈ (f :: below).filter (·.group != f.group), g.group ≠ f.group := by simp
  generalize (f :: below).filter (·.group == f.group) = members at *
  generalize (f :: below).filter (·.group != f.group) = outer at *
  rw [hsplit] at hnested
  have hparent := hnested.parent_of_group hmembers houter f hmem
  rcases members.eq_nil_or_concat with rfl | ⟨more, first, rfl⟩
  · cases hmem
  · refine ⟨before ++ more, first, outer, ?_, hmembers first (by simp), houter, hparent⟩
    rw [hsplit]
    simp

theorem Nested.takeWhile_group {below : List Frame} (h : Nested (top :: below)) :
    (top :: below).takeWhile (·.group == top.group) =
      (top :: below).filter (·.group == top.group) := by
  have hrest : ((top :: below).filter (·.group != top.group)).takeWhile (·.group == top.group) =
      [] := by
    rw [List.takeWhile_eq_nil_iff]
    intro hpos
    have hmem := List.getElem_mem hpos
    simpa using (List.mem_filter.mp hmem).2
  conv_lhs => rw [h.group_split]
  rw [List.takeWhile_append_of_pos (by simp), hrest, List.append_nil]

end Scope

inductive Scope.Act where
  | push (id : ComponentId)
  | pushSibling (id : ComponentId)
  | pop
  | clear
  | rename (id : ComponentId) (name : Option String)

/-- A scope with the components that it names, and all frames that were ever opened. -/
structure Arena where
  store : Store
  scope : Scope := {}
  slots : List Frame := []

namespace Arena

open Scope

def opened (a : Arena) (scope : Scope) : Arena :=
  { a with scope, slots := a.slots ++ scope.top?.toList }

/-- What cannot be done with nothing open changes nothing. -/
def act (a : Arena) : Act → Arena
  | .push id => a.opened (a.scope.push id)
  | .pushSibling id =>
    match a.scope.pushSibling? id with
    | some scope => a.opened scope
    | none => a
  | .pop =>
    match a.scope.pop? with
    | some (_, scope) => { a with scope }
    | none => a
  | .clear => { a with scope := a.scope.clear }
  | .rename id name => { a with store := a.store.modify id ({ · with shortName := name }) }

def run (a : Arena) (acts : List Act) : Arena := acts.foldl act a

/-- One step on the way outwards from a slot: its label is put before those so far, and the way goes
on from its parent. There is no way on from an index without a slot. -/
def climb (a : Arena) : Option Nat × List String → Option Nat × List String
  | (none, labels) => (none, labels)
  | (some i, labels) =>
    match a.slots[i]? with
    | some f => (f.parent, (a.store.get f.component).label :: labels)
    | none => (some i, labels)

structure Orderly (a : Arena) : Prop where
  /-- The numbers of open frames increase inwards, and are their indices. -/
  increasing : (a.scope.frames.reverse.map Frame.slot).Pairwise (· < ·)
  indexed : ∀ f ∈ a.scope.frames, a.slots[f.slot]? = some f
  /-- The parent of a frame, open or closed, comes before it, so that the way outwards ends. -/
  parent_lt : ∀ (i : Nat) (f : Frame), a.slots[i]? = some f →
    ∀ parent, f.parent = some parent → parent < i
  climb_ends : ∀ i < a.slots.length,
    ∃ n ≤ i + 1, ∃ labels, a.climb^[n] (some i, []) = (none, labels)
  /-- Whatever lies between open frames of one group is of this group. -/
  contiguous : ∀ inner f between g outer, a.scope.frames = inner ++ f :: (between ++ g :: outer) →
    f.group = g.group → ∀ h ∈ between, h.group = f.group
  /-- The parent of an open frame is the frame beneath the first open one of its group. -/
  beneath : ∀ f ∈ a.scope.frames, ∃ inner first outer, a.scope.frames = inner ++ first :: outer ∧
    first.group = f.group ∧ (∀ g ∈ outer, g.group ≠ f.group) ∧
    f.parent = outer.head?.map Frame.slot
  /-- As many frames as the size of the innermost group are those of the group, and to pop them
  leaves all others. -/
  groupSize : ∀ top, a.scope.top? = some top →
    let block := a.scope.frames.takeWhile (·.group == top.group)
    a.scope.groupSize? = some block.length ∧
      block = a.scope.frames.filter (·.group == top.group) ∧
      (a.run (.replicate block.length .pop)).scope.frames =
        a.scope.frames.filter (·.group != top.group)
  /-- An open component is named by its parent's name, a dot and its label, or by its label. The way
  outwards gives this name. -/
  name_eq : ∀ inner f outer, a.scope.frames = inner ++ f :: outer →
    (nameIn a.store f outer, f.component) ∈ a.scope.openNames a.store ∧
    (f.parent = none → nameIn a.store f outer = (a.store.get f.component).label) ∧
    (∀ i, f.parent = some i → ∃ between g further, outer = between ++ g :: further ∧ g.slot = i ∧
      nameIn a.store f outer =
        nameIn a.store g further ++ "." ++ (a.store.get f.component).label) ∧
    ∃ n labels, a.climb^[n] (some f.slot, []) = (none, labels) ∧
      Dotted.join labels = nameIn a.store f outer

structure Valid (a : Arena) : Prop where
  reached : a.scope.Reached
  pushed_eq : a.scope.pushed = a.slots.length
  numbered : ∀ (i : Nat) (f : Frame), a.slots[i]? = some f → f.slot = i
  indexed : ∀ f ∈ a.scope.frames, a.slots[f.slot]? = some f
  parent_lt : ∀ f ∈ a.slots, ∀ parent, f.parent = some parent → parent < f.slot

variable {a : Arena} {frame f : Frame}

theorem Valid.opened (h : a.Valid) {scope : Scope} (hr : scope.Reached)
    (hframes : scope.frames = frame :: a.scope.frames) (hslot : frame.slot = a.scope.pushed)
    (hpushed : scope.pushed = a.scope.pushed + 1) : (a.opened scope).Valid := by
  have hnested := hr.nested.1
  rw [hframes] at hnested
  have hslots : (a.opened scope).slots = a.slots ++ [frame] := by
    simp [Arena.opened, top?, hframes]
  have hlast : frame.slot = a.slots.length := hslot.trans h.pushed_eq
  constructor
  · exact hr
  · rw [hslots, List.length_append, ← h.pushed_eq]
    exact hpushed
  · intro i f hf
    rw [hslots, List.getElem?_append] at hf
    split at hf
    · exact h.numbered i f hf
    · obtain ⟨hi, rfl⟩ : i - a.slots.length = 0 ∧ frame = f := by
        simpa [List.getElem?_singleton] using hf
      omega
  · change ∀ f ∈ scope.frames, _
    rw [hframes, hslots, List.forall_mem_cons]
    refine ⟨?_, fun f hf => ?_⟩
    · rw [hlast, List.getElem?_concat_length]
    · have hindex := h.indexed f hf
      rwa [List.getElem?_append_left (List.getElem?_eq_some_iff.mp hindex).1]
  · rw [hslots, List.forall_mem_append, List.forall_mem_singleton]
    refine ⟨h.parent_lt, fun parent hp => ?_⟩
    rcases hnested.parent_below with hnone | ⟨inner, g, outer, hsplit, hparent⟩
    · rw [hnone] at hp
      cases hp
    · obtain rfl := Option.some.inj (hparent.symm.trans hp)
      exact hnested.slot_lt g (by simp [hsplit])

theorem Valid.closed (h : a.Valid) {scope : Scope} (hr : scope.Reached)
    (hpushed : scope.pushed = a.scope.pushed) (hsub : scope.frames ⊆ a.scope.frames) :
    Valid { a with scope } where
  reached := hr
  pushed_eq := hpushed.trans h.pushed_eq
  numbered := h.numbered
  indexed f hf := h.indexed f (hsub hf)
  parent_lt := h.parent_lt

theorem Valid.act (h : a.Valid) (act : Act) : (a.act act).Valid := by
  cases act with
  | push id => exact h.opened (h.reached.push id) rfl rfl rfl
  | pushSibling id =>
    unfold Arena.act
    dsimp only
    split
    · rename_i scope hs
      have hr := h.reached.pushSibling hs
      obtain ⟨top, -, rfl⟩ := Option.map_eq_some_iff.mp hs
      exact h.opened hr rfl rfl rfl
    · exact h
  | pop =>
    unfold Arena.act
    dsimp only
    split
    · rename_i frame scope hs
      have hr := h.reached.pop hs
      unfold pop? at hs
      split at hs
      · cases hs
      · rename_i hf
        cases hs
        exact h.closed hr rfl (hf ▸ List.subset_cons_self _ _)
    · exact h
  | clear => exact h.closed h.reached.clear rfl (List.nil_subset _)
  | rename id name =>
    exact ⟨h.reached, h.pushed_eq, h.numbered, h.indexed, h.parent_lt⟩

theorem Valid.run (h : a.Valid) (acts : List Act) : (a.run acts).Valid := by
  induction acts generalizing a with
  | nil => exact h
  | cons act rest ih => exact ih (h.act act)

theorem valid_fresh (store : Store) : Valid { store } where
  reached := .new
  pushed_eq := rfl
  numbered _ _ h := by cases h
  indexed _ h := by cases h
  parent_lt _ h := by cases h

theorem climb_some {i : Nat} (h : a.slots[i]? = some f) (labels : List String) :
    a.climb (some i, labels) = (f.parent, (a.store.get f.component).label :: labels) := by
  simp [climb, h]

/-- The way from a slot ends, since each parent comes before the slots inside of it. -/
theorem Valid.climb_ends (h : a.Valid) {i : Nat} (hi : i < a.slots.length) (labels : List String) :
    ∃ n ≤ i + 1, ∃ all, a.climb^[n] (some i, labels) = (none, all) := by
  induction i using Nat.strong_induction_on generalizing labels with
  | _ i ih =>
    obtain ⟨f, hf⟩ : ∃ f, a.slots[i]? = some f := ⟨_, List.getElem?_eq_getElem hi⟩
    -- The way has ended, or it goes on from a smaller index.
    cases hp : f.parent with
    | none =>
      refine ⟨1, by omega, (a.store.get f.component).label :: labels, ?_⟩
      rw [Function.iterate_one, climb_some hf, hp]
    | some parent =>
      have hlt := h.parent_lt f (List.mem_of_getElem? hf) parent hp
      rw [h.numbered i f hf] at hlt
      obtain ⟨n, hn, all, hend⟩ :=
        ih parent hlt (hlt.trans hi) ((a.store.get f.component).label :: labels)
      refine ⟨n + 1, by omega, all, ?_⟩
      rw [Function.iterate_succ_apply, climb_some hf, hp, hend]

theorem Valid.climb_of_climbs (h : a.Valid) {slot : Option Nat} {ids : List ComponentId}
    (hc : Climbs a.scope.frames slot ids) (labels : List String) :
    a.climb^[ids.length] (slot, labels) =
      (none, ids.reverse.map (fun id => (a.store.get id).label) ++ labels) := by
  induction hc generalizing labels with
  | stop => rfl
  | up hf _ ih =>
    rw [List.length_cons, Function.iterate_succ_apply, climb_some (h.indexed _ hf), ih]
    simp

theorem frames_pops (a : Arena) (n : Nat) :
    (a.run (.replicate n .pop)).scope.frames = a.scope.frames.drop n := by
  induction n generalizing a with
  | zero => rfl
  | succ n ih =>
    have hpop : (a.act .pop).scope.frames = a.scope.frames.tail := by
      unfold Arena.act pop?
      cases hf : a.scope.frames with
      | nil => simp [hf]
      | cons frame below => rfl
    change ((a.act .pop).run (.replicate n .pop)).scope.frames = _
    rw [ih, hpop, List.drop_tail]

/-- Whatever is pushed, popped, cleared and renamed, the frames of an arena lie in order. -/
theorem orderly_run (store : Store) (acts : List Act) : (run { store } acts).Orderly := by
  have h := (valid_fresh store).run acts
  generalize run { store } acts = a at h
  have hnested := h.reached.nested.1
  constructor
  · exact hnested.increasing
  · exact h.indexed
  · intro i f hf parent hp
    have hlt := h.parent_lt f (List.mem_of_getElem? hf) parent hp
    rwa [h.numbered i f hf] at hlt
  · exact fun i hi => h.climb_ends hi []
  · intro inner f between g outer hf
    rw [hf] at hnested
    exact hnested.contiguous
  · exact fun f hf => hnested.beneath hf
  · intro top ht
    obtain ⟨below, hf⟩ := List.head?_eq_some_iff.mp ht
    rw [hf] at hnested
    have hblock := hnested.takeWhile_group
    dsimp only
    rw [frames_pops, hf, hblock]
    refine ⟨?_, rfl, ?_⟩
    · rw [groupSize?, ht, hf, ← List.countP_eq_length_filter]
      rfl
    · exact (congrArg (List.drop _) hnested.group_split).trans (List.drop_left' rfl)
  · intro inner f outer hf
    rw [hf] at hnested
    have hinner := hnested.of_append
    refine ⟨mem_openNames_iff.mpr ⟨inner, f, outer, hf, rfl, rfl⟩,
      fun hp => nameIn_of_parent_none hp outer, fun i hp => ?_, ?_⟩
    · rcases hinner.parent_below with hnone | ⟨between, g, further, rfl, hg⟩
      · rw [hnone] at hp
        cases hp
      · exact ⟨between, g, further, rfl, Option.some.inj (hg.symm.trans hp),
          hinner.tail.nameIn_of_parent hg⟩
    · have hsub : f :: outer ⊆ a.scope.frames := hf ▸ List.subset_append_right _ _
      have hclimb := h.climb_of_climbs (hinner.climbs.mono hsub) []
      rw [List.append_nil] at hclimb
      exact ⟨_, _, hclimb, rfl⟩

/-- The slot of a sibling that has been popped stays used. -/
example :
    let a := run { store := {} }
      [.push ⟨0⟩, .push ⟨1⟩, .pushSibling ⟨2⟩, .pop, .pushSibling ⟨3⟩, .push ⟨4⟩]
    a.slots.length = 5 ∧ a.scope.frames.map (fun f => (f.slot, f.parent, f.group)) =
      [(4, some 3, 4), (3, some 0, 1), (1, some 0, 1), (0, none, 0)] := by decide

end Arena

end CodeAtlas
