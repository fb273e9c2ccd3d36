import Mathlib.Data.List.Nodup
import Mathlib.Logic.Function.Iterate
import CodeAtlas.Proofs.Tree.Walk

/-! # Events of a walk

A walk is a loop over a stack of pending visits. It comes to an end after one round for each visit,
and fires what the recursion on the tree fires. Each place that named children lead to is entered
once and left once, and no other place is visited.
-/

namespace CodeAtlas

def Visit.fire (has : String → Bool) (visit : Visit) : List (String × Place) :=
  (visit.callbacks.filter has).map (·, visit.place)

def called (has : String → Bool) (name : String) (p : Place) : List (String × Place) :=
  if has name then [(name, p)] else []

mutual

/-- The events of a walk, by recursion on the tree. -/
def eventsAt (has : String → Bool) (source : List UInt8) (above : List Step) :
    Node → List (String × Place)
  | .mk label children =>
    called has "enter_every_rule" ⟨source, .mk label children, above⟩ ++
      called has ("enter_" ++ label.type) ⟨source, .mk label children, above⟩ ++
      eventsBelow has source (.mk label children) above [] children ++
      called has ("exit_" ++ label.type) ⟨source, .mk label children, above⟩ ++
      called has "exit_every_rule" ⟨source, .mk label children, above⟩

def eventsBelow (has : String → Bool) (source : List UInt8) (parent : Node) (above : List Step)
    (earlier : List Node) : List Node → List (String × Place)
  | [] => []
  | child :: rest =>
    (if child.named then eventsAt has source (⟨parent, earlier⟩ :: above) child else []) ++
      eventsBelow has source parent above (child :: earlier) rest

end

structure Loop where
  pending : List Visit
  events : List (String × Place)

/-- One round of the loop makes the next visit. When a place is entered, its named children are
pending next, and after them its exit. -/
def Loop.round (has : String → Bool) (loop : Loop) : Loop :=
  match loop.pending with
  | [] => loop
  | .exit p :: rest => ⟨rest, loop.events ++ (Visit.exit p).fire has⟩
  | .enter p :: rest =>
    ⟨p.namedChildren.map .enter ++ .exit p :: rest, loop.events ++ (Visit.enter p).fire has⟩

/-- Events in which those of leaving a place come after those of entering it, with well nested
events in between. -/
inductive WellNested (has : String → Bool) : List (String × Place) → Prop
  | nil : WellNested has []
  | around (p : Place) {inside after : List (String × Place)} : WellNested has inside →
      WellNested has after →
      WellNested has ((Visit.enter p).fire has ++ inside ++ (Visit.exit p).fire has ++ after)

section Loop

variable (has : String → Bool) {pending : List Visit} {events : List (String × Place)}

/-- After one round for each visit the loop is at its end. -/
theorem iterate_round (pending : List Visit) (events : List (String × Place)) :
    (Loop.round has)^[(visitsFrom pending).length] ⟨pending, events⟩ =
      ⟨[], events ++ (visitsFrom pending).flatMap (·.fire has)⟩ := by
  fun_induction visitsFrom pending generalizing events with
  | case1 => simp
  | case2 p rest ih =>
    rw [List.length_cons, Function.iterate_succ_apply, List.flatMap_cons, ← List.append_assoc]
    exact ih _
  | case3 p rest ih =>
    rw [List.length_cons, Function.iterate_succ_apply, List.flatMap_cons, ← List.append_assoc]
    exact ih _

theorem pending_iterate_round {n : Nat} (hn : n < (visitsFrom pending).length) :
    ((Loop.round has)^[n] ⟨pending, events⟩).pending ≠ [] := by
  fun_induction visitsFrom pending generalizing events n with
  | case1 => exact absurd hn (Nat.not_lt_zero n)
  | case2 p rest ih =>
    cases n with
    | zero => exact List.cons_ne_nil _ _
    | succ n =>
      rw [Function.iterate_succ_apply]
      exact ih (Nat.lt_of_succ_lt_succ hn)
  | case3 p rest ih =>
    cases n with
    | zero => exact List.cons_ne_nil _ _
    | succ n =>
      rw [Function.iterate_succ_apply]
      exact ih (Nat.lt_of_succ_lt_succ hn)

end Loop

theorem WellNested.append {has : String → Bool} {first second : List (String × Place)}
    (h : WellNested has first) (h' : WellNested has second) : WellNested has (first ++ second) := by
  induction h with
  | nil => exact h'
  | around p hinside _ _ ih =>
    rw [List.append_assoc]
    exact .around p hinside ih

namespace Place

variable {p q r c c' : Place} {has : String → Bool}

section Events

variable (has : String → Bool)

theorem fire_enter (p : Place) : (Visit.enter p).fire has =
    called has "enter_every_rule" p ++ called has ("enter_" ++ p.node.type) p := by
  simp only [Visit.fire, Visit.callbacks, Visit.place, called, List.filter_cons, List.filter_nil]
  split <;> split <;> rfl

theorem fire_exit (p : Place) : (Visit.exit p).fire has =
    called has ("exit_" ++ p.node.type) p ++ called has "exit_every_rule" p := by
  simp only [Visit.fire, Visit.callbacks, Visit.place, called, List.filter_cons, List.filter_nil]
  split <;> split <;> rfl

theorem fired_eq (p : Place) : p.fired has = (Visit.enter p).fire has ++
    p.namedChildren.flatMap (·.fired has) ++ (Visit.exit p).fire has := by
  have hchildren : (p.namedChildren.flatMap walk).flatMap (·.fire has) =
      p.namedChildren.flatMap (·.fired has) := List.flatMap_assoc
  change p.walk.flatMap (·.fire has) = _
  rw [walk_eq, List.flatMap_cons, List.flatMap_append, hchildren, List.flatMap_singleton,
    List.append_assoc]

theorem eventsBelow_eq (p : Place) (earlier children : List Node) :
    eventsBelow has p.source p.node p.above earlier children =
      ((p.childrenFrom earlier children).filter (·.node.named)).flatMap
        fun c => eventsAt has c.source c.above c.node := by
  induction children generalizing earlier with
  | nil => rfl
  | cons child rest ih =>
    rw [eventsBelow, childrenFrom, ih, List.filter_cons]
    dsimp only
    split <;> simp

theorem eventsAt_eq (p : Place) : eventsAt has p.source p.above p.node =
    (Visit.enter p).fire has ++
      p.namedChildren.flatMap (fun c => eventsAt has c.source c.above c.node) ++
        (Visit.exit p).fire has := by
  have hbelow := p.eventsBelow_eq has [] p.node.children
  rw [fire_enter, fire_exit, ← List.append_assoc]
  obtain ⟨source, ⟨label, children⟩, above⟩ := p
  rw [eventsAt]
  exact congrArg (fun inside => _ ++ _ ++ inside ++ _ ++ _) hbelow

/-- The walk fires what the recursion on the tree fires. -/
theorem fired_eq_eventsAt (p : Place) : p.fired has = eventsAt has p.source p.above p.node := by
  induction p using induction with
  | h p ih => rw [fired_eq, eventsAt_eq, List.flatMap_congr ih]

theorem wellNested_siblings {ps : List Place} (h : ∀ c ∈ ps, WellNested has (c.fired has)) :
    WellNested has (ps.flatMap (·.fired has)) := by
  induction ps with
  | nil => exact .nil
  | cons c rest ih =>
    obtain ⟨hc, hrest⟩ := List.forall_mem_cons.mp h
    exact hc.append (ih hrest)

theorem wellNested_fired (p : Place) : WellNested has (p.fired has) := by
  induction p using induction with
  | h p ih =>
    rw [fired_eq, ← List.append_nil (_ ++ _ ++ _)]
    exact .around p (wellNested_siblings has ih) .nil

end Events

inductive Reaches : Place → Place → Prop
  | self (p : Place) : Reaches p p
  | child {p c q : Place} : c ∈ p.namedChildren → Reaches c q → Reaches p q

theorem Reaches.enter_mem (h : Reaches p q) : .enter q ∈ p.walk := by
  induction h with
  | self p => exact p.enter_mem_walk
  | child hc _ ih => exact mem_walk_of_child hc ih

theorem Reaches.exit_mem (h : Reaches p q) : .exit q ∈ p.walk := by
  induction h with
  | self p => exact p.exit_mem_walk
  | child hc _ ih => exact mem_walk_of_child hc ih

theorem reaches_of_mem_walk {visit : Visit} (h : visit ∈ p.walk) : Reaches p visit.place := by
  induction p using induction with
  | h p ih =>
    rw [walk_eq, List.mem_cons, List.mem_append, List.mem_singleton] at h
    rcases h with rfl | h | rfl
    · exact .self p
    · obtain ⟨c, hc, h⟩ := List.mem_flatMap.mp h
      exact .child hc (ih c hc h)
    · exact .self p

theorem Reaches.mem_preorder (h : Reaches p q) : q ∈ p.preorder :=
  mem_preorder_of_mem_walk h.enter_mem

theorem above_suffix (h : q ∈ p.preorder) : p.above <:+ q.above := by
  induction e : p.node.size using Nat.strongRecOn generalizing p with
  | ind size ih =>
    rw [preorder_eq] at h
    rcases List.mem_cons.mp h with rfl | h
    · exact List.suffix_refl _
    · obtain ⟨c, hc, hq⟩ := List.mem_flatMap.mp h
      obtain ⟨earlier, habove⟩ := above_of_mem_childrenFrom hc
      have hsuffix := ih _ (e ▸ size_lt_of_mem_children hc) hq rfl
      exact (habove ▸ List.suffix_cons _ _).trans hsuffix

theorem length_above_of_mem (hc : c ∈ p.children) : c.above.length = p.above.length + 1 := by
  obtain ⟨earlier, habove⟩ := above_of_mem_childrenFrom hc
  rw [habove, List.length_cons]

theorem notMem_preorder_child (hc : c ∈ p.children) : p ∉ c.preorder := by
  intro hp
  have hlength := length_above_of_mem hc
  have hle := (above_suffix hp).length_le
  omega

theorem nodup_above_childrenFrom (p : Place) (earlier children : List Node) :
    ((p.childrenFrom earlier children).map above).Nodup ∧
      ∀ c ∈ p.childrenFrom earlier children, ∃ step : Step,
        c.above = step :: p.above ∧ earlier.length ≤ step.earlier.length := by
  induction children generalizing earlier with
  | nil => exact ⟨List.nodup_nil, by simp [childrenFrom]⟩
  | cons child rest ih =>
    obtain ⟨hnodup, hlater⟩ := ih (child :: earlier)
    rw [childrenFrom, List.map_cons, List.nodup_cons, List.forall_mem_cons]
    refine ⟨⟨?_, hnodup⟩, ⟨_, rfl, Nat.le_refl _⟩, ?_⟩
    · intro hm
      obtain ⟨c, hc, e⟩ := List.mem_map.mp hm
      obtain ⟨step, hstep, hle⟩ := hlater c hc
      obtain ⟨rfl, -⟩ := List.cons.inj (hstep.symm.trans e)
      exact absurd hle (Nat.not_succ_le_self _)
    · intro c hc
      obtain ⟨step, hstep, hle⟩ := hlater c hc
      exact ⟨step, hstep, Nat.le_of_succ_le hle⟩

theorem eq_of_mem_preorder (hc : c ∈ p.children) (hc' : c' ∈ p.children) (hq : q ∈ c.preorder)
    (hq' : q ∈ c'.preorder) : c = c' := by
  have hlength : c.above.length = c'.above.length := by
    rw [length_above_of_mem hc, length_above_of_mem hc']
  have habove : c.above = c'.above :=
    (List.suffix_of_suffix_length_le (above_suffix hq) (above_suffix hq')
      (Nat.le_of_eq hlength)).eq_of_length hlength
  exact List.inj_on_of_nodup_map (p.nodup_above_childrenFrom [] p.node.children).1 hc hc' habove

theorem nodup_children (p : Place) : p.children.Nodup :=
  .of_map above (p.nodup_above_childrenFrom [] p.node.children).1

/-- No visit is made twice. -/
theorem nodup_walk (p : Place) : p.walk.Nodup := by
  induction p using induction with
  | h p ih =>
    have hbelow {visit : Visit} (h : visit ∈ p.namedChildren.flatMap walk) : visit.place ≠ p := by
      obtain ⟨c, hc, hv⟩ := List.mem_flatMap.mp h
      rintro rfl
      exact notMem_preorder_child (List.mem_of_mem_filter hc) (mem_preorder_of_mem_walk hv)
    have hchildren : (p.namedChildren.flatMap walk).Nodup := by
      refine List.nodup_flatMap.mpr ⟨ih, ?_⟩
      refine (p.nodup_children.filter _).imp_of_mem fun {c c'} hc hc' hne visit h h' => hne ?_
      exact eq_of_mem_preorder (List.mem_of_mem_filter hc) (List.mem_of_mem_filter hc')
        (mem_preorder_of_mem_walk h) (mem_preorder_of_mem_walk h')
    rw [walk_eq, List.nodup_cons, List.mem_append, List.mem_singleton, List.nodup_append]
    refine ⟨?_, hchildren, List.nodup_singleton _, ?_⟩
    · rintro (h | h)
      · exact hbelow h rfl
      · cases h
    · intro visit h _ hexit
      rw [List.mem_singleton.mp hexit]
      rintro rfl
      exact hbelow h rfl

theorem Reaches.named (h : Reaches p q) (hr : r ∈ p.preorder) (hq : q ∈ r.preorder) :
    r = p ∨ r.node.named = true := by
  induction h with
  | self p =>
    rw [preorder_eq] at hr
    rcases List.mem_cons.mp hr with rfl | hr
    · exact .inl rfl
    · obtain ⟨c, hc, hr⟩ := List.mem_flatMap.mp hr
      exact absurd (mem_preorder_trans hr hq) (notMem_preorder_child hc)
  | @child p c q hc hreach ih =>
    rw [preorder_eq] at hr
    rcases List.mem_cons.mp hr with rfl | hr
    · exact .inl rfl
    · obtain ⟨c', hc', hr⟩ := List.mem_flatMap.mp hr
      obtain ⟨hchild, hnamed⟩ := List.mem_filter.mp hc
      obtain rfl := eq_of_mem_preorder hchild hc' hreach.mem_preorder (mem_preorder_trans hr hq)
      rcases ih hr hq with rfl | h
      · exact .inr hnamed
      · exact .inr h

theorem not_reaches_below_unnamed (hr : r ∈ p.preorder) (hc : c ∈ r.children)
    (hn : c.node.named = false) (hq : q ∈ c.preorder) : ¬ Reaches p q := by
  have hbelow : c ∈ p.preorder := by
    refine mem_preorder_trans hr ?_
    rw [preorder_eq]
    exact List.mem_cons_of_mem _ (List.mem_flatMap.mpr ⟨c, hc, c.mem_preorder_self⟩)
  intro h
  rcases h.named hbelow hq with rfl | hnamed
  · exact notMem_preorder_child hc hr
  · rw [hn] at hnamed
    cases hnamed

theorem place_of_mem_fired {event : String × Place} (h : event ∈ p.fired has) :
    Reaches p event.2 := by
  obtain ⟨visit, hv, h⟩ := List.mem_flatMap.mp h
  obtain ⟨_, _, rfl⟩ := List.mem_map.mp h
  exact reaches_of_mem_walk hv

/-- The loop of a walk ends after one round for each visit, and has then fired the events of the
recursion on the tree. These are well nested. Each place that named children lead to is entered
once and left once, and nothing below an unnamed child is visited. -/
theorem walk_fires_recursively (p : Place) (has : String → Bool) :
    ((Loop.round has)^[p.walk.length] ⟨[.enter p], []⟩ =
        ⟨[], eventsAt has p.source p.above p.node⟩ ∧
      ∀ n < p.walk.length, ((Loop.round has)^[n] ⟨[.enter p], []⟩).pending ≠ []) ∧
    p.fired has = eventsAt has p.source p.above p.node ∧
    WellNested has (p.fired has) ∧
    (p.walk.Nodup ∧ ∀ q, (.enter q ∈ p.walk ↔ p.Reaches q) ∧ (.exit q ∈ p.walk ↔ p.Reaches q)) ∧
    ∀ r ∈ p.preorder, ∀ c ∈ r.children, c.node.named = false → ∀ q ∈ c.preorder,
      .enter q ∉ p.walk ∧ .exit q ∉ p.walk ∧ ∀ event ∈ p.fired has, event.2 ≠ q := by
  refine ⟨⟨?_, fun n hn => pending_iterate_round has hn⟩, p.fired_eq_eventsAt has,
    p.wellNested_fired has, ⟨p.nodup_walk, fun q => ⟨?_, ?_⟩⟩, ?_⟩
  · rw [← fired_eq_eventsAt]
    exact iterate_round has [.enter p] []
  · exact ⟨reaches_of_mem_walk, Reaches.enter_mem⟩
  · exact ⟨reaches_of_mem_walk, Reaches.exit_mem⟩
  · intro r hr c hc hn q hq
    have hnot := not_reaches_below_unnamed hr hc hn hq
    refine ⟨fun h => hnot (reaches_of_mem_walk h), fun h => hnot (reaches_of_mem_walk h), ?_⟩
    rintro event h rfl
    exact hnot (place_of_mem_fired h)

def guarded : Place where
  source := []
  node := .mk { type := "block" }
    [.mk { type := "word", named := false } [.mk { type := "name" } []],
      .mk { type := "call" } [.mk { type := "name" } []]]

/-- A listener to all entries and to the exits of blocks and calls. The name below the word is not
among what it hears of. -/
theorem walk_fires_recursively_guarded :
    let has := (["enter_every_rule", "exit_block", "exit_call"].contains ·)
    let word : Place := ⟨[], .mk { type := "word", named := false } [.mk { type := "name" } []],
      [⟨guarded.node, []⟩]⟩
    let name : Place := ⟨[], .mk { type := "name" } [], [⟨word.node, []⟩, ⟨guarded.node, []⟩]⟩
    (guarded.fired has).map (fun event => (event.1, event.2.node.type)) =
        [("enter_every_rule", "block"), ("enter_every_rule", "call"), ("enter_every_rule", "name"),
          ("exit_call", "call"), ("exit_block", "block")] ∧
      word ∈ guarded.children ∧ name ∈ word.preorder ∧ .enter name ∉ guarded.walk := by
  intro has word name
  obtain ⟨-, hevents, -, -, hunnamed⟩ := walk_fires_recursively guarded has
  have hword : word ∈ guarded.children := List.mem_cons_self
  have hname : name ∈ word.preorder := List.mem_cons_of_mem _ List.mem_cons_self
  refine ⟨?_, hword, hname, ?_⟩
  · rw [hevents]
    decide +kernel
  · exact (hunnamed guarded guarded.mem_preorder_self word hword rfl name hname).1

end Place

end CodeAtlas
