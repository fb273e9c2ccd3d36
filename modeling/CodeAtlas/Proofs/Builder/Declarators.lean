import CodeAtlas.Proofs.Builder.Together

/-! # Declarations of several components

A declaration that gives several names opens a component for each of them and closes them all at
once, the last one first. Each component has what was learnt up to the next name, and all of them
are named under the component that the declaration stands in.
-/

namespace CodeAtlas

def Dotted.under (outer? : Option String) (label : String) : String :=
  match outer? with
  | some outer => outer ++ "." ++ label
  | none => label

namespace Log

def Event.finalized? : Event → Option (String × Kind × Option String)
  | componentFinalized name kind path => some (name, kind, path)
  | _ => none

/-- The names, kinds and paths of the components that a log tells to be complete, in order. -/
def finalized (events : List Event) : List (String × Kind × Option String) :=
  events.filterMap Event.finalized?

theorem finalized_append (first second : List Event) :
    finalized (first ++ second) = finalized first ++ finalized second :=
  List.filterMap_append

end Log

theorem Catalog.finalized_place (c : Catalog) (name : String) (id : ComponentId)
    (parent : Option ComponentId) :
    Log.finalized (c.place name id parent).1.journal.log = Log.finalized c.journal.log := by
  have h := c.placed name id parent
  generalize c.place name id parent = result at h
  cases h with
  | added | refused => rfl
  | absorbed => rw [journal_absorb]
  | replaced =>
    rw [journal_replace, Journal.record, Log.finalized_append]
    exact List.append_nil _

namespace Component

def finished (outer? : Option String) (c : Component) : Component :=
  { c with
    shortName := some c.label
    qualifiedName := some (Dotted.under outer? c.label)
    parentName := outer? }

theorem label_congr {c c' : Component} (h : c'.bare = c.bare) : c'.label = c.label := by
  have hlabel := congrArg label h
  exact hlabel

theorem finished_congr {c c' : Component} (h : c'.bare = c.bare) (outer? : Option String) :
    (c'.finished outer?).bare = (c.finished outer?).bare :=
  congrArg (finished outer?) h

theorem bare_eq_of_content {c c' : Component} (hc : c'.content = c.content)
    (hs : c'.shortName = c.shortName) (hq : c'.qualifiedName = c.qualifiedName)
    (hp : c'.parentName = c.parentName) : c'.bare = c.bare := by
  have split (c : Component) : c.bare = { c.content with
    shortName := c.shortName, qualifiedName := c.qualifiedName, parentName := c.parentName } := rfl
  rw [split, split c, hc, hs, hq, hp]

end Component

namespace Scope

variable {frame : Frame} {inner outer : List Frame} {store : Store}

theorem Nested.nameIn_under (h : Nested (frame :: (inner ++ outer)))
    (hp : frame.parent = outer.head?.map Frame.slot) (pushed : Nat) :
    nameIn store frame (inner ++ outer) =
      Dotted.under (topName? ⟨outer, pushed⟩ store) (store.get frame.component).label := by
  cases outer with
  | nil => exact nameIn_of_parent_none hp _
  | cons f outer => exact h.tail.nameIn_of_parent hp

end Scope

namespace Builder

variable {b b₁ b' : Builder} {frame : Frame} {inner outer closed : List Frame}
  {outer? : Option String}

theorem content_attachedStore (s : Store) (id : ComponentId) (name : String)
    (parent : Option ComponentId) (other : ComponentId) :
    ((attachedStore s id name parent).get other).content = (s.get other).content := by
  have hnamed : ((s.modify id (·.withName name)).get other).content = (s.get other).content :=
    Store.field_modify Component.content (fun _ => by rfl) other
  cases parent with
  | none => exact hnamed
  | some parent =>
    rw [attachedStore, Store.field_addChild Component.content (fun _ _ => by rfl)
      (fun _ _ => by rfl), hnamed]

/-- The components of some frames are complete in `b'`, directly under the component of a name, and
no other one has changed but for its children. -/
structure Finishes (outer? : Option String) (closed : List Frame) (b b' : Builder) : Prop where
  path_eq : b'.path = b.path
  has_iff : ∀ id, b'.store.Has id ↔ b.store.Has id
  finished : ∀ f ∈ closed, (b'.store.get f.component).bare =
    ((b.store.get f.component).finished outer?).bare
  kept : ∀ id, (∀ f ∈ closed, f.component ≠ id) → (b'.store.get id).bare = (b.store.get id).bare
  finalized_eq : Log.finalized b'.catalog.journal.log = Log.finalized b.catalog.journal.log ++
    closed.map fun f => (Dotted.under outer? (b.store.get f.component).label,
      (b.store.get f.component).kind, b.path)

theorem finishes_nil (outer? : Option String) (b : Builder) : Finishes outer? [] b b where
  path_eq := rfl
  has_iff _ := Iff.rfl
  finished := by simp
  kept _ _ := rfl
  finalized_eq := (List.append_nil _).symm

theorem Finishes.cons (h : Finishes outer? [frame] b b₁) (h' : Finishes outer? closed b₁ b')
    (hne : ∀ f ∈ closed, f.component ≠ frame.component) :
    Finishes outer? (frame :: closed) b b' := by
  have hkept (f : Frame) (hf : f ∈ closed) :
      (b₁.store.get f.component).bare = (b.store.get f.component).bare := by
    apply h.kept
    simpa using (hne f hf).symm
  constructor
  · exact h'.path_eq.trans h.path_eq
  · exact fun id => (h'.has_iff id).trans (h.has_iff id)
  · intro f hf
    rcases List.mem_cons.mp hf with rfl | hf
    · rw [h'.kept _ hne]
      exact h.finished f List.mem_cons_self
    · rw [h'.finished f hf]
      exact Component.finished_congr (hkept f hf) outer?
  · intro id hid
    obtain ⟨hframe, hclosed⟩ := List.forall_mem_cons.mp hid
    rw [h'.kept id hclosed]
    exact h.kept id (by simpa using hframe)
  · have hmap : closed.map (fun f => (Dotted.under outer? (b₁.store.get f.component).label,
          (b₁.store.get f.component).kind, b₁.path)) =
        closed.map fun f => (Dotted.under outer? (b.store.get f.component).label,
          (b.store.get f.component).kind, b.path) := by
      apply List.map_congr_left
      intro f hf
      have hkind := congrArg Component.kind (hkept f hf)
      change (b₁.store.get f.component).kind = (b.store.get f.component).kind at hkind
      rw [Component.label_congr (hkept f hf), hkind, h.path_eq]
    rw [h'.finalized_eq, h.finalized_eq, hmap, List.append_assoc]
    rfl

theorem Sound.finalized_closeTop (h : Sound b) (hf : b.scope.frames = frame :: closed)
    (hok : b.closeTop = .ok b' ()) :
    Log.finalized b'.catalog.journal.log = Log.finalized b.catalog.journal.log ++
      [(Scope.nameIn b.store frame closed, (b.store.get frame.component).kind, b.path)] := by
  obtain ⟨-, hc⟩ := closeTop_eq hf h.has (h.unnamed frame (by simp [hf])) rfl rfl
  generalize attachedStore b.store _ _ _ = t at hc
  have hplace := Catalog.finalized_place (b.catalog.withStore t)
    (Scope.nameIn b.store frame closed) frame.component
    (b.openParent closed (Scope.nameIn b.store frame closed))
  generalize Catalog.place (b.catalog.withStore t) _ _ _ = result at hc hplace
  obtain ⟨after, placement⟩ := result
  rw [hok] at hc
  have hlog : Log.finalized after.journal.log = Log.finalized b.catalog.journal.log := hplace
  cases placement with
  | refused => exact absurd hc.symm Outcome.fail_ne_ok
  | added | absorbed | replaced =>
    obtain ⟨rfl, -⟩ := Outcome.ok_inj hc
    rw [← hlog]
    exact Log.finalized_append _ _

/-- A component with a label without dots is attached to the component it is directly inside of. -/
theorem Sound.openParent_under (h : Sound b) (hf : b.scope.frames = frame :: (inner ++ outer))
    {label : String} (hd : Dotted.hasDot label = false) {name : String}
    (hname : name = Dotted.under (Scope.topName? ⟨outer, b.scope.pushed⟩ b.store) label) :
    (if (b.openParent (inner ++ outer) name).isSome then some (Dotted.qualifier name) else none) =
      Scope.topName? ⟨outer, b.scope.pushed⟩ b.store := by
  subst hname
  cases outer with
  | nil =>
    have hq : Dotted.qualifier label = "" := Dotted.qualifier_of_dotless hd
    simp [Scope.topName?, Dotted.under, openParent, hq]
  | cons f outer =>
    have hn := h.nested
    rw [hf] at hn
    have hq : Dotted.qualifier (Scope.nameIn b.store f outer ++ "." ++ label) =
        Scope.nameIn b.store f outer := Dotted.qualifier_append hd _
    have hne : Scope.nameIn b.store f outer ≠ "" := hn.tail.of_append.nameIn_ne_empty
    have hmem : (Scope.nameIn b.store f outer, f.component) ∈
        Scope.openNames ⟨inner ++ f :: outer, b.scope.pushed⟩ b.store :=
      Scope.mem_openNames_iff.mpr ⟨inner, f, outer, rfl, rfl, rfl⟩
    obtain ⟨other, hfind⟩ := Scope.find?_of_mem_openNames hmem
    simp [Scope.topName?, Dotted.under, openParent, hq, hne, hfind]

theorem Sound.finishes_closeTop (h : Sound b) (hf : b.scope.frames = frame :: (inner ++ outer))
    (hp : frame.parent = outer.head?.map Frame.slot)
    (hd : Dotted.hasDot (b.store.get frame.component).label = false)
    (hok : b.closeTop = .ok b' ()) :
    Finishes (Scope.topName? ⟨outer, b.scope.pushed⟩ b.store) [frame] b b' := by
  have hn := h.nested
  rw [hf] at hn
  have hunder : Scope.nameIn b.store frame (inner ++ outer) = Dotted.under
      (Scope.topName? ⟨outer, b.scope.pushed⟩ b.store) (b.store.get frame.component).label :=
    hn.nameIn_under hp b.scope.pushed
  have hunattached := h.unattached frame (by simp [hf])
  obtain ⟨name, t, after, placement, hc⟩ := h.closing hf
  have hname := hc.name_eq.symm.trans hunder
  have hparent := h.openParent_under hf hd hname
  have hstate : b.closeTop.state = b' := by rw [hok]; rfl
  have hstore : b'.store = after.store := by rw [← hstate]; exact hc.store_eq
  have ha := hc.attached
  have hcontent (id : ComponentId) : (t.get id).content = (b.store.get id).content := by
    rw [hc.attachedStore_eq, content_attachedStore]
  constructor
  · rw [← hstate, hc.path_eq]
  · intro id
    rw [hstore, hc.alike.has_iff, ha.has_iff]
  · intro f hm
    obtain rfl := List.mem_singleton.mp hm
    rw [hstore, hc.alike.bare_eq]
    apply Component.bare_eq_of_content
    · exact hcontent f.component
    · rw [ha.shortName_eq, if_pos rfl]
      rfl
    · rw [ha.qualifiedName_eq, if_pos rfl, hname]
      rfl
    · rw [ha.parentName_eq, hunattached]
      simp only [true_and]
      exact hparent
  · intro id hid
    have hne : id ≠ frame.component := fun e => hid frame List.mem_cons_self e.symm
    rw [hstore, hc.alike.bare_eq]
    apply Component.bare_eq_of_content
    · exact hcontent id
    · rw [ha.shortName_eq, if_neg hne]
    · rw [ha.qualifiedName_eq, if_neg hne]
    · rw [ha.parentName_eq, if_neg fun e => hne e.1]
  · rw [h.finalized_closeTop hf hok, hunder]
    rfl

theorem Sound.finishes_closeMany (h : Sound b) (hf : b.scope.frames = inner ++ outer)
    (hp : ∀ f ∈ inner, f.parent = outer.head?.map Frame.slot)
    (hd : ∀ f ∈ inner, Dotted.hasDot (b.store.get f.component).label = false)
    (hok : closeMany inner.length b = .ok b' ()) :
    Finishes (Scope.topName? ⟨outer, b.scope.pushed⟩ b.store) inner b b' := by
  induction inner generalizing b with
  | nil =>
    obtain ⟨rfl, -⟩ := Outcome.ok_inj hok
    exact finishes_nil _ _
  | cons frame inner ih =>
    obtain ⟨hpframe, hpinner⟩ := List.forall_mem_cons.mp hp
    obtain ⟨hdframe, hdinner⟩ := List.forall_mem_cons.mp hd
    obtain ⟨b₁, _, h₁, h₂⟩ := Outcome.eq_ok_of_andThen hok
    have hfirst := h.finishes_closeTop hf hpframe hdframe h₁
    have hdistinct := h.distinct
    rw [hf, List.cons_append, List.map_cons, List.nodup_cons] at hdistinct
    have hne (f : Frame) (hm : f ∈ inner ++ outer) : f.component ≠ frame.component :=
      fun e => hdistinct.1 (e ▸ List.mem_map_of_mem hm)
    have hlabel (f : Frame) (hm : f ∈ inner ++ outer) :
        (b₁.store.get f.component).label = (b.store.get f.component).label := by
      have hkept := hfirst.kept f.component (by simpa using (hne f hm).symm)
      exact Component.label_congr hkept
    have hsound := h.closeTop (by simp [hf])
    have hscope := b.frames_closeTop
    rw [h₁] at hsound hscope
    change b₁.Sound at hsound
    change b₁.scope = _ at hscope
    have hframes : b₁.scope.frames = inner ++ outer := by rw [hscope, hf]; rfl
    have hrest := ih hsound hframes hpinner
      (fun f hm => hlabel f (List.mem_append_left outer hm) ▸ hdinner f hm) h₂
    -- The name of the component around is the same as before.
    have htop : Scope.topName? ⟨outer, b₁.scope.pushed⟩ b₁.store =
        Scope.topName? ⟨outer, b.scope.pushed⟩ b.store := by
      rw [hscope]
      exact Scope.topName?_congr _ fun f hm => hlabel f (List.mem_append_right inner hm)
    rw [htop] at hrest
    exact hfirst.cons hrest fun f hm => hne f (List.mem_append_left outer hm)

theorem memberFrames_eq (b : Builder) (n : Nat) :
    b.memberFrames n = ((List.range n).map b.memberFrame).reverse := by
  induction n with
  | zero => rfl
  | succ n ih => simp [memberFrames, ih, List.range_succ]

theorem mem_memberFrames_iff {f : Frame} {n : Nat} :
    f ∈ b.memberFrames n ↔ ∃ i < n, b.memberFrame i = f := by
  simp [memberFrames_eq]

theorem length_memberFrames (b : Builder) (n : Nat) : (b.memberFrames n).length = n := by
  simp [memberFrames_eq]

theorem Sound.groupSize?_together (h : Sound b) {cs : List Component} (hne : cs ≠ []) :
    (b.together cs).scope.groupSize? = some cs.length := by
  obtain ⟨c, older, rfl⟩ := List.exists_cons_of_ne_nil hne
  have hnew : (b.memberFrames (older.length + 1)).countP (·.group == b.scope.pushed) =
      (b.memberFrames (older.length + 1)).length := by
    apply List.countP_eq_length.mpr
    intro f hf
    obtain ⟨i, -, rfl⟩ := mem_memberFrames_iff.mp hf
    simp [memberFrame]
  have hold : b.scope.frames.countP (·.group == b.scope.pushed) = 0 := by
    apply List.countP_eq_zero.mpr
    intro f hf
    have hle := h.nested.group_le f hf
    have hlt := h.slot_lt f hf
    simp
    omega
  rw [Scope.groupSize?, top?_together, Option.map_some, scope_together]
  change some ((b.memberFrames (older.length + 1) ++ b.scope.frames).countP
    (·.group == b.scope.pushed)) = _
  rw [List.countP_append, hnew, hold, length_memberFrames]
  rfl

theorem map_get_memberFrames (b : Builder) (cs : List Component) :
    (b.memberFrames cs.length).map (fun f => (b.together cs).store.get f.component) = cs := by
  rw [memberFrames_eq, List.map_reverse, List.map_map]
  exact (congrArg List.reverse (b.map_get_together cs)).trans cs.reverse_reverse

theorem get_member {cs : List Component} {i : Nat} {c : Component} (h : cs[i]? = some c) :
    (b.together cs.reverse).store.get (b.memberFrame i).component = c := by
  have hmap := congrArg (·[i]?) (b.map_get_together cs.reverse)
  obtain ⟨hi, rfl⟩ := List.getElem?_eq_some_iff.mp h
  simpa [hi] using hmap

theorem map_members (b : Builder) (opened : Component) (r : Resolver) (first : List Enrichment)
    {decls : List (String × List Enrichment)} (hn : ∀ decl ∈ decls, decl.1 ≠ "") :
    let b₁ := b.together (opened.fromDeclaration r first decls).reverse
    (b.memberFrames decls.length).map (fun f =>
      ((b₁.store.get f.component).label, (b₁.store.get f.component).kind)) =
        decls.reverse.map fun decl => (decl.1, opened.kind) := by
  intro b₁
  have hmap := Component.map_fromDeclaration r opened first hn
  have hlength : (opened.fromDeclaration r first decls).reverse.length = decls.length := by
    simpa using congrArg List.length hmap
  have hmembers := b.map_get_memberFrames (opened.fromDeclaration r first decls).reverse
  rw [hlength] at hmembers
  rw [List.map_reverse, ← hmap, ← List.map_reverse, ← hmembers, List.map_map]
  rfl

section Declaration

variable (kind : Kind) (prov : Provenance) (withImports : Bool) (first : List Enrichment)
  {decls : List (String × List Enrichment)}

def declarationOps (decls : List (String × List Enrichment)) : List Op :=
  .openComponent kind prov none withImports ::
    (first.map .enrich ++ namingOps decls) ++ [.close]

/-- A declaration closes all the components that it has opened, and nothing else. -/
theorem Lenient.finishes_declaration (h : Lenient b) (hs : b.suppressed = false) (hne : decls ≠ [])
    (hn : ∀ decl ∈ decls, decl.1 ≠ "" ∧ Dotted.hasDot decl.1 = false) :
    ∃ b', b.run (declarationOps kind prov withImports first decls) = .ok b' () ∧
      b'.scope.frames = b.scope.frames ∧
      Finishes (b.scope.topName? b.store) (b.memberFrames decls.length)
        (b.together ((b.fresh kind prov none withImports).fromDeclaration b.resolver first
          decls).reverse) b' := by
  have hnames (decl : String × List Enrichment) (hm : decl ∈ decls) : decl.1 ≠ "" := (hn decl hm).1
  have hrun := run_fromDeclaration hs kind prov withImports first hne hnames
  have hmembers := b.map_members (b.fresh kind prov none withImports) b.resolver first hnames
  have hmap := Component.map_fromDeclaration b.resolver (b.fresh kind prov none withImports) first
    hnames
  generalize (b.fresh kind prov none withImports).fromDeclaration b.resolver first decls = cs at *
  have hlength : cs.reverse.length = decls.length := by simpa using congrArg List.length hmap
  have hcs : cs.reverse ≠ [] := by
    intro e
    rw [e] at hlength
    exact hne (List.length_eq_zero_iff.mp hlength.symm)
  have hopen : Lenient (b.together cs.reverse) :=
    ⟨h.sound.run hrun, (field_together (·.catalog.policy) (fun _ _ _ => rfl) b _).trans h.policy_eq⟩
  have hscope := b.scope_together cs.reverse
  rw [hlength] at hscope
  have hframes : (b.together cs.reverse).scope.frames =
      b.memberFrames decls.length ++ b.scope.frames := by rw [hscope]
  obtain ⟨b', hclose, -, -⟩ := hopen.closeMany (n := (b.memberFrames decls.length).length)
    (by simp [hframes])
  have hlabel (f : Frame) (hf : f ∈ b.memberFrames decls.length) :
      Dotted.hasDot ((b.together cs.reverse).store.get f.component).label = false := by
    have hm := List.mem_map_of_mem (f := fun f => (((b.together cs.reverse).store.get
      f.component).label, ((b.together cs.reverse).store.get f.component).kind)) hf
    rw [hmembers] at hm
    obtain ⟨decl, hdecl, e⟩ := List.mem_map.mp hm
    have hlabel : decl.1 = ((b.together cs.reverse).store.get f.component).label :=
      congrArg Prod.fst e
    exact hlabel ▸ (hn decl (List.mem_reverse.mp hdecl)).2
  have hparent (f : Frame) (hf : f ∈ b.memberFrames decls.length) :
      f.parent = b.scope.frames.head?.map Frame.slot := by
    obtain ⟨i, -, rfl⟩ := mem_memberFrames_iff.mp hf
    rfl
  have hfinishes := hopen.sound.finishes_closeMany hframes hparent hlabel hclose
  -- What was open before has kept its names.
  have htop : Scope.topName? ⟨b.scope.frames, (b.together cs.reverse).scope.pushed⟩
      (b.together cs.reverse).store = b.scope.topName? b.store :=
    Scope.topName?_congr b.scope fun f hf => by
      rw [(get_together_of_has (h.sound.has f hf) cs.reverse).2]
  rw [htop] at hfinishes
  refine ⟨b', ?_, ?_, hfinishes⟩
  · rw [declarationOps, run_append, hrun, Outcome.andThen_ok, run, Builder.step,
      suppressed_together, if_neg (by simp [hs]), Builder.close,
      h.sound.groupSize?_together hcs, hlength]
    rw [length_memberFrames] at hclose
    dsimp only
    rw [hclose]
    rfl
  · rw [frames_of_closeMany hclose, hframes]
    simp

theorem map_finalized {outer? : Option String} {opened : Component} {r : Resolver}
    {first : List Enrichment} (hn : ∀ decl ∈ decls, decl.1 ≠ "") :
    let b₁ := b.together (opened.fromDeclaration r first decls).reverse
    (b.memberFrames decls.length).map (fun f => (Dotted.under outer?
      (b₁.store.get f.component).label, (b₁.store.get f.component).kind, b₁.path)) =
        decls.reverse.map fun decl => (Dotted.under outer? decl.1, opened.kind, b.path) := by
  intro b₁
  have hpath : b₁.path = b.path := field_together path (fun _ _ _ => rfl) b _
  have hmembers := congrArg
    (List.map fun (label, kind) => (Dotted.under outer? label, kind, b.path))
    (b.map_members opened r first hn)
  rw [List.map_map, List.map_map] at hmembers
  rw [hpath]
  exact hmembers

theorem Finishes.isFinal_iff {cs : List Component}
    (h : Finishes outer? (b.memberFrames cs.length) (b.together cs.reverse) b') (id : ComponentId) :
    (b'.store.get id).isFinal = true ↔
      (b.store.get id).isFinal = true ∨ ∃ i < cs.length, id = (b.memberFrame i).component := by
  by_cases hi : ∃ i < cs.length, id = (b.memberFrame i).component
  · obtain ⟨i, hlt, rfl⟩ := hi
    have hfinished := h.finished _ (mem_memberFrames_iff.mpr ⟨i, hlt, rfl⟩)
    have hname := congrArg Component.qualifiedName hfinished
    change (b'.store.get _).qualifiedName = some _ at hname
    simp only [Component.isFinal, hname, Option.isSome_some, true_iff]
    exact .inr ⟨i, hlt, rfl⟩
  · have hkept := h.kept id fun f hf e => by
      obtain ⟨i, hlt, rfl⟩ := mem_memberFrames_iff.mp hf
      exact hi ⟨i, hlt, e.symm⟩
    have hsame : (b.together cs.reverse).store.get id = b.store.get id := by
      by_cases hb : b.store.Has id
      · exact (get_together_of_has hb cs.reverse).2
      · rw [Store.get_of_not_has hb, Store.get_of_not_has]
        intro hmore
        rw [Store.Has, size_together, List.length_reverse] at hmore
        have hle : b.store.cells.size ≤ id.index := Nat.le_of_not_lt hb
        refine hi ⟨id.index - b.store.cells.size, by omega, ?_⟩
        simp [memberFrame, Nat.add_sub_cancel' hle]
    have hname := congrArg Component.qualifiedName hkept
    change (b'.store.get id).qualifiedName = _ at hname
    rw [Component.isFinal, hname, ← hsame]
    exact (or_iff_left hi).symm

theorem records_fresh (b : Builder) (shortName : Option String) :
    Component.Records b.resolver (b.fresh kind prov shortName withImports) [] []
      (b.fresh kind prov shortName withImports) where
  setting_eq := rfl
  invocations_eq := rfl
  typeReferences_eq := rfl
  superTypes_eq := rfl
  implementedTypes_eq := rfl
  thrownExceptions_eq := rfl
  mem_modifiers_iff _ := Iff.rfl
  modifiers_ascend := .nil
  typeSnippet_eq := rfl
  value_eq := rfl

/-- A declaration that gives names, closed as soon as all is learnt, completes one component for
each name, the last one first, and leaves open what was open. Each component records what was learnt
up to the next name, and of values only what was learnt since its own one. -/
theorem declaration_completes (h : Reachable .lastWriteWins b) (hs : b.suppressed = false)
    (hne : decls ≠ []) (hn : ∀ decl ∈ decls, decl.1 ≠ "" ∧ Dotted.hasDot decl.1 = false) :
    ∃ b', b.run (declarationOps kind prov withImports first decls) = .ok b' () ∧
      b'.scope.frames = b.scope.frames ∧
      Log.finalized b'.catalog.journal.log = Log.finalized b.catalog.journal.log ++
        decls.reverse.map (fun decl =>
          (Dotted.under (b.scope.topName? b.store) decl.1, kind, b.path)) ∧
      (∀ id, (b'.store.get id).isFinal = true ↔ (b.store.get id).isFinal = true ∨
        ∃ i < decls.length, id = ⟨b.store.cells.size + i⟩) ∧
      ∀ before name whats after, decls = before ++ (name, whats) :: after →
        let c := b'.store.get ⟨b.store.cells.size + before.length⟩
        c.shortName = some name ∧ c.parentName = b.scope.topName? b.store ∧
        c.qualifiedName = some (Dotted.under (b.scope.topName? b.store) name) ∧
        Component.Records b.resolver (b.fresh kind prov none withImports)
          (first ++ before.flatMap Prod.snd ++ whats)
          (if before = [] then first ++ whats else whats) c := by
  have hnames (decl : String × List Enrichment) (hm : decl ∈ decls) : decl.1 ≠ "" := (hn decl hm).1
  obtain ⟨b', hrun, hframes, hfinishes⟩ :=
    h.lenient.finishes_declaration kind prov withImports first hs hne hn
  have hmap := Component.map_fromDeclaration b.resolver (b.fresh kind prov none withImports) first
    hnames
  have hlength : ((b.fresh kind prov none withImports).fromDeclaration b.resolver first
      decls).length = decls.length := by simpa using congrArg List.length hmap
  refine ⟨b', hrun, hframes, ?_, ?_, ?_⟩
  · rw [hfinishes.finalized_eq, b.map_finalized hnames]
    have hlog := field_together (·.catalog.journal.log) (fun _ _ _ => rfl) b
      ((b.fresh kind prov none withImports).fromDeclaration b.resolver first decls).reverse
    exact congrArg (fun log => Log.finalized log ++ _) hlog
  · intro id
    rw [← hlength] at hfinishes ⊢
    exact hfinishes.isFinal_iff id
  · rintro before name whats after rfl c
    obtain ⟨c₀, hc₀, hname, hrecords⟩ :=
      (b.records_fresh kind prov withImports none).fromDeclaration first before after name whats
    have hfinished := hfinishes.finished (b.memberFrame before.length)
      (mem_memberFrames_iff.mpr ⟨before.length, by simp, rfl⟩)
    rw [get_member hc₀] at hfinished
    change c.bare = (c₀.finished (b.scope.topName? b.store)).bare at hfinished
    have hlabel : c₀.label = name :=
      Component.label_of_shortName hname (hnames (name, whats) (by simp))
    refine ⟨?_, congrArg Component.parentName hfinished, ?_, hrecords.of_content ?_⟩
    · exact (congrArg Component.shortName hfinished).trans (congrArg some hlabel)
    · exact (congrArg Component.qualifiedName hfinished).trans (by rw [← hlabel]; rfl)
    · have hcontent := congrArg Component.content hfinished
      exact hcontent

end Declaration

def threeNames : List (String × List Enrichment) :=
  [("a", [.value "1"]), ("b", [.typeReference "T" 2, .modifier "final"]),
    ("c", [.typeSnippet "T", .value "3"])]

/-- Of three fields of a class, the second one has no value, and nothing of what was learnt after
the third name. -/
theorem declaration_completes_threeNames :
    let b := ((start (.empty .lastWriteWins {}) none .flag []).step
      (.openComponent .classType ⟨1, 1, "", none⟩ "C" true)).state
    ∃ b', b.run (declarationOps .field ⟨2, 2, "", none⟩ false [.modifier "static", .value "0"]
        threeNames) = .ok b' () ∧ b'.scope.frames = b.scope.frames ∧
      Log.finalized b'.catalog.journal.log =
        [("C.c", .field, none), ("C.b", .field, none), ("C.a", .field, none)] ∧
      (b'.store.get ⟨2⟩).shortName = some "b" ∧ (b'.store.get ⟨2⟩).parentName = some "C" ∧
      (b'.store.get ⟨2⟩).value = none ∧ (b'.store.get ⟨2⟩).typeSnippet = none ∧
      (b'.store.get ⟨2⟩).typeReferences = [⟨"T", 2⟩] ∧ (b'.store.get ⟨1⟩).value = some "1" ∧
      ∀ word, word ∈ (b'.store.get ⟨2⟩).modifiers ↔ word ∈ ["static", "final"] := by
  intro b
  have hb : Reachable .lastWriteWins b := .step _ (.start none .flag [])
  obtain ⟨b', hrun, hframes, hlog, -, hnames⟩ := declaration_completes .field ⟨2, 2, "", none⟩ false
    [.modifier "static", .value "0"] hb rfl (show threeNames ≠ [] by simp [threeNames]) (by decide)
  obtain ⟨-, -, -, hfirst⟩ := hnames [] "a" _ _ rfl
  obtain ⟨hname, hparent, -, hsecond⟩ := hnames [("a", [.value "1"])] "b" _ _ rfl
  exact ⟨b', hrun, hframes, hlog, hname, hparent, hsecond.value_eq, hsecond.typeSnippet_eq,
    hsecond.typeReferences_eq, hfirst.value_eq, hsecond.mem_modifiers_iff⟩

end Builder

end CodeAtlas
