import CodeAtlas.Proofs.Builder.Gathering
import CodeAtlas.Proofs.Java.Discipline

/-! # What a walk teaches

A walk that opens no component and meets no package, import, program or annotation type asks for
nothing but enrichments. Its whole effect is that the innermost component gathers them, in the order
in which the places are entered.
-/

namespace CodeAtlas

namespace Op

def enrichment? : Op → Option Enrichment
  | enrich what => some what
  | _ => none

theorem map_enrich_filterMap {ops : List Op} (h : ∀ op ∈ ops, op.Enriches) :
    (ops.filterMap enrichment?).map enrich = ops := by
  induction ops with
  | nil => rfl
  | cons op rest ih =>
    obtain ⟨hop, hrest⟩ := List.forall_mem_cons.mp h
    cases op with
    | enrich what => simp [enrichment?, ih hrest]
    | _ => cases hop

end Op

namespace Component

/-- A list that each enrichment adds at most one item to has those of all that were gathered. -/
theorem field_gather {r : Resolver} {α : Type} {field : Component → List α}
    {item? : Enrichment → Option α}
    (h : ∀ c what, field (Enrichment.apply r c what) = field c ++ (item? what).toList)
    (c : Component) (whats : List Enrichment) :
    field (c.gather r whats) = field c ++ whats.filterMap item? := by
  induction whats generalizing c with
  | nil => simp [gather]
  | cons what rest ih =>
    change field ((what.apply r c).gather r rest) = _
    rw [ih, h, List.filterMap_cons]
    cases item? what <;> simp

end Component

namespace Builder

variable {b : Builder} {top : Frame}

def learn (b : Builder) (id : ComponentId) (whats : List Enrichment) : Builder :=
  b.withStore (b.store.modify id (Component.gather b.resolver · whats))

theorem learn_nil (b : Builder) (id : ComponentId) : b.learn id [] = b := by
  change b.withStore (b.store.modify id fun c => c) = b
  rw [Store.modify_same]
  rfl

theorem learn_learn (b : Builder) (id : ComponentId) (first second : List Enrichment) :
    (b.learn id first).learn id second = b.learn id (first ++ second) := by
  change b.withStore ((b.store.modify id _).modify id _) = b.withStore _
  rw [Store.modify_modify]
  refine congrArg (fun f => b.withStore (b.store.modify id f)) (funext fun c => ?_)
  exact (List.foldl_append ..).symm

theorem currentKind?_learn (b : Builder) (id : ComponentId) (whats : List Enrichment) :
    (b.learn id whats).currentKind? = b.currentKind? := by
  refine congrArg (b.scope.top?.map ·) (funext fun top => ?_)
  exact Store.field_modify Component.kind (Component.enriched_gather b.resolver whats).kind_eq _

theorem get_learn {id : ComponentId} (h : b.store.Has id) (whats : List Enrichment) :
    (b.learn id whats).store.get id = (b.store.get id).gather b.resolver whats :=
  Store.get_modify_self h

theorem run_enrichments (hs : b.suppressed = false) (ht : b.scope.top? = some top)
    (whats : List Enrichment) :
    b.run (whats.map .enrich) = .ok (b.learn top.component whats) () := by
  induction whats generalizing b with
  | nil =>
    rw [learn_nil]
    rfl
  | cons what rest ih =>
    have hstep : b.step (.enrich what) =
        .ok (b.learn top.component [what]) (enrichmentReply b.resolver what) := by
      rw [step, if_neg (by simp [hs]), ht]
      rfl
    rw [List.map_cons, run, hstep, Outcome.andThen_ok, @ih (b.learn _ _) hs ht, learn_learn]
    rfl

end Builder

namespace Java

open Builder Place

variable {b : Builder} {p : Place} {top : Frame} {e : Option Kind}

/-- The enrichments that a visit asks for, in a component of the given kind. -/
def taught (e : Option Kind) : Visit → List Enrichment
  | .enter p => (p.enterOps e).filterMap Op.enrichment?
  | .exit _ => []

def learnt (e : Option Kind) (p : Place) : List Enrichment := p.walk.flatMap (taught e)

theorem learnt_eq (e : Option Kind) (p : Place) :
    learnt e p = taught e (.enter p) ++ p.namedChildren.flatMap (learnt e) := by
  have hexit : taught e (.exit p) = [] := rfl
  rw [learnt, walk_eq, List.flatMap_cons, List.flatMap_append, List.flatMap_assoc,
    List.flatMap_singleton, hexit, List.append_nil]
  rfl

theorem taught_subset_learnt {visit : Visit} (h : visit ∈ p.walk) : taught e visit ⊆ learnt e p :=
  fun _ hw => List.mem_flatMap.mpr ⟨visit, h, hw⟩

theorem opsFor_eq_map_taught {visit : Visit} (h : ∀ op ∈ opsFor b visit, op.Enriches) :
    opsFor b visit = (taught b.currentKind? visit).map .enrich := by
  cases visit with
  | enter p => exact (Op.map_enrich_filterMap h).symm
  | exit p =>
    change p.exitOps = []
    change ∀ op ∈ p.exitOps, op.Enriches at h
    unfold exitOps at h ⊢
    split at h
    · simp [Op.Enriches] at h
    · split at h
      · simp [Op.Enriches] at h
      · simp [Op.Enriches] at h
      · rfl

/-- Visits that ask for nothing but enrichments make the innermost component gather them. -/
theorem follow_enriching {visits : List Visit}
    (h : ∀ visit ∈ visits, ∀ b, ∀ op ∈ opsFor b visit, op.Enriches)
    (hs : b.suppressed = false) (ht : b.scope.top? = some top) :
    follow b visits = .ok (b.learn top.component (visits.flatMap (taught b.currentKind?))) () := by
  induction visits generalizing b with
  | nil => exact congrArg (Outcome.ok · ()) (b.learn_nil _).symm
  | cons visit rest ih =>
    obtain ⟨hvisit, hrest⟩ := List.forall_mem_cons.mp h
    rw [follow, opsFor_eq_map_taught (hvisit b), run_enrichments hs ht, Outcome.andThen_ok,
      @ih (b.learn _ _) hrest hs ht, currentKind?_learn, learn_learn, List.flatMap_cons]

theorem follow_walk_enriching (h : p.Asks Op.Enriches) (hs : b.suppressed = false)
    (ht : b.scope.top? = some top) :
    follow b p.walk = .ok (b.learn top.component (learnt b.currentKind? p)) () :=
  follow_enriching h hs ht

/-- The walk opens no component and meets no package, import, program or annotation type. -/
def Plain (p : Place) : Prop :=
  ∀ visit ∈ p.walk, visit.place.opens? none = none ∧ visit.place.form ∉
    [.packageDeclaration, .importDeclaration, .program, .annotationTypeDeclaration]

theorem Plain.child (h : Plain p) {c : Place} (hc : c ∈ p.namedChildren) : Plain c :=
  fun visit hv => h visit (mem_walk_of_child hc hv)

theorem plain_of_preorder (h : ∀ q ∈ p.preorder, q.opens? none = none ∧ q.form ∉
    [.packageDeclaration, .importDeclaration, .program, .annotationTypeDeclaration]) : Plain p :=
  fun _ hv => h _ (mem_preorder_of_mem_walk hv)

theorem Plain.asks_enriches (h : Plain p) (hd : ¬ p.Declares) : p.Asks Op.Enriches := by
  induction p using Place.induction with
  | h p ih =>
    obtain ⟨hopens, hforms⟩ := h _ p.enter_mem_walk
    change p.opens? none = none at hopens
    change p.form ∉ _ at hforms
    simp only [List.mem_cons, List.not_mem_nil, or_false, not_or] at hforms
    obtain ⟨hpackage, himport, hprogram, hannotation⟩ := hforms
    intro visit hv b
    rw [walk_eq] at hv
    rcases List.mem_cons.mp hv with rfl | hv
    · change ∀ op ∈ p.enterOps b.currentKind?, op.Enriches
      have hentry := p.entry_enterOps b.currentKind?
      generalize p.enterOps b.currentKind? = ops at hentry ⊢
      cases hentry with
      | enriches _ _ _ _ _ hops => exact hops
      | opens ho => simp [hopens] at ho
      | package _ _ hf => exact absurd hf hpackage
      | suppresses _ hf => exact absurd hf hannotation
      | declares _ hdeclares => exact absurd hdeclares hd
      | imports _ _ hf => exact absurd hf himport
    · rcases List.mem_append.mp hv with hv | hv
      · obtain ⟨c, hc, hv⟩ := List.mem_flatMap.mp hv
        exact ih c hc (h.child hc) (not_declares_of_opens_none hopens hc) visit hv b
      · obtain rfl := List.mem_singleton.mp hv
        change ∀ op ∈ p.exitOps, op.Enriches
        simp [exitOps_of_plain hopens hprogram hannotation]

end Java

end CodeAtlas
