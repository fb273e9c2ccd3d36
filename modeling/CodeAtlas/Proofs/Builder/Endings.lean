import CodeAtlas.Proofs.Builder.Groups
import CodeAtlas.Proofs.Builder.OneSource

/-! # How operations end

An operation underflows only if nothing is open, and closing never underflows halfway. The end of a
unit closes one group after the other. A component that has been opened keeps its kind; it is open
still, or it has been given its qualified name.
-/

namespace CodeAtlas

namespace Outcome

variable {σ α β : Type} {o : Outcome σ α} {next : σ → Outcome σ β} {P Q : σ → Prop}

/-- The outcome is no underflow, and a state that has been reached without a fault is as wanted.
Other faults are allowed. -/
structure Safe (P : σ → Prop) (o : Outcome σ α) : Prop where
  avoids : o.result ≠ .error .scopeUnderflow
  reaches : ∀ s a, o = .ok s a → P s

theorem safe_ok {s : σ} {a : α} (h : P s) : (Outcome.ok s a).Safe P := by
  constructor
  · exact nofun
  · rintro s' a' e
    obtain ⟨rfl, -⟩ := ok_inj e
    exact h

theorem Safe.andThen (h : o.Safe P) (hn : ∀ s, P s → (next s).Safe Q) :
    (o.andThen next).Safe Q := by
  obtain ⟨s, result⟩ := o
  cases result with
  | ok a => exact hn s (h.reaches s a rfl)
  | error fault =>
    constructor
    · intro e
      exact h.avoids (congrArg Except.error (Except.error.inj e))
    · intro s' a' e
      exact absurd e fail_ne_ok

theorem Safe.mapState {τ : Type} {f : σ → τ} {R : τ → Prop} (h : o.Safe P)
    (hf : ∀ s, P s → R (f s)) : (o.mapState f).Safe R := by
  obtain ⟨s, result⟩ := o
  refine ⟨h.avoids, ?_⟩
  rintro _ a ⟨⟩
  exact hf s (h.reaches s a rfl)

end Outcome

def Fault.OfClosing : Fault → Prop
  | .notFinal | .alreadyFinal .. | .nameCollision .. => True
  | _ => False

theorem Catalog.fault_insert {catalog : Catalog} {id : ComponentId} {parent : Option ComponentId}
    {fault : Fault} (h : (catalog.insert id parent).result = .error fault) : fault.OfClosing := by
  unfold insert at h
  dsimp only at h
  split at h
  · cases h
    trivial
  · split at h <;> cases h
    trivial

def Op.Closes : Op → Prop
  | .close | .endUnit => True
  | _ => False

namespace Builder

variable {b b' : Builder} {frame : Frame} {below : List Frame} {k : Nat} {ops : List Op} {op : Op}

theorem fault_closeTop (hne : b.scope.frames ≠ []) {fault : Fault}
    (h : b.closeTop.result = .error fault) : fault.OfClosing := by
  unfold closeTop at h
  split at h
  · exact absurd ‹_› hne
  · dsimp only at h
    split at h
    · cases h
      trivial
    · split at h <;> cases h
      exact Catalog.fault_insert ‹_›

theorem fault_closeMany {n : Nat} (hn : n ≤ b.scope.frames.length) {fault : Fault}
    (h : (closeMany n b).result = .error fault) : fault.OfClosing := by
  induction n generalizing b with
  | zero => cases h
  | succ n ih =>
    have hne : b.scope.frames ≠ [] := List.ne_nil_of_length_pos (by omega)
    have hframes := congrArg (·.frames.length) b.frames_closeTop
    simp only [List.length_tail] at hframes
    unfold closeMany Outcome.andThen at h
    split at h
    · apply ih _ h
      omega
    · cases h
      exact fault_closeTop hne ‹_›

theorem step_avoids_underflow (h : b.scope.frames ≠ []) (op : Op) :
    (b.step op).result ≠ .error .scopeUnderflow := by
  have he := b.step_effect op
  generalize b.step op = o at he
  cases he with
  | underflow hnil => exact absurd hnil h
  | @closed top =>
    exact fun e => fault_closeMany (b.countP_le_length top) (result_andThen_done _ e)
  | ended => exact fun e => fault_closeMany le_rfl (result_andThen_done _ e)
  | _ => exact nofun

/-- Outside suppression, a close of the innermost group closes at least one component and none that
is not open. -/
theorem step_close_eq (hs : b.suppressed = false) (hne : b.scope.frames ≠ []) :
    ∃ n, 0 < n ∧ n ≤ b.scope.frames.length ∧
      b.step .close = (closeMany n b).andThen (.ok · .done) := by
  obtain ⟨top, below, hf⟩ := List.exists_cons_of_ne_nil hne
  refine ⟨b.scope.frames.countP (·.group == top.group), ?_, b.countP_le_length top, ?_⟩
  · rw [hf]
    exact List.countP_pos_iff.mpr ⟨top, List.mem_cons_self, beq_self_eq_true _⟩
  · simp [step, hs, close, Scope.groupSize?, Scope.top?, hf]

theorem length_frames_step_close (hs : b.suppressed = false) (hne : b.scope.frames ≠ [])
    {reply : Reply} (h : b.step .close = .ok b' reply) :
    b'.scope.frames.length < b.scope.frames.length := by
  obtain ⟨n, hpos, hle, hclose⟩ := step_close_eq hs hne
  rw [hclose] at h
  obtain ⟨b₁, _, hmany, hdone⟩ := Outcome.eq_ok_of_andThen h
  obtain ⟨rfl, -⟩ := Outcome.ok_inj hdone
  rw [frames_of_closeMany hmany, List.length_drop]
  omega

theorem endUnit_of_awake (hs : b.suppressed = false) :
    b.endUnit = closeMany b.scope.frames.length b := by
  simp [endUnit, hs]

theorem frames_of_step_endUnit {reply : Reply} (h : b.step .endUnit = .ok b' reply) :
    b'.scope.frames = [] := by
  change b.endUnit.andThen (.ok · .done) = .ok b' reply at h
  obtain ⟨b₁, _, hend, hdone⟩ := Outcome.eq_ok_of_andThen h
  obtain ⟨rfl, -⟩ := Outcome.ok_inj hdone
  unfold endUnit at hend
  split at hend
  · cases congrArg Outcome.result hend
  · rw [frames_of_closeMany hend, List.drop_length]

/-- To close whatever is open is to close the innermost group and then the rest. -/
theorem endUnit_eq_step_close (hs : b.suppressed = false) (hne : b.scope.frames ≠ []) :
    b.endUnit = (b.step .close).andThen endUnit := by
  obtain ⟨n, -, hle, hclose⟩ := step_close_eq hs hne
  have hsplit : b.scope.frames.length = n + (b.scope.frames.length - n) := by omega
  rw [endUnit_of_awake hs, hclose, hsplit, closeMany_add, Outcome.andThen_assoc]
  cases hmany : closeMany n b with
  | mk s result =>
    cases result with
    | error => rfl
    | ok =>
      have hframes := frames_of_closeMany hmany
      have hsup : s.suppression = b.suppression := by
        rw [← suppression_closeMany n b, hmany]
      have hawake : s.suppressed = false := by rw [suppressed, hsup, ← suppressed, hs]
      change closeMany _ s = endUnit s
      rw [endUnit_of_awake hawake, hframes, List.length_drop]

theorem safe_run_singleton (h : b.scope.frames ≠ []) (op : Op) :
    (b.run [op]).Safe fun _ => True := by
  have hstep : (b.step op).Safe fun _ => True :=
    ⟨step_avoids_underflow h op, fun _ _ _ => trivial⟩
  exact hstep.andThen fun _ _ => Outcome.safe_ok trivial

theorem frames_step_ne_nil (h : b.scope.frames ≠ []) (hop : ¬ op.Closes) :
    (b.step op).state.scope.frames ≠ [] := by
  have he := b.step_effect op
  generalize b.step op = o at he
  cases he with
  | still ha => exact fun e => h (by rw [← ha.scope_eq]; exact e)
  | underflow | renamed | enriched => exact h
  | began | opened | joined => exact nofun
  | heldOpen | closed | ended => exact absurd trivial hop

theorem safe_run (h : b.scope.frames ≠ []) (hops : ∀ op ∈ ops, ¬ op.Closes) :
    (b.run ops).Safe (·.scope.frames ≠ []) := by
  induction ops generalizing b with
  | nil => exact Outcome.safe_ok h
  | cons op rest ih =>
    obtain ⟨hop, hrest⟩ := List.forall_mem_cons.mp hops
    have hstep : (b.step op).Safe (·.scope.frames ≠ []) := by
      constructor
      · exact step_avoids_underflow h op
      · intro b₁ reply e
        have hne := frames_step_ne_nil h hop
        rwa [e] at hne
    exact hstep.andThen fun b₁ h₁ => ih h₁ hrest

def HasKind (id : ComponentId) (kind : Kind) (b : Builder) : Prop :=
  b.store.Has id ∧ (b.store.get id).kind = kind

variable {id : ComponentId} {kind : Kind} {c : Component}

theorem HasKind.of_eq (h : HasKind id kind b) (hs : b'.store = b.store) : HasKind id kind b' := by
  rw [HasKind, hs]
  exact h

theorem HasKind.adding (h : HasKind id kind b) : HasKind id kind (b.adding frame c) := by
  constructor
  · exact Store.has_add_iff.mpr (.inl h.1)
  · rw [store_adding, Store.get_add_of_has h.1]
    exact h.2

theorem HasKind.modify (h : HasKind id kind b) {other : ComponentId} {f : Component → Component}
    (hf : ∀ c, (f c).kind = c.kind) : HasKind id kind (b.withStore (b.store.modify other f)) :=
  ⟨Store.has_modify_iff.mpr h.1, (Store.field_modify Component.kind hf id).trans h.2⟩

theorem HasKind.closeTop (h : HasKind id kind b) (hs : Sound b) (hne : b.scope.frames ≠ []) :
    HasKind id kind b.closeTop.state := by
  obtain ⟨frame, below, hf⟩ := List.exists_cons_of_ne_nil hne
  obtain ⟨name, t, after, placement, hc⟩ := hs.closing hf
  rw [HasKind, store, hc.store_eq, hc.alike.has_iff, hc.attached.has_iff, hc.alike.kind_eq,
    hc.attached.kind_eq]
  exact h

theorem HasKind.step (h : HasKind id kind b) (hs : Sound b) (op : Op) :
    HasKind id kind (b.step op).state := by
  have he := b.step_effect op
  generalize b.step op = o at he
  have hclose (n : Nat) (hn : n ≤ b.scope.frames.length) : HasKind id kind (closeMany n b).state :=
    hs.kept_closeMany (fun _ hs h hne => h.closeTop hs hne) h hn
  cases he with
  | still ha => exact h.of_eq (congrArg Catalog.store ha.catalog_eq)
  | underflow | heldOpen => exact h
  | began name prov he => exact (h.of_eq he.store_eq).adding
  | opened | joined => exact h.adding
  | renamed => exact h.modify fun _ => rfl
  | enriched what => exact h.modify (what.enriched b.resolver).kind_eq
  | @closed top =>
    rw [state_andThen_done]
    exact hclose _ (b.countP_le_length top)
  | ended =>
    rw [state_andThen_done]
    exact hclose _ le_rfl

/-- Every component that is not of the store `s` is open, or it has its qualified name. -/
def Settled (s : Store) (b : Builder) : Prop :=
  ∀ id, b.store.Has id → s.Has id ∨ (∃ f ∈ b.scope.frames, f.component = id) ∨
    (b.store.get id).isFinal = true

variable {s : Store}

theorem Settled.of_eq (h : Settled s b) (hf : b'.scope.frames = b.scope.frames)
    (hh : ∀ id, b'.store.Has id → b.store.Has id)
    (hq : ∀ id, (b'.store.get id).qualifiedName = (b.store.get id).qualifiedName) :
    Settled s b' := by
  intro id hi
  rw [hf, Component.isFinal, hq]
  exact h id (hh id hi)

theorem Settled.adding (h : Settled s b) (hf : Fits b frame c) : Settled s (b.adding frame c) := by
  intro id hi
  rcases Store.has_add_iff.mp hi with hi | rfl
  · rw [store_adding, Store.get_add_of_has hi]
    refine (h id hi).imp_right (Or.imp_left ?_)
    rintro ⟨f, hm, e⟩
    exact ⟨f, List.mem_cons_of_mem _ hm, e⟩
  · exact .inr (.inl ⟨frame, List.mem_cons_self, hf.component_eq⟩)

theorem Settled.closeTop (h : Settled s b) (hs : Sound b) (hne : b.scope.frames ≠ []) :
    Settled s b.closeTop.state := by
  obtain ⟨frame, below, hf⟩ := List.exists_cons_of_ne_nil hne
  obtain ⟨name, t, after, placement, hc⟩ := hs.closing hf
  intro id hi
  rw [store, hc.store_eq, hc.alike.has_iff, hc.attached.has_iff] at hi
  rw [hc.scope_eq, Component.isFinal, store, hc.store_eq, hc.alike.qualifiedName_eq,
    hc.attached.qualifiedName_eq]
  by_cases e : id = frame.component
  · rw [if_pos e]
    exact .inr (.inr rfl)
  · rw [if_neg e]
    refine (h id hi).imp_right (Or.imp_left ?_)
    rintro ⟨f, hm, rfl⟩
    rw [hf] at hm
    rcases List.mem_cons.mp hm with rfl | hm
    · exact absurd rfl e
    · exact ⟨f, hm, rfl⟩

/-- Operations that stay within groups from `k` on abandon nothing that is open. -/
theorem Settled.advance (h : Settled s b) (hs : Sound b) (ha : Advance k b b') : Settled s b' := by
  cases ha with
  | still ha =>
    have hstore : b'.store = b.store := congrArg Catalog.store ha.catalog_eq
    exact h.of_eq (by rw [ha.scope_eq]) (by simp [hstore]) (by simp [hstore])
  | inside => exact h.adding (hs.fits_inner _)
  | renamed name =>
    exact h.of_eq rfl (fun _ => Store.has_modify_iff.mp)
      (Store.field_modify Component.qualifiedName fun _ => rfl)
  | beside ht => exact h.adding (hs.fits_sibling ht _)
  | enriched id hf =>
    exact h.of_eq rfl (fun _ => Store.has_modify_iff.mp)
      (Store.field_modify Component.qualifiedName hf.qualifiedName_eq)
  | @closed top _ _ _ hc =>
    have hstate := hs.kept_closeMany (fun _ hs h hne => h.closeTop hs hne) h
      (b.countP_le_length top)
    rwa [hc] at hstate

theorem Inner.settled {R : Op → Prop} (hi : Inner R k b ops b') (hs : Sound b)
    (h : Settled s b) : Settled s b' :=
  (hi.keeps (I := fun b => Sound b ∧ Settled s b) (fun b b' op reply _ hw hstep h => by
    have hs := h.1.step op
    rw [hstep] at hs
    exact ⟨hs, h.2.advance h.1 (hw.advance hstep)⟩) ⟨hs, h⟩).2

end Builder

end CodeAtlas
