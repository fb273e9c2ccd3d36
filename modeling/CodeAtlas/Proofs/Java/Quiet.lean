import CodeAtlas.Proofs.Java.Follow
import CodeAtlas.Proofs.Java.Visits

/-! # Suppression along a walk

Suppression depends on nothing but the visits made. In depth mode a walk leaves it as it was; in
both modes a walk that starts outside suppression ends outside it.
-/

namespace CodeAtlas

def Op.suppress (s : Suppression) : Op → Suppression
  | .enterSuppressed => s.enter
  | .exitSuppressed => s.exit
  | _ => s

def Visit.suppress (s : Suppression) : Visit → Suppression
  | .enter p => if p.form = .annotationTypeDeclaration then s.enter else s
  | .exit p => if p.form = .annotationTypeDeclaration then s.exit else s

namespace Builder

variable {b b' : Builder}

theorem suppression_abandonOpen (b : Builder) (name : String) (line : Int) :
    (b.abandonOpen name line).suppression = b.suppression := by
  unfold abandonOpen
  split <;> rfl

theorem suppression_nameDeclarator (b : Builder) (top : Frame) (name : String) :
    (b.nameDeclarator top name).suppression = b.suppression := by
  unfold nameDeclarator
  dsimp only
  split <;> rfl

theorem suppression_step (b : Builder) (op : Op) :
    (b.step op).state.suppression = op.suppress b.suppression := by
  cases op with
  | beginPackage name prov => exact suppression_abandonOpen b name prov.startLine
  | openComponent =>
    rw [Builder.step]
    split <;> rfl
  | nameDeclarator name =>
    rw [Builder.step]
    split
    · rfl
    · split
      · rfl
      · exact suppression_nameDeclarator ..
  | close =>
    rw [Builder.step]
    split
    · rfl
    · rw [state_andThen_done]
      unfold Builder.close
      split
      · rfl
      · exact suppression_closeMany ..
  | endUnit =>
    rw [Builder.step]
    rw [state_andThen_done]
    unfold Builder.endUnit
    split
    · rfl
    · exact suppression_closeMany ..
  | enrich =>
    rw [Builder.step]
    split
    · rfl
    · split <;> rfl
  | current =>
    rw [Builder.step]
    split <;> rfl
  | addImport | enterSuppressed | exitSuppressed | resolve => rfl

theorem suppression_run {ops : List Op} (h : b.run ops = .ok b' ()) :
    b'.suppression = ops.foldl Op.suppress b.suppression := by
  induction ops generalizing b with
  | nil =>
    obtain ⟨rfl, -⟩ := Outcome.ok_inj h
    rfl
  | cons op rest ih =>
    obtain ⟨b₁, _, h₁, h₂⟩ := Outcome.eq_ok_of_andThen h
    have hsup : b₁.suppression = op.suppress b.suppression := by
      rw [← b.suppression_step op, h₁]
      rfl
    rw [ih h₂, List.foldl_cons, hsup]

end Builder

theorem foldl_suppress_inert {ops : List Op} (h : ∀ op ∈ ops, op.Inert) (s : Suppression) :
    ops.foldl Op.suppress s = s := by
  induction ops with
  | nil => rfl
  | cons op rest ih =>
    obtain ⟨hop, hrest⟩ := List.forall_mem_cons.mp h
    have hs : op.suppress s = s := by
      cases op with
      | enterSuppressed | exitSuppressed => cases hop
      | _ => rfl
    rw [List.foldl_cons, hs, ih hrest]

namespace Place

variable {p : Place}

theorem form_ne_of_opens {form : Java.Form} (h : (p.opens? none).isSome)
    (hf : form.opens? none = none) : p.form ≠ form := by
  rintro rfl
  unfold opens? at h
  split at h
  · cases h
  · rw [hf] at h
    cases h

theorem foldl_suppress_entry {ops : List Op} (h : Entry p ops) (s : Suppression) :
    ops.foldl Op.suppress s = Visit.suppress s (.enter p) := by
  cases h with
  | opens ho _ hp =>
    rw [List.foldl_cons, foldl_suppress_inert (inert_of_enriches hp), Visit.suppress,
      if_neg (form_ne_of_opens ho rfl)]
    rfl
  | package prov _ hf => simp [Visit.suppress, Op.suppress, hf]
  | suppresses _ hf => simp [Visit.suppress, Op.suppress, hf]
  | declares _ hd hp =>
    rw [List.foldl_cons, foldl_suppress_inert (inert_of_enriches hp), Visit.suppress,
      if_neg (by simp [hd.1])]
    rfl
  | imports name _ hf => simp [Visit.suppress, Op.suppress, hf]
  | enriches _ _ hf _ _ hp =>
    rw [foldl_suppress_inert (inert_of_enriches hp), Visit.suppress, if_neg hf]

theorem exitOps_of_opens (h : (p.opens? none).isSome) : p.exitOps = [.close] := by
  obtain ⟨kind, hk⟩ := Option.isSome_iff_exists.mp h
  simp [exitOps, hk]

theorem exitOps_of_suppresses (h : p.form = .annotationTypeDeclaration) :
    p.exitOps = [.exitSuppressed] := by
  have ho : p.opens? none = none := by simp [opens?, h, Java.Form.opens?]
  simp [exitOps, ho, h]

theorem exitOps_of_program (h : p.form = .program) : p.exitOps = [.endUnit] := by
  have ho : p.opens? none = none := by simp [opens?, h, Java.Form.opens?]
  simp [exitOps, ho, h]

theorem exitOps_of_plain (ho : p.opens? none = none) (hp : p.form ≠ .program)
    (ha : p.form ≠ .annotationTypeDeclaration) : p.exitOps = [] := by
  simp only [exitOps, ho]

theorem foldl_suppress_exitOps (p : Place) (s : Suppression) :
    p.exitOps.foldl Op.suppress s = Visit.suppress s (.exit p) := by
  by_cases ho : (p.opens? none).isSome
  · rw [exitOps_of_opens ho, Visit.suppress, if_neg (form_ne_of_opens ho rfl)]
    rfl
  have ho : p.opens? none = none := by simpa using ho
  by_cases hp : p.form = .program
  · simp [exitOps_of_program hp, Visit.suppress, hp, Op.suppress]
  by_cases ha : p.form = .annotationTypeDeclaration
  · simp [exitOps_of_suppresses ha, Visit.suppress, ha, Op.suppress]
  · simp [exitOps_of_plain ho hp ha, Visit.suppress, ha]

end Place

namespace Java

variable {b b' : Builder} {visits : List Visit}

theorem foldl_suppress_opsFor (b : Builder) (visit : Visit) (s : Suppression) :
    (opsFor b visit).foldl Op.suppress s = visit.suppress s := by
  cases visit with
  | enter p => exact Place.foldl_suppress_entry (p.entry_enterOps _) s
  | exit p => exact p.foldl_suppress_exitOps s

theorem suppression_follow (h : follow b visits = .ok b' ()) :
    b'.suppression = visits.foldl Visit.suppress b.suppression := by
  induction visits generalizing b with
  | nil =>
    obtain ⟨rfl, -⟩ := Outcome.ok_inj h
    rfl
  | cons visit rest ih =>
    obtain ⟨b₁, _, h₁, h₂⟩ := Outcome.eq_ok_of_andThen h
    rw [ih h₂, List.foldl_cons, Builder.suppression_run h₁, foldl_suppress_opsFor]

end Java

namespace Place

theorem mode_foldl_suppress (visits : List Visit) (s : Suppression) :
    (visits.foldl Visit.suppress s).mode = s.mode := by
  induction visits generalizing s with
  | nil => rfl
  | cons visit rest ih =>
    rw [List.foldl_cons, ih]
    cases visit <;> simp only [Visit.suppress] <;> split <;>
      simp only [Suppression.enter, Suppression.exit] <;> split <;> rfl

/-- In depth mode, a walk leaves suppression as it found it. -/
theorem foldl_suppress_walk {s : Suppression} (hm : s.mode = .depth) (p : Place) :
    p.walk.foldl Visit.suppress s = s := by
  induction p using induction generalizing s with
  | h p ih =>
    have hchildren {s : Suppression} (hm : s.mode = .depth) (ps : List Place)
        (h : ∀ c ∈ ps, c ∈ p.namedChildren) : (ps.flatMap walk).foldl Visit.suppress s = s := by
      induction ps with
      | nil => rfl
      | cons c rest ihs =>
        obtain ⟨hc, hrest⟩ := List.forall_mem_cons.mp h
        rw [List.flatMap_cons, List.foldl_append, ih c hc hm, ihs hrest]
    rw [walk_eq, List.foldl_cons, List.foldl_append]
    obtain ⟨mode, depth⟩ := s
    obtain rfl : mode = .depth := hm
    by_cases ha : p.form = .annotationTypeDeclaration
    · rw [hchildren (by simp [Visit.suppress, ha, Suppression.enter]) _ fun _ => id]
      simp [Visit.suppress, ha, Suppression.enter, Suppression.exit]
    · simp only [Visit.suppress, ha, if_false, List.foldl_cons, List.foldl_nil]
      exact hchildren rfl _ fun _ => id

theorem foldl_suppress_annotationType {p : Place} (hp : p.form = .annotationTypeDeclaration)
    {s : Suppression} (hs : s.depth = 0) : (p.walk.foldl Visit.suppress s).depth = 0 := by
  by_cases hm : s.mode = .depth
  · rw [foldl_suppress_walk hm, hs]
  · have hflag : s.mode = .flag := by
      cases e : s.mode with
      | flag => rfl
      | depth => exact absurd e hm
    rw [walk_eq, List.foldl_cons, List.foldl_append, ← List.foldl_cons]
    simp only [List.foldl_cons, List.foldl_nil, Visit.suppress, hp, if_true, Suppression.exit]
    rw [mode_foldl_suppress]
    simp [Suppression.enter, hflag]

theorem depth_foldl_siblings (ps : List Place)
    (h : ∀ c ∈ ps, ∀ s : Suppression, s.depth = 0 → (c.walk.foldl Visit.suppress s).depth = 0)
    {s : Suppression} (hs : s.depth = 0) :
    ((ps.flatMap walk).foldl Visit.suppress s).depth = 0 := by
  induction ps generalizing s with
  | nil => exact hs
  | cons c rest ih =>
    obtain ⟨hc, hrest⟩ := List.forall_mem_cons.mp h
    rw [List.flatMap_cons, List.foldl_append]
    exact ih hrest (hc s hs)

/-- In both modes, a walk that starts outside suppression ends outside it. -/
theorem depth_foldl_walk (p : Place) (s : Suppression) (hs : s.depth = 0) :
    (p.walk.foldl Visit.suppress s).depth = 0 := by
  induction p using induction generalizing s with
  | h p ih =>
    by_cases hp : p.form = .annotationTypeDeclaration
    · exact foldl_suppress_annotationType hp hs
    · rw [walk_eq]
      simp only [List.foldl_cons, List.foldl_append, List.foldl_nil, Visit.suppress, hp, if_false]
      exact depth_foldl_siblings p.namedChildren ih hs

end Place

end CodeAtlas
