import CodeAtlas.Java.CompilationUnit
import CodeAtlas.Proofs.Builder.Sound
import CodeAtlas.Proofs.Tree.Walk

/-! # Following visits

Following visits keeps what every operation that they ask for keeps. The walk of a file follows the
visits of its tree with a builder that starts sound.
-/

namespace CodeAtlas

def SourceFile.root (file : SourceFile) : Place :=
  { source := file.source.encoding, node := file.tree }

namespace Java

variable {b b' : Builder} {visits : List Visit}

theorem follow_append (b : Builder) (first second : List Visit) :
    follow b (first ++ second) = (follow b first).andThen (follow · second) := by
  induction first generalizing b with
  | nil => rfl
  | cons visit rest ih =>
    rw [List.cons_append, follow, follow, Outcome.andThen_assoc]
    simp only [ih]

/-- What every operation of a kind keeps holds of the state that a walk reaches, if visits ask for
operations of that kind only. -/
theorem follow_state {I : Builder → Prop} {R : Op → Prop}
    (step : ∀ b op, R op → I b → I (b.step op).state)
    (hr : ∀ visit ∈ visits, ∀ b, ∀ op ∈ opsFor b visit, R op) (h : I b) :
    I (follow b visits).state := by
  induction visits generalizing b with
  | nil => exact h
  | cons visit rest ih =>
    obtain ⟨hvisit, hrest⟩ := List.forall_mem_cons.mp hr
    have h' : I (b.run (opsFor b visit)).state :=
      Builder.run_state (fun b' op hm h => step b' op (hvisit b op hm) h) h
    unfold follow Outcome.andThen
    split
    · exact ih hrest h'
    · exact h'

theorem kept_follow {I : Builder → Prop} (step : ∀ b op, b.Sound → I b → I (b.step op).state)
    (hs : b.Sound) (h : I b) (visits : List Visit) :
    (follow b visits).state.Sound ∧ I (follow b visits).state :=
  follow_state (I := fun b => b.Sound ∧ I b) (fun b op _ h => ⟨h.1.step op, step b op h.1 h.2⟩)
    (fun _ _ _ _ _ => trivial) ⟨hs, h⟩

theorem sound_follow (hs : b.Sound) (h : follow b visits = .ok b' ()) : b'.Sound := by
  have hf : (follow b visits).state.Sound :=
    follow_state (fun _ op _ h => h.step op) (fun _ _ _ _ _ => trivial) hs
  rwa [h] at hf

def startedIn (catalog : Catalog) (path : String) (mode : Suppression.Mode) : Builder :=
  builder (catalog.note (.walkStarted path "java")) path mode

/-- The builder that walks a file into a catalog of its own. -/
def started (policy : CollisionPolicy) (store : Store) (path : String) (mode : Suppression.Mode) :
    Builder :=
  builder ((Catalog.empty policy store).note (.walkStarted path "java")) path mode

theorem get?_started (policy : CollisionPolicy) (store : Store) (path : String)
    (mode : Suppression.Mode) (name : String) :
    (started policy store path mode).catalog.get? name = none :=
  rfl

theorem sound_started (policy : CollisionPolicy) (store : Store) (path : String)
    (mode : Suppression.Mode) : (started policy store path mode).Sound :=
  (Builder.sound_start policy store path { builtin := builtinTypes } { mode }).of_eq rfl rfl rfl

theorem parse_cases (file : SourceFile) (strict : Bool) :
    (∃ path cause line, parse file strict = .error (.malformedInput path cause line)) ∨
      parse file strict = .ok file.root := by
  unfold parse
  split
  · exact .inl ⟨_, _, _, rfl⟩
  · dsimp only
    split
    · exact .inl ⟨_, _, _, rfl⟩
    · exact .inr rfl

section Walk

variable {catalog model : Catalog} {file : SourceFile} {mode : Suppression.Mode} {strict : Bool}

theorem walk_of_parse (h : parse file strict = .ok file.root) (catalog : Catalog)
    (mode : Suppression.Mode) : walk catalog file mode strict =
      ((follow (startedIn catalog file.path mode) file.root.walk).mapState
        Builder.catalog).andThen fun catalog =>
          .ok (catalog.note (.walkFinished file.path catalog.size)) () := by
  simp only [walk, h, startedIn]

/-- A file is refused as malformed, or its visits are followed. -/
theorem walk_cases (policy : CollisionPolicy) (store : Store) (file : SourceFile)
    (mode : Suppression.Mode) (strict : Bool) :
    (∃ path cause line, walk (.empty policy store) file mode strict =
      .fail (.empty policy store) (.malformedInput path cause line)) ∨
    walk (.empty policy store) file mode strict =
      ((follow (started policy store file.path mode) file.root.walk).mapState
        Builder.catalog).andThen fun catalog =>
          .ok (catalog.note (.walkFinished file.path catalog.size)) () := by
  rcases parse_cases file strict with ⟨path, cause, line, h⟩ | h
  · exact .inl ⟨path, cause, line, by simp only [walk, h]⟩
  · exact .inr (walk_of_parse h _ mode)

theorem parse_of_walk (h : (walk catalog file mode strict).result = .ok ()) :
    parse file strict = .ok file.root := by
  rcases parse_cases file strict with ⟨path, cause, line, hp⟩ | hp
  · simp only [walk, hp] at h
    cases h
  · exact hp

theorem walk_eq_ok_iff (hp : parse file strict = .ok file.root) :
    walk catalog file mode strict = .ok model () ↔
      ∃ b, follow (startedIn catalog file.path mode) file.root.walk = .ok b () ∧
        model = b.catalog.note (.walkFinished file.path b.catalog.size) := by
  rw [walk_of_parse hp]
  generalize follow (startedIn _ _ _) _ = done
  obtain ⟨b, result⟩ := done
  cases result <;> simp [Outcome.mapState, Outcome.andThen, Outcome.ok, eq_comm]

theorem follow_of_walk {policy : CollisionPolicy} {store : Store}
    (hw : walk (.empty policy store) file mode strict = .ok model ()) :
    ∃ b, follow (started policy store file.path mode) file.root.walk = .ok b () ∧
      model = b.catalog.note (.walkFinished file.path b.catalog.size) :=
  (walk_eq_ok_iff (parse_of_walk (congrArg Outcome.result hw))).mp hw

end Walk

/-- The walk of a file by recursion on its tree, which can be evaluated. -/
def walkTree (catalog : Catalog) (file : SourceFile) (mode : Suppression.Mode) (strict : Bool) :
    Outcome Catalog Unit :=
  match parse file strict with
  | .error fault => .fail catalog fault
  | .ok root =>
    ((follow (builder (catalog.note (.walkStarted file.path "java")) file.path mode)
      (visitsAt root.source root.above root.node)).mapState Builder.catalog).andThen
        fun catalog => .ok (catalog.note (.walkFinished file.path catalog.size)) ()

theorem walk_eq_walkTree (catalog : Catalog) (file : SourceFile) (mode : Suppression.Mode)
    (strict : Bool) : walk catalog file mode strict = walkTree catalog file mode strict := by
  simp only [walkTree, Place.visitsAt_eq]
  rfl

end Java

end CodeAtlas
