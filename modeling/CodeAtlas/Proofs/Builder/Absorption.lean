import CodeAtlas.Proofs.Builder.Sound

/-! # Packages that meet packages

A package that is closed while the catalog has a package of its name is absorbed by that one. Where
the last write wins, no close fails, so the builders before all closes say what has been absorbed.
-/

namespace CodeAtlas.Builder

variable {b : Builder} {frame : Frame} {below : List Frame}

/-- The innermost component is a package, and the catalog has a package of its name. -/
def meetsPackage (b : Builder) : Bool :=
  match b.scope.frames with
  | [] => false
  | frame :: below =>
    (b.store.get frame.component).kind = .package &&
      (b.catalog.get? (Scope.nameIn b.store frame below)).any
        fun id => (b.store.get id).kind = .package

def absorbed? (b : Builder) : Option ComponentId :=
  if b.meetsPackage then b.scope.top?.map Frame.component else none

def closings : Nat → Builder → List Builder
  | 0, _ => []
  | n + 1, b => b :: closings n b.closeTop.state

def closingsBy (b : Builder) : Op → List Builder
  | .close => if b.suppressed then [] else closings (b.scope.groupSize?.getD 0) b
  | .endUnit => if b.suppressed then [] else closings b.scope.frames.length b
  | _ => []

/-- The builder before each time that operations, one after the other, close a component. -/
def closingsIn (b : Builder) : List Op → List Builder
  | [] => []
  | op :: rest => b.closingsBy op ++ closingsIn (b.step op).state rest

section Closing

variable {name : String} {t : Store} {after : Catalog} {placement : Placement}

theorem Closing.absorbed_iff (hc : Closing b frame below name t after placement) :
    placement = .absorbed ↔ b.meetsPackage = true := by
  have hp := hc.placed
  have hkind := hc.attached.kind_eq
  simp only [meetsPackage, hc.frames_eq, hc.name_eq, Bool.and_eq_true, decide_eq_true_eq,
    Option.any_eq_true]
  generalize e : (after, placement) = result at hp
  cases hp with
  | added hn =>
    cases e
    simp only [Catalog.get?_withStore] at hn
    simp [hn]
  | absorbed he hk hk' =>
    cases e
    simp only [Catalog.get?_withStore, Catalog.store_withStore, hkind] at he hk hk'
    simp [he, hk, hk']
  | refused he hk | replaced he hk =>
    cases e
    simp only [Catalog.get?_withStore, Catalog.store_withStore, hkind] at he hk
    simp only [he, Option.some.injEq, exists_eq_left', reduceCtorEq, false_iff]
    exact fun h => hk h.symm

theorem Closing.absorbed?_eq (hc : Closing b frame below name t after .absorbed) :
    b.absorbed? = some frame.component := by
  rw [absorbed?, if_pos (hc.absorbed_iff.mp rfl), Scope.top?, hc.frames_eq]
  rfl

end Closing

theorem Sound.result_closeTop (hs : Sound b) (hp : b.catalog.policy = .lastWriteWins)
    (hne : b.scope.frames ≠ []) : b.closeTop.result = .ok () := by
  obtain ⟨frame, below, hf⟩ := List.exists_cons_of_ne_nil hne
  obtain ⟨name, t, after, placement, hc⟩ := hs.closing hf
  rw [hc.result_eq, if_neg (hc.ne_refused hp)]

/-- What each close keeps of a builder and the earlier closes, closing many keeps. -/
theorem closeMany_closings {I : List Builder → Builder → Prop}
    (step : ∀ earlier b, I earlier b → b.scope.frames ≠ [] →
      b.closeTop.result = .ok () ∧ I (earlier ++ [b]) b.closeTop.state) (earlier : List Builder)
    {n : Nat} (h : I earlier b) (hn : n ≤ b.scope.frames.length) :
    I (earlier ++ closings n b) (closeMany n b).state := by
  induction n generalizing b earlier with
  | zero =>
    rw [closings, List.append_nil]
    exact h
  | succ n ih =>
    have hne : b.scope.frames ≠ [] := by
      intro e
      simp [e] at hn
    obtain ⟨hresult, h'⟩ := step earlier b h hne
    have hrest : n ≤ b.closeTop.state.scope.frames.length := by
      rw [frames_closeTop, List.length_tail]
      omega
    rw [closings, List.append_cons, closeMany, Outcome.andThen, hresult]
    exact ih _ h' hrest

theorem closingsBy_close {top : Frame} (hs : b.suppressed = false)
    (ht : b.scope.top? = some top) :
    b.closingsBy .close = closings (b.scope.frames.countP (·.group == top.group)) b := by
  simp [closingsBy, hs, Scope.groupSize?, ht]

theorem closingsBy_endUnit (hs : b.suppressed = false) :
    b.closingsBy .endUnit = closings b.scope.frames.length b := by
  simp [closingsBy, hs]

end CodeAtlas.Builder
