import CodeAtlas.Proofs.Java.Discipline

/-! # Names of types

The bare name of a type is that of the child that it is built around, or it is joined from the names
of its children. A name that is written out is recorded when its node is entered, unless it is part
of a longer one.
-/

namespace CodeAtlas

namespace Java

variable (source : List UInt8)

theorem firstName?_eq (children : List Node) :
    firstName? source children = (children.filter Node.named).head?.bind (typeName? source) := by
  induction children with
  | nil => simp [firstName?]
  | cons child rest ih => by_cases h : child.named <;> simp [firstName?, h, ih]

theorem lastName?_eq (children : List Node) :
    lastName? source children = (children.filter Node.named).getLast?.bind (typeName? source) := by
  induction children with
  | nil => simp [lastName?]
  | cons child rest ih =>
    rw [lastName?, ih]
    by_cases h : child.named
    · cases hr : rest.filter Node.named with
      | nil =>
        have hany : rest.any Node.named = false := by simpa using hr
        simp [h, hr, hany]
      | cons next more =>
        have hany : rest.any Node.named = true := by
          have hm : next ∈ rest.filter Node.named := by simp [hr]
          exact List.any_eq_true.mpr ⟨next, List.mem_filter.mp hm⟩
        simp [h, hr, hany]
    · simp [h]

theorem elementName?_eq (children : List Node) : elementName? source children =
    (children.find? (·.field == some "element")).bind (typeName? source) := by
  induction children with
  | nil => simp [elementName?]
  | cons child rest ih => by_cases h : child.field == some "element" <;> simp [elementName?, h, ih]

theorem segments_eq (children : List Node) : segments source children =
    (children.filter Node.named).filterMap fun c => (typeName? source c).filter (· != "") := by
  induction children with
  | nil => simp [segments]
  | cons child rest ih =>
    rw [segments, ih]
    by_cases h : child.named
    · cases hn : typeName? source child with
      | none => simp [h, hn]
      | some name => by_cases he : name = "" <;> simp [h, hn, he, Option.filter]
    · simp [h]

end Java

namespace Place

open Java

variable {p c : Place}

theorem source_of_mem_children (h : c ∈ p.children) : c.source = p.source := by
  have hfrom (earlier children : List Node) (h : c ∈ p.childrenFrom earlier children) :
      c.source = p.source := by
    induction children generalizing earlier with
    | nil => cases h
    | cons child rest ih =>
      rcases List.mem_cons.mp h with rfl | h
      · rfl
      · exact ih _ h
  exact hfrom [] p.node.children h

theorem mem_namedChildren_of_childInField? {field : String} (h : p.childInField? field = some c)
    (hn : c.node.named) : c ∈ p.namedChildren :=
  List.mem_filter.mpr ⟨List.mem_of_find?_eq_some h, hn⟩

theorem map_node_namedChildren (p : Place) :
    p.namedChildren.map node = p.node.children.filter Node.named := by
  rw [namedChildren, ← map_node_children, List.filter_map]
  rfl

theorem typeName?_of_mem (h : c ∈ p.children) : Java.typeName? p.source c.node = c.typeName? := by
  rw [typeName?, source_of_mem_children h]

theorem typeName?_of_name (h : p.form = .typeIdentifier ∨ p.form = .primitiveType) :
    p.typeName? = some p.text := by
  obtain ⟨source, ⟨label, children⟩, above⟩ := p
  have h : Form.ofType label.type = .typeIdentifier ∨ Form.ofType label.type = .primitiveType := h
  rcases h with h | h <;> simp [typeName?, Java.typeName?, h, text]

theorem typeName?_of_generic (hf : p.form = .genericType) (hc : p.namedChildren.head? = some c) :
    p.typeName? = c.typeName? := by
  have hm := typeName?_of_mem (List.mem_of_mem_filter (List.mem_of_mem_head? hc))
  have hmap := congrArg List.head? p.map_node_namedChildren
  rw [List.head?_map, hc] at hmap
  obtain ⟨source, ⟨label, children⟩, above⟩ := p
  have hf : Form.ofType label.type = .genericType := hf
  simp only [typeName?, Java.typeName?, hf, firstName?_eq] at hm ⊢
  rw [← show _ = (children.filter Node.named).head? from hmap]
  exact hm

theorem typeName?_of_annotated (hf : p.form = .annotatedType)
    (hc : p.namedChildren.getLast? = some c) : p.typeName? = c.typeName? := by
  have hm := typeName?_of_mem (List.mem_of_mem_filter (List.mem_of_mem_getLast? hc))
  have hmap := congrArg List.getLast? p.map_node_namedChildren
  rw [List.getLast?_map, hc] at hmap
  obtain ⟨source, ⟨label, children⟩, above⟩ := p
  have hf : Form.ofType label.type = .annotatedType := hf
  simp only [typeName?, Java.typeName?, hf, lastName?_eq] at hm ⊢
  rw [← show _ = (children.filter Node.named).getLast? from hmap]
  exact hm

theorem typeName?_of_array (hf : p.form = .arrayType) (hc : p.childInField? "element" = some c) :
    p.typeName? = c.typeName? := by
  have hm := typeName?_of_mem (List.mem_of_find?_eq_some hc)
  have hmap : p.node.children.find? (·.field == some "element") = some c.node := by
    rw [← map_node_children, List.find?_map]
    exact congrArg (Option.map node) hc
  obtain ⟨source, ⟨label, children⟩, above⟩ := p
  have hf : Form.ofType label.type = .arrayType := hf
  simp only [typeName?, Java.typeName?, hf, elementName?_eq] at hm ⊢
  rw [show children.find? _ = _ from hmap]
  exact hm

def segment? (p : Place) : Option String := p.typeName?.filter (· != "")

theorem segment?_of_typeName? {name : String} (h : p.typeName? = some name) (hne : name ≠ "") :
    p.segment? = some name := by
  simp [segment?, h, Option.filter, hne]

theorem typeName?_of_scoped (hf : p.form = .scopedTypeIdentifier) :
    p.typeName? = some (Dotted.join (p.namedChildren.filterMap segment?)) := by
  have hmap : p.namedChildren.filterMap segment? = (p.node.children.filter Node.named).filterMap
      fun c => (Java.typeName? p.source c).filter (· != "") := by
    rw [← map_node_namedChildren, List.filterMap_map]
    refine List.filterMap_congr fun c hc => ?_
    rw [segment?, ← typeName?_of_mem (List.mem_of_mem_filter hc)]
    rfl
  rw [hmap]
  obtain ⟨source, ⟨label, children⟩, above⟩ := p
  have hf : Form.ofType label.type = .scopedTypeIdentifier := hf
  simp only [typeName?, Java.typeName?, hf, segments_eq]
  rfl

def bareName (p : Place) : String := p.typeName?.getD ""

def isPlainName (p : Place) : Bool := p.form == .typeIdentifier || p.form == .scopedTypeIdentifier

def WritesName (p : Place) : Prop := p.isPlainName ∨ p.form = .primitiveType

/-- The name of a type is written out at another place, where its arguments, dimensions and
annotations are left away. -/
inductive Spells : Place → Place → Prop
  | self {p : Place} : p.WritesName → Spells p p
  | generic {p c : Place} : p.form = .genericType → p.namedChildren.head? = some c →
      c.isPlainName → Spells p c
  | array {p c q : Place} : p.form = .arrayType → p.childInField? "element" = some c →
      c.node.named → Spells c q → Spells p q
  | annotated {p c q : Place} : p.form = .annotatedType → p.namedChildren.getLast? = some c →
      Spells c q → Spells p q

namespace Spells

variable {q : Place}

theorem writesName (h : Spells p q) : q.WritesName := by
  induction h with
  | self h => exact h
  | generic _ _ h => exact .inl h
  | array _ _ _ _ ih | annotated _ _ _ ih => exact ih

theorem typeName?_eq (h : Spells p q) : q.typeName? = p.typeName? := by
  induction h with
  | self => rfl
  | generic hf hc => exact (typeName?_of_generic hf hc).symm
  | array hf hc _ _ ih => exact ih.trans (typeName?_of_array hf hc).symm
  | annotated hf hc _ ih => exact ih.trans (typeName?_of_annotated hf hc).symm

end Spells

/-- The node is not part of a longer name, and neither the name of a type parameter nor the word
that stands for an inferred type. -/
structure StandsAlone (p : Place) : Prop where
  not_scoped : p.parentForm? ≠ some .scopedTypeIdentifier
  not_parameter : p.parentForm? ≠ some .typeParameter
  not_inferred : p.isInferredType = false

theorem parentForm?_of_mem (h : c ∈ p.namedChildren) : c.parentForm? = some p.form := by
  rw [parentForm?, parent?_of_mem_namedChildren h]
  rfl

theorem standsAlone_child (hc : c ∈ p.namedChildren) (hs : p.form ≠ .scopedTypeIdentifier)
    (hp : p.form ≠ .typeParameter) (hi : p.form.mayInferType = false) : c.StandsAlone where
  not_scoped := by simpa [parentForm?_of_mem hc] using hs
  not_parameter := by simpa [parentForm?_of_mem hc] using hp
  not_inferred := by
    have hi : p.node.form.mayInferType = false := hi
    simp [isInferredType, parent?_of_mem_namedChildren hc, hi]

/-- The forms of nodes around types that write out no name themselves. -/
def wrappingForms : List Form := [.genericType, .arrayType, .annotatedType, .other]

theorem standsAlone_of_wrapping (hf : p.form ∈ wrappingForms) (hc : c ∈ p.namedChildren) :
    c.StandsAlone := by
  have hforms : ∀ form ∈ wrappingForms, form ≠ .scopedTypeIdentifier ∧ form ≠ .typeParameter ∧
      form.mayInferType = false := by decide
  obtain ⟨hs, hp, hi⟩ := hforms _ hf
  exact standsAlone_child hc hs hp hi

namespace Spells

variable {q : Place}

theorem standsAlone (h : Spells p q) (ha : p.StandsAlone) : q.StandsAlone := by
  induction h with
  | self => exact ha
  | generic hf hc =>
    refine standsAlone_of_wrapping ?_ (List.mem_of_mem_head? hc)
    simp [hf, wrappingForms]
  | array hf hc hn _ ih =>
    refine ih (standsAlone_of_wrapping ?_ (mem_namedChildren_of_childInField? hc hn))
    simp [hf, wrappingForms]
  | annotated hf hc _ ih =>
    refine ih (standsAlone_of_wrapping ?_ (List.mem_of_mem_getLast? hc))
    simp [hf, wrappingForms]

theorem enter_mem_walk (h : Spells p q) : .enter q ∈ p.walk := by
  induction h with
  | self => exact Place.enter_mem_walk _
  | generic _ hc => exact mem_walk_of_child (List.mem_of_mem_head? hc) (Place.enter_mem_walk _)
  | array _ hc hn _ ih => exact mem_walk_of_child (mem_namedChildren_of_childInField? hc hn) ih
  | annotated _ hc _ ih => exact mem_walk_of_child (List.mem_of_mem_getLast? hc) ih

theorem bareName_eq (h : Spells p q) : q.bareName = p.bareName := by
  rw [bareName, h.typeName?_eq, bareName]

end Spells

theorem bareName_of_name (h : p.form = .typeIdentifier ∨ p.form = .primitiveType) :
    p.bareName = p.text := by
  rw [bareName, typeName?_of_name h, Option.getD_some]

theorem enterOps_of_primitive (hf : p.form = .primitiveType) (e : Option Kind) :
    p.enterOps e = [.enrich (.typeReference p.bareName p.startLine)] := by
  simp [enterOps, opens?, hf, Form.opens?, usageOps, bareName_of_name]

theorem enterOps_of_writesName (hw : p.WritesName) (ha : p.StandsAlone) (hne : p.bareName ≠ "")
    (e : Option Kind) : p.enterOps e = [.enrich (.typeReference p.bareName p.startLine)] := by
  obtain ⟨hs, hp, hi⟩ := ha
  simp only [WritesName, isPlainName, Bool.or_eq_true, beq_iff_eq] at hw
  rcases hw with (hf | hf) | hf
  · simp [enterOps, opens?, hf, Form.opens?, usageOps, hs, hp, hi, bareName_of_name]
  · have hne : p.typeName?.getD "" ≠ "" := hne
    simp [enterOps, opens?, hf, Form.opens?, usageOps, hs, hne, bareName]
  · exact enterOps_of_primitive hf e

/-- A name that is part of a longer one is not recorded on its own. -/
theorem enterOps_of_part (hf : p.isPlainName) (hp : p.parentForm? = some .scopedTypeIdentifier)
    (e : Option Kind) : p.enterOps e = [] := by
  simp only [isPlainName, Bool.or_eq_true, beq_iff_eq] at hf
  rcases hf with hf | hf <;> simp [enterOps, opens?, hf, Form.opens?, usageOps, hp]

theorem enterOps_of_wrapping (hf : p.form ∈ wrappingForms) (e : Option Kind) :
    p.enterOps e = [] := by
  simp only [wrappingForms, List.mem_cons, List.not_mem_nil, or_false] at hf
  rcases hf with hf | hf | hf | hf <;> simp [enterOps, opens?, hf, Form.opens?, usageOps]

theorem exitOps_of_wrapping (hf : p.form ∈ wrappingForms) : p.exitOps = [] := by
  simp only [wrappingForms, List.mem_cons, List.not_mem_nil, or_false] at hf
  rcases hf with hf | hf | hf | hf <;> simp [exitOps, opens?, hf, Form.opens?]

theorem exitOps_of_writesName (hw : p.WritesName) : p.exitOps = [] := by
  simp only [WritesName, isPlainName, Bool.or_eq_true, beq_iff_eq] at hw
  rcases hw with (hf | hf) | hf <;> simp [exitOps, opens?, hf, Form.opens?]

end Place

namespace Java

open Builder

variable {b : Builder} {p : Place}

theorem andThen_ok_unit (o : Outcome Builder Unit) : (o.andThen fun b => .ok b ()) = o := by
  obtain ⟨state, result⟩ := o
  cases result <;> rfl

theorem follow_walk_of_ops {ops : List Op} (henter : ∀ e, p.enterOps e = ops)
    (hexit : p.exitOps = []) (b : Builder) :
    follow b p.walk = (b.run ops).andThen (follow · (p.namedChildren.flatMap Place.walk)) := by
  rw [follow_walk_eq, opsFor, henter, hexit]
  simp only [run, andThen_ok_unit]

end Java

end CodeAtlas
