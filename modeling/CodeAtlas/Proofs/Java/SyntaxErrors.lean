import Mathlib.Logic.Function.Iterate
import CodeAtlas.Proofs.Java.Follow

/-! # The first syntax error

The search for errors is a loop over a stack of pending places that does not enter trees without
the flag for errors. If the flags of a tree are right, it finds what a search of the whole tree in
preorder finds. So a file that is refused for its errors is refused with the line of the first one.
-/

namespace CodeAtlas

structure Search where
  pending : List Place
  found : Option Place := none

namespace Search

/-- One round takes the next place. An error ends the search; else the children of a place with the
flag are pending next. -/
def round (search : Search) : Search :=
  match search.pending with
  | [] => search
  | p :: rest =>
    if p.node.isError then ⟨[], some p⟩
    else if p.node.label.hasError then ⟨p.children ++ rest, none⟩
    else ⟨rest, none⟩

variable {p : Place} (rest : List Place) (found : Option Place)

theorem round_of_isError (h : p.node.isError = true) :
    round ⟨p :: rest, found⟩ = ⟨[], some p⟩ :=
  if_pos h

theorem round_of_flagged (h : ¬ p.node.isError = true) (hflag : p.node.label.hasError = true) :
    round ⟨p :: rest, found⟩ = ⟨p.children ++ rest, none⟩ :=
  (if_neg h).trans (if_pos hflag)

theorem round_of_unflagged (h : ¬ p.node.isError = true)
    (hflag : ¬ p.node.label.hasError = true) : round ⟨p :: rest, found⟩ = ⟨rest, none⟩ :=
  (if_neg h).trans (if_neg hflag)

end Search

namespace Place

variable {p c root : Place}

/-- Each place of a tree has the flag exactly if there is an error at the place or below. -/
def Faithful (root : Place) : Prop :=
  ∀ p ∈ root.preorder, p.node.label.hasError = p.preorder.any (·.node.isError)

instance (root : Place) : Decidable root.Faithful :=
  inferInstanceAs (Decidable (∀ p ∈ root.preorder, _ = _))

theorem Faithful.of_mem (h : root.Faithful) (hp : p ∈ root.preorder) : p.Faithful :=
  fun _ hq => h _ (mem_preorder_trans hp hq)

theorem Faithful.child (h : p.Faithful) (hc : c ∈ p.children) : c.Faithful := by
  apply h.of_mem
  rw [preorder_eq]
  exact List.mem_cons_of_mem _ (List.mem_flatMap.mpr ⟨c, hc, c.mem_preorder_self⟩)

theorem Faithful.find?_preorder (h : p.Faithful) (hflag : p.node.label.hasError = false) :
    p.preorder.find? (·.node.isError) = none := by
  have hnone := h p p.mem_preorder_self
  rw [hflag, eq_comm, List.any_eq_false] at hnone
  exact List.find?_eq_none.mpr hnone

/-- What is pending is searched in preorder. -/
theorem firstErrorIn_eq_find? {pending : List Place} (h : ∀ p ∈ pending, p.Faithful) :
    firstErrorIn pending = (pending.flatMap preorder).find? (·.node.isError) := by
  fun_induction firstErrorIn pending with
  | case1 => rfl
  | case2 p rest herror =>
    rw [List.flatMap_cons, preorder_eq, List.cons_append,
      List.find?_cons_of_pos (by exact herror)]
  | case3 p rest herror hflag ih =>
    obtain ⟨hp, hrest⟩ := List.forall_mem_cons.mp h
    have hnext : ∀ c ∈ p.children ++ rest, c.Faithful :=
      List.forall_mem_append.mpr ⟨fun c hc => hp.child hc, hrest⟩
    rw [ih hnext, List.flatMap_append, List.flatMap_cons, preorder_eq p, List.cons_append,
      List.find?_cons_of_neg (by exact herror)]
  | case4 p rest herror hflag ih =>
    -- The tree is not entered, but there is nothing in it to be found.
    obtain ⟨hp, hrest⟩ := List.forall_mem_cons.mp h
    rw [ih hrest, List.flatMap_cons, List.find?_append, hp.find?_preorder (by simpa using hflag),
      Option.none_or]

theorem Faithful.firstError?_eq_find? (h : p.Faithful) :
    p.firstError? = p.preorder.find? (·.node.isError) := by
  rw [firstError?, firstErrorIn_eq_find? (List.forall_mem_singleton.mpr h), List.flatMap_singleton]

theorem Faithful.firstError?_eq_none_iff (h : p.Faithful) :
    p.firstError? = none ↔ ∀ q ∈ p.preorder, q.node.isError = false := by
  simp only [h.firstError?_eq_find?, List.find?_eq_none, Bool.not_eq_true]

/-- The loop ends, whatever the flags are, after at most one round for each node that is pending. -/
theorem iterate_search (pending : List Place) :
    ∃ n ≤ Node.sizes (pending.map node),
      Search.round^[n] ⟨pending, none⟩ = ⟨[], firstErrorIn pending⟩ := by
  fun_induction firstErrorIn pending with
  | case1 => exact ⟨0, Nat.zero_le _, rfl⟩
  | case2 p rest herror =>
    have hsize := p.children_sizes
    refine ⟨1, ?_, ?_⟩
    · rw [List.map_cons, Node.sizes]
      omega
    · rw [Function.iterate_one, Search.round_of_isError rest none herror]
  | case3 p rest herror hflag ih =>
    obtain ⟨n, hn, hrounds⟩ := ih
    have hsize := p.children_sizes
    refine ⟨n + 1, ?_, ?_⟩
    · rw [List.map_append, Node.sizes_append] at hn
      rw [List.map_cons, Node.sizes]
      omega
    · rw [Function.iterate_succ_apply, Search.round_of_flagged rest none herror hflag, hrounds]
  | case4 p rest herror hflag ih =>
    obtain ⟨n, hn, hrounds⟩ := ih
    have hsize := p.children_sizes
    refine ⟨n + 1, ?_, ?_⟩
    · rw [List.map_cons, Node.sizes]
      omega
    · rw [Function.iterate_succ_apply, Search.round_of_unflagged rest none herror hflag, hrounds]

theorem iterate_search_singleton (p : Place) :
    ∃ n ≤ p.node.size, Search.round^[n] ⟨[p], none⟩ = ⟨[], p.firstError?⟩ := by
  obtain ⟨n, hn, hrounds⟩ := iterate_search [p]
  exact ⟨n, by simpa [Node.sizes] using hn, hrounds⟩

end Place

namespace Java

variable {file : SourceFile} {strict : Bool} {path : String} {line : Option Int}

theorem hasError_of_parse
    (h : parse file strict = .error (.malformedInput path .syntaxErrors line)) :
    file.tree.label.hasError = true ∧ path = file.path ∧
      line = file.root.firstError?.map Place.startLine := by
  unfold parse at h
  split at h
  · cases h
  · dsimp only at h
    split at h
    · rename_i hflag
      cases h
      exact ⟨(Bool.and_eq_true_iff.mp hflag).2, rfl, rfl⟩
    · cases h

/-- If the flags of a tree are right, the search from any of its places comes to an end and finds
the first error in preorder, named or not, and nothing only if there is none. A file that is refused
for its errors is refused with the line of the first one. -/
theorem search_finds_first (file : SourceFile) (h : file.root.Faithful) :
    (∀ p ∈ file.root.preorder,
      (∃ n ≤ p.node.size, Search.round^[n] ⟨[p], none⟩ = ⟨[], p.firstError?⟩) ∧
      p.firstError? = p.preorder.find? (·.node.isError) ∧
      (p.firstError? = none ↔ ∀ q ∈ p.preorder, q.node.isError = false)) ∧
    ∀ strict path line, parse file strict = .error (.malformedInput path .syntaxErrors line) →
      path = file.path ∧ ∃ q, file.root.preorder.find? (·.node.isError) = some q ∧
        line = some (q.node.label.startRow + 1 : Int) := by
  refine ⟨fun p hp => ?_, fun strict path line hrefused => ?_⟩
  · have hfaithful := h.of_mem hp
    exact ⟨p.iterate_search_singleton, hfaithful.firstError?_eq_find?,
      hfaithful.firstError?_eq_none_iff⟩
  · obtain ⟨hflag, hpath, hline⟩ := hasError_of_parse hrefused
    have hany : file.root.preorder.any (·.node.isError) = true := by
      rw [← h file.root file.root.mem_preorder_self]
      exact hflag
    obtain ⟨q, hq⟩ := Option.isSome_iff_exists.mp (List.find?_isSome.mpr (List.any_eq_true.mp hany))
    refine ⟨hpath, q, hq, ?_⟩
    rw [hline, h.firstError?_eq_find?, hq]
    rfl

/-- A class without errors, then one where a word is missing before an error node in an earlier
row. -/
def broken : SourceFile where
  path := "C.java"
  source := .text ""
  tree := .mk { type := "program", hasError := true }
    [.mk { type := "class_declaration" } [.mk { type := "identifier" } []],
      .mk { type := "class_declaration", hasError := true }
        [.mk { type := "class", named := false } [],
          .mk { type := ";", named := false, startRow := 4, missing := true, hasError := true } [],
          .mk { type := "ERROR", startRow := 2, hasError := true } []]]

/-- The missing word comes first, so its line is the one reported. -/
theorem search_finds_first_broken :
    broken.root.Faithful ∧
      parse broken true = .error (.malformedInput "C.java" .syntaxErrors (some 5)) ∧
      ∃ q, broken.root.preorder.find? (·.node.isError) = some q ∧ q.node.type = ";" ∧
        (5 : Int) = q.node.label.startRow + 1 := by
  have hfaithful : broken.root.Faithful := by decide +kernel
  have hparse : parse broken true =
      .error (.malformedInput "C.java" .syntaxErrors (some 5)) := by
    have herror : broken.root.firstError?.map Place.startLine = some 5 := by decide +kernel
    rw [← herror]
    rfl
  obtain ⟨-, q, hq, hline⟩ := (search_finds_first broken hfaithful).2 true _ _ hparse
  have htype : (broken.root.preorder.find? (·.node.isError)).map (·.node.type) = some ";" := by
    decide +kernel
  rw [hq] at htype
  exact ⟨hfaithful, hparse, q, hq, Option.some.inj htype, Option.some.inj hline⟩

end Java

end CodeAtlas
