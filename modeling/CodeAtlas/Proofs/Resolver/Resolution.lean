import CodeAtlas.Java.BuiltinTypes
import CodeAtlas.Proofs.Text.Dotted
import CodeAtlas.Resolver

/-! # What names resolve to

A resolver is told of the packages and imports of its file. What a token resolves to afterwards is
read off these calls: of the imports since the last package, the last one that ends in the token
comes first. What a token resolves to resolves to itself.
-/

namespace CodeAtlas.Resolver

inductive Call where
  | enterPackage (name : String)
  | addImport (name : String)
deriving DecidableEq

namespace Call

def name : Call → String
  | enterPackage name => name
  | addImport name => name

def isImport : Call → Bool
  | enterPackage _ => false
  | addImport _ => true

end Call

def tell (r : Resolver) : Call → Resolver
  | .enterPackage name => r.enterPackage name
  | .addImport name => r.addImport name

def after (builtin : List (String × String)) (calls : List Call) : Resolver :=
  calls.foldl tell { builtin }

/-- The names imported since a package was entered last. -/
def imported (calls : List Call) : List String := (calls.rtakeWhile Call.isImport).map Call.name

def entered? (calls : List Call) : Option String :=
  (calls.reverse.find? (!·.isImport)).map Call.name

/-- The name, imported, stands for the token: it is no wildcard and ends in the token. -/
def ImportsAs (token name : String) : Prop :=
  ¬ ['.', '*'] <:+ name.toList ∧ Dotted.EndsIn token name

instance (token name : String) : Decidable (ImportsAs token name) :=
  inferInstanceAs (Decidable (¬ _ ∧ Dotted.EndsIn token name))

section Calls

variable (builtin : List (String × String)) (calls : List Call) (name : String)

theorem after_concat (call : Call) :
    after builtin (calls ++ [call]) = (after builtin calls).tell call := by
  simp [after]

theorem imported_concat_addImport :
    imported (calls ++ [.addImport name]) = imported calls ++ [name] := by
  rw [imported, List.rtakeWhile_concat_pos _ _ _ rfl, List.map_append]
  rfl

theorem imported_concat_enterPackage : imported (calls ++ [.enterPackage name]) = [] := by
  rw [imported, List.rtakeWhile_concat_neg _ _ _ (by simp [Call.isImport]), List.map_nil]

theorem entered?_concat_addImport : entered? (calls ++ [.addImport name]) = entered? calls := by
  simp [entered?, Call.isImport]

theorem entered?_concat_enterPackage :
    entered? (calls ++ [.enterPackage name]) = some name := by
  simp [entered?, Call.isImport, Call.name]

end Calls

structure Knows (r : Resolver) (builtin : List (String × String)) (calls : List Call) : Prop where
  builtin_eq : r.builtin = builtin
  package_eq : r.package = entered? calls
  imports_eq : r.imports = imported calls
  get?_aliases : ∀ token,
    r.aliases.get? token = (imported calls).reverse.find? (ImportsAs token ·)

section Knowledge

variable {r : Resolver} {builtin : List (String × String)} {calls : List Call}

theorem knows_new (builtin : List (String × String)) : Knows { builtin } builtin [] :=
  ⟨rfl, rfl, rfl, fun _ => rfl⟩

theorem Knows.enterPackage (h : Knows r builtin calls) (name : String) :
    Knows (r.enterPackage name) builtin (calls ++ [.enterPackage name]) where
  builtin_eq := h.builtin_eq
  package_eq := (entered?_concat_enterPackage ..).symm
  imports_eq := (imported_concat_enterPackage ..).symm
  get?_aliases _ := by
    rw [imported_concat_enterPackage]
    rfl

theorem isWildcard_iff (name : String) :
    Dotted.isWildcard name = true ↔ ['.', '*'] <:+ name.toList :=
  List.isSuffixOf_iff_suffix

/-- An import takes over the token that it ends in, unless it is a wildcard. -/
theorem get?_aliases_addImport (r : Resolver) (name token : String) :
    (r.addImport name).aliases.get? token =
      if ImportsAs token name then some name else r.aliases.get? token := by
  by_cases hw : Dotted.isWildcard name = true
  · have hno : ¬ ImportsAs token name := fun h => h.1 ((isWildcard_iff name).mp hw)
    rw [addImport, if_pos hw, if_neg hno]
  · have hiff : token = Dotted.lastSegment name ↔ ImportsAs token name := by
      rw [eq_comm, Dotted.lastSegment_eq_iff, ImportsAs, ← isWildcard_iff]
      simp [hw]
    rw [addImport, if_neg hw, Table.get?_put]
    simp only [hiff]

theorem Knows.addImport (h : Knows r builtin calls) (name : String) :
    Knows (r.addImport name) builtin (calls ++ [.addImport name]) where
  builtin_eq := h.builtin_eq
  package_eq := h.package_eq.trans (entered?_concat_addImport ..).symm
  imports_eq := by
    rw [imported_concat_addImport, ← h.imports_eq]
    rfl
  get?_aliases token := by
    rw [get?_aliases_addImport, h.get?_aliases, imported_concat_addImport, List.reverse_concat,
      List.find?_cons]
    split <;> simp_all

theorem knows_after (builtin : List (String × String)) (calls : List Call) :
    Knows (after builtin calls) builtin calls := by
  induction calls using List.reverseRecOn with
  | nil => exact knows_new builtin
  | append_singleton calls call ih =>
    rw [after_concat]
    cases call with
    | enterPackage name => exact ih.enterPackage name
    | addImport name => exact ih.addImport name

theorem Knows.importsAs (h : Knows r builtin calls) {token name : String}
    (ha : r.aliases.get? token = some name) : ImportsAs token name := by
  rw [h.get?_aliases] at ha
  simpa using List.find?_some ha

theorem Knows.resolve_of_hasDot (h : Knows r builtin calls) {token : String}
    (hd : Dotted.hasDot token = true) : r.resolve token = token := by
  -- What an import stands for is its last segment, which has no dot.
  have hnone : r.aliases.get? token = none := by
    by_contra hsome
    obtain ⟨name, hname⟩ := Option.ne_none_iff_exists'.mp hsome
    exact (h.importsAs hname).2.1 (by simpa [Dotted.hasDot] using hd)
  simp [resolve, hnone, hd]

end Knowledge

/-- After any calls, the imports are those since the last package. A token resolves to the latest of
them that is no wildcard and ends in it. Otherwise a dotted token resolves to itself, and any other
one to its entry in the table, or else to the name that it has in the last package. -/
theorem resolve_after (builtin : List (String × String)) (calls : List Call) (token : String) :
    (after builtin calls).imports = imported calls ∧
      (after builtin calls).resolveIn false token =
        match (imported calls).reverse.find? (ImportsAs token ·) with
        | some name => name
        | none =>
          if '.' ∈ token.toList then token
          else match builtin.lookup token, entered? calls with
            | some name, _ => name
            | none, some package => if package = "" then token else package ++ "." ++ token
            | none, none => token := by
  have h := knows_after builtin calls
  refine ⟨h.imports_eq, ?_⟩
  have hdot : Dotted.hasDot token = true ↔ '.' ∈ token.toList := by simp [Dotted.hasDot]
  simp only [resolveIn, Bool.false_eq_true, if_false, resolve, qualify, h.get?_aliases,
    h.builtin_eq, h.package_eq, hdot]
  cases (imported calls).reverse.find? (ImportsAs token ·) with
  | some name => rfl
  | none =>
    dsimp only
    split
    · rfl
    · cases builtin.lookup token <;> cases entered? calls <;> rfl

-- A later import of the same segment wins, a wildcard stands for no token, and entering a package
-- forgets all imports.
example :
    let r := after [("T", "T"), ("U", "x.U")] [.addImport "a.T", .enterPackage "p",
      .addImport "b.V", .addImport "c.V", .addImport "d.*", .addImport "e."]
    ["T", "U", "V", "*", "", "W", "a.W"].map r.resolve =
      ["T", "x.U", "c.V", "p.*", "e.", "p.W", "a.W"] := by
  decide +kernel

/-- Every entry of the table has a dotted name or stands for itself. -/
def Canonical (builtin : List (String × String)) : Prop :=
  ∀ entry ∈ builtin, '.' ∈ entry.2.toList ∨ entry.2 = entry.1

instance (builtin : List (String × String)) : Decidable (Canonical builtin) :=
  inferInstanceAs (Decidable (∀ entry ∈ builtin, '.' ∈ entry.2.toList ∨ entry.2 = entry.1))

theorem canonical_builtinTypes : Canonical Java.builtinTypes := by
  intro entry h
  rcases List.mem_append.mp h with h | h
  · obtain ⟨name, -, rfl⟩ := List.mem_map.mp h
    exact .inr rfl
  · obtain ⟨name, -, rfl⟩ := List.mem_map.mp h
    left
    simp

section Idempotence

variable {r : Resolver} {builtin : List (String × String)} {calls : List Call}

theorem hasDot_qualify (r : Resolver) (token : String) :
    r.qualify token = token ∨ Dotted.hasDot (r.qualify token) = true := by
  unfold qualify
  split
  · split
    · exact .inl rfl
    · exact .inr (by simp [Dotted.hasDot])
  · exact .inl rfl

/-- Whatever decides on a token, a name that differs from it is dotted. -/
theorem Knows.resolve_eq_or_hasDot (h : Knows r builtin calls) (hb : Canonical builtin)
    (token : String) : r.resolve token = token ∨ Dotted.hasDot (r.resolve token) = true := by
  have hdot {name : String} (hd : '.' ∈ name.toList) : Dotted.hasDot name = true := by
    simpa [Dotted.hasDot] using hd
  unfold resolve
  split
  · rename_i name ha
    by_cases hd : '.' ∈ name.toList
    · exact .inr (hdot hd)
    · exact .inl ((h.importsAs ha).2.eq_of_dotless hd)
  · split
    · exact .inl rfl
    · split
      · rename_i name hl
        obtain ⟨_, _, he, -⟩ := List.lookup_eq_some_iff.mp hl
        rw [h.builtin_eq] at he
        exact (hb (token, name) (by simp [he])).symm.imp_right hdot
      · exact r.hasDot_qualify token

theorem Knows.resolve_resolve (h : Knows r builtin calls) (hb : Canonical builtin)
    (token : String) : r.resolve (r.resolve token) = r.resolve token := by
  rcases h.resolve_eq_or_hasDot hb token with he | hd
  · rw [he, he]
  · exact h.resolve_of_hasDot hd

end Idempotence

/-- With a table of canonical names, such as that of Java, resolving is idempotent after any
calls. -/
theorem resolve_idempotent : Canonical Java.builtinTypes ∧
    ∀ builtin, Canonical builtin → ∀ (calls : List Call) (token : String),
      (after builtin calls).resolve ((after builtin calls).resolve token) =
        (after builtin calls).resolve token :=
  ⟨canonical_builtinTypes, fun builtin hb calls token =>
    (knows_after builtin calls).resolve_resolve hb token⟩

/-- Of a name that stands for itself and two dotted ones, an import with a dot hides the first and
one without a dot the second. -/
theorem resolve_idempotent_shadowed :
    let builtin := [("T", "T"), ("U", "x.U"), ("V", "x.V")]
    let r := after builtin [.enterPackage "p", .addImport "U", .addImport "T", .addImport "a.T"]
    Canonical builtin ∧ ["T", "U", "V", "W"].map r.resolve = ["a.T", "U", "x.V", "p.W"] ∧
      ∀ token, r.resolve (r.resolve token) = r.resolve token :=
  have hb : Canonical [("T", "T"), ("U", "x.U"), ("V", "x.V")] := by decide +kernel
  ⟨hb, by decide +kernel, fun token => resolve_idempotent.2 _ hb _ token⟩

end CodeAtlas.Resolver
