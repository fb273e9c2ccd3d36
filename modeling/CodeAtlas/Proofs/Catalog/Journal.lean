import CodeAtlas.Proofs.Catalog.Clashes

/-! # Logs and diagnostics

A journal logs every diagnostic that it records. Diagnostics that it takes over have been logged
elsewhere, so it does not log them again. Whatever a catalog does, its journal grows in this way.
-/

namespace CodeAtlas

namespace Diagnostics

structure Perm (ds ds' : Diagnostics) : Prop where
  errors : ds.errors.Perm ds'.errors
  warnings : ds.warnings.Perm ds'.warnings

variable {ds ds' ds'' other other' : Diagnostics}

theorem Perm.refl (ds : Diagnostics) : ds.Perm ds := ⟨.refl _, .refl _⟩

theorem Perm.trans (h : ds.Perm ds') (h' : ds'.Perm ds'') : ds.Perm ds'' :=
  ⟨h.errors.trans h'.errors, h.warnings.trans h'.warnings⟩

theorem Perm.extend (h : ds.Perm ds') (h' : other.Perm other') :
    (ds.extend other).Perm (ds'.extend other') :=
  ⟨h.errors.append h'.errors, h.warnings.append h'.warnings⟩

@[simp] theorem extend_empty (ds : Diagnostics) : ds.extend {} = ds := by
  simp [Diagnostics.extend]

@[simp] theorem empty_extend (ds : Diagnostics) : Diagnostics.extend {} ds = ds := by
  simp [Diagnostics.extend]

theorem extend_assoc (ds ds' ds'' : Diagnostics) :
    (ds.extend ds').extend ds'' = ds.extend (ds'.extend ds'') := by
  simp [Diagnostics.extend]

theorem perm_extend_comm (ds ds' : Diagnostics) : (ds.extend ds').Perm (ds'.extend ds) :=
  ⟨List.perm_append_comm, List.perm_append_comm⟩

theorem perm_extend_extend (ds ds' other other' : Diagnostics) :
    ((ds.extend ds').extend (other.extend other')).Perm
      ((ds.extend other).extend (ds'.extend other')) := by
  rw [extend_assoc, extend_assoc, ← extend_assoc ds', ← extend_assoc other]
  exact (Perm.refl ds).extend ((perm_extend_comm ds' other).extend (.refl other'))

theorem record_eq_extend (ds : Diagnostics) (d : Diagnostic) :
    ds.record d = ds.extend (record {} d) := by
  unfold record
  split <;> simp [Diagnostics.extend]

end Diagnostics

namespace Log

def Event.entry (event : Event) : String × List (String × Value) := (event.name, event.fields)

def diagnosticEntry (d : Diagnostic) : String × List (String × Value) :=
  (d.kind.name, [("message", .text d.message), ("path", .text d.path), ("line", .number d.line)])

def entriesAt (level : Level) (events : List Event) : List (String × List (String × Value)) :=
  (events.filter fun event => event.level = level).map Event.entry

/-- The diagnostics that events tell of, in order. -/
def reported : List Event → Diagnostics
  | [] => {}
  | .diagnosed d :: rest => (Diagnostics.record {} d).extend (reported rest)
  | _ :: rest => reported rest

theorem reported_cons_of_ne {event : Event} (h : ∀ d, event ≠ .diagnosed d) (rest : List Event) :
    reported (event :: rest) = reported rest := by
  cases event with
  | diagnosed d => exact absurd rfl (h d)
  | _ => rfl

theorem reported_append (first second : List Event) :
    reported (first ++ second) = (reported first).extend (reported second) := by
  induction first with
  | nil => simp [reported]
  | cons event rest ih =>
    cases event with
    | diagnosed d => simp only [List.cons_append, reported, ih, Diagnostics.extend_assoc]
    | _ => exact ih

theorem entriesAt_reported (events : List Event) :
    entriesAt .error events = (reported events).errors.map diagnosticEntry ∧
      entriesAt .warning events = (reported events).warnings.map diagnosticEntry := by
  induction events with
  | nil => exact ⟨rfl, rfl⟩
  | cons event rest ih =>
    obtain ⟨herrors, hwarnings⟩ := ih
    cases event with
    | diagnosed d =>
      by_cases hd : d.severity = .error <;>
        simp [entriesAt, reported, Event.level, Diagnostics.record, Diagnostics.extend, hd,
          ← herrors, ← hwarnings, Event.entry, Event.name, Event.fields, diagnosticEntry]
    | _ => exact ⟨herrors, hwarnings⟩

theorem entriesAt_visible {shown level : Level} (h : shown.rank ≤ level.rank)
    (events : List Event) : entriesAt level (visible shown events) = entriesAt level events := by
  unfold entriesAt visible
  rw [List.filter_filter]
  congr 1
  apply List.filter_congr
  intro event _
  by_cases hl : event.level = level
  · simp [hl, h]
  · simp [hl]

theorem perm_entriesAt {shown : Level} {events : List Event} {ds : Diagnostics}
    (h : ds.Perm (reported events)) :
    (entriesAt .error (visible shown events)).Perm (ds.errors.map diagnosticEntry) ∧
      (shown ≠ .error →
        (entriesAt .warning (visible shown events)).Perm (ds.warnings.map diagnosticEntry)) := by
  obtain ⟨herrors, hwarnings⟩ := entriesAt_reported events
  constructor
  · rw [entriesAt_visible (by cases shown <;> decide), herrors]
    exact (h.errors.map _).symm
  · intro hs
    have hshown : shown.rank ≤ Level.warning.rank := by
      cases shown with
      | error => exact absurd rfl hs
      | _ => decide
    rw [entriesAt_visible hshown, hwarnings]
    exact (h.warnings.map _).symm

end Log

namespace Journal

variable {taken taken' : Diagnostics} {j j' j'' : Journal}

/-- The journal `j'` goes on where `j` ends, and the diagnostics it adds are those taken over and
those that it logs. -/
def Logs (taken : Diagnostics) (j j' : Journal) : Prop :=
  ∃ events added, j'.log = j.log ++ events ∧ j'.diagnostics = j.diagnostics.extend added ∧
    added.Perm (taken.extend (Log.reported events))

theorem Logs.refl (j : Journal) : Logs {} j j :=
  ⟨[], {}, by simp, by simp, .refl _⟩

theorem Logs.trans (h : Logs taken j j') (h' : Logs taken' j' j'') :
    Logs (taken.extend taken') j j'' := by
  obtain ⟨events, added, hlog, hds, hperm⟩ := h
  obtain ⟨events', added', hlog', hds', hperm'⟩ := h'
  refine ⟨events ++ events', added.extend added', ?_, ?_, ?_⟩
  · rw [hlog', hlog, List.append_assoc]
  · rw [hds', hds, Diagnostics.extend_assoc]
  · rw [Log.reported_append]
    exact (hperm.extend hperm').trans (Diagnostics.perm_extend_extend ..)

theorem Logs.next (h : Logs taken j j') (h' : Logs {} j' j'') : Logs taken j j'' := by
  simpa using h.trans h'

theorem Logs.of_perm (h : Logs taken j j') (hp : taken.Perm taken') : Logs taken' j j' := by
  obtain ⟨events, added, hlog, hds, hperm⟩ := h
  exact ⟨events, added, hlog, hds, hperm.trans (hp.extend (.refl _))⟩

theorem logs_note (j : Journal) {event : Log.Event} (h : ∀ d, event ≠ .diagnosed d) :
    Logs {} j (j.note event) := by
  refine ⟨[event], {}, rfl, by simp [note], ?_⟩
  rw [Log.reported_cons_of_ne h]
  exact .refl _

theorem logs_record (j : Journal) (d : Diagnostic) : Logs {} j (j.record d) :=
  ⟨[.diagnosed d], _, rfl, Diagnostics.record_eq_extend j.diagnostics d,
    by simpa [Log.reported] using Diagnostics.Perm.refl _⟩

theorem logs_absorb (j : Journal) (ds : Diagnostics) : Logs ds j (j.absorb ds) :=
  ⟨[], ds, by simp [absorb], rfl, by simpa [Log.reported] using Diagnostics.Perm.refl _⟩

theorem Logs.perm_reported (h : Logs {} {} j) : j.diagnostics.Perm (Log.reported j.log) := by
  obtain ⟨events, added, hlog, hds, hperm⟩ := h
  rw [hlog, hds, Diagnostics.empty_extend, List.nil_append]
  simpa using hperm

end Journal

namespace Catalog

open Journal

theorem logs_place (c : Catalog) (name : String) (id : ComponentId)
    (parent : Option ComponentId) : Logs {} c.journal (c.place name id parent).1.journal := by
  have h := c.placed name id parent
  generalize c.place name id parent = result at h
  cases h with
  | added | refused => exact .refl _
  | absorbed =>
    rw [journal_absorb]
    exact .refl _
  | replaced =>
    rw [journal_replace]
    exact logs_record ..

theorem logs_insert (c : Catalog) (id : ComponentId) (parent : Option ComponentId) :
    Logs {} c.journal (c.insert id parent).state.journal := by
  unfold insert
  dsimp only
  split
  · exact .refl _
  · rename_i name _
    have h := c.logs_place name id parent
    split <;> rename_i e <;> rw [e] at h <;> exact h

theorem logs_merge (c : Catalog) (entries : List (String × ComponentId)) :
    Logs {} c.journal (c.merge entries).journal := by
  induction entries generalizing c with
  | nil => exact .refl _
  | cons entry rest ih =>
    have hentry : Logs {} c.journal (c.mergeEntry entry).journal := by
      rcases c.journal_mergeEntry entry.1 entry.2 with ⟨-, h⟩ | ⟨-, _, d, -, h, -⟩
      · rw [h]
        exact .refl _
      · rw [h]
        exact logs_record ..
    exact hentry.next (ih _)

end Catalog

end CodeAtlas
