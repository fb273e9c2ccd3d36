import Mathlib.Data.List.DropRight
import Mathlib.Data.List.TakeWhile
import CodeAtlas.Text.Dotted

/-! # Cutting dotted names

A segment without a dot can be cut off again after it has been joined to a name, so the qualifier
of a joined name is the name of what it was joined to, and its last segment is what was joined.
-/

namespace CodeAtlas.Dotted

theorem join_concat {segments : List String} (h : segments ≠ []) (last : String) :
    join (segments ++ [last]) = join segments ++ "." ++ last := by
  induction segments with
  | nil => exact absurd rfl h
  | cons segment rest ih =>
    cases rest with
    | nil => simp [join]
    | cons next rest =>
      have ih := ih (by simp)
      simp only [List.cons_append] at ih
      simp only [List.cons_append, join, ih, String.append_assoc]

theorem dot_notMem_of_dotless {name : String} (h : hasDot name = false) : '.' ∉ name.toList := by
  simpa [hasDot] using h

theorem dropWhile_dotless {cs : List Char} (h : '.' ∉ cs) : cs.dropWhile (· != '.') = [] := by
  rw [List.dropWhile_eq_nil_iff]
  intro c hc
  simpa using fun e : c = '.' => h (e ▸ hc)

theorem dropWhile_dotless_append {cs : List Char} (h : '.' ∉ cs) (rest : List Char) :
    (cs ++ '.' :: rest).dropWhile (· != '.') = '.' :: rest := by
  rw [List.dropWhile_append_of_pos]
  · simp
  · intro c hc
    simpa using fun e : c = '.' => h (e ▸ hc)

theorem takeWhile_dotless_append {cs : List Char} (h : '.' ∉ cs) (rest : List Char) :
    (cs ++ '.' :: rest).takeWhile (· != '.') = cs := by
  rw [List.takeWhile_append_of_pos]
  · simp
  · intro c hc
    simpa using fun e : c = '.' => h (e ▸ hc)

theorem qualifier_of_dotless {name : String} (h : hasDot name = false) : qualifier name = "" := by
  have hd : '.' ∉ name.toList.reverse := by simpa using dot_notMem_of_dotless h
  simp [qualifier, dropWhile_dotless hd]

theorem qualifier_append {name : String} (h : hasDot name = false) (qualifier' : String) :
    qualifier (qualifier' ++ "." ++ name) = qualifier' := by
  have hd : '.' ∉ name.toList.reverse := by simpa using dot_notMem_of_dotless h
  simp [qualifier, dropWhile_dotless_append hd]

def parent? (name : String) : Option String :=
  if qualifier name = "" then none else some (qualifier name)

theorem append_dot_ne_self (a b : String) : a ++ "." ++ b ≠ a := by
  intro h
  have hl := congrArg String.length h
  simp only [String.length_append] at hl
  have : ".".length = 1 := rfl
  omega

theorem append_dot_ne_empty (a b : String) : a ++ "." ++ b ≠ "" := by
  intro h
  have hl := congrArg String.length h
  simp only [String.length_append, String.length_empty] at hl
  have : ".".length = 1 := rfl
  omega

/-- The segment is what stands after the last dot of the name, or the name itself if that has no
dot. -/
def EndsIn (segment name : String) : Prop :=
  '.' ∉ segment.toList ∧ (name = segment ∨ '.' :: segment.toList <:+ name.toList)

instance (segment name : String) : Decidable (EndsIn segment name) :=
  inferInstanceAs (Decidable ('.' ∉ segment.toList ∧ (name = segment ∨ _)))

theorem toList_lastSegment (name : String) :
    (lastSegment name).toList = name.toList.rtakeWhile (· != '.') := by
  simp [lastSegment, List.rtakeWhile]

theorem endsIn_lastSegment (name : String) : EndsIn (lastSegment name) name := by
  refine ⟨fun h => ?_, ?_⟩
  · rw [toList_lastSegment] at h
    simpa using List.mem_rtakeWhile_imp h
  have hsplit := List.rdropWhile_append_rtakeWhile (p := (· != '.')) (l := name.toList)
  rw [toList_lastSegment]
  rcases List.eq_nil_or_concat (name.toList.rdropWhile (· != '.')) with hd | ⟨before, last, hd⟩
  · left
    rw [hd, List.nil_append] at hsplit
    rw [lastSegment, ← List.rtakeWhile, hsplit, String.ofList_toList]
  · -- The cut is made at a character that is a dot.
    have hlast := List.rdropWhile_last_not (p := (· != '.')) (l := name.toList) (by simp [hd])
    obtain rfl : last = '.' := by simpa [hd] using hlast
    right
    exact ⟨before, by simpa [hd] using hsplit⟩

theorem lastSegment_of_endsIn {segment name : String} (h : EndsIn segment name) :
    lastSegment name = segment := by
  obtain ⟨hdot, rfl | ⟨before, hb⟩⟩ := h
  · rw [← String.toList_inj, toList_lastSegment, List.rtakeWhile_eq_self_iff]
    intro c hc
    simpa using fun e : c = '.' => hdot (e ▸ hc)
  · have hd : '.' ∉ segment.toList.reverse := by simpa using hdot
    rw [← String.toList_inj, toList_lastSegment, ← hb]
    simp [List.rtakeWhile, takeWhile_dotless_append hd]

theorem lastSegment_eq_iff {segment name : String} :
    lastSegment name = segment ↔ EndsIn segment name :=
  ⟨fun h => h ▸ endsIn_lastSegment name, lastSegment_of_endsIn⟩

theorem EndsIn.eq_of_dotless {segment name : String} (h : EndsIn segment name)
    (hd : '.' ∉ name.toList) : name = segment :=
  h.2.resolve_right fun hs => hd (hs.subset List.mem_cons_self)

end CodeAtlas.Dotted
