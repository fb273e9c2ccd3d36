import CodeAtlas.Java.CompilationUnit
import CodeAtlas.Proofs.Text.Utf8

/-! # Characters and bytes as sources

A source of bytes is refused for its encoding exactly if it encodes no text, and the report names
the place where the longest text at its start ends. A text and its encoding are walked alike, and
nodes that cut no character have the text that they span.
-/

namespace CodeAtlas

theorem Node.text_of_span {n : Node} {text : String} {i j : Nat}
    (h : n.label.span = some (Utf8.cut text i, Utf8.cut text j)) :
    n.text (Utf8.encode text) = String.ofList ((text.toList.take j).drop i) := by
  rw [Node.text, Node.bytes, h]
  dsimp only
  rw [Utf8.take_drop_encode, Utf8.decodeReplacing_encodeChars]

/-- The message reports that a file is no UTF-8, because of a byte at the position or of the bytes
from there on. -/
def ReportsFrom (path : String) (position : Nat) (message : String) : Prop :=
  ∃ place cause, message =
      path ++ ": source is not valid UTF-8: 'utf-8' codec can't decode " ++ place ++ ": " ++ cause ∧
    ((∃ b, place = "byte 0x" ++ Utf8.hexByte b ++ " in position " ++ toString position) ∨
      ∃ last : Nat, place = "bytes in position " ++ toString position ++ "-" ++ toString last)

theorem Fault.message_notUtf8 (path : String) (m : Utf8.Malformed) (line : Option Int) :
    (Fault.malformedInput path (.notUtf8 m) line).message =
      path ++ ": " ++ ("source is not valid UTF-8: " ++ m.message) := by
  delta Fault.message Malformation.message
  with_reducible rfl

theorem Utf8.Malformed.message_eq (m : Utf8.Malformed) :
    ∃ place, m.message = "'utf-8' codec can't decode " ++ place ++ ": " ++ m.reason.message ∧
      ((∃ b, place = "byte 0x" ++ hexByte b ++ " in position " ++ toString m.start) ∨
        ∃ last : Nat, place =
          "bytes in position " ++ toString m.start ++ "-" ++ toString last) := by
  delta message
  dsimp only
  split
  · exact ⟨_, rfl, .inl ⟨_, rfl⟩⟩
  · exact ⟨_, rfl, .inr ⟨_, rfl⟩⟩

theorem reportsFrom_message (path : String) (m : Utf8.Malformed) (line : Option Int) :
    ReportsFrom path m.start (Fault.malformedInput path (.notUtf8 m) line).message := by
  have hstart : ": source is not valid UTF-8: 'utf-8' codec can't decode " =
      ": " ++ ("source is not valid UTF-8: " ++ "'utf-8' codec can't decode ") := by simp
  obtain ⟨place, hm, hplace⟩ := m.message_eq
  refine ⟨place, m.reason.message, ?_, hplace⟩
  rw [Fault.message_notUtf8, hm, hstart]
  simp only [String.append_assoc]

namespace Java

theorem parse_of_malformed (file : SourceFile) (strict : Bool) {m : Utf8.Malformed}
    (h : file.source.malformed? = some m) :
    parse file strict = .error (.malformedInput file.path (.notUtf8 m) none) := by
  rw [parse, h]

theorem malformed?_of_parse {file : SourceFile} {strict : Bool} {path : String}
    {m : Utf8.Malformed} {line : Option Int}
    (h : parse file strict = .error (.malformedInput path (.notUtf8 m) line)) :
    file.source.malformed? = some m := by
  unfold parse at h
  split at h
  · cases h
    assumption
  · dsimp only at h
    split at h <;> cases h

theorem parse_congr (path : String) (tree : Node) (strict : Bool) {source source' : Source}
    (he : source.encoding = source'.encoding) (hm : source.malformed? = source'.malformed?) :
    parse ⟨path, source, tree⟩ strict = parse ⟨path, source', tree⟩ strict := by
  simp only [parse, he, hm]

/-- Bytes are refused as no UTF-8 exactly if they encode no text, with a report that names the
length of the longest text at their start. The walk of a text and that of its encoding do not
differ. A node whose span starts and ends between characters has the characters between as its
text. -/
theorem sources_agree :
    (∀ (path : String) (bytes : List UInt8) (tree : Node) (strict : Bool),
      let refused (m : Utf8.Malformed) := parse ⟨path, .bytes bytes, tree⟩ strict =
        .error (.malformedInput path (.notUtf8 m) none)
      ((∃ m, refused m) ↔ ¬ ∃ text, Utf8.encode text = bytes) ∧
        ∀ m, refused m → Utf8.LongestText bytes m.start ∧
          ReportsFrom path m.start (Fault.malformedInput path (.notUtf8 m) none).message) ∧
    (∀ (catalog : Catalog) (path text : String) (tree : Node) (mode : Suppression.Mode)
      (strict : Bool), walk catalog ⟨path, .text text, tree⟩ mode strict =
        walk catalog ⟨path, .bytes (Utf8.encode text), tree⟩ mode strict) ∧
    ∀ (text : String) (n : Node) (i j : Nat),
      n.label.span = some (Utf8.cut text i, Utf8.cut text j) →
      n.text (Utf8.encode text) = String.ofList ((text.toList.take j).drop i) := by
  refine ⟨fun path bytes tree strict => ⟨?_, fun m h => ?_⟩,
    fun catalog path text tree mode strict => ?_, fun text n i j h => n.text_of_span h⟩
  · rw [← Utf8.malformed?_eq_none_iff, ← ne_eq, Option.ne_none_iff_exists']
    constructor
    · rintro ⟨m, h⟩
      exact ⟨m, malformed?_of_parse h⟩
    · rintro ⟨m, h⟩
      exact ⟨m, parse_of_malformed ⟨path, .bytes bytes, tree⟩ strict h⟩
  · exact ⟨Utf8.longestText_of_malformed? (malformed?_of_parse h), reportsFrom_message path m none⟩
  · have hparse : parse ⟨path, .text text, tree⟩ strict =
        parse ⟨path, .bytes (Utf8.encode text), tree⟩ strict :=
      parse_congr path tree strict rfl (Utf8.malformed?_encode text).symm
    simp only [walk, hparse]

theorem sources_agree_longCharacters :
    let bytes : List UInt8 := [0x61, 0xC3, 0xA9, 0xE2, 0x82]
    let n : Node := .mk { type := "identifier", span := (1, 10) } []
    let message := "C.java: source is not valid UTF-8: 'utf-8' codec can't decode bytes " ++
      "in position 3-4: unexpected end of data"
    (¬ ∃ text, Utf8.encode text = bytes) ∧ Utf8.LongestText bytes 3 ∧
      ReportsFrom "C.java" 3 message ∧ n.text (Utf8.encode "aé€😀b") = "é€😀" := by
  intro bytes n message
  have hm : Utf8.malformed? bytes = some ⟨3, [0xE2, 0x82], .unexpectedEnd⟩ := by decide +kernel
  have hp := parse_of_malformed ⟨"C.java", .bytes bytes, n⟩ true hm
  obtain ⟨hiff, hreport⟩ := sources_agree.1 "C.java" bytes n true
  obtain ⟨hlongest, hmessage⟩ := hreport _ hp
  have hshown : (Fault.malformedInput "C.java" (.notUtf8 ⟨3, [0xE2, 0x82], .unexpectedEnd⟩)
      none).message = message := by decide +kernel
  rw [hshown] at hmessage
  have htext := sources_agree.2.2 "aé€😀b" n 1 4 (by decide +kernel)
  exact ⟨hiff.mp ⟨_, hp⟩, hlongest, hmessage, htext.trans (by decide +kernel)⟩

end Java

end CodeAtlas
