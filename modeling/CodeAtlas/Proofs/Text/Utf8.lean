import Mathlib.Data.List.Basic
import CodeAtlas.Text.Utf8

/-! # Reading and encoding

Reading bytes undoes the encoding of characters: the encoding of a character is read as that
character, and nothing else is. So bytes are well-formed exactly if they encode a text, and the
first bad span of other bytes starts where the longest text that they begin with ends.
-/

namespace CodeAtlas.Utf8

open String

/-- The bytes continue a character: the first one is in the given range, the others in that of all
continuing bytes. -/
def Continues : (low high : UInt8) → List UInt8 → Prop
  | _, _, [] => True
  | low, high, b :: rest => low ≤ b ∧ b ≤ high ∧ Continues 0x80 0xBF rest

def extend (code : Nat) (follow : List UInt8) : Nat :=
  follow.foldl (fun code b => code * 64 + (b.toNat - 0x80)) code

theorem extend_nil (code : Nat) : extend code [] = code := rfl

theorem extend_cons (code : Nat) (b : UInt8) (follow : List UInt8) :
    extend code (b :: follow) = extend (code * 64 + (b.toNat - 0x80)) follow := by
  simp only [extend, List.foldl_cons]

theorem readFollow_of_continues {low high : UInt8} {follow : List UInt8}
    (h : Continues low high follow) (code : Nat) (seen rest : List UInt8) :
    readFollow low high code seen follow.length (follow ++ rest) =
      (.char (Char.ofNat (extend code follow)), seen.length + follow.length - 1) := by
  induction follow generalizing low high code seen with
  | nil => simp [readFollow, extend_nil]
  | cons b follow ih =>
    obtain ⟨hlow, hhigh, hrest⟩ := h
    rw [List.length_cons, List.cons_append, readFollow, if_pos (by simp [hlow, hhigh]), ih hrest]
    rw [extend_cons, List.length_append, List.length_singleton, Nat.add_right_comm, Nat.add_assoc]

theorem continues_of_readFollow {low high : UInt8} {code count taken : Nat}
    {seen bytes : List UInt8} {c : Char}
    (h : readFollow low high code seen count bytes = (.char c, taken)) :
    ∃ follow rest, bytes = follow ++ rest ∧ follow.length = count ∧ Continues low high follow ∧
      c = Char.ofNat (extend code follow) ∧ taken = seen.length + count - 1 := by
  induction count generalizing low high code seen bytes with
  | zero =>
    simp only [readFollow, Prod.mk.injEq, Piece.char.injEq] at h
    exact ⟨[], bytes, rfl, rfl, trivial, by rw [extend_nil, h.1], h.2.symm⟩
  | succ count ih =>
    cases bytes with
    | nil => simp [readFollow] at h
    | cons b bytes =>
      rw [readFollow] at h
      split at h
      · rename_i hb
        obtain ⟨follow, rest, rfl, hlength, hcontinues, hc, htaken⟩ := ih h
        have hb : low ≤ b ∧ b ≤ high := by simpa using hb
        refine ⟨b :: follow, rest, rfl, by rw [List.length_cons, hlength],
          ⟨hb.1, hb.2, hcontinues⟩, by rw [hc, extend_cons], ?_⟩
        rw [htaken, List.length_append, List.length_singleton]
        omega
      · simp at h

/-- What the lead bytes of characters of two, three and four bytes ask for. -/
inductive Leads (b : UInt8) : Lead → Prop
  | two (bits : Nat) : 2 ≤ bits → bits < 0x20 → b.toNat = bits + 0xC0 →
      Leads b ⟨bits, 0x80, 0xBF, 1⟩
  | three (bits : Nat) : bits < 0x10 → b.toNat = bits + 0xE0 →
      Leads b ⟨bits, if bits = 0 then 0xA0 else 0x80, if bits = 0xD then 0x9F else 0xBF, 2⟩
  | four (bits : Nat) : bits ≤ 4 → b.toNat = bits + 0xF0 →
      Leads b ⟨bits, if bits = 0 then 0x90 else 0x80, if bits = 4 then 0x8F else 0xBF, 3⟩

theorem lead?_eq (b : UInt8) : lead? b =
    if b.toNat < 0xC2 then none
    else if b.toNat < 0xE0 then some ⟨b.toNat - 0xC0, 0x80, 0xBF, 1⟩
    else if b.toNat = 0xE0 then some ⟨0, 0xA0, 0xBF, 2⟩
    else if b.toNat = 0xED then some ⟨0xD, 0x80, 0x9F, 2⟩
    else if b.toNat < 0xF0 then some ⟨b.toNat - 0xE0, 0x80, 0xBF, 2⟩
    else if b.toNat = 0xF0 then some ⟨0, 0x90, 0xBF, 3⟩
    else if b.toNat < 0xF4 then some ⟨b.toNat - 0xF0, 0x80, 0xBF, 3⟩
    else if b.toNat = 0xF4 then some ⟨4, 0x80, 0x8F, 3⟩
    else none := by
  simp only [lead?, UInt8.lt_iff_toNat_lt, beq_iff_eq, ← UInt8.toNat_inj, UInt8.reduceToNat]

theorem leads_of_lead? {b : UInt8} {l : Lead} (h : lead? b = some l) : Leads b l := by
  rw [lead?_eq] at h
  split_ifs at h with h₁ h₂ h₃ h₄ h₅ h₆ h₇ h₈ <;> obtain rfl := Option.some.inj h
  · exact .two _ (by omega) (by omega) (by omega)
  · exact .three 0 (by omega) h₃
  · exact .three 0xD (by omega) h₄
  · have h := Leads.three (b := b) (b.toNat - 0xE0) (by omega) (by omega)
    rwa [if_neg (by omega), if_neg (by omega)] at h
  · exact .four 0 (by omega) h₆
  · have h := Leads.four (b := b) (b.toNat - 0xF0) (by omega) (by omega)
    rwa [if_neg (by omega), if_neg (by omega)] at h
  · exact .four 4 (by omega) h₈

theorem lead?_of_leads {b : UInt8} {l : Lead} (h : Leads b l) : lead? b = some l := by
  rw [lead?_eq]
  cases h with
  | two bits h₁ h₂ hb =>
    rw [if_neg (by omega), if_pos (by omega)]
    simp [hb]
  | three bits h₁ hb =>
    rw [if_neg (by omega), if_neg (by omega)]
    by_cases h₀ : bits = 0
    · rw [if_pos (by omega)]
      simp [h₀]
    rw [if_neg (by omega), if_neg h₀]
    by_cases hd : bits = 0xD
    · rw [if_pos (by omega)]
      simp [hd]
    · rw [if_neg (by omega), if_pos (by omega)]
      simp [hd, hb]
  | four bits h₁ hb =>
    rw [if_neg (by omega), if_neg (by omega), if_neg (by omega), if_neg (by omega),
      if_neg (by omega)]
    by_cases h₀ : bits = 0
    · rw [if_pos (by omega)]
      simp [h₀]
    rw [if_neg (by omega), if_neg h₀]
    by_cases h₄ : bits = 4
    · rw [if_neg (by omega), if_pos (by omega)]
      simp [h₄]
    · rw [if_pos (by omega)]
      simp [h₄, hb]

def numbers (code : Nat) : List Nat :=
  if code < 0x80 then [code]
  else if code < 0x800 then [code / 64 + 0xC0, code % 64 + 0x80]
  else if code < 0x10000 then [code / 4096 + 0xE0, code / 64 % 64 + 0x80, code % 64 + 0x80]
  else [code / 262144 + 0xF0, code / 4096 % 64 + 0x80, code / 64 % 64 + 0x80, code % 64 + 0x80]

theorem toNat_ofNat {code : Nat} (h : code.isValidChar) : (Char.ofNat code).toNat = code := by
  rw [Char.ofNat, dif_pos h]
  rfl

theorem map_toNat_utf8EncodeChar (c : Char) :
    (utf8EncodeChar c).map UInt8.toNat = numbers c.toNat := by
  have hc : c.val.toNat < 0x110000 := by
    have := c.valid
    simp only [UInt32.isValidChar, Nat.isValidChar] at this
    omega
  rw [Char.toNat, numbers]
  generalize hv : c.val.toNat = v at hc
  simp only [utf8EncodeChar, hv]
  by_cases h₁ : v < 0x80
  · simp [h₁, Nat.le_of_lt_succ h₁]
    omega
  by_cases h₂ : v < 0x800
  · simp [h₁, h₂, Nat.le_of_lt_succ h₂, show ¬ v ≤ 127 by omega]
    omega
  by_cases h₃ : v < 0x10000
  · simp [h₁, h₂, h₃, Nat.le_of_lt_succ h₃, show ¬ v ≤ 127 by omega, show ¬ v ≤ 2047 by omega]
    omega
  · simp [h₁, h₂, h₃, show ¬ v ≤ 127 by omega, show ¬ v ≤ 2047 by omega, show ¬ v ≤ 65535 by omega]
    omega

theorem eq_of_map_toNat {bytes bytes' : List UInt8}
    (h : bytes.map UInt8.toNat = bytes'.map UInt8.toNat) : bytes = bytes' :=
  List.map_injective_iff.mpr (fun _ _ => UInt8.toNat_inj.mp) h

theorem utf8EncodeChar_of_numbers {code : Nat} (h : code.isValidChar) {bytes : List UInt8}
    (hb : bytes.map UInt8.toNat = numbers code) : utf8EncodeChar (Char.ofNat code) = bytes := by
  refine eq_of_map_toNat ?_
  rw [map_toNat_utf8EncodeChar, toNat_ofNat h, hb]

theorem utf8EncodeChar_extend {b : UInt8} {l : Lead} {follow : List UInt8} (hl : Leads b l)
    (hn : follow.length = l.follow) (hc : Continues l.low l.high follow) :
    utf8EncodeChar (Char.ofNat (extend l.bits follow)) = b :: follow := by
  cases hl with
  | two bits _ _ hb =>
    obtain ⟨b₁, rfl⟩ := List.length_eq_one_iff.mp hn
    simp only [Continues, UInt8.le_iff_toNat_le, UInt8.reduceToNat, and_true] at hc
    simp only [extend_cons, extend_nil]
    refine utf8EncodeChar_of_numbers (.inl (by omega)) ?_
    rw [numbers, if_neg (by omega), if_pos (by omega)]
    simp only [List.map_cons, List.map_nil, List.cons.injEq, and_true]
    omega
  | three bits _ hb =>
    obtain ⟨b₁, b₂, rfl⟩ := List.length_eq_two.mp hn
    simp only [Continues, UInt8.le_iff_toNat_le, apply_ite UInt8.toNat, UInt8.reduceToNat,
      and_true] at hc
    have hrange : 0x80 ≤ b₁.toNat ∧ b₁.toNat ≤ 0xBF ∧ (bits = 0 → 0xA0 ≤ b₁.toNat) ∧
        (bits = 0xD → b₁.toNat ≤ 0x9F) := by
      split_ifs at hc <;> omega
    simp only [extend_cons, extend_nil]
    refine utf8EncodeChar_of_numbers ?_ ?_
    · rw [Nat.isValidChar]
      omega
    rw [numbers, if_neg (by omega), if_neg (by omega), if_pos (by omega)]
    simp only [List.map_cons, List.map_nil, List.cons.injEq, and_true]
    omega
  | four bits _ hb =>
    obtain ⟨b₁, b₂, b₃, rfl⟩ := List.length_eq_three.mp hn
    simp only [Continues, UInt8.le_iff_toNat_le, apply_ite UInt8.toNat, UInt8.reduceToNat,
      and_true] at hc
    have hrange : 0x80 ≤ b₁.toNat ∧ b₁.toNat ≤ 0xBF ∧ (bits = 0 → 0x90 ≤ b₁.toNat) ∧
        (bits = 4 → b₁.toNat ≤ 0x8F) := by
      split_ifs at hc <;> omega
    simp only [extend_cons, extend_nil]
    refine utf8EncodeChar_of_numbers (.inr (by omega)) ?_
    rw [numbers, if_neg (by omega), if_neg (by omega), if_neg (by omega)]
    simp only [List.map_cons, List.map_nil, List.cons.injEq, and_true]
    omega

theorem utf8EncodeChar_cases (c : Char) :
    (∃ b, utf8EncodeChar c = [b] ∧ b.toNat = c.toNat ∧ b.toNat < 0x80) ∨
      ∃ b follow l, utf8EncodeChar c = b :: follow ∧ Leads b l ∧ follow.length = l.follow ∧
        Continues l.low l.high follow ∧ extend l.bits follow = c.toNat := by
  have hbytes := map_toNat_utf8EncodeChar c
  have hvalid : c.toNat.isValidChar := c.valid
  rw [Nat.isValidChar] at hvalid
  generalize c.toNat = code at hbytes hvalid
  rw [numbers] at hbytes
  split_ifs at hbytes with h₁ h₂ h₃
  · left
    obtain ⟨b, hb, rfl⟩ := List.map_eq_singleton_iff.mp hbytes
    exact ⟨b, hb, rfl, h₁⟩
  all_goals right
  · obtain ⟨b, _, hb, h₀, hbytes⟩ := List.map_eq_cons_iff.mp hbytes
    obtain ⟨b₁, rfl, h₁⟩ := List.map_eq_singleton_iff.mp hbytes
    refine ⟨b, _, _, hb, .two (code / 64) (by omega) (by omega) h₀, rfl, ?_, ?_⟩
    · simp only [Continues, UInt8.le_iff_toNat_le, UInt8.reduceToNat, and_true]
      omega
    · simp only [extend_cons, extend_nil]
      omega
  · obtain ⟨b, _, hb, h₀, hbytes⟩ := List.map_eq_cons_iff.mp hbytes
    obtain ⟨b₁, _, rfl, h₁, hbytes⟩ := List.map_eq_cons_iff.mp hbytes
    obtain ⟨b₂, rfl, h₂⟩ := List.map_eq_singleton_iff.mp hbytes
    refine ⟨b, _, _, hb, .three (code / 4096) (by omega) h₀, rfl, ?_, ?_⟩
    · simp only [Continues, UInt8.le_iff_toNat_le, apply_ite UInt8.toNat, UInt8.reduceToNat,
        and_true]
      split_ifs <;> omega
    · simp only [extend_cons, extend_nil]
      omega
  · obtain ⟨b, _, hb, h₀, hbytes⟩ := List.map_eq_cons_iff.mp hbytes
    obtain ⟨b₁, _, rfl, h₁, hbytes⟩ := List.map_eq_cons_iff.mp hbytes
    obtain ⟨b₂, _, rfl, h₂, hbytes⟩ := List.map_eq_cons_iff.mp hbytes
    obtain ⟨b₃, rfl, h₃⟩ := List.map_eq_singleton_iff.mp hbytes
    refine ⟨b, _, _, hb, .four (code / 262144) (by omega) h₀, rfl, ?_, ?_⟩
    · simp only [Continues, UInt8.le_iff_toNat_le, apply_ite UInt8.toNat, UInt8.reduceToNat,
        and_true]
      split_ifs <;> omega
    · simp only [extend_cons, extend_nil]
      omega

theorem not_lt_of_leads {b : UInt8} {l : Lead} (h : Leads b l) : ¬ b < 0x80 := by
  simp only [UInt8.lt_iff_toNat_lt, UInt8.reduceToNat]
  cases h <;> omega

/-- The encoding of a character is read as that character, whatever follows. -/
theorem read_of_utf8EncodeChar {c : Char} {b : UInt8} {follow : List UInt8}
    (h : utf8EncodeChar c = b :: follow) (rest : List UInt8) :
    read b (follow ++ rest) = (.char c, follow.length) := by
  rcases utf8EncodeChar_cases c with ⟨b', hb, hcode, hlt⟩ | ⟨b', follow', l, hb, hl, hn, hc, hcode⟩
  · obtain ⟨rfl, rfl⟩ := List.cons.inj (h.symm.trans hb)
    have hlt : b < 0x80 := by simpa [UInt8.lt_iff_toNat_lt] using hlt
    rw [read, if_pos hlt, hcode, Char.ofNat_toNat, List.length_nil]
  · obtain ⟨rfl, rfl⟩ := List.cons.inj (h.symm.trans hb)
    rw [read, if_neg (not_lt_of_leads hl), lead?_of_leads hl]
    dsimp only
    rw [← hn, readFollow_of_continues hc, hcode, Char.ofNat_toNat, List.length_singleton,
      Nat.add_sub_cancel_left]

theorem utf8EncodeChar_of_read {c : Char} {b : UInt8} {rest : List UInt8} {taken : Nat}
    (h : read b rest = (.char c, taken)) :
    ∃ follow later, rest = follow ++ later ∧ taken = follow.length ∧
      utf8EncodeChar c = b :: follow := by
  rw [read] at h
  split at h
  · rename_i hb
    simp only [UInt8.lt_iff_toNat_lt, UInt8.reduceToNat] at hb
    obtain ⟨hc, rfl⟩ := Prod.mk.inj h
    obtain rfl := Piece.char.inj hc
    refine ⟨[], rest, rfl, rfl, utf8EncodeChar_of_numbers (.inl (by omega)) ?_⟩
    rw [numbers, if_pos hb, List.map_singleton]
  · split at h
    · simp at h
    · rename_i l hl
      obtain ⟨follow, later, rfl, hn, hc, rfl, htaken⟩ := continues_of_readFollow h
      refine ⟨follow, later, rfl, ?_, utf8EncodeChar_extend (leads_of_lead? hl) hn hc⟩
      rw [htaken, hn, List.length_singleton, Nat.add_sub_cancel_left]

def encodeChars (cs : List Char) : List UInt8 := cs.flatMap utf8EncodeChar

theorem encodeChars_cons (c : Char) (cs : List Char) :
    encodeChars (c :: cs) = utf8EncodeChar c ++ encodeChars cs :=
  List.flatMap_cons

theorem encodeChars_append (first second : List Char) :
    encodeChars (first ++ second) = encodeChars first ++ encodeChars second :=
  List.flatMap_append

theorem piecesFrom_eq (skip : Nat) (bytes : List UInt8) :
    piecesFrom skip bytes = pieces (bytes.drop skip) := by
  induction bytes generalizing skip with
  | nil => simp [pieces, piecesFrom]
  | cons b rest ih =>
    cases skip with
    | zero => rfl
    | succ skip => rw [piecesFrom, ih, List.drop_succ_cons]

theorem pieces_cons (b : UInt8) (rest : List UInt8) :
    pieces (b :: rest) = (read b rest).1 :: pieces (rest.drop (read b rest).2) := by
  rw [pieces, piecesFrom, piecesFrom_eq]

theorem pieces_utf8EncodeChar (c : Char) (rest : List UInt8) :
    pieces (utf8EncodeChar c ++ rest) = .char c :: pieces rest := by
  obtain ⟨b, follow, h⟩ := List.exists_cons_of_ne_nil (utf8EncodeChar_ne_nil (c := c))
  rw [h, List.cons_append, pieces_cons, read_of_utf8EncodeChar h, List.drop_left]

theorem pieces_encodeChars (cs : List Char) (rest : List UInt8) :
    pieces (encodeChars cs ++ rest) = cs.map .char ++ pieces rest := by
  induction cs with
  | nil => rfl
  | cons c cs ih =>
    rw [encodeChars_cons, List.append_assoc, pieces_utf8EncodeChar, ih, List.map_cons,
      List.cons_append]

/-- Bytes encode some characters, up to their end or to a bad span. -/
theorem exists_encodeChars (bytes : List UInt8) :
    ∃ cs rest, bytes = encodeChars cs ++ rest ∧
      (rest = [] ∨ ∃ span reason more, pieces rest = .bad span reason :: more) := by
  induction e : bytes.length using Nat.strongRecOn generalizing bytes with
  | ind length ih =>
    cases bytes with
    | nil => exact ⟨[], [], rfl, .inl rfl⟩
    | cons b rest =>
      cases hr : read b rest with
      | mk piece taken =>
        cases piece with
        | char c =>
          obtain ⟨follow, later, rfl, -, hc⟩ := utf8EncodeChar_of_read hr
          have hlt : later.length < length := by
            simp only [← e, List.length_cons, List.length_append]
            omega
          obtain ⟨cs, rest, rfl, hrest⟩ := ih _ hlt later rfl
          refine ⟨c :: cs, rest, ?_, hrest⟩
          rw [encodeChars_cons, hc, List.cons_append, List.cons_append, List.append_assoc]
        | bad span reason =>
          exact ⟨[], b :: rest, rfl, .inr ⟨span, reason, _, by rw [pieces_cons, hr]⟩⟩

theorem firstBad_append (position : Nat) (cs : List Char) (ps : List Piece) :
    firstBad position (cs.map .char ++ ps) = firstBad (position + (encodeChars cs).length) ps := by
  induction cs generalizing position with
  | nil => rfl
  | cons c cs ih =>
    rw [List.map_cons, List.cons_append, firstBad, ih, encodeChars_cons, List.length_append,
      length_utf8EncodeChar, Nat.add_assoc]

theorem malformed?_of_rest (cs : List Char) (rest : List UInt8) :
    malformed? (encodeChars cs ++ rest) = firstBad (encodeChars cs).length (pieces rest) := by
  rw [malformed?, pieces_encodeChars, firstBad_append, Nat.zero_add]

theorem malformed?_encode (text : String) : malformed? (encode text) = none := by
  have h := malformed?_of_rest text.toList []
  rwa [List.append_nil] at h

theorem decodeReplacing_encodeChars (cs : List Char) :
    decodeReplacing (encodeChars cs) = String.ofList cs := by
  have h := pieces_encodeChars cs []
  rw [List.append_nil] at h
  rw [decodeReplacing, h]
  simp [pieces, piecesFrom, Function.comp_def, Piece.toChar]

theorem encode_ofList (cs : List Char) : encode (String.ofList cs) = encodeChars cs := by
  rw [encode, String.toList_ofList, encodeChars]

theorem malformed?_eq_none_iff (bytes : List UInt8) :
    malformed? bytes = none ↔ ∃ text, encode text = bytes := by
  constructor
  · intro h
    obtain ⟨cs, rest, rfl, rfl | ⟨span, reason, more, hrest⟩⟩ := exists_encodeChars bytes
    · exact ⟨String.ofList cs, by rw [encode_ofList, List.append_nil]⟩
    · rw [malformed?_of_rest, hrest, firstBad] at h
      cases h
  · rintro ⟨text, rfl⟩
    exact malformed?_encode text

theorem chars_prefix {first second : List Char} {ps more : List Piece} {span : List UInt8}
    {reason : Reason} (h : first.map .char ++ ps = second.map .char ++ .bad span reason :: more) :
    first <+: second := by
  induction first generalizing second with
  | nil => exact List.nil_prefix
  | cons c first ih =>
    cases second with
    | nil => simp at h
    | cons d second =>
      simp only [List.map_cons, List.cons_append, List.cons.injEq, Piece.char.injEq] at h
      exact List.cons_prefix_cons.mpr ⟨h.1, ih h.2⟩

/-- The number is the length of the longest prefix that encodes a text. -/
def LongestText (bytes : List UInt8) (n : Nat) : Prop :=
  (∃ text, encode text <+: bytes ∧ (encode text).length = n) ∧
    ∀ text, encode text <+: bytes → (encode text).length ≤ n

/-- A bad span starts where the longest text ends. -/
theorem longestText_of_malformed? {bytes : List UInt8} {m : Malformed}
    (h : malformed? bytes = some m) : LongestText bytes m.start := by
  obtain ⟨cs, rest, rfl, rfl | ⟨span, reason, more, hrest⟩⟩ := exists_encodeChars bytes
  · rw [List.append_nil, ← encode_ofList, malformed?_encode] at h
    cases h
  rw [malformed?_of_rest, hrest, firstBad] at h
  obtain rfl := Option.some.inj h
  refine ⟨⟨String.ofList cs, ?_, by rw [encode_ofList]⟩, ?_⟩
  · rw [encode_ofList]
    exact List.prefix_append ..
  · -- Both texts are read from the start of the bytes, so the shorter one is a part of the other.
    rintro text ⟨later, hlater⟩
    change encodeChars text.toList ++ later = _ at hlater
    have hpieces := congrArg pieces hlater
    rw [pieces_encodeChars, pieces_encodeChars, hrest] at hpieces
    obtain ⟨more, hmore⟩ := chars_prefix hpieces
    change (encodeChars text.toList).length ≤ _
    rw [← hmore, encodeChars_append, List.length_append]
    exact Nat.le_add_right ..

/-- The number of bytes that the first characters of a text take. -/
def cut (text : String) (k : Nat) : Nat := (encodeChars (text.toList.take k)).length

theorem cut_mono (text : String) {i j : Nat} (h : i ≤ j) : cut text i ≤ cut text j := by
  obtain ⟨more, hmore⟩ := List.take_prefix_take_left (l := text.toList) h
  rw [cut, cut, ← hmore, encodeChars_append, List.length_append]
  exact Nat.le_add_right ..

theorem take_drop_encode (text : String) (i j : Nat) :
    ((encode text).drop (cut text i)).take (cut text j - cut text i) =
      encodeChars ((text.toList.take j).drop i) := by
  rcases Nat.le_total i j with h | h
  · have hfront : text.toList.take i = (text.toList.take j).take i := by
      rw [List.take_take, Nat.min_eq_left h]
    have hupTo : encodeChars (text.toList.take j) =
        encodeChars (text.toList.take i) ++ encodeChars ((text.toList.take j).drop i) := by
      rw [← encodeChars_append, hfront, List.take_append_drop]
    have htext : encode text =
        encodeChars (text.toList.take j) ++ encodeChars (text.toList.drop j) := by
      rw [← encodeChars_append, List.take_append_drop]
      rfl
    rw [htext, cut, cut, hupTo, List.append_assoc, List.drop_left, List.length_append,
      Nat.add_sub_cancel_left, List.take_left]
  · have hnone : (text.toList.take j).drop i = [] := by
      rw [List.drop_eq_nil_iff, List.length_take]
      omega
    rw [Nat.sub_eq_zero_of_le (cut_mono text h), List.take_zero, hnone]
    rfl

end CodeAtlas.Utf8
