/-! # UTF-8

Bytes are cut into pieces, each a character or a span that encodes none. A span ends before the
first byte that cannot continue the character begun, so decoding can go on after it. A text is
well-formed if no piece is a bad span, and the first bad span is what makes it malformed.
-/

namespace CodeAtlas.Utf8

/-- Why a span of bytes encodes no character. -/
inductive Reason where
  | invalidStart
  | unexpectedEnd
  | invalidContinuation
deriving DecidableEq, Repr

def Reason.message : Reason → String
  | .invalidStart => "invalid start byte"
  | .unexpectedEnd => "unexpected end of data"
  | .invalidContinuation => "invalid continuation byte"

inductive Piece where
  | char (c : Char)
  | bad (span : List UInt8) (reason : Reason)
deriving DecidableEq, Repr

/-- What a lead byte asks for: its own bits, the range of the second byte, and how many bytes
follow. -/
structure Lead where
  bits : Nat
  low : UInt8
  high : UInt8
  follow : Nat

/-- The lead bytes of longer characters. Overlong forms, surrogates and code points beyond
U+10FFFF are excluded by the range of the second byte. -/
def lead? (b : UInt8) : Option Lead :=
  if b < 0xC2 then none
  else if b < 0xE0 then some ⟨b.toNat - 0xC0, 0x80, 0xBF, 1⟩
  else if b == 0xE0 then some ⟨0, 0xA0, 0xBF, 2⟩
  else if b == 0xED then some ⟨0xD, 0x80, 0x9F, 2⟩
  else if b < 0xF0 then some ⟨b.toNat - 0xE0, 0x80, 0xBF, 2⟩
  else if b == 0xF0 then some ⟨0, 0x90, 0xBF, 3⟩
  else if b < 0xF4 then some ⟨b.toNat - 0xF0, 0x80, 0xBF, 3⟩
  else if b == 0xF4 then some ⟨4, 0x80, 0x8F, 3⟩
  else none

/-- Read the bytes that continue a character, the next one in the given range. The second
component counts the bytes taken after the lead byte. -/
def readFollow (low high : UInt8) (code : Nat) (seen : List UInt8) :
    Nat → List UInt8 → Piece × Nat
  | 0, _ => (.char (Char.ofNat code), seen.length - 1)
  | _ + 1, [] => (.bad seen .unexpectedEnd, seen.length - 1)
  | n + 1, b :: rest =>
    if low ≤ b && b ≤ high then
      readFollow 0x80 0xBF (code * 64 + (b.toNat - 0x80)) (seen ++ [b]) n rest
    else (.bad seen .invalidContinuation, seen.length - 1)

/-- The piece that starts with a byte, and how many of the following bytes belong to it. -/
def read (b : UInt8) (rest : List UInt8) : Piece × Nat :=
  if b < 0x80 then (.char (Char.ofNat b.toNat), 0)
  else match lead? b with
    | none => (.bad [b] .invalidStart, 0)
    | some l => readFollow l.low l.high l.bits [b] l.follow rest

/-- The pieces of the bytes that follow the first `skip` ones. -/
def piecesFrom : (skip : Nat) → List UInt8 → List Piece
  | _, [] => []
  | skip + 1, _ :: rest => piecesFrom skip rest
  | 0, b :: rest => (read b rest).1 :: piecesFrom (read b rest).2 rest

def pieces (bytes : List UInt8) : List Piece := piecesFrom 0 bytes

/-- The first bad span of a text and the position it starts at. -/
structure Malformed where
  start : Nat
  span : List UInt8
  reason : Reason
deriving DecidableEq, Repr

def firstBad (position : Nat) : List Piece → Option Malformed
  | [] => none
  | .char c :: rest => firstBad (position + c.utf8Size) rest
  | .bad span reason :: _ => some ⟨position, span, reason⟩

def malformed? (bytes : List UInt8) : Option Malformed := firstBad 0 (pieces bytes)

/-- The character of a piece; a bad span is replaced by U+FFFD. -/
def Piece.toChar : Piece → Char
  | .char c => c
  | .bad _ _ => '\uFFFD'

/-- The text of any bytes, with one U+FFFD for each bad span. -/
def decodeReplacing (bytes : List UInt8) : String :=
  String.ofList ((pieces bytes).map Piece.toChar)

def encode (text : String) : List UInt8 := text.toList.flatMap String.utf8EncodeChar

/-- The two hexadecimal digits of a byte. -/
def hexByte (b : UInt8) : String :=
  String.ofList [Nat.digitChar (b.toNat / 16), Nat.digitChar (b.toNat % 16)]

def Malformed.message (m : Malformed) : String :=
  let place := match m.span with
    | [b] => "byte 0x" ++ hexByte b ++ " in position " ++ toString m.start
    | span => "bytes in position " ++ toString m.start ++ "-" ++
        toString (m.start + span.length - 1)
  "'utf-8' codec can't decode " ++ place ++ ": " ++ m.reason.message

end CodeAtlas.Utf8
