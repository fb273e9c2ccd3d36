import CodeAtlas.Config
import CodeAtlas.Data.Check
import CodeAtlas.Toml.Document

/-! # Reading configurations

A configuration is a record of known fields, each of which may be left out. In a project it is
kept as a TOML document.
-/

namespace CodeAtlas.Config

def fieldNames : List String :=
  ["max_workers", "fail_on_syntax_errors", "name_collisions", "suppression", "log_level"]

def policies : List (String × CollisionPolicy) :=
  [CollisionPolicy.lastWriteWins, .error].map fun policy => (policy.name, policy)

def modes : List (String × Suppression.Mode) :=
  [Suppression.Mode.flag, .depth].map fun mode => (mode.name, mode)

def levels : List (String × Log.Level) :=
  [Log.Level.debug, .info, .warning, .error].map fun level => (level.name, level)

/-- At least one file has to be walked at a time. -/
def checkWorkers (data : Data) : Checked Nat :=
  data.checkInt.thenCheck fun n => if n < 1 then .issue .greaterThanEqual else .ok n.toNat

def checkFields (fields : List (String × Data)) : Checked Config :=
  let standard : Config := {}
  Config.mk <$> Data.checkField fields "max_workers" standard.maxWorkers checkWorkers
    <*> Data.checkField fields "fail_on_syntax_errors" standard.failOnSyntaxErrors Data.checkBool
    <*> Data.checkField fields "name_collisions" standard.nameCollisions
      (Data.checkWord .literalError fun word => policies.lookup word)
    <*> Data.checkField fields "suppression" standard.suppression
      (Data.checkWord .literalError fun word => modes.lookup word)
    <*> Data.checkField fields "log_level" standard.logLevel
      (Data.checkWord .literalError fun word => levels.lookup word)

/-- Fields that are not known are refused. -/
def checkExtra : List (String × Data) → Checked Unit
  | [] => .ok ()
  | (name, _) :: rest =>
    if fieldNames.contains name then checkExtra rest
    else (fun _ _ => ()) <$> (.issue .extraForbidden : Checked Unit).under (.field name)
      <*> checkExtra rest

def check : Data → Checked Config
  | .record fields => (fun config _ => config) <$> checkFields fields <*> checkExtra fields
  | _ => .issue .modelType

/-- Why a configuration file cannot be used. -/
inductive LoadError where
  | notUtf8 (detail : Utf8.Malformed)
  | unreadable (cause : Toml.ReadError)
  | invalid (issues : List Issue)

/-- The configuration in a file, or the standard one if there is no file. -/
def load : Option (List UInt8) → Except LoadError Config
  | none => .ok {}
  | some bytes =>
    match Utf8.malformed? bytes with
    | some detail => .error (.notUtf8 detail)
    | none =>
      match Toml.parse (Utf8.decodeReplacing bytes).toList with
      | .error cause => .error (.unreadable cause)
      | .ok fields => (check (.record fields)).outcome.mapError .invalid

end CodeAtlas.Config
