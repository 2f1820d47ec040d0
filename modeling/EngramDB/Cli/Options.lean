import EngramDB.Foundations.Text

/-!
# Options of a command

A command takes its positional arguments first and its options in a loop over what is left. An
option stands alone or takes the argument behind it; one that is not known ends the command. When
an option is given twice, the last one counts.
-/

namespace EngramDB

namespace Cli

/-- What an option does to the settings. -/
inductive Flag (α : Type) where
  /-- The option stands alone. -/
  | bare (set : α → α)
  /-- The option takes a value. If there is none, the message says so. -/
  | value (missing : String) (set : String → α → Except String α)
  /-- The option takes a value, if there is one, which is ignored. -/
  | ignored

/-- Read the options. -/
def parseFlags {α : Type} (flag : String → Option (Flag α)) : α → List String → Except String α
  | settings, [] => .ok settings
  | settings, a :: rest =>
    match flag a with
    | none => .error s!"未知参数 {a}"
    | some (.bare set) => parseFlags flag (set settings) rest
    | some (.value missing set) =>
      match rest with
      | [] => .error missing
      | v :: rest => do parseFlags flag (← set v settings) rest
    | some .ignored =>
      match rest with
      | [] => .ok settings
      | _ :: rest => parseFlags flag settings rest

/-- Take a positional argument. -/
def positional (missing : String) : List String → Except String (String × List String)
  | [] => .error missing
  | a :: rest => .ok (a, rest)

/-- Read a number of 64 bits. -/
def parseWord (text : String) : Except String UInt64 :=
  (Text.parseU64 text.toList).mapError Text.ParseIntError.message

end Cli

end EngramDB
