import CellStore.Error
import CellStore.Text.Utf8
import CellStore.Toml.Document

/-! # Settings

The settings of a processor come from a TOML document. Every one has a default,
keys that are no setting are passed over, and the refresh interval is positive.
-/
namespace CellStore

/-- What a flush or compaction does before any snapshot is published. -/
inductive ColdCachePolicy where
  | failOpen
  | reject
deriving DecidableEq, Repr

namespace ColdCachePolicy

def name : ColdCachePolicy → String
  | failOpen => "fail_open"
  | reject => "reject"

def ofName? (s : String) : Option ColdCachePolicy := [failOpen, reject].find? (·.name == s)

end ColdCachePolicy

structure Settings where
  coldCachePolicy : ColdCachePolicy := .failOpen
  refreshIntervalMillis : Nat := 15000
  logDeletes : Bool := true
deriving DecidableEq, Repr

namespace Settings

/-- The name of the settings file. -/
def fileName : String := "txfilter.toml"

/-- A document that states the defaults. -/
def defaultDocument : String :=
  "# txfilter transaction processor configuration\n" ++
  "#\n" ++
  "# Flush/compaction behavior before the first snapshot is published:\n" ++
  "#   \"fail_open\" = run unfiltered (default)\n" ++
  "#   \"reject\"    = refuse the operation until a snapshot is available\n" ++
  "cold_cache_policy = \"fail_open\"\n" ++
  "\n" ++
  "# Snapshot refresh interval in milliseconds (default: 15000)\n" ++
  "snapshot_refresh_interval_ms = 15000\n" ++
  "\n" ++
  "# Log logical deletes as they are rewritten into delete markers (default: true)\n" ++
  "log_delete_rewrites = true\n"

/-- Why a document does not give settings. -/
inductive Fault where
  | document (f : Toml.Fault)
  | setting (name : String)
  | zeroInterval
deriving DecidableEq, Repr

namespace Fault

def message : Fault → String
  | document f => "Failed to parse config: " ++ f.message
  | setting name => "Failed to parse config: invalid value of " ++ name
  | zeroInterval => "snapshot_refresh_interval_ms must be greater than zero"

end Fault

/-- A policy is named by a string, or by the only key of a table that holds nothing under it. -/
def policyOf? : Toml.Value → Option ColdCachePolicy
  | .string s => ColdCachePolicy.ofName? s
  | .table _ [(s, .table _ [])] | .table _ [(s, .array [])] => ColdCachePolicy.ofName? s
  | _ => none

def intervalOf? : Toml.Value → Option Nat
  | .integer (.ofNat n) => some n
  | _ => none

def flagOf? : Toml.Value → Option Bool
  | .boolean b => some b
  | _ => none

/-- The value of a setting: its default where the document does not name it. -/
def read {α : Type} (entries : Toml.Entries) (name : String) (value? : Toml.Value → Option α) (default : α) :
    Except Fault α :=
  match entries.lookup name with
  | none => .ok default
  | some v => match value? v with
    | some a => .ok a
    | none => .error (.setting name)

/-- The settings that a root table gives. -/
def ofEntries (entries : Toml.Entries) : Except Fault Settings := do
  let defaults : Settings := {}
  let policy ← read entries "cold_cache_policy" policyOf? defaults.coldCachePolicy
  let interval ← read entries "snapshot_refresh_interval_ms" intervalOf? defaults.refreshIntervalMillis
  let logging ← read entries "log_delete_rewrites" flagOf? defaults.logDeletes
  if interval = 0 then .error .zeroInterval else return ⟨policy, interval, logging⟩

/-- The settings that a text gives. -/
def ofText (text : String) : Except Error Settings :=
  match Toml.parse text with
  | .error f => .error (.config (Fault.document f).message)
  | .ok entries => (ofEntries entries).mapError fun f => .config f.message

/-- The settings in a file, given what reading the file gave. Faults in it are reported with its
path. -/
def ofFile (path : String) (contents : Except Error Bytes) : Except Error Settings :=
  match contents with
  | .error e => .error e
  | .ok bytes =>
    match Text.Utf8.decode? bytes with
    | none => .error (.io "stream did not contain valid UTF-8")
    | some text =>
      match ofText text with
      | .error (.config reason) => .error (.config (path ++ ": " ++ reason))
      | r => r

end Settings

end CellStore
