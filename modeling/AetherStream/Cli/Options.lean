import AetherStream.Core.Config

/-! The options of the command-line tools, as their parsers return them, and what a tool leaves
behind when it exits. -/

namespace AetherStream.Cli

structure BenchOptions where
  help : Bool := false
  messages : UInt64 := 1000000
  payloadSize : UInt64 := 64
  capacity : UInt64 := 65536
  outputDir : String := "benchmark-results"

structure PubOptions where
  help : Bool := false
  walPath : String := "data/sample.wal"
  messages : UInt64 := 1000
  walSizeBytes : UInt64 := 64 * 1024 * 1024
  flushOnCommit : Bool := false

structure SubOptions where
  help : Bool := false
  walPath : String := ""
  messages : UInt64 := 10
  limit : UInt64 := 10
  capacity : UInt64 := 1024

structure ReplayOptions where
  help : Bool := false
  walPath : String := "data/sample.wal"
  limit : UInt64 := 0
  payloadPreviewBytes : UInt64 := 32

structure InspectWalOptions where
  help : Bool := false
  walPath : String := "data/sample.wal"
  limit : UInt64 := 0
  verbose : Bool := false

def pubHelp : String :=
  "Usage: aether_pub [options]\n" ++
  "Write generated OrderEvent records to a local WAL-backed broker demo.\n\n" ++
  "Options:\n  -h, --help\n  --wal <path>\n  --messages <N>\n" ++
  "  --wal-size <bytes>\n  --flush-on-commit\n"

def replayHelp : String :=
  "Usage: aether_replay [options]\n" ++
  "Generic raw WAL replay with safe payload previews.\n\n" ++
  "Options:\n  -h, --help\n  --wal <path>\n  --limit <N>\n" ++
  "  --payload-preview-bytes <N>\n"

def inspectWalHelp : String :=
  "Usage: aether_inspect_wal [options]\n" ++
  "Inspect and summarize a WAL file.\n\n" ++
  "Options:\n  -h, --help\n  --wal <path>\n  --limit <N>\n  --verbose\n"

structure Exit where
  status : Nat
  out : List String := []
  err : List String := []
  deriving DecidableEq, Repr

def printError (status : Status) : String := "error: " ++ status.message ++ "\n"

end AetherStream.Cli
