import AetherStream.Cli.Options

/-! The argument parsers of the command-line tools. The five loops of the source differ in the
flags and options they know, which an `OptionTable` lists in the order in which they are tried;
what is done for an option depends on its kind only. -/

namespace AetherStream.Cli

def supportedCapacities : List UInt64 := [64, 256, 1024, 4096, 65536]

def supportedPayloadSizes : List UInt64 := [8, 32, 64, 256, 1024]

def invalid (detail : String) : Status := ⟨.invalidArgument, detail⟩

def isSupported (value : UInt64) (supported : List UInt64) : Bool := supported.contains value

inductive Errc where
  | none
  | invalidArgument
  | resultOutOfRange
  deriving DecidableEq, Repr

/-- `ptr` is given as the text that follows it. -/
structure FromCharsResult where
  value : UInt64 := 0
  ptr : List Char
  ec : Errc

def fromChars (text : List Char) : FromCharsResult :=
  let digits := text.takeWhile Char.isDigit
  let rest := text.dropWhile Char.isDigit
  let value := Nat.ofDigitChars 10 digits 0
  if digits.isEmpty then { ptr := text, ec := .invalidArgument }
  else if 2 ^ 64 ≤ value then { ptr := rest, ec := .resultOutOfRange }
  else { value := UInt64.ofNat value, ptr := rest, ec := .none }

def parseU64 (text : String) : Expected UInt64 :=
  if text.isEmpty || text.toList.head? == some '-' then
    .ofStatus (invalid "expected a non-negative unsigned integer")
  else
    let result := fromChars text.toList
    if result.ec != .none || !result.ptr.isEmpty then .ofStatus (invalid "invalid unsigned integer")
    else .ok result.value

def parseSize (text : String) : Expected UInt64 :=
  match parseU64 text with
  | .error status => .ofStatus status
  | .ok parsed => if !fitsSizeT parsed then .ofStatus (invalid "value is too large for size_t") else .ok parsed

def afterEquals (text : String) : Option String :=
  match text.toList.dropWhile (· != '=') with
  | [] => none
  | _ :: out => some (String.ofList out)

def ArgCursor.value (current : String) (rest : List String) : Expected (String × List String) :=
  match afterEquals current with
  | some out => if out.isEmpty then .ofStatus (invalid "missing option value") else .ok (out, rest)
  | none =>
    match rest with
    | [] => .ofStatus (invalid "missing option value")
    | out :: rest =>
      if out.isEmpty || out.toList.head? == some '-' then .ofStatus (invalid "missing option value")
      else .ok (out, rest)

def matchesOption (arg option : String) : Bool :=
  arg == option || (option ++ "=").toList.isPrefixOf arg.toList

inductive OptionKind (σ : Type) where
  | path (set : σ → String → σ)
  | u64 (set : σ → UInt64 → σ)
  | size (set : σ → UInt64 → σ)
  | supportedSize (supported : List UInt64) (detail : String) (set : σ → UInt64 → σ)

variable {σ : Type}

def OptionKind.read (value : String) : OptionKind σ → Expected (σ → σ)
  | path set => .ok fun options => set options value
  | u64 set =>
    match parseU64 value with
    | .error status => .ofStatus status
    | .ok n => .ok fun options => set options n
  | size set =>
    match parseSize value with
    | .error status => .ofStatus status
    | .ok n => .ok fun options => set options n
  | supportedSize supported detail set =>
    match parseSize value with
    | .error status => .ofStatus status
    | .ok n => if !isSupported n supported then .ofStatus (invalid detail) else .ok fun options => set options n

def OptionKind.parse (kind : OptionKind σ) (arg : String) (rest : List String) : Expected ((σ → σ) × List String) :=
  match ArgCursor.value arg rest with
  | .error status => .ofStatus status
  | .ok (value, rest) =>
    match kind.read value with
    | .error status => .ofStatus status
    | .ok set => .ok (set, rest)

structure OptionTable (σ : Type) where
  flags : List (String × (σ → σ))
  options : List (String × OptionKind σ)
  no_equals : ∀ name ∈ flags.map Prod.fst ++ options.map Prod.fst, '=' ∉ name.toList := by decide
  disjoint : ∀ name ∈ flags.map Prod.fst, name ∉ options.map Prod.fst := by decide

namespace OptionTable

def parseItem (table : OptionTable σ) (arg : String) (rest : List String) : Expected ((σ → σ) × List String) :=
  match table.flags.find? (·.1 == arg) with
  | some flag => .ok (flag.2, rest)
  | none =>
    match table.options.find? (matchesOption arg ·.1) with
    | none => .ofStatus (invalid "unknown option")
    | some option => option.2.parse arg rest

theorem value_length_le {current : String} {rest rest' : List String} {value : String}
    (h : ArgCursor.value current rest = .ok (value, rest')) : rest'.length ≤ rest.length := by
  unfold ArgCursor.value at h
  split at h
  · split at h
    · cases h
    · cases h
      exact Nat.le_refl _
  · split at h
    · cases h
    · split at h
      · cases h
      · cases h
        exact Nat.le_succ _

theorem parse_length_le {kind : OptionKind σ} {arg : String} {rest rest' : List String} {set : σ → σ}
    (h : kind.parse arg rest = .ok (set, rest')) : rest'.length ≤ rest.length := by
  unfold OptionKind.parse at h
  split at h
  · cases h
  · rename_i hvalue
    split at h
    · cases h
    · cases h
      exact value_length_le hvalue

theorem parseItem_length_le {table : OptionTable σ} {arg : String} {rest rest' : List String} {set : σ → σ}
    (h : table.parseItem arg rest = .ok (set, rest')) : rest'.length ≤ rest.length := by
  unfold parseItem at h
  split at h
  · cases h
    exact Nat.le_refl _
  · split at h
    · cases h
    · exact parse_length_le h

def parseFrom (table : OptionTable σ) (args : List String) (options : σ) : Expected σ :=
  match args with
  | [] => .ok options
  | arg :: rest =>
    match h : table.parseItem arg rest with
    | .error status => .error status
    | .ok (set, rest') =>
      have := parseItem_length_le h
      table.parseFrom rest' (set options)
termination_by args.length

def parse (table : OptionTable σ) (defaults : σ) (args : List String) : Expected σ :=
  table.parseFrom (args.drop 1) defaults

end OptionTable

def helpFlags (set : σ → σ) : List (String × (σ → σ)) := [("--help", set), ("-h", set)]

def benchTable : OptionTable BenchOptions where
  flags := helpFlags fun o => { o with help := true }
  options :=
    [("--messages", .u64 fun o n => { o with messages := n }),
      ("--payload-size", .supportedSize supportedPayloadSizes "unsupported payload size"
        fun o n => { o with payloadSize := n }),
      ("--capacity", .supportedSize supportedCapacities "unsupported capacity" fun o n => { o with capacity := n }),
      ("--output-dir", .path fun o v => { o with outputDir := v })]

def parseBenchArgs (args : List String) : Expected BenchOptions := benchTable.parse {} args

def pubTable : OptionTable PubOptions where
  flags := helpFlags (fun o => { o with help := true }) ++
    [("--flush-on-commit", fun o => { o with flushOnCommit := true })]
  options :=
    [("--wal", .path fun o v => { o with walPath := v }),
      ("--messages", .u64 fun o n => { o with messages := n }),
      ("--wal-size", .u64 fun o n => { o with walSizeBytes := n })]

def parsePubArgs (args : List String) : Expected PubOptions := pubTable.parse {} args

def subTable : OptionTable SubOptions where
  flags := helpFlags fun o => { o with help := true }
  options :=
    [("--wal", .path fun o v => { o with walPath := v }),
      ("--messages", .u64 fun o n => { o with messages := n }),
      ("--limit", .u64 fun o n => { o with limit := n }),
      ("--capacity", .supportedSize supportedCapacities "unsupported capacity" fun o n => { o with capacity := n })]

def parseSubArgs (args : List String) : Expected SubOptions := subTable.parse {} args

def replayTable : OptionTable ReplayOptions where
  flags := helpFlags fun o => { o with help := true }
  options :=
    [("--wal", .path fun o v => { o with walPath := v }),
      ("--limit", .u64 fun o n => { o with limit := n }),
      ("--payload-preview-bytes", .size fun o n => { o with payloadPreviewBytes := n })]

def parseReplayArgs (args : List String) : Expected ReplayOptions := replayTable.parse {} args

def inspectWalTable : OptionTable InspectWalOptions where
  flags := helpFlags (fun o => { o with help := true }) ++ [("--verbose", fun o => { o with verbose := true })]
  options :=
    [("--wal", .path fun o v => { o with walPath := v }),
      ("--limit", .u64 fun o n => { o with limit := n })]

def parseInspectWalArgs (args : List String) : Expected InspectWalOptions := inspectWalTable.parse {} args

/-- `dispatch_capacity` of `aether_bench`: `run` is called with the two template arguments and
the number of messages, and `empty` is the default branch. -/
def dispatchCapacity {ρ : Type} (run : UInt64 → UInt64 → UInt64 → ρ) (empty : ρ)
    (payloadSize capacity messages : UInt64) : ρ :=
  if capacity = 64 then run payloadSize 64 messages
  else if capacity = 256 then run payloadSize 256 messages
  else if capacity = 1024 then run payloadSize 1024 messages
  else if capacity = 4096 then run payloadSize 4096 messages
  else if capacity = 65536 then run payloadSize 65536 messages
  else empty

def dispatch {ρ : Type} (run : UInt64 → UInt64 → UInt64 → ρ) (empty : ρ) (options : BenchOptions) : ρ :=
  if options.payloadSize = 8 then dispatchCapacity run empty 8 options.capacity options.messages
  else if options.payloadSize = 32 then dispatchCapacity run empty 32 options.capacity options.messages
  else if options.payloadSize = 64 then dispatchCapacity run empty 64 options.capacity options.messages
  else if options.payloadSize = 256 then dispatchCapacity run empty 256 options.capacity options.messages
  else if options.payloadSize = 1024 then dispatchCapacity run empty 1024 options.capacity options.messages
  else empty

def switchCapacity {ρ : Type} (capacity : UInt64) (on64 on256 on1024 on4096 on65536 default : ρ) : ρ :=
  if capacity = 64 then on64
  else if capacity = 256 then on256
  else if capacity = 1024 then on1024
  else if capacity = 4096 then on4096
  else if capacity = 65536 then on65536
  else default

theorem apply_switchCapacity {ρ τ : Type} (f : ρ → τ) (capacity : UInt64) (a b c d e default : ρ) :
    f (switchCapacity capacity a b c d e default) =
      switchCapacity capacity (f a) (f b) (f c) (f d) (f e) (f default) := by
  simp only [switchCapacity, apply_ite f]

def dispatchLocal (runLocal : UInt64 → SubOptions → Int) (options : SubOptions) : Int :=
  switchCapacity options.capacity (runLocal 64 options) (runLocal 256 options) (runLocal 1024 options)
    (runLocal 4096 options) (runLocal 65536 options) 2

end AetherStream.Cli
