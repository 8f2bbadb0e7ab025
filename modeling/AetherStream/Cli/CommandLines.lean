import Mathlib.Data.List.Induction
import AetherStream.Cli.Grammar

/-! The grammars of the five tools and the options that their items stand for: each option has
the value of its last item. A size that was parsed has its case in the dispatch of the tool. -/

namespace AetherStream.Cli
open Basis.CommandLine

def textOr (default : String) (name : String) (items : List Item) : String := (lastValue name items).getD default

def numberOr (default : UInt64) (name : String) (items : List Item) : UInt64 :=
  (lastValue name items).elim default number

def helpGiven (items : List Item) : Bool := hasFlag "--help" items || hasFlag "-h" items

section Concat
variable (items : List Item) (item : Item) (name : String)

@[simp] theorem textOr_concat (default : String) :
    textOr default name (items ++ [item]) = (item.valueOf name).getD (textOr default name items) := by
  rw [textOr, lastValue_concat]
  cases item.valueOf name <;> rfl

@[simp] theorem numberOr_concat (default : UInt64) :
    numberOr default name (items ++ [item]) = (item.valueOf name).elim (numberOr default name items) number := by
  rw [numberOr, lastValue_concat]
  cases item.valueOf name <;> rfl

@[simp] theorem helpGiven_concat :
    helpGiven (items ++ [item]) =
      (helpGiven items || decide (item = .flag "--help") || decide (item = .flag "-h")) := by
  rw [helpGiven, hasFlag_concat, hasFlag_concat, helpGiven]
  ac_rfl

end Concat

structure Tracks {σ : Type} (table : OptionTable σ) (defaults : σ) (optionsOf : List Item → σ) : Prop where
  nil : optionsOf [] = defaults
  flag : ∀ items, ∀ name ∈ table.grammar.flags,
    optionsOf (items ++ [.flag name]) = table.apply (.flag name) (optionsOf items)
  joined : ∀ items value, ∀ name ∈ table.grammar.options,
    optionsOf (items ++ [.joined name value]) = table.apply (.joined name value) (optionsOf items)
  separate : ∀ items value, ∀ name ∈ table.grammar.options,
    optionsOf (items ++ [.separate name value]) = table.apply (.separate name value) (optionsOf items)

namespace Tracks
variable {σ : Type} {table : OptionTable σ} {defaults : σ} {optionsOf : List Item → σ}

theorem result_eq (h : Tracks table defaults optionsOf) {items : List Item}
    (hproper : ∀ item ∈ items, item.Proper table.grammar) : table.result defaults items = optionsOf items := by
  -- from the last item on, since that is the one that decides
  induction items using List.reverseRecOn with
  | nil => exact h.nil.symm
  | append_singleton items item ih =>
    have hitems := ih fun other hmem => hproper other (List.mem_append_left _ hmem)
    have hitem := hproper item (List.mem_append_right _ List.mem_cons_self)
    rw [OptionTable.result_concat, hitems]
    cases item with
    | flag name => exact (h.flag items name hitem).symm
    | joined name value => exact (h.joined items value name hitem.1).symm
    | separate name value => exact (h.separate items value name hitem.1).symm

theorem parses (h : Tracks table defaults optionsOf) : Parses (table.parse defaults) table.grammar optionsOf := by
  have hparses := table.parses defaults
  refine ⟨fun args options => ?_, hparses.unique, hparses.rejects⟩
  rw [hparses.accepts]
  refine exists_congr fun items => and_congr_right fun hsplits => ?_
  rw [h.result_eq hsplits.1]

end Tracks

def benchGrammar : Grammar :=
  grammarOf ["--help", "-h"]
    [("--messages", .number), ("--payload-size", .oneOf [8, 32, 64, 256, 1024]),
      ("--capacity", .oneOf [64, 256, 1024, 4096, 65536]), ("--output-dir", .path)] (by decide) (by decide)

def benchOptionsOf (items : List Item) : BenchOptions :=
  let defaults : BenchOptions := {}
  { help := helpGiven items
    messages := numberOr defaults.messages "--messages" items
    payloadSize := numberOr defaults.payloadSize "--payload-size" items
    capacity := numberOr defaults.capacity "--capacity" items
    outputDir := textOr defaults.outputDir "--output-dir" items }

theorem benchTable_tracks : Tracks benchTable {} benchOptionsOf := by
  refine ⟨rfl, fun items => ?_, fun items value => ?_, fun items value => ?_⟩ <;>
    simp [OptionTable.grammar, grammarOf, OptionTable.kinds, benchTable, helpFlags, benchOptionsOf, Item.valueOf,
      OptionTable.apply, OptionKind.store]

theorem parseBenchArgs_parses : Parses parseBenchArgs benchGrammar benchOptionsOf := benchTable_tracks.parses

def pubGrammar : Grammar :=
  grammarOf ["--help", "-h", "--flush-on-commit"]
    [("--wal", .path), ("--messages", .number), ("--wal-size", .number)] (by decide) (by decide)

def pubOptionsOf (items : List Item) : PubOptions :=
  let defaults : PubOptions := {}
  { help := helpGiven items
    walPath := textOr defaults.walPath "--wal" items
    messages := numberOr defaults.messages "--messages" items
    walSizeBytes := numberOr defaults.walSizeBytes "--wal-size" items
    flushOnCommit := hasFlag "--flush-on-commit" items }

theorem pubTable_tracks : Tracks pubTable {} pubOptionsOf := by
  refine ⟨rfl, fun items => ?_, fun items value => ?_, fun items value => ?_⟩ <;>
    simp [OptionTable.grammar, grammarOf, OptionTable.kinds, pubTable, helpFlags, pubOptionsOf, Item.valueOf,
      OptionTable.apply, OptionKind.store]

theorem parsePubArgs_parses : Parses parsePubArgs pubGrammar pubOptionsOf := pubTable_tracks.parses

def subGrammar : Grammar :=
  grammarOf ["--help", "-h"]
    [("--wal", .path), ("--messages", .number), ("--limit", .number),
      ("--capacity", .oneOf [64, 256, 1024, 4096, 65536])] (by decide) (by decide)

def subOptionsOf (items : List Item) : SubOptions :=
  let defaults : SubOptions := {}
  { help := helpGiven items
    walPath := textOr defaults.walPath "--wal" items
    messages := numberOr defaults.messages "--messages" items
    limit := numberOr defaults.limit "--limit" items
    capacity := numberOr defaults.capacity "--capacity" items }

theorem subTable_tracks : Tracks subTable {} subOptionsOf := by
  refine ⟨rfl, fun items => ?_, fun items value => ?_, fun items value => ?_⟩ <;>
    simp [OptionTable.grammar, grammarOf, OptionTable.kinds, subTable, helpFlags, subOptionsOf, Item.valueOf,
      OptionTable.apply, OptionKind.store]

theorem parseSubArgs_parses : Parses parseSubArgs subGrammar subOptionsOf := subTable_tracks.parses

def replayGrammar : Grammar :=
  grammarOf ["--help", "-h"] [("--wal", .path), ("--limit", .number), ("--payload-preview-bytes", .number)]
    (by decide) (by decide)

def replayOptionsOf (items : List Item) : ReplayOptions :=
  let defaults : ReplayOptions := {}
  { help := helpGiven items
    walPath := textOr defaults.walPath "--wal" items
    limit := numberOr defaults.limit "--limit" items
    payloadPreviewBytes := numberOr defaults.payloadPreviewBytes "--payload-preview-bytes" items }

theorem replayTable_tracks : Tracks replayTable {} replayOptionsOf := by
  refine ⟨rfl, fun items => ?_, fun items value => ?_, fun items value => ?_⟩ <;>
    simp [OptionTable.grammar, grammarOf, OptionTable.kinds, replayTable, helpFlags, replayOptionsOf, Item.valueOf,
      OptionTable.apply, OptionKind.store]

theorem parseReplayArgs_parses : Parses parseReplayArgs replayGrammar replayOptionsOf := replayTable_tracks.parses

def inspectWalGrammar : Grammar :=
  grammarOf ["--help", "-h", "--verbose"] [("--wal", .path), ("--limit", .number)] (by decide) (by decide)

def inspectWalOptionsOf (items : List Item) : InspectWalOptions :=
  let defaults : InspectWalOptions := {}
  { help := helpGiven items
    walPath := textOr defaults.walPath "--wal" items
    limit := numberOr defaults.limit "--limit" items
    verbose := hasFlag "--verbose" items }

theorem inspectWalTable_tracks : Tracks inspectWalTable {} inspectWalOptionsOf := by
  refine ⟨rfl, fun items => ?_, fun items value => ?_, fun items value => ?_⟩ <;>
    simp [OptionTable.grammar, grammarOf, OptionTable.kinds, inspectWalTable, helpFlags, inspectWalOptionsOf,
      Item.valueOf, OptionTable.apply, OptionKind.store]

theorem parseInspectWalArgs_parses : Parses parseInspectWalArgs inspectWalGrammar inspectWalOptionsOf :=
  inspectWalTable_tracks.parses

theorem numberOr_mem {g : Grammar} {args : List String} {items : List Item} {name : String} {default : UInt64}
    {supported : List UInt64} (hsplits : g.Splits args items)
    (haccepts : ∀ value, g.accepts name value → (ValueKind.oneOf (supported.map UInt64.toNat)).Accepts value)
    (hdefault : default ∈ supported) : numberOr default name items ∈ supported := by
  unfold numberOr
  cases hlast : lastValue name items with
  | none => exact hdefault
  | some value =>
    obtain ⟨hnumber, hmem⟩ := haccepts value (hsplits.accepts_lastValue hlast)
    have hsupported := (isSupported_number hnumber supported).mpr hmem
    exact List.contains_iff_mem.mp hsupported

theorem dispatchCapacity_eq {ρ : Type} (run : UInt64 → UInt64 → UInt64 → ρ) (empty : ρ) {capacity : UInt64}
    (h : capacity ∈ supportedCapacities) (payloadSize messages : UInt64) :
    dispatchCapacity run empty payloadSize capacity messages = run payloadSize capacity messages := by
  simp only [supportedCapacities, List.mem_cons, List.not_mem_nil, or_false] at h
  rcases h with rfl | rfl | rfl | rfl | rfl <;> rfl

theorem dispatch_eq {ρ : Type} (run : UInt64 → UInt64 → UInt64 → ρ) (empty : ρ) {options : BenchOptions}
    (hpayload : options.payloadSize ∈ supportedPayloadSizes) (hcapacity : options.capacity ∈ supportedCapacities) :
    dispatch run empty options = run options.payloadSize options.capacity options.messages := by
  rw [← dispatchCapacity_eq run empty hcapacity]
  unfold dispatch
  simp only [supportedPayloadSizes, List.mem_cons, List.not_mem_nil, or_false] at hpayload
  rcases hpayload with h | h | h | h | h <;> rw [h] <;> rfl

theorem dispatchLocal_eq (runLocal : UInt64 → SubOptions → Int) {options : SubOptions}
    (h : options.capacity ∈ supportedCapacities) :
    dispatchLocal runLocal options = runLocal options.capacity options := by
  unfold dispatchLocal switchCapacity
  simp only [supportedCapacities, List.mem_cons, List.not_mem_nil, or_false] at h
  rcases h with h | h | h | h | h <;> simp [h]

theorem dispatch_of_parsed {args : List String} {options : BenchOptions} (h : parseBenchArgs args = .ok options)
    {ρ : Type} (run : UInt64 → UInt64 → UInt64 → ρ) (empty : ρ) :
    dispatch run empty options = run options.payloadSize options.capacity options.messages := by
  obtain ⟨items, hsplits, rfl⟩ := (parseBenchArgs_parses.accepts args options).mp h
  refine dispatch_eq run empty (numberOr_mem hsplits (fun _ haccepts => haccepts) ?_)
    (numberOr_mem hsplits (fun _ haccepts => haccepts) ?_)
  · decide
  · decide

theorem dispatchLocal_of_parsed {args : List String} {options : SubOptions} (h : parseSubArgs args = .ok options)
    (runLocal : UInt64 → SubOptions → Int) :
    dispatchLocal runLocal options = runLocal options.capacity options := by
  obtain ⟨items, hsplits, rfl⟩ := (parseSubArgs_parses.accepts args options).mp h
  exact dispatchLocal_eq runLocal (numberOr_mem hsplits (fun _ haccepts => haccepts) (by decide))

/-- Each parser accepts its grammar and nothing else, and what it accepts never reaches the
default branch of a dispatch. -/
theorem parsers_accept_grammars :
    Parses parseBenchArgs benchGrammar benchOptionsOf ∧
      Parses parsePubArgs pubGrammar pubOptionsOf ∧
      Parses parseSubArgs subGrammar subOptionsOf ∧
      Parses parseReplayArgs replayGrammar replayOptionsOf ∧
      Parses parseInspectWalArgs inspectWalGrammar inspectWalOptionsOf ∧
      (∀ args options, parseBenchArgs args = .ok options →
        ∀ (ρ : Type) (run : UInt64 → UInt64 → UInt64 → ρ) (empty : ρ),
          dispatch run empty options = run options.payloadSize options.capacity options.messages) ∧
      ∀ args options, parseSubArgs args = .ok options →
        ∀ runLocal, dispatchLocal runLocal options = runLocal options.capacity options :=
  ⟨parseBenchArgs_parses, parsePubArgs_parses, parseSubArgs_parses, parseReplayArgs_parses,
    parseInspectWalArgs_parses, fun _ _ h _ run empty => dispatch_of_parsed h run empty,
    fun _ _ h runLocal => dispatchLocal_of_parsed h runLocal⟩

end AetherStream.Cli
