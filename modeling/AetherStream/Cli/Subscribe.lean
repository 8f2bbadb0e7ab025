import AetherStream.Broker.CrashRecovery
import AetherStream.Broker.FifoBroker
import AetherStream.Cli.Args
import AetherStream.Cli.Publish

/-! `aether_sub`: without a log it publishes events into a broker and consumes them again, with
one it replays what `aether_pub` has written. -/

namespace AetherStream.Cli
open Basis Wal PersistentBroker

def subHelp : String :=
  "Usage: aether_sub [options]\n" ++
  "Local demo subscriber only: no networking and no remote/live broker subscription.\n" ++
  "Without --wal it publishes then consumes an in-process Broker. With --wal it replays " ++
  "OrderEvent records written by aether_pub.\n\n" ++
  "Options:\n  -h, --help\n  --messages <N>\n  --capacity <64|256|1024|4096|65536>\n" ++
  "  --limit <N>\n  --wal <path>\n"

/-- What is left open about a run: how the stream prints a `double`, and the bytes of padding. -/
structure SubSystem where
  showDouble : UInt64 → String
  padding : UInt64 → UInt32

variable (sys : SubSystem)

def eventLine (event : OrderEvent) : String :=
  "id=" ++ toString event.id ++ " price=" ++ sys.showDouble event.price ++
    " quantity=" ++ toString event.quantity ++ "\n"

section RunLocal
variable {cap : Capacity}

def publishLocal : Nat → UInt64 → Broker cap OrderEvent → Option Status × Broker cap OrderEvent
  | 0, _, broker => (none, broker)
  | left + 1, i, broker =>
    match broker.tryPublish (makeEvent i (sys.padding i)) with
    | (status, broker) => if !status.isOk then (some status, broker) else publishLocal left (i + 1) broker

structure LocalTotals (cap : Capacity) where
  broker : Broker cap OrderEvent
  consumed : UInt64 := 0
  out : List String := []

def consumeLocal (limit : UInt64) : Nat → LocalTotals cap → Option Status × LocalTotals cap
  | 0, t => (none, t)
  | left + 1, t =>
    match t.broker.tryConsume with
    | (status, event, broker) =>
      if !status.isOk then (some status, { t with broker := broker })
      else consumeLocal limit left
        { broker := broker
          consumed := t.consumed + 1
          out := if t.consumed < limit then t.out ++ [eventLine sys (event.getD ⟨0, 0, 0, 0⟩)] else t.out }

def suppressed (count limit : UInt64) : UInt64 := if limit < count then count - limit else 0

def localSummary (options : SubOptions) (consumed : UInt64) (metrics : BrokerCounters) : List String :=
  ["summary: produced=" ++ toString options.messages ++ " consumed=" ++ toString consumed ++ " suppressed=" ++
      toString (suppressed consumed options.limit) ++ "\n",
    "metrics.published: " ++ toString metrics.published ++ "\n",
    "metrics.consumed: " ++ toString metrics.consumed ++ "\n",
    "metrics.publish_failed_full: " ++ toString metrics.publishFailedFull ++ "\n",
    "metrics.consume_failed_empty: " ++ toString metrics.consumeFailedEmpty ++ "\n"]

variable (cap) in
def runLocal (options : SubOptions) : Exit :=
  match publishLocal sys options.messages.toNat 0 ({} : Broker cap OrderEvent) with
  | (some status, _) => { status := 1, err := [printError status] }
  | (none, broker) =>
    match consumeLocal sys options.limit options.messages.toNat { broker := broker } with
    | (some status, t) => { status := 1, out := t.out, err := [printError status] }
    | (none, t) => { status := 0, out := t.out ++ localSummary options t.consumed t.broker.counters }

end RunLocal

def capacity64 : Capacity := ⟨64, by decide, by decide⟩

def capacity256 : Capacity := ⟨256, by decide, by decide⟩

def capacity1024 : Capacity := ⟨1024, by decide, by decide⟩

def capacity4096 : Capacity := ⟨4096, by decide, by decide⟩

def dispatchRunLocal (options : SubOptions) : Exit :=
  switchCapacity options.capacity (runLocal sys capacity64 options) (runLocal sys capacity256 options)
    (runLocal sys capacity1024 options) (runLocal sys capacity4096 options) (runLocal sys pubCapacity options)
    { status := 2 }

/-- The tool exits with what the dispatch on the parsed options returns. -/
theorem status_dispatchRunLocal {run : UInt64 → SubOptions → Int} {options : SubOptions}
    (hrun : ∀ cap : Capacity, (runLocal sys cap options).status = run cap.size options) :
    (dispatchRunLocal sys options).status = dispatchLocal run options := by
  refine (apply_switchCapacity (fun exit : Exit => (exit.status : Int)) _ _ _ _ _ _ _).trans ?_
  simp only [hrun]
  rfl

def subBanner : String := "Local demo subscriber: no networking and no remote/live broker subscription.\n"

def subVisit (limit : UInt64) (s : UInt64 × List String) (event : OrderEvent) : UInt64 × List String :=
  (s.1 + 1, if s.1 < limit then s.2 ++ [eventLine sys event] else s.2)

def replaySummary (seen limit : UInt64) (metrics : BrokerCounters) : List String :=
  ["summary: replayed=" ++ toString seen ++ " printed=" ++ toString (if seen < limit then seen else limit) ++
      " suppressed=" ++ toString (suppressed seen limit) ++ "\n",
    "metrics.recovered_records: " ++ toString metrics.recoveredRecords ++ "\n",
    "metrics.recovery_failures: " ++ toString metrics.recoveryFailures ++ "\n"]

/-- `main` behind its parser; `content` is what the file of the log holds. -/
def sub (parsed : Expected SubOptions) (content : FileContent) (calls : OpenCalls) (fuel : Nat) : Option Exit :=
  match parsed with
  | .error status => some { status := 2, err := [printError status] }
  | .ok options =>
    if options.help then some { status := 0, out := [subHelp] }
    else if options.walPath.isEmpty then
      let exit := dispatchRunLocal sys options
      some { exit with out := subBanner :: exit.out }
    else match replayWithMetrics options.walPath content calls
        (fun s event _ => (.ok, subVisit sys options.limit s event)) (0, []) {} fuel with
      | none => none
      | some (status, (seen, out), counters) =>
        if !status.isOk then some { status := 1, out := subBanner :: out, err := [printError status] }
        else some { status := 0, out := subBanner :: out ++ replaySummary seen options.limit counters }

namespace SubSystem

def event (i : Nat) : OrderEvent := makeEvent (UInt64.ofNat i) (sys.padding (UInt64.ofNat i))

def events (n : Nat) : List OrderEvent := (List.range n).map sys.event

end SubSystem

structure Holding {cap : Capacity} (b : Broker cap OrderEvent) (values : List OrderEvent) (published consumed : Nat) :
    Prop where
  valid : b.valid = true
  settled : b.queue.Settled
  contents : b.queue.contents = values.map some
  counters : b.counters = { published := UInt64.ofNat published, consumed := UInt64.ofNat consumed }

theorem printed_cons (limit count : Nat) (out : List String) (event : OrderEvent) (events : List OrderEvent) :
    (if count < limit then out ++ [eventLine sys event] else out) ++
        (events.take (limit - (count + 1))).map (eventLine sys) =
      out ++ ((event :: events).take (limit - count)).map (eventLine sys) := by
  split_ifs with hlt
  · rw [show limit - count = limit - (count + 1) + 1 by omega, List.take_succ_cons, List.map_cons, List.append_assoc]
    rfl
  · rw [show limit - count = 0 by omega, show limit - (count + 1) = 0 by omega]
    rfl

section Loops
variable {cap : Capacity} {b : Broker cap OrderEvent} {values : List OrderEvent} {published consumed : Nat}

theorem holding_new (cap : Capacity) : Holding ({} : Broker cap OrderEvent) [] 0 0 :=
  ⟨rfl, Ring.settled_empty cap OrderEvent, (Ring.rests_empty cap OrderEvent).contents_eq, rfl⟩

theorem Holding.tryPublish_full (h : Holding b values published consumed) (hfull : values.length = cap.toNat)
    (value : OrderEvent) : (b.tryPublish value).1 = ⟨.full, "broker queue is full"⟩ := by
  rcases Broker.tryPublish_cases h.valid h.settled value with ⟨-, heq⟩ | ⟨hroom, -⟩
  · rw [heq]
  · rw [h.contents, List.length_map] at hroom
    omega

theorem Holding.tryPublish_room (h : Holding b values published consumed) (hroom : values.length < cap.toNat)
    (value : OrderEvent) :
    ∃ b', b.tryPublish value = (.ok, b') ∧ Holding b' (values ++ [value]) (published + 1) consumed := by
  rcases Broker.tryPublish_cases h.valid h.settled value with ⟨hfull, -⟩ | ⟨-, queue, hsettled, hcontents, heq⟩
  · rw [h.contents, List.length_map] at hfull
    omega
  · refine ⟨_, heq, h.valid, hsettled, ?_, ?_⟩
    · rw [hcontents, h.contents, List.map_append]
      rfl
    · rw [h.counters, BrokerCounters.recordPublished, ModularCounter.ofNat_succ]

theorem Holding.tryConsume {value : OrderEvent} (h : Holding b (value :: values) published consumed) :
    ∃ b', b.tryConsume = (.ok, some value, b') ∧ Holding b' values published (consumed + 1) := by
  rcases Broker.tryConsume_cases h.valid h.settled with ⟨hempty, -⟩ | ⟨out, queue, hsettled, hcontents, heq⟩
  · rw [h.contents] at hempty
    contradiction
  · rw [h.contents, List.map_cons] at hcontents
    obtain ⟨rfl, hrest⟩ := List.cons.inj hcontents
    refine ⟨_, heq, h.valid, hsettled, hrest.symm, ?_⟩
    rw [h.counters, BrokerCounters.recordConsumed, ModularCounter.ofNat_succ]

theorem Holding.publishLocal_add {i m : Nat} (h : Holding b (sys.events i) i 0) (hroom : i + m ≤ cap.toNat)
    (left : Nat) :
    ∃ b', publishLocal sys (m + left) (UInt64.ofNat i) b = publishLocal sys left (UInt64.ofNat (i + m)) b' ∧
      Holding b' (sys.events (i + m)) (i + m) 0 := by
  induction m generalizing i b with
  | zero => exact ⟨b, by rw [Nat.zero_add, Nat.add_zero], h⟩
  | succ m ih =>
    have hlen : (sys.events i).length = i := by rw [SubSystem.events, List.length_map, List.length_range]
    obtain ⟨b₁, hpublish, hnext⟩ := h.tryPublish_room (by omega) (sys.event i)
    have hevents : sys.events i ++ [sys.event i] = sys.events (i + 1) := by
      rw [SubSystem.events, SubSystem.events, List.range_succ, List.map_append]
      rfl
    rw [hevents] at hnext
    obtain ⟨b', hloop, hfinal⟩ := ih hnext (by omega)
    rw [Nat.add_assoc, Nat.add_comm 1] at hloop hfinal
    rw [← ModularCounter.ofNat_succ i] at hloop
    rw [SubSystem.event] at hpublish
    rw [Nat.add_right_comm, publishLocal, hpublish]
    exact ⟨b', hloop, hfinal⟩

theorem Holding.consumeLocal_eq {t : LocalTotals cap} (h : Holding t.broker values published consumed)
    (hconsumed : t.consumed = UInt64.ofNat consumed) (hlt : consumed + values.length < 2 ^ 64) (limit : UInt64) :
    ∃ t', consumeLocal sys limit values.length t = (none, t') ∧
      t'.consumed = UInt64.ofNat (consumed + values.length) ∧
      t'.out = t.out ++ (values.take (limit.toNat - consumed)).map (eventLine sys) ∧
      Holding t'.broker [] published (consumed + values.length) := by
  induction values generalizing t consumed with
  | nil => exact ⟨t, rfl, hconsumed, by simp, h⟩
  | cons value values ih =>
    rw [List.length_cons] at hlt
    obtain ⟨b', hconsume, hnext⟩ := h.tryConsume
    rw [List.length_cons, consumeLocal, hconsume]
    have hless : UInt64.ofNat consumed < limit ↔ consumed < limit.toNat := by
      rw [UInt64.lt_iff_toNat_lt, UInt64.toNat_ofNat_of_lt' (show consumed < 2 ^ 64 by omega)]
    obtain ⟨t', hloop, hcount, hout, hholding⟩ :=
      ih (t := { broker := b', consumed := t.consumed + 1, out := _ }) hnext
        (by rw [hconsumed, ModularCounter.ofNat_succ]) (by omega)
    rw [Nat.add_right_comm] at hcount hholding
    refine ⟨t', hloop, hcount, ?_, hholding⟩
    rw [hout, hconsumed]
    simp only [hless]
    exact printed_cons sys limit.toNat consumed t.out value values

theorem runLocal_eq (cap : Capacity) (options : SubOptions) :
    runLocal sys cap options =
      if options.messages.toNat ≤ cap.toNat then
        { status := 0
          out := ((sys.events options.messages.toNat).take options.limit.toNat).map (eventLine sys) ++
            localSummary options options.messages { published := options.messages, consumed := options.messages } }
      else { status := 1, err := ["error: broker queue is full\n"] } := by
  have hword : UInt64.ofNat options.messages.toNat = options.messages := UInt64.ofNat_toNat
  have hzero : UInt64.ofNat 0 = 0 := rfl
  have hlen : (sys.events options.messages.toNat).length = options.messages.toNat := by
    rw [SubSystem.events, List.length_map, List.length_range]
  split_ifs with hroom
  · obtain ⟨b, hpublish, hfull⟩ :=
      (holding_new cap).publishLocal_add sys (i := 0) (m := options.messages.toNat) (by omega) 0
    rw [Nat.zero_add, Nat.add_zero, hzero] at hpublish
    rw [Nat.zero_add] at hfull
    obtain ⟨t, hconsume, hcount, hout, hdrained⟩ := Holding.consumeLocal_eq sys (t := { broker := b }) hfull rfl
      (by rw [hlen, Nat.zero_add]; exact options.messages.toNat_lt) options.limit
    rw [hlen, Nat.zero_add, hword] at hcount
    rw [hlen] at hconsume
    have hcounters := hdrained.counters
    rw [hlen, Nat.zero_add, hword] at hcounters
    rw [Nat.sub_zero, List.nil_append] at hout
    rw [runLocal, hpublish]
    simp only [publishLocal, hconsume, hcount, hout, hcounters]
  · obtain ⟨left, hleft⟩ : ∃ left, options.messages.toNat = cap.toNat + (left + 1) :=
      ⟨options.messages.toNat - cap.toNat - 1, by omega⟩
    obtain ⟨b, hpublish, hfull⟩ :=
      (holding_new cap).publishLocal_add sys (i := 0) (m := cap.toNat) (by omega) (left + 1)
    have hevents : (sys.events (0 + cap.toNat)).length = cap.toNat := by
      rw [SubSystem.events, List.length_map, List.length_range, Nat.zero_add]
    have hrefused := hfull.tryPublish_full hevents (sys.event (0 + cap.toNat))
    rw [SubSystem.event] at hrefused
    rw [hzero] at hpublish
    rw [runLocal, hleft, hpublish, publishLocal]
    rcases hresult : b.tryPublish _ with ⟨status, b'⟩
    rw [hresult] at hrefused
    obtain rfl : status = _ := hrefused
    rfl

end Loops

/-- In the local mode the tool prints the first events up to the limit and counts all of them,
if the broker that was chosen can hold them all at once; otherwise it fails before it prints
any. -/
theorem sub_local (options : SubOptions) (hhelp : options.help = false) (hpath : options.walPath.isEmpty = true)
    (hcapacity : options.capacity ∈ supportedCapacities) (content : FileContent) (calls : OpenCalls) (fuel : Nat) :
    sub sys (.ok options) content calls fuel = some
      (if options.messages ≤ options.capacity then
        { status := 0
          out := subBanner ::
            ((sys.events options.messages.toNat).take options.limit.toNat).map (eventLine sys) ++
            localSummary options options.messages { published := options.messages, consumed := options.messages } }
      else { status := 1, out := [subBanner], err := ["error: broker queue is full\n"] }) := by
  have hrun : ∃ cap : Capacity,
      options.capacity = cap.size ∧ dispatchRunLocal sys options = runLocal sys cap options := by
    simp only [supportedCapacities, List.mem_cons, List.not_mem_nil, or_false] at hcapacity
    rcases hcapacity with hc | hc | hc | hc | hc
    · exact ⟨capacity64, hc, by simp [dispatchRunLocal, switchCapacity, hc]⟩
    · exact ⟨capacity256, hc, by simp [dispatchRunLocal, switchCapacity, hc]⟩
    · exact ⟨capacity1024, hc, by simp [dispatchRunLocal, switchCapacity, hc]⟩
    · exact ⟨capacity4096, hc, by simp [dispatchRunLocal, switchCapacity, hc]⟩
    · exact ⟨pubCapacity, hc, by simp [dispatchRunLocal, switchCapacity, hc]⟩
  obtain ⟨cap, hsize, hdispatch⟩ := hrun
  have hle : options.messages ≤ options.capacity ↔ options.messages.toNat ≤ cap.toNat := by
    rw [hsize, UInt64.le_iff_toNat_le]
    rfl
  simp only [sub, hhelp, hpath, hdispatch, runLocal_eq, hle, Bool.false_eq_true, if_false, if_true]
  split_ifs <;> rfl

def plainSystem : SubSystem := ⟨toString, fun _ => 0⟩

theorem sub_local_defaults :
    ∃ out, sub plainSystem (.ok {}) Session.tornSeven ⟨none, true, none⟩ 0 =
      some { status := 0, out := subBanner :: out } :=
  ⟨_, sub_local plainSystem {} rfl rfl (by decide) _ _ 0⟩

theorem Progress.tryPublish_ok {calls : PubCalls} {size : UInt64} {i : Nat} {broker : PubBroker}
    (h : Progress calls size i broker) (clock : UInt64) (msyncOk : Bool)
    (hok : (broker.tryPublish (calls.event i) 0 clock msyncOk).1.isOk = true) :
    Progress calls size (i + 1) (broker.tryPublish (calls.event i) 0 clock msyncOk).2 := by
  obtain ⟨records, hserving, -⟩ := h.accounts.log
  have hlogs := h.logs.tryPublish (calls.event i) 0 clock msyncOk
  have haccounts := h.accounts.tryPublish (calls.event i) 0 clock msyncOk
  refine ⟨?_, ?_, ?_⟩
  · have hnone : broker.abandonedBy none (.tryPublish (calls.event i) 0 clock msyncOk) = none := by
      obtain ⟨-, heq⟩ | ⟨-, hbad, heq⟩ | ⟨hroom, hgood, -⟩ := tryPublish_cases hserving (calls.event i) 0 clock msyncOk
      · rw [heq] at hok
        contradiction
      · rw [heq, hbad] at hok
        contradiction
      · exact (abandonedBy_of_append hserving hroom none (calls.event i) 0 clock msyncOk).1 hgood
    rw [hnone] at hlogs
    simp only [PersistentBroker.call, publishedBy, hok, if_true] at hlogs
    rw [PubCalls.events, List.range_succ, List.map_append]
    exact hlogs
  · rw [outcome_of_isOk hserving hok] at haccounts
    rw [List.replicate_succ']
    exact haccounts
  · rw [size_tryPublish, h.fileSize]

theorem Progress.publishLoop_ok {calls : PubCalls} {size : UInt64} {i left : Nat} {broker broker' : PubBroker}
    (h : Progress calls size i broker) (hloop : publishLoop calls left (UInt64.ofNat i) broker = (none, broker')) :
    Progress calls size (i + left) broker' := by
  induction left generalizing i broker with
  | zero =>
    obtain ⟨-, rfl⟩ := Prod.mk.inj hloop
    exact h
  | succ left ih =>
    rw [publishLoop] at hloop
    have hnext := h.tryPublish_ok (calls.clock (UInt64.ofNat i)) (calls.msync (UInt64.ofNat i))
    rw [PubCalls.event] at hnext
    generalize broker.tryPublish _ 0 _ _ = result at hloop hnext
    obtain ⟨status, broker₁⟩ := result
    dsimp only at hloop hnext
    split_ifs at hloop with hbad
    · cases hloop
    · rw [ModularCounter.ofNat_succ] at hloop
      have hfinal := ih (hnext (by simpa using hbad)) hloop
      rwa [Nat.add_assoc, Nat.add_comm 1] at hfinal

theorem logs_of_pub {options : PubOptions} {calls : PubCalls} {run : PubRun} (hhelp : options.help = false)
    (hpub : pub (.ok options) calls = some run) (hexit : run.exit.status = 0) :
    run.broker.Logs (calls.events options.messages.toNat) none := by
  rcases hopen : ({} : PubBroker).openWal options.walConfig calls.create with ⟨status, broker⟩
  rcases hloop : publishLoop calls options.messages.toNat 0 broker with ⟨error, broker₁⟩
  rcases hflush : broker₁.flush calls.flush with ⟨flushed, broker₂⟩
  have hbroker : run.broker = broker₂ ∧ error = none ∧ status.isOk = true := by
    cases error with
    | none =>
      simp only [pub, hhelp, hopen, hloop, hflush, Bool.false_eq_true, if_false] at hpub
      split_ifs at hpub with hdirs hbad hfailed <;> obtain rfl := Option.some.inj hpub
      · contradiction
      · contradiction
      · exact ⟨rfl, rfl, by simpa using hbad⟩
    | some error =>
      simp only [pub, hhelp, hopen, hloop, Bool.false_eq_true, if_false] at hpub
      split_ifs at hpub with hdirs hbad <;> obtain rfl := Option.some.inj hpub <;> contradiction
  obtain ⟨hfinal, rfl, hok⟩ := hbroker
  obtain rfl : status = .ok := by
    rcases openConfig_cases ({} : PubBroker) _ calls.create with ⟨failed, hne, heq⟩ | ⟨writer, -, heq⟩
    · obtain ⟨rfl, -⟩ := Prod.mk.inj (heq.symm.trans hopen)
      rw [hne] at hok
      contradiction
    · exact (Prod.mk.inj (heq.symm.trans hopen)).1.symm
  have hopened : broker.Opened _ := opened [] hopen
  have hdone := Progress.publishLoop_ok (i := 0) ⟨hopened.logs, hopened.accounts, hopened.fileSize⟩ hloop
  rw [Nat.zero_add] at hdone
  have hlogs := hdone.logs.call (.flush calls.flush)
  rw [PersistentBroker.call, hflush] at hlogs
  rw [hfinal]
  simpa [publishedBy, abandonedBy] using hlogs

theorem foldl_subVisit (limit : UInt64) (seen : Nat) (out : List String) (events : List OrderEvent)
    (hlt : seen + events.length < 2 ^ 64) :
    events.foldl (subVisit sys limit) (UInt64.ofNat seen, out) =
      (UInt64.ofNat (seen + events.length), out ++ (events.take (limit.toNat - seen)).map (eventLine sys)) := by
  induction events generalizing seen out with
  | nil => simp
  | cons event events ih =>
    rw [List.length_cons] at hlt
    have hless : UInt64.ofNat seen < limit ↔ seen < limit.toNat := by
      rw [UInt64.lt_iff_toNat_lt, UInt64.toNat_ofNat_of_lt' (show seen < 2 ^ 64 by omega)]
    rw [List.foldl_cons, subVisit, ModularCounter.ofNat_succ, ih _ _ (by omega), List.length_cons, Nat.add_assoc,
      Nat.add_comm 1, ← printed_cons]
    simp only [hless]

/-- What `aether_pub` has written when it exits with 0, whatever its options, `aether_sub` with
the same path and whatever other options prints up to its limit, in order and field by field, and
counts completely. -/
theorem sub_prints_published (options : PubOptions) (calls : PubCalls) (run : PubRun) (hhelp : options.help = false)
    (hpub : pub (.ok options) calls = some run) (hexit : run.exit.status = 0) (subOptions : SubOptions)
    (hsub : subOptions.help = false) (hsame : subOptions.walPath = options.walPath) (openCalls : OpenCalls)
    (r : WalReader) (hopen : WalReader.openPath options.walPath run.broker.writer.file.content openCalls = .ok r) :
    ∃ fuel₀, ∀ fuel, fuel₀ ≤ fuel →
      sub sys (.ok subOptions) run.broker.writer.file.content openCalls fuel = some
        { status := 0
          out := subBanner ::
            ((calls.events options.messages.toNat).take subOptions.limit.toNat).map (eventLine sys) ++
            replaySummary options.messages subOptions.limit { recoveredRecords := options.messages } } := by
  have hlogs := logs_of_pub hhelp hpub hexit
  have hlen : (calls.events options.messages.toNat).length = options.messages.toNat := by
    rw [PubCalls.events, List.length_map, List.length_range]
  have hword : UInt64.ofNat options.messages.toNat = options.messages := UInt64.ofNat_toNat
  have hpath : options.walPath.isEmpty = false := by
    cases hempty : options.walPath.isEmpty with
    | false => rfl
    | true =>
      simp only [WalReader.openPath, MmapFile.openExisting, hempty, if_true] at hopen
      contradiction
  generalize hlimit : subOptions.limit = limit
  obtain ⟨fuel₀, hreplay⟩ := hlogs.replay_accepting (subVisit sys limit) hopen (0, []) {}
  refine ⟨fuel₀, fun fuel hfuel => ?_⟩
  have hfold := foldl_subVisit sys limit 0 [] (calls.events options.messages.toNat)
    (by rw [hlen, Nat.zero_add]; exact options.messages.toNat_lt)
  rw [hlen, Nat.zero_add, hword, Nat.sub_zero, List.nil_append, show UInt64.ofNat 0 = 0 from rfl] at hfold
  have hcounters : BrokerCounters.recover {} options.messages.toNat 0 = { recoveredRecords := options.messages } := by
    simp [BrokerCounters.recover]
  have hrun := hreplay fuel hfuel
  rw [Option.toList_none, List.append_nil, hlen, hcounters, hfold] at hrun
  simp only [sub, hsub, hsame, hpath, hlimit, Bool.false_eq_true, if_false]
  rw [show (fun s event _ => (Status.ok, subVisit sys limit s event)) = accepting (subVisit sys limit) from rfl, hrun]
  rfl

theorem exists_openPath {w : WalWriter} (hvalid : w.valid = true) {path : String} (hpath : path.isEmpty = false)
    (fd addr : Nat) : ∃ r, WalReader.openPath path w.file.content ⟨some fd, true, some addr⟩ = .ok r := by
  have hlen : w.file.content.bytes.length ≠ 0 := by
    have hsize : w.file.size ≠ 0 := by simpa using (Bool.and_eq_true_iff.mp hvalid).2
    rw [show w.file.content.bytes.length = w.file.size.toNat from MmapFile.length_bytes hvalid]
    exact fun hzero => hsize (UInt64.toNat_inj.mp hzero)
  simp only [WalReader.openPath, MmapFile.openExisting, hpath, hlen, Bool.not_true, Bool.false_eq_true, if_false]
  exact ⟨_, rfl⟩

theorem sub_prints_published_defaults :
    ∃ run r fuel, pub (.ok {}) quietCalls = some run ∧ run.exit.status = 0 ∧
      WalReader.openPath "data/sample.wal" run.broker.writer.file.content ⟨some 4, true, some 8192⟩ = .ok r ∧
      (sub plainSystem (.ok { walPath := "data/sample.wal", messages := 3, capacity := 64 })
        run.broker.writer.file.content ⟨some 4, true, some 8192⟩ fuel).map Exit.status = some 0 := by
  obtain ⟨run, hpub, hexit, hlogs⟩ : ∃ run, pub (.ok {}) quietCalls = some run ∧ run.WritesAll quietCalls 1000 :=
    pub_of_le rfl (by decide) (quietCalls_succeed (by decide)) (by decide) (by decide)
  obtain ⟨records, -, -, hserving, -⟩ := hlogs
  have hpath : "data/sample.wal".isEmpty = false := by decide
  obtain ⟨r, hopen⟩ := exists_openPath hserving.writer.valid hpath 4 8192
  obtain ⟨fuel, hsub⟩ := sub_prints_published plainSystem {} quietCalls run rfl hpub hexit
    { walPath := "data/sample.wal", messages := 3, capacity := 64 } rfl rfl _ r hopen
  refine ⟨run, r, fuel, hpub, hexit, hopen, ?_⟩
  rw [hsub fuel le_rfl]
  rfl

end AetherStream.Cli
