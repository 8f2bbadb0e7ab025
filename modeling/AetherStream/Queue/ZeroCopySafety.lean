import AetherStream.Basis.SoleHolder
import AetherStream.Queue.ZeroCopySpsc

/-! Safety of `ZeroCopySpsc` under every interleaving: one handle at most holds the one
reservation, and the consumer gets the committed values in order. -/

namespace AetherStream
open Basis ModularCounter
variable {cap : Capacity} {α : Type*}

/-- The ring holds the committed values and behind them the staged one, if there is one.
The values are of interest only as long as no move has thrown, which `fifo` stands for. -/
structure Backed (fifo : Prop) (ring : Ring cap α) (c : Consumer α) (view : Nat) (committed : List α)
    (staged : Option α) : Prop where
  inv : ring.Inv c committed.length staged.isSome
  holds : fifo → ring.Holds c (committed ++ staged.toList)
  view_le : view ≤ c.popped
  window : committed.length ≤ view + cap.toNat

namespace Backed
variable {fifo : Prop} {ring : Ring cap α} {c : Consumer α} {view : Nat} {committed : List α}

theorem construct (h : Backed fifo ring c view committed none) (hroom : committed.length < view + cap.toNat) (v : α) :
    Backed fifo { ring with buffer := ring.buffer.constructAt (cap.slotPtr (UInt64.ofNat committed.length)) v }
      c view committed (some v) := by
  have hpopped := h.view_le
  refine ⟨h.inv.construct (by omega) v, fun hfifo => ?_, h.view_le, h.window⟩
  have hold := h.holds hfifo
  rw [Option.toList_none, List.append_nil] at hold
  exact hold.construct h.inv rfl (by omega) v

theorem withdraw {v : α} (h : Backed fifo ring c view committed (some v)) :
    Backed fifo { ring with buffer := ring.buffer.destroyAt (cap.slotPtr (UInt64.ofNat committed.length)) }
      c view committed none := by
  refine ⟨h.inv.withdraw, fun hfifo => ?_, h.view_le, h.window⟩
  have hold := (h.holds hfifo).withdraw h.inv (by simp)
  rw [List.take_left] at hold
  rwa [Option.toList_none, List.append_nil]

theorem publish {v : α} (h : Backed fifo ring c view committed (some v))
    (hroom : committed.length < view + cap.toNat) :
    Backed fifo { ring with head := ring.head.store (UInt64.ofNat committed.length + 1) } c view
      (committed ++ [v]) none := by
  refine ⟨?_, fun hfifo => ?_, h.view_le, by rw [List.length_append]; exact hroom⟩
  · rw [List.length_append]
    exact h.inv.publish
  · have hold := h.holds hfifo
    rw [Option.toList_none, List.append_nil]
    exact ⟨hold.returned, hold.inHand, hold.value⟩

theorem popStep {staged : Option α} (h : Backed fifo ring c view committed staged) (a : PopStep α)
    (ha : fifo → ∀ residue, a ≠ .moveThrows residue) :
    Backed fifo (ring.popStep a c).1 (ring.popStep a c).2 view committed staged where
  inv := h.inv.popStep a
  holds hfifo := (h.holds hfifo).popStep h.inv (by cases staged <;> simp) a (ha hfifo)
  view_le := h.view_le.trans (Ring.popped_le_popStep a ring c)
  window := h.window

theorem loadTail {staged : Option α} {k : Nat} (h : Backed fifo ring c view committed staged) (hk : view ≤ k)
    (hk' : k ≤ c.popped) : Backed fifo ring c k committed staged :=
  ⟨h.inv, h.holds, hk', h.window.trans (Nat.add_le_add_right hk _)⟩

theorem in_order {staged : Option α} (h : Backed fifo ring c view committed staged) (hfifo : fifo) :
    c.returned <+: committed.map some ∧
      c.returned ++ c.pc.inHand ++ ring.contents.drop c.pc.taken = committed.map some := by
  have hreturned := (h.holds hfifo).returned_prefix_published h.inv
  have hcontents := (h.holds hfifo).taken_append_contents h.inv (by cases staged <;> simp)
  rw [List.take_left] at hreturned hcontents
  exact ⟨hreturned, hcontents⟩

end Backed

namespace Reservation

def Blank (r : Reservation cap) : Prop := r.queue = false ∧ r.ptr = none ∧ r.constructed = false

theorem blank_cleared (r : Reservation cap) : r.cleared.Blank := ⟨rfl, rfl, rfl⟩

def Owns (h : Nat) (built : Bool) (r : Reservation cap) : Prop :=
  r.queue = true ∧ r.index = UInt64.ofNat h ∧ r.ptr = some (cap.slotPtr (UInt64.ofNat h)) ∧ r.constructed = built

end Reservation

namespace ZeroCopySpsc
open Reservation

structure Held (handles : Nat → Option (Reservation cap)) (view h : Nat) (staged : Option α)
    (holder : Option Nat) : Prop where
  sole : Sole Blank (Owns h staged.isSome) handles holder
  staged : holder = none → staged = none
  room : holder ≠ none → h < view + cap.toNat

def PcAt (s : ZeroCopySpsc cap α) : Prop :=
  let Held := Held s.handles s.tailView s.committed.length s.staged
  let Releasing i := s.staged = none ∧ Sole Blank (fun _ => True) s.handles (some i)
  match s.pc with
  | .idle => ∃ holder : Option Nat, s.activeReservation = holder.isSome ∧ Held holder
  | .reserving => s.activeReservation = true ∧ Held none
  | .loadedHead head => s.activeReservation = true ∧ Held none ∧ head = UInt64.ofNat s.committed.length
  | .constructing i _ => s.activeReservation = true ∧ Held (some i) ∧ s.staged = none
  | .committing i => Releasing i
  | .cancelling i after => Releasing i ∧ after ≠ .moveFrom i

structure Inv (fifo : Prop) (s : ZeroCopySpsc cap α) : Prop where
  backed : Backed fifo s.ring s.consumer s.tailView s.committed s.staged
  fresh : ∀ i, s.made ≤ i → s.handles i = none
  not_misused : s.misused = false
  pc_at : s.PcAt

def HoldsReservation (s : ZeroCopySpsc cap α) (i : Nat) : Prop := ∃ r, s.handles i = some r ∧ r.queue = true

theorem held_none {handles : Nat → Option (Reservation cap)} {view h : Nat}
    (hsole : Sole Blank (Owns h false) handles none) : Held handles view h (none : Option α) none :=
  ⟨hsole, fun _ => rfl, fun hne => absurd rfl hne⟩

theorem Held.move {handles : Nat → Option (Reservation cap)} {view h dst src : Nat} {staged : Option α}
    {holder : Option Nat} {r : Reservation cap} (hheld : Held handles view h staged holder)
    (hsrc : handles src = some r) (hne : dst ≠ src) (hdst : holder ≠ some dst) :
    ∃ holder' : Option Nat, holder'.isSome = holder.isSome ∧
      Held (Function.update (Function.update handles dst (some r)) src (some r.cleared)) view h staged holder' := by
  -- the new handle takes what the source has, and the source is left blank
  refine ⟨_, ?_, hheld.sole.move hsrc r.blank_cleared hne hdst, ?_, ?_⟩
  · split_ifs with hholder
    · rw [hholder]
      rfl
    · rfl
  · intro hnone
    split_ifs at hnone
    exact hheld.staged hnone
  · intro hsome
    refine hheld.room fun hnone => hsome ?_
    rw [hnone]
    rfl

theorem inv_initial (fifo : Prop) (cap : Capacity) (α : Type*) : Inv fifo (initial cap α) where
  backed := ⟨Ring.inv_empty cap α, fun _ => Ring.holds_empty cap α, le_rfl, Nat.zero_le _⟩
  fresh _ _ := rfl
  not_misused := rfl
  pc_at := ⟨none, rfl, held_none ⟨fun i hi => absurd hi (Option.not_mem_none i), fun _ _ _ hr => by cases hr⟩⟩

theorem fresh_update {handles : Nat → Option (Reservation cap)} {made i : Nat}
    (hfresh : ∀ j, made ≤ j → handles j = none) (hi : i < made) (o : Option (Reservation cap)) :
    ∀ j, made ≤ j → Function.update handles i o j = none := by
  intro j hj
  rw [Function.update_of_ne (by omega)]
  exact hfresh j hj

section Steps
variable {fifo : Prop} {s : ZeroCopySpsc cap α} (hinv : Inv fifo s)
include hinv

theorem Inv.lt_made {i : Nat} {r : Reservation cap} (hr : s.handles i = some r) : i < s.made := by
  by_contra hle
  rw [hinv.fresh i (Nat.not_lt.mp hle)] at hr
  contradiction

theorem Inv.idle (hpc : s.pc = .idle) : ∃ holder : Option Nat, s.activeReservation = holder.isSome ∧
    Held s.handles s.tailView s.committed.length s.staged holder := by
  have hat := hinv.pc_at
  rwa [PcAt, hpc] at hat

theorem Inv.set_handles (hpc : s.pc = .idle) {handles : Nat → Option (Reservation cap)} {made : Nat}
    (hfresh : ∀ i, made ≤ i → handles i = none) {holder : Option Nat}
    (hactive : s.activeReservation = holder.isSome)
    (hheld : Held handles s.tailView s.committed.length s.staged holder) :
    Inv fifo { s with handles := handles, made := made } := by
  refine ⟨hinv.backed, hfresh, hinv.not_misused, ?_⟩
  simp only [PcAt, hpc]
  exact ⟨holder, hactive, hheld⟩

theorem Inv.defaultConstruct (hpc : s.pc = .idle) : Inv fifo (s.create {}) := by
  obtain ⟨holder, hactive, hheld⟩ := hinv.idle hpc
  have hfree := hinv.fresh s.made le_rfl
  refine hinv.set_handles hpc ?_ hactive ⟨?_, hheld.staged, hheld.room⟩
  · exact fresh_update (fun j hj => hinv.fresh j (Nat.le_of_succ_le hj)) (Nat.lt_succ_self _) _
  · refine hheld.sole.update_other (hheld.sole.ne_some_of_eq_none hfree) fun r hr => ?_
    cases hr
    exact ⟨rfl, rfl, rfl⟩

theorem Inv.tryReserve (hpc : s.pc = .idle) (hactive : s.activeReservation = false) :
    Inv fifo { s with activeReservation := true, pc := .reserving } := by
  obtain ⟨holder, hholder, hheld⟩ := hinv.idle hpc
  rw [hactive] at hholder
  obtain rfl : holder = none := by simpa using hholder.symm
  exact ⟨hinv.backed, hinv.fresh, hinv.not_misused, rfl, hheld⟩

theorem Inv.loadHead (hpc : s.pc = .reserving) : Inv fifo { s with pc := .loadedHead s.ring.head.current } := by
  obtain ⟨hactive, hheld⟩ := by
    have hat := hinv.pc_at
    rwa [PcAt, hpc] at hat
  exact ⟨hinv.backed, hinv.fresh, hinv.not_misused, hactive, hheld, hinv.backed.inv.head_counts.current_eq⟩

theorem Inv.loadTail {head : UInt64} (hpc : s.pc = .loadedHead head) {k : Nat} {tail : UInt64}
    (hload : s.ring.tail.load s.tailView k = some tail) :
    Inv fifo (if cap.size ≤ head - tail then { s with pc := .idle, tailView := k, activeReservation := false }
      else create { s with pc := .idle, tailView := k }
        { queue := true, index := head, ptr := some (cap.slotPtr head) }) := by
  obtain ⟨hactive, hheld, rfl⟩ : s.activeReservation = true ∧
      Held s.handles s.tailView s.committed.length s.staged none ∧ head = UInt64.ofNat s.committed.length := by
    have hat := hinv.pc_at
    rwa [PcAt, hpc] at hat
  obtain ⟨hk, hk', rfl⟩ := hinv.backed.inv.tail_counts.load_eq_some.mp hload
  have hle := hinv.backed.inv.popped_le_head
  have hwin := hinv.backed.window
  have hstaged := hheld.staged rfl
  have hsole := hheld.sole
  split_ifs with hfull
  · refine ⟨hinv.backed.loadTail hk hk', hinv.fresh, hinv.not_misused, none, rfl, ?_⟩
    rw [hstaged] at hsole ⊢
    exact held_none hsole
  · refine ⟨hinv.backed.loadTail hk hk', ?_, hinv.not_misused, some s.made, hactive, ?_⟩
    · exact fresh_update (fun j hj => hinv.fresh j (Nat.le_of_succ_le hj)) (Nat.lt_succ_self _) _
    · refine ⟨hsole.take (Or.inl rfl) ⟨rfl, rfl, rfl, ?_⟩, fun hnone => absurd hnone (by simp), fun _ => ?_⟩
      · rw [hstaged]
        rfl
      · rw [cap.size_le_sub_iff (hk'.trans hle) (by omega)] at hfull
        exact Nat.lt_of_not_le hfull

theorem Inv.destroyObject {r : Reservation cap} (howns : Owns s.committed.length s.staged.isSome r)
    (hbuilt : r.constructed = true) :
    s.destroyObject r = { s with
      ring := { s.ring with buffer := s.ring.buffer.destroyAt (cap.slotPtr (UInt64.ofNat s.committed.length)) }
      staged := none } ∧
    Backed fifo { s.ring with buffer := s.ring.buffer.destroyAt (cap.slotPtr (UInt64.ofNat s.committed.length)) }
      s.consumer s.tailView s.committed none := by
  obtain ⟨-, -, hptr, hconstructed⟩ := howns
  obtain ⟨v, hv⟩ := Option.isSome_iff_exists.mp (hconstructed.symm.trans hbuilt)
  have hbacked := hinv.backed
  rw [hv] at hbacked
  exact ⟨by rw [ZeroCopySpsc.destroyObject, hptr], hbacked.withdraw⟩

section Handle
variable {i : Nat} {r : Reservation cap} (hr : s.handles i = some r)
include hr

theorem Inv.owns (hpc : s.pc = .idle) (hqueue : r.queue = true) : s.activeReservation = true ∧
    Held s.handles s.tailView s.committed.length s.staged (some i) ∧ Owns s.committed.length s.staged.isSome r := by
  obtain ⟨holder, hactive, hheld⟩ := hinv.idle hpc
  obtain rfl := hheld.sole.eq_some_of_not_blank hr fun hblank => by simp [hblank.1] at hqueue
  exact ⟨hactive, hheld, hheld.sole.get hr⟩

theorem Inv.construct (hpc : s.pc = .idle) (hqueue : r.queue = true) (v : α) :
    Inv fifo (s.construct i v r) := by
  obtain ⟨hactive, hheld, howns⟩ := hinv.owns hr hpc hqueue
  have hptr : r.ptr.isNone = false := by rw [howns.2.2.1]; rfl
  simp only [ZeroCopySpsc.construct, hptr, Bool.false_eq_true, if_false]
  cases hbuilt : r.constructed with
  | true =>
    obtain ⟨hdestroy, hbacked⟩ := hinv.destroyObject howns hbuilt
    rw [hdestroy]
    refine ⟨hbacked, fresh_update hinv.fresh (hinv.lt_made hr) _, hinv.not_misused, hactive, ⟨?_, ?_, hheld.room⟩, rfl⟩
    · exact hheld.sole.take (Or.inr rfl) ⟨hqueue, howns.2.1, howns.2.2.1, rfl⟩
    · exact fun _ => rfl
  | false =>
    have hstaged : s.staged = none := by
      rw [← Option.not_isSome_iff_eq_none, ← howns.2.2.2, hbuilt]
      simp
    exact ⟨hinv.backed, hinv.fresh, hinv.not_misused, hactive, hheld, hstaged⟩

theorem Inv.commit (hpc : s.pc = .idle) : Inv fifo (s.commit i r) := by
  unfold ZeroCopySpsc.commit
  split_ifs with hskip
  · exact hinv
  · obtain ⟨hqueue, hbuilt⟩ : r.queue = true ∧ r.constructed = true := by simpa using hskip
    obtain ⟨-, hheld, howns⟩ := hinv.owns hr hpc hqueue
    obtain ⟨v, hv⟩ := Option.isSome_iff_exists.mp (howns.2.2.2.symm.trans hbuilt)
    have hbacked := hinv.backed
    rw [hv] at hbacked
    refine ⟨?_, hinv.fresh, hinv.not_misused, rfl, hheld.sole.mono fun _ _ => trivial⟩
    rw [hv, howns.2.1]
    exact hbacked.publish (hheld.room (by simp))

theorem Inv.constructAt {v : α} (hpc : s.pc = .constructing i v) : Inv fifo (s.constructAt i v r) := by
  obtain ⟨hactive, hheld, hstaged⟩ : s.activeReservation = true ∧
      Held s.handles s.tailView s.committed.length s.staged (some i) ∧ s.staged = none := by
    have hat := hinv.pc_at
    rwa [PcAt, hpc] at hat
  obtain ⟨hqueue, hindex, hptr, -⟩ := hheld.sole.get hr
  have hbacked := hinv.backed
  rw [hstaged] at hbacked
  simp only [ZeroCopySpsc.constructAt, hptr]
  refine ⟨hbacked.construct (hheld.room (by simp)) v, fresh_update hinv.fresh (hinv.lt_made hr) _, hinv.not_misused,
    some i, hactive, hheld.sole.take (Or.inr rfl) ⟨hqueue, hindex, rfl, rfl⟩, ?_, hheld.room⟩
  exact fun hnone => absurd hnone (by simp)

theorem Inv.afterCancel (hpc : s.pc = .idle) (hqueue : r.queue = false) {after : AfterCancel}
    (hafter : after ≠ .moveFrom i) : Inv fifo (s.afterCancel i after) := by
  obtain ⟨holder, hactive, hheld⟩ := hinv.idle hpc
  have hi : holder ≠ some i := by
    rintro rfl
    simp [(hheld.sole.get hr).1] at hqueue
  have hmade := hinv.lt_made hr
  cases after with
  | keep => exact hinv
  | destroy =>
    refine hinv.set_handles hpc (fresh_update hinv.fresh hmade _) hactive ⟨?_, hheld.staged, hheld.room⟩
    exact hheld.sole.update_other hi (by simp)
  | moveFrom src =>
    have hne : i ≠ src := fun heq => hafter (congrArg AfterCancel.moveFrom heq.symm)
    simp only [ZeroCopySpsc.afterCancel, moveFrom]
    split
    · exact hinv
    · rename_i r' hsrc
      obtain ⟨holder', hisSome, hheld'⟩ := hheld.move hsrc hne hi
      exact hinv.set_handles hpc (fresh_update (fresh_update hinv.fresh hmade _) (hinv.lt_made hsrc) _)
        (hactive.trans hisSome.symm) hheld'

theorem Inv.release (hstaged : s.staged = none) (hsole : Sole Blank (fun _ => True) s.handles (some i)) :
    Inv fifo (s.release i r) := by
  refine ⟨hinv.backed, fresh_update hinv.fresh (hinv.lt_made hr) _, hinv.not_misused, none, rfl, ?_⟩
  show Held _ _ _ s.staged _
  rw [hstaged]
  exact held_none (hsole.clear r.blank_cleared)

theorem Inv.cancel (hpc : s.pc = .idle) {after : AfterCancel} (hafter : after ≠ .moveFrom i) :
    Inv fifo (s.cancel i r after) := by
  unfold ZeroCopySpsc.cancel
  split_ifs with hqueue hbuilt
  · exact hinv.afterCancel hr hpc (by simpa using hqueue) hafter
  · obtain ⟨-, hheld, howns⟩ := hinv.owns hr hpc (by simpa using hqueue)
    obtain ⟨hdestroy, hbacked⟩ := hinv.destroyObject howns hbuilt
    rw [hdestroy]
    exact ⟨hbacked, hinv.fresh, hinv.not_misused, ⟨rfl, hheld.sole.mono fun _ _ => trivial⟩, hafter⟩
  · obtain ⟨-, hheld, howns⟩ := hinv.owns hr hpc (by simpa using hqueue)
    have hstaged : s.staged = none := by
      rw [← Option.not_isSome_iff_eq_none, ← howns.2.2.2]
      exact hbuilt
    exact ⟨hinv.backed, hinv.fresh, hinv.not_misused, ⟨hstaged, hheld.sole.mono fun _ _ => trivial⟩, hafter⟩

theorem Inv.moveConstruct (hpc : s.pc = .idle) : Inv fifo ((s.setHandle i (some r.cleared)).create r) := by
  obtain ⟨holder, hactive, hheld⟩ := hinv.idle hpc
  have hfree := hinv.fresh s.made le_rfl
  have hmade := hinv.lt_made hr
  obtain ⟨holder', hisSome, hheld'⟩ :=
    hheld.move hr (Nat.ne_of_gt hmade) (hheld.sole.ne_some_of_eq_none hfree)
  rw [Function.update_comm (Nat.ne_of_gt hmade)] at hheld'
  refine hinv.set_handles hpc ?_ (hactive.trans hisSome.symm) hheld'
  refine fresh_update (fresh_update ?_ (Nat.lt_succ_of_lt hmade) _) (Nat.lt_succ_self _) _
  exact fun j hj => hinv.fresh j (Nat.le_of_succ_le hj)

end Handle

theorem Inv.onHandle {i : Nat} {f : Reservation cap → ZeroCopySpsc cap α}
    (h : ∀ r, s.handles i = some r → Inv fifo (f r)) : Inv fifo (s.onHandle i f) := by
  unfold ZeroCopySpsc.onHandle
  cases hr : s.handles i with
  | none => exact hinv
  | some r => exact h r hr

theorem Inv.producerStep {a : ReserveStep α} (ha : s.allowed (.producer a) = true) : Inv fifo (s.producerStep a) := by
  have hat := hinv.pc_at
  unfold ZeroCopySpsc.producerStep
  split
  case h_1 hpc => exact hinv.defaultConstruct hpc
  case h_2 hpc =>
    split_ifs with hactive
    · exact hinv
    · exact hinv.tryReserve hpc (by simpa using hactive)
  case h_3 hpc => exact hinv.loadHead hpc
  case h_4 head k hpc =>
    split
    · exact hinv
    case h_2 hload => exact hinv.loadTail hpc hload
  case h_5 i v hpc =>
    refine hinv.onHandle fun r hr => hinv.construct hr hpc ?_ v
    simpa [allowed, hpc, ReservePc.isBusy, hr] using ha
  case h_6 i v hpc => exact hinv.onHandle fun r hr => hinv.constructAt hr hpc
  case h_7 i v hpc =>
    rw [PcAt, hpc] at hat
    exact ⟨hinv.backed, hinv.fresh, hinv.not_misused, some i, hat.1, hat.2.1⟩
  case h_8 i hpc => exact hinv.onHandle fun r hr => hinv.commit hr hpc
  case h_9 i hpc =>
    rw [PcAt, hpc] at hat
    exact hinv.onHandle fun r hr => hinv.release hr hat.1 hat.2
  case h_10 i hpc => exact hinv.onHandle fun r hr => hinv.cancel hr hpc (by simp)
  case h_11 i hpc => exact hinv.onHandle fun r hr => hinv.cancel hr hpc (by simp)
  case h_12 src hpc => exact hinv.onHandle fun r hr => hinv.moveConstruct hr hpc
  case h_13 dst src hpc =>
    split_ifs with hsame
    · exact hinv
    · refine hinv.onHandle fun r hr => hinv.cancel hr hpc fun heq => hsame (Or.inl ?_)
      exact (AfterCancel.moveFrom.inj heq).symm
  case h_14 i after hpc =>
    rw [PcAt, hpc] at hat
    refine hinv.onHandle fun r hr => ?_
    have hcleared : (s.release i r).handles i = some r.cleared := Function.update_self ..
    exact (hinv.release hr hat.1.1 hat.1.2).afterCancel hcleared rfl rfl hat.2
  case h_15 => exact hinv

theorem Inv.step {a : ZeroCopyStep α} (ha : s.allowed a = true)
    (hmove : fifo → ∀ residue, a ≠ .consumer (.moveThrows residue)) : Inv fifo (s.step a) := by
  cases a with
  | producer a => exact hinv.producerStep ha
  | consumer a =>
    refine ⟨hinv.backed.popStep a fun hfifo residue heq => ?_, hinv.fresh, hinv.not_misused, hinv.pc_at⟩
    exact hmove hfifo residue (congrArg ZeroCopyStep.consumer heq)

theorem Inv.run {steps : List (ZeroCopyStep α)} (hobeys : s.obeys steps = true)
    (hmove : fifo → ∀ residue, ZeroCopyStep.consumer (.moveThrows residue) ∉ steps) : Inv fifo (s.run steps) := by
  induction steps generalizing s with
  | nil => exact hinv
  | cons a steps ih =>
    obtain ⟨ha, hrest⟩ := Bool.and_eq_true_iff.mp hobeys
    refine ih (hinv.step ha fun hfifo residue heq => ?_) hrest fun hfifo residue hmem => ?_
    · exact hmove hfifo residue (heq ▸ List.mem_cons_self)
    · exact hmove hfifo residue (List.mem_cons_of_mem _ hmem)

end Steps

theorem Inv.reservations {fifo : Prop} {s : ZeroCopySpsc cap α} (hinv : Inv fifo s) (hpc : s.pc = .idle) :
    (∀ i j, s.HoldsReservation i → s.HoldsReservation j → i = j) ∧
      (s.activeReservation = true ↔ ∃ i, s.HoldsReservation i) ∧
      ∀ i r, s.handles i = some r → r.queue = true →
        r.index = s.ring.head.current ∧ r.constructed = s.staged.isSome := by
  obtain ⟨holder, hactive, hheld⟩ := hinv.idle hpc
  have hholder (i : Nat) (hi : s.HoldsReservation i) : holder = some i := by
    obtain ⟨r, hr, hqueue⟩ := hi
    exact hheld.sole.eq_some_of_not_blank hr fun hblank => by simp [hblank.1] at hqueue
  refine ⟨fun i j hi hj => ?_, ⟨fun hset => ?_, ?_⟩, fun i r hr hqueue => ?_⟩
  · exact Option.some.inj ((hholder i hi).symm.trans (hholder j hj))
  · obtain ⟨i, rfl⟩ := Option.isSome_iff_exists.mp (hactive.symm.trans hset)
    obtain ⟨r, hr, howns⟩ := hheld.sole.held i rfl
    exact ⟨i, r, hr, howns.1⟩
  · rintro ⟨i, hi⟩
    rw [hactive, hholder i hi]
    rfl
  · obtain ⟨-, -, howns⟩ := hinv.owns hr hpc hqueue
    exact ⟨howns.2.1.trans hinv.backed.inv.head_counts.current_eq.symm, howns.2.2.2⟩

theorem Inv.staged_eq_none {fifo : Prop} {s : ZeroCopySpsc cap α} (hinv : Inv fifo s) (hpc : s.pc = .idle)
    (hgone : ∀ i, s.handles i = none) : s.staged = none := by
  obtain ⟨holder, -, hheld⟩ := hinv.idle hpc
  refine hheld.staged (Option.eq_none_iff_forall_ne_some.mpr fun i => ?_)
  exact hheld.sole.ne_some_of_eq_none (hgone i)

theorem bounded_fifo (cap : Capacity) (steps : List (ZeroCopyStep α))
    (hobeys : (initial cap α).obeys steps = true) :
    let s := (initial cap α).run steps
    (s.pc = .idle →
      (∀ i j, s.HoldsReservation i → s.HoldsReservation j → i = j) ∧
      (s.activeReservation = true ↔ ∃ i, s.HoldsReservation i) ∧
      ∀ i r, s.handles i = some r → r.queue = true →
        r.index = s.ring.head.current ∧ r.constructed = s.staged.isSome) ∧
    ((∀ residue, ZeroCopyStep.consumer (.moveThrows residue) ∉ steps) →
      s.consumer.returned <+: s.committed.map some ∧
      s.consumer.returned ++ s.consumer.pc.inHand ++ s.ring.contents.drop s.consumer.pc.taken =
        s.committed.map some) ∧
    s.consumer.returned.length ≤ s.committed.length ∧
    s.committed.length ≤ s.consumer.returned.length + cap.toNat ∧
    s.ring.head.stores.length = s.committed.length ∧
    s.misused = false ∧
    (∀ a ∈ s.ring.buffer.log, a.legal = true) ∧
    (s.pc = .idle → s.consumer.pc = .idle → (∀ i, s.handles i = none) →
      ∀ fuel, cap.toNat < fuel → ∃ st, s.ring.destroyRemaining fuel = some st ∧
        (∀ a ∈ st.log, a.legal = true) ∧ (∀ i, (st.slots i).isLive = false) ∧
        st.born = s.ring.buffer.born ∧ ∀ id < st.born, st.deaths id = 1) := by
  intro s
  have hinv : Inv (∀ residue, ZeroCopyStep.consumer (.moveThrows residue) ∉ steps) s :=
    (inv_initial _ cap α).run hobeys id
  have hring := hinv.backed.inv
  have hroom := hring.room
  refine ⟨hinv.reservations, hinv.backed.in_order, hring.popped_le_head, ?_, hring.head_counts.length_stores,
    hinv.not_misused, hring.lawful, fun hpc hcons hgone fuel hfuel => ?_⟩
  · exact le_trans (Nat.le_add_right _ _) hroom
  · rw [hinv.staged_eq_none hpc hgone] at hring
    obtain ⟨st, hst, hraw, hlaw, hacc, hborn⟩ := hring.destroyRemaining hcons hfuel
    exact ⟨st, hst, hlaw, fun i => by rw [hraw i]; rfl, hborn, fun id hid => hacc.deaths_eq_one hraw hid⟩

def commitThenAbandon : List (ZeroCopyStep Nat) :=
  [.producer .tryReserve, .producer .loadHead, .producer (.loadTail 0),
    .producer (.construct 0 6), .producer .constructAt, .producer (.construct 0 7), .producer .constructAt,
    .producer (.commit 0), .consumer .loadTail, .consumer (.loadHead 1), .producer .release,
    .producer .tryReserve, .producer .loadHead, .producer (.loadTail 0), .consumer .moveOut,
    .producer (.construct 1 8), .producer .constructAt, .producer (.moveConstruct 1), .consumer .destroyAt,
    .producer (.destroy 2), .producer .release, .consumer .storeTail,
    .producer (.destroy 0), .producer (.destroy 1)]

theorem bounded_fifo_commitThenAbandon :
    let s := (initial .least Nat).run commitThenAbandon
    (initial .least Nat).obeys commitThenAbandon = true ∧ s.consumer.returned = [some 7] ∧ s.committed = [7] ∧
      s.consumer.returned <+: s.committed.map some ∧ s.ring.buffer.born = 3 ∧
      ∃ st, s.ring.destroyRemaining 3 = some st ∧ ∀ id < 3, st.deaths id = 1 := by
  have hobeys : (initial .least Nat).obeys commitThenAbandon = true := rfl
  obtain ⟨-, hfifo, -, -, -, -, -, hdestroy⟩ := bounded_fifo .least commitThenAbandon hobeys
  have hgone (i : Nat) : ((initial .least Nat).run commitThenAbandon).handles i = none := by
    match i with
    | 0 | 1 | 2 => rfl
    | _ + 3 => rfl
  obtain ⟨st, hst, -, -, hborn, hdeaths⟩ := hdestroy rfl rfl hgone 3 (by decide)
  refine ⟨hobeys, rfl, rfl, (hfifo ?_).1, rfl, st, hst, fun id hid => hdeaths id (hborn ▸ hid)⟩
  simp [commitThenAbandon]

end ZeroCopySpsc
end AetherStream
