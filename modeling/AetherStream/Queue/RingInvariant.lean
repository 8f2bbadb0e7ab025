import AetherStream.Queue.Ring

/-! The invariant of the shared ring: which slots hold an object at every program point of
the consumer, for a producer that has published `h` values and may have `built` one more
object in the slot after them. Nothing here depends on which queue the producer belongs to. -/

namespace AetherStream
open Basis ModularCounter

namespace PopPc
variable {α : Type*}

def reclaimed : PopPc α → Nat
  | destroyed _ _ => 1
  | _ => 0

def taken : PopPc α → Nat
  | movedOut _ _ | destroyed _ _ => 1
  | _ => 0

theorem reclaimed_le_taken (pc : PopPc α) : pc.reclaimed ≤ pc.taken := by
  cases pc <;> simp only [reclaimed, taken, le_refl, Nat.zero_le]

def inHand : PopPc α → List (Option α)
  | movedOut _ out | destroyed _ out => [out]
  | _ => []

def At (t view : Nat) : PopPc α → Prop
  | idle => True
  | loadedTail tail => tail = UInt64.ofNat t
  | nonEmpty tail | movedOut tail _ | destroyed tail _ => tail = UInt64.ofNat t ∧ t < view

end PopPc

namespace Consumer
variable {α : Type*}

def initial (α : Type*) : Consumer α := ⟨.idle, 0, []⟩

def popped (c : Consumer α) : Nat := c.returned.length

end Consumer

namespace Ring
variable {cap : Capacity} {α : Type*}

def slotAt (r : Ring cap α) (i : Nat) : Slot α := r.buffer.slots (Fin.ofNat cap.toNat i)

structure Inv (r : Ring cap α) (c : Consumer α) (h : Nat) (built : Bool) : Prop where
  head_counts : r.head.Counts h
  tail_counts : r.tail.Counts c.popped
  popped_le : c.popped ≤ c.headView
  view_le : c.headView ≤ h
  room : h + built.toNat ≤ c.popped + cap.toNat
  pc_at : c.pc.At c.popped c.headView
  live : ∀ i, c.popped ≤ i → i < c.popped + cap.toNat →
    ((r.slotAt i).isLive = true ↔ c.popped + c.pc.reclaimed ≤ i ∧ i < h + built.toNat)
  lawful : r.buffer.Lawful
  accounted : r.buffer.Accounted

theorem inv_empty (cap : Capacity) (α : Type*) : Inv (empty cap α) (Consumer.initial α) 0 false where
  head_counts := AtomicCell.counts_zero
  tail_counts := AtomicCell.counts_zero
  popped_le := le_rfl
  view_le := le_rfl
  room := Nat.zero_le _
  pc_at := trivial
  live i _ _ := by simp [slotAt, empty, Storage.empty, Slot.isLive, Slot.object]
  lawful := Storage.lawful_empty
  accounted := Storage.accounted_empty

section Slots
variable {r : Ring cap α} {t i j : Nat}

theorem slotAt_update (s : Slot α) {st : Storage cap.toNat α}
    (hst : st.slots = Function.update r.buffer.slots (cap.slotPtr (UInt64.ofNat j)) s)
    (hi : t ≤ i) (hi' : i < t + cap.toNat) (hj : t ≤ j) (hj' : j < t + cap.toNat) :
    slotAt { r with buffer := st } i = if i = j then s else r.slotAt i := by
  unfold slotAt
  rw [hst, Capacity.slotPtr_ofNat]
  exact update_wrap _ _ hi hi' hj hj'

theorem slotAt_slotPtr (r : Ring cap α) (i : Nat) :
    r.buffer.slots (cap.slotPtr (UInt64.ofNat i)) = r.slotAt i := by
  rw [Capacity.slotPtr_ofNat]
  rfl

theorem slotAt_add_capacity (r : Ring cap α) (i : Nat) : r.slotAt (i + cap.toNat) = r.slotAt i := by
  unfold slotAt
  rw [wrap_add_window]

end Slots

namespace Inv
variable {r : Ring cap α} {c c' : Consumer α} {h : Nat} {built : Bool}

theorem popped_le_head (hinv : Inv r c h built) : c.popped ≤ h := hinv.popped_le.trans hinv.view_le

theorem popped_add_taken_le (hinv : Inv r c h built) : c.popped + c.pc.taken ≤ h := by
  have hat := hinv.pc_at
  have hle := hinv.popped_le
  have hview := hinv.view_le
  cases hc : c.pc <;> simp only [hc, PopPc.At, PopPc.taken] at hat ⊢ <;> omega

theorem popped_add_reclaimed_le (hinv : Inv r c h built) : c.popped + c.pc.reclaimed ≤ h :=
  (Nat.add_le_add_left c.pc.reclaimed_le_taken _).trans hinv.popped_add_taken_le

theorem local_step (hinv : Inv r c h built) (hret : c'.returned = c.returned)
    (hrec : c'.pc.reclaimed = c.pc.reclaimed) (hview : c.headView ≤ c'.headView)
    (hview' : c'.headView ≤ h) (hat : c'.pc.At c.popped c'.headView) : Inv r c' h built := by
  have hpop : c'.popped = c.popped := congrArg List.length hret
  refine ⟨hinv.head_counts, hpop ▸ hinv.tail_counts, hpop ▸ hinv.popped_le.trans hview, hview',
    hpop ▸ hinv.room, hpop ▸ hat, ?_, hinv.lawful, hinv.accounted⟩
  rw [hpop, hrec]
  exact hinv.live

theorem live_popped (hinv : Inv r c h built) (hlt : c.popped < h) (hrec : c.pc.reclaimed = 0) :
    (r.slotAt c.popped).isLive = true := by
  have hroom := hinv.room
  exact (hinv.live _ le_rfl (by omega)).mpr ⟨by omega, by omega⟩

theorem slot_step (hinv : Inv r c h built) (hlt : c.popped < h) (s : Slot α)
    {st : Storage cap.toNat α} (hret : c'.returned = c.returned) (hview : c'.headView = c.headView)
    (hat : c'.pc.At c.popped c.headView)
    (hst : st.slots = Function.update r.buffer.slots (cap.slotPtr (UInt64.ofNat c.popped)) s)
    (hlive : s.isLive = true ↔ c'.pc.reclaimed = 0) (hle : c'.pc.reclaimed ≤ 1)
    (hrec : c.pc.reclaimed = 0) (hlaw : st.Lawful) (hacc : st.Accounted) :
    Inv { r with buffer := st } c' h built := by
  have hpop : c'.popped = c.popped := congrArg List.length hret
  have hroom := hinv.room
  refine ⟨hinv.head_counts, hpop ▸ hinv.tail_counts, hpop ▸ hview ▸ hinv.popped_le, hview ▸ hinv.view_le,
    hpop ▸ hinv.room, hpop ▸ hview ▸ hat, ?_, hlaw, hacc⟩
  rw [hpop]
  intro i hi hi'
  rw [slotAt_update s hst hi hi' le_rfl (by omega)]
  split_ifs with heq
  · subst heq
    rw [hlive]
    omega
  · rw [hinv.live i hi hi', hrec]
    omega

theorem loadTail (hinv : Inv r c h built) (hpc : c.pc = .idle) :
    Inv r { c with pc := .loadedTail r.tail.current } h built :=
  hinv.local_step rfl (by rw [hpc]; rfl) le_rfl hinv.view_le hinv.tail_counts.current_eq

theorem loadHead_empty {tail head : UInt64} {k : Nat} (hinv : Inv r c h built)
    (hpc : c.pc = .loadedTail tail) (hload : r.head.load c.headView k = some head) :
    Inv r { c with pc := .idle, headView := k } h built := by
  obtain ⟨hview, hk, -⟩ := hinv.head_counts.load_eq_some.mp hload
  exact hinv.local_step rfl (by rw [hpc]; rfl) hview hk trivial

theorem loadHead_nonEmpty {tail head : UInt64} {k : Nat} (hinv : Inv r c h built)
    (hpc : c.pc = .loadedTail tail) (hload : r.head.load c.headView k = some head) (hne : tail ≠ head) :
    Inv r { c with pc := .nonEmpty tail, headView := k } h built := by
  obtain ⟨hview, hk, rfl⟩ := hinv.head_counts.load_eq_some.mp hload
  have htail : c.pc.At c.popped c.headView := hinv.pc_at
  rw [hpc] at htail
  -- the consumer never sees a `head_` older than its own `tail_`, so unequal means ahead
  have hlt : c.popped < k := by
    rcases Nat.lt_or_ge c.popped k with hlt | hge
    · exact hlt
    · have heq : c.popped = k := le_antisymm (hinv.popped_le.trans hview) hge
      exact absurd (heq ▸ htail) hne
  exact hinv.local_step rfl (by rw [hpc]; rfl) hview hk ⟨htail, hlt⟩

theorem move {tail : UInt64} (hinv : Inv r c h built) (hpc : c.pc = .nonEmpty tail)
    (residue : Option α) (hret : c'.returned = c.returned) (hview : c'.headView = c.headView)
    (hat : c'.pc.At c.popped c.headView) (hrec : c'.pc.reclaimed = 0) :
    Inv { r with buffer := r.buffer.moveLeaving residue (cap.slotPtr tail) } c' h built := by
  obtain ⟨rfl, hlt⟩ : tail = UInt64.ofNat c.popped ∧ c.popped < c.headView := by
    simpa only [hpc, PopPc.At] using hinv.pc_at
  have hlt' : c.popped < h := hlt.trans_le hinv.view_le
  have hrec' : c.pc.reclaimed = 0 := by rw [hpc]; rfl
  have hlive := hinv.live_popped hlt' hrec'
  rw [← slotAt_slotPtr] at hlive
  refine hinv.slot_step hlt' _ hret hview hat rfl ?_ (by omega) hrec'
    (hinv.lawful.moveLeaving hlive residue) (hinv.accounted.moveLeaving _ residue)
  simp only [Slot.isLive_revalue, hlive, hrec]

theorem destroyAt {tail : UInt64} {out : Option α} (hinv : Inv r c h built)
    (hpc : c.pc = .movedOut tail out) :
    Inv { r with buffer := r.buffer.destroyAt (cap.slotPtr tail) } { c with pc := .destroyed tail out }
      h built := by
  obtain ⟨rfl, hlt⟩ : tail = UInt64.ofNat c.popped ∧ c.popped < c.headView := by
    simpa only [hpc, PopPc.At] using hinv.pc_at
  have hlt' : c.popped < h := hlt.trans_le hinv.view_le
  have hrec : c.pc.reclaimed = 0 := by rw [hpc]; rfl
  have hlive := hinv.live_popped hlt' hrec
  rw [← slotAt_slotPtr] at hlive
  refine hinv.slot_step hlt' .raw rfl rfl ⟨rfl, hlt⟩ rfl ?_ le_rfl hrec
    (hinv.lawful.destroyAt hlive) (hinv.accounted.destroyAt _)
  simp [Slot.isLive, Slot.object, PopPc.reclaimed]

theorem storeTail {tail : UInt64} {out : Option α} (hinv : Inv r c h built)
    (hpc : c.pc = .destroyed tail out) :
    Inv { r with tail := r.tail.store (tail + 1) }
      { c with pc := .idle, returned := c.returned ++ [out] } h built := by
  obtain ⟨rfl, hlt⟩ : tail = UInt64.ofNat c.popped ∧ c.popped < c.headView := by
    simpa only [hpc, PopPc.At] using hinv.pc_at
  have hpop : Consumer.popped { c with pc := .idle, returned := c.returned ++ [out] } = c.popped + 1 := by
    simp [Consumer.popped]
  have hroom := hinv.room
  refine ⟨hinv.head_counts, ?_, ?_, hinv.view_le, ?_, trivial, ?_, hinv.lawful, hinv.accounted⟩
  · rw [hpop]
    exact hinv.tail_counts.store_succ
  · rw [hpop]
    exact hlt
  · rw [hpop]
    omega
  · rw [hpop]
    intro i hi hi'
    have hrec : c.pc.reclaimed = 1 := by rw [hpc]; rfl
    show (r.slotAt i).isLive = true ↔ c.popped + 1 + 0 ≤ i ∧ i < h + built.toNat
    by_cases hlast : i < c.popped + cap.toNat
    · rw [hinv.live i (by omega) hlast, hrec, Nat.add_zero]
    -- the window slides over the slot that was just given back
    · have hwrap : i = c.popped + cap.toNat := by omega
      rw [hwrap, slotAt_add_capacity, hinv.live _ le_rfl (by omega), hrec]
      omega

theorem popStep (hinv : Inv r c h built) (a : PopStep α) :
    Inv (Ring.popStep a r c).1 (Ring.popStep a r c).2 h built := by
  unfold Ring.popStep
  split
  case h_1 hpc => exact hinv.loadTail hpc
  case h_2 tail k hpc =>
    split
    · exact hinv
    case h_2 head hload =>
      split_ifs with heq
      · exact hinv.loadHead_empty hpc hload
      · exact hinv.loadHead_nonEmpty hpc hload heq
  case h_3 tail hpc =>
    have hat : c.pc.At c.popped c.headView := hinv.pc_at
    rw [hpc] at hat
    exact hinv.move hpc none rfl rfl hat rfl
  case h_4 tail residue hpc => exact hinv.move hpc residue rfl rfl trivial rfl
  case h_5 tail out hpc => exact hinv.destroyAt hpc
  case h_6 tail out hpc => exact hinv.storeTail hpc
  case h_7 => exact hinv

theorem construct (hinv : Inv r c h false) (hroom : h < c.popped + cap.toNat) (v : α) :
    Inv { r with buffer := r.buffer.constructAt (cap.slotPtr (UInt64.ofNat h)) v } c h true := by
  have hle := hinv.popped_le_head
  have hfree : (r.slotAt h).isLive = false := by
    rw [← Bool.not_eq_true, hinv.live h hle hroom]
    simp
  rw [← slotAt_slotPtr] at hfree
  refine ⟨hinv.head_counts, hinv.tail_counts, hinv.popped_le, hinv.view_le, hroom, hinv.pc_at, ?_,
    hinv.lawful.constructAt hfree v, hinv.accounted.constructAt hfree v⟩
  intro i hi hi'
  rw [slotAt_update (.live r.buffer.born v) rfl hi hi' hle hroom, Bool.toNat_true]
  split_ifs with heq
  · have hpc := hinv.popped_add_reclaimed_le
    simp only [Slot.isLive, Slot.object, Option.isSome_some, true_iff]
    omega
  · rw [hinv.live i hi hi', Bool.toNat_false]
    omega

theorem withdraw (hinv : Inv r c h true) :
    Inv { r with buffer := r.buffer.destroyAt (cap.slotPtr (UInt64.ofNat h)) } c h false := by
  have hle := hinv.popped_le_head
  have hroom : h + 1 ≤ c.popped + cap.toNat := hinv.room
  have hlive : (r.slotAt h).isLive = true :=
    (hinv.live h hle hroom).mpr ⟨hinv.popped_add_reclaimed_le, Nat.lt_succ_self h⟩
  rw [← slotAt_slotPtr] at hlive
  refine ⟨hinv.head_counts, hinv.tail_counts, hinv.popped_le, hinv.view_le, by simpa using by omega,
    hinv.pc_at, ?_, hinv.lawful.destroyAt hlive, hinv.accounted.destroyAt _⟩
  intro i hi hi'
  rw [slotAt_update .raw rfl hi hi' hle hroom, Bool.toNat_false]
  split_ifs with heq
  · simp only [Slot.isLive, Slot.object, Option.isSome_none, Bool.false_eq_true, false_iff]
    omega
  · rw [hinv.live i hi hi', Bool.toNat_true]
    omega

theorem publish (hinv : Inv r c h true) :
    Inv { r with head := r.head.store (UInt64.ofNat h + 1) } c (h + 1) false :=
  ⟨hinv.head_counts.store_succ, hinv.tail_counts, hinv.popped_le, hinv.view_le.trans (Nat.le_succ h),
    hinv.room, hinv.pc_at, hinv.live, hinv.lawful, hinv.accounted⟩

end Inv

theorem popped_le_popStep (a : PopStep α) (r : Ring cap α) (c : Consumer α) :
    c.popped ≤ (popStep a r c).2.popped := by
  unfold popStep
  split <;> (try split) <;> (try split) <;> simp [Consumer.popped]

theorem destroyLoop_of_live (t n : Nat) (hn : n ≤ cap.toNat) (st : Storage cap.toNat α)
    (hlive : ∀ i, t ≤ i → i < t + cap.toNat →
      ((st.slots (Fin.ofNat cap.toNat i)).isLive = true ↔ i < t + n))
    (hlaw : st.Lawful) (hacc : st.Accounted) (fuel : Nat) (hfuel : n < fuel) :
    ∃ st', destroyLoop (UInt64.ofNat (t + n)) fuel (UInt64.ofNat t) st = some st' ∧
      (∀ i, st'.slots i = .raw) ∧ st'.Lawful ∧ st'.Accounted ∧ st'.born = st.born := by
  induction n generalizing t st fuel with
  | zero =>
    obtain ⟨fuel, rfl⟩ : ∃ f, fuel = f + 1 := ⟨fuel - 1, by omega⟩
    refine ⟨st, by simp [destroyLoop], fun i => ?_, hlaw, hacc, rfl⟩
    obtain ⟨j, hj, hj', rfl⟩ := exists_wrap_eq t i
    apply Slot.eq_raw_of_not_isLive
    rw [← Bool.not_eq_true, hlive j hj hj']
    omega
  | succ n ih =>
    obtain ⟨fuel, rfl⟩ : ∃ f, fuel = f + 1 := ⟨fuel - 1, by omega⟩
    have hlt := cap.toNat_lt
    have hne : UInt64.ofNat t ≠ UInt64.ofNat (t + (n + 1)) := by
      rw [ne_eq, ofNat_eq_iff (by omega) (by omega)]
      omega
    have ht : (st.slots (Fin.ofNat cap.toNat t)).isLive = true :=
      (hlive t le_rfl (by omega)).mpr (by omega)
    rw [destroyLoop, if_neg hne, Capacity.slotPtr_ofNat, ofNat_succ,
      show t + (n + 1) = t + 1 + n by omega]
    refine ih (t + 1) (by omega) _ ?_ (hlaw.destroyAt ht) (hacc.destroyAt _) fuel (by omega)
    intro i hi hi'
    by_cases hlast : i < t + cap.toNat
    · rw [Storage.slots_destroyAt, update_wrap _ _ (by omega : t ≤ i) hlast le_rfl (by omega),
        if_neg (by omega : i ≠ t), hlive i (by omega) hlast]
      omega
    · have hwrap : i = t + cap.toNat := by omega
      rw [hwrap, wrap_add_window]
      simp [Slot.isLive, Slot.object]
      omega

theorem Inv.destroyRemaining {r : Ring cap α} {c : Consumer α} {h : Nat} (hinv : Inv r c h false)
    (hidle : c.pc = .idle) {fuel : Nat} (hfuel : cap.toNat < fuel) :
    ∃ st, r.destroyRemaining fuel = some st ∧ (∀ i, st.slots i = .raw) ∧ st.Lawful ∧ st.Accounted ∧
      st.born = r.buffer.born := by
  have hle := hinv.popped_le_head
  have hroom : h ≤ c.popped + cap.toNat := hinv.room
  unfold Ring.destroyRemaining
  rw [hinv.head_counts.current_eq, hinv.tail_counts.current_eq, show h = c.popped + (h - c.popped) by omega]
  refine destroyLoop_of_live c.popped (h - c.popped) (by omega) r.buffer ?_ hinv.lawful hinv.accounted
    fuel (by omega)
  intro i hi hi'
  refine (hinv.live i hi hi').trans ?_
  simp only [hidle, PopPc.reclaimed, Bool.toNat_false]
  omega

/-- The slots from the consumer's position on hold `vals`, the values of all the published
and built objects in order, and what the consumer took so far is the start of that list. -/
structure Holds (r : Ring cap α) (c : Consumer α) (vals : List α) : Prop where
  returned : c.returned = (vals.take c.popped).map some
  inHand : c.pc.inHand = ((vals.drop c.popped).take c.pc.taken).map some
  value : ∀ i, c.popped + c.pc.taken ≤ i → i < vals.length → (r.slotAt i).value = vals[i]?

theorem holds_empty (cap : Capacity) (α : Type*) : Holds (empty cap α) (Consumer.initial α) [] :=
  ⟨rfl, rfl, fun _ _ h => absurd h (Nat.not_lt_zero _)⟩

namespace Holds
variable {r : Ring cap α} {c c' : Consumer α} {vals : List α} {h : Nat} {built : Bool}

theorem local_step (hold : Holds r c vals) (hret : c'.returned = c.returned)
    (htaken : c'.pc.taken = c.pc.taken) (hhand : c'.pc.inHand = c.pc.inHand) : Holds r c' vals := by
  have hpop : c'.popped = c.popped := congrArg List.length hret
  refine ⟨hpop ▸ hret ▸ hold.returned, ?_, ?_⟩
  · rw [hhand, hpop, htaken]
    exact hold.inHand
  · rw [hpop, htaken]
    exact hold.value

theorem slot_step (hold : Holds r c vals) (hinv : Inv r c h built) (hlen : vals.length = h + built.toNat)
    (s : Slot α) {st : Storage cap.toNat α} {j : Nat}
    (hst : st.slots = Function.update r.buffer.slots (cap.slotPtr (UInt64.ofNat j)) s)
    (hj : c.popped ≤ j) (hj' : j < c.popped + cap.toNat) (hret : c'.returned = c.returned)
    (htaken : c.pc.taken ≤ c'.pc.taken) (hpast : j < c.popped + c'.pc.taken)
    (hhand : c'.pc.inHand = ((vals.drop c.popped).take c'.pc.taken).map some) :
    Holds { r with buffer := st } c' vals := by
  have hpop : c'.popped = c.popped := congrArg List.length hret
  have hroom := hinv.room
  refine ⟨hpop ▸ hret ▸ hold.returned, hpop ▸ hhand, ?_⟩
  rw [hpop]
  intro i hi hi'
  rw [slotAt_update s hst (by omega : c.popped ≤ i) (by omega) hj hj', if_neg (by omega)]
  exact hold.value i (by omega) hi'

theorem moveOut {tail : UInt64} (hold : Holds r c vals) (hinv : Inv r c h built)
    (hlen : vals.length = h + built.toNat) (hpc : c.pc = .nonEmpty tail) :
    Holds { r with buffer := r.buffer.moveLeaving none (cap.slotPtr tail) }
      { c with pc := .movedOut tail (r.buffer.slots (cap.slotPtr tail)).value } vals := by
  obtain ⟨rfl, hlt⟩ : tail = UInt64.ofNat c.popped ∧ c.popped < c.headView := by
    simpa only [hpc, PopPc.At] using hinv.pc_at
  have hview := hinv.view_le
  have hroom := hinv.room
  have htaken : c.pc.taken = 0 := by rw [hpc]; rfl
  have hin : c.popped < vals.length := by omega
  have hval : (r.slotAt c.popped).value = vals[c.popped]? := hold.value _ (by omega) hin
  refine hold.slot_step hinv hlen _ rfl le_rfl (by omega) rfl (by omega) (Nat.lt_succ_self _) ?_
  simp only [PopPc.inHand, PopPc.taken, slotAt_slotPtr, hval, List.getElem?_eq_getElem hin,
    List.drop_eq_getElem_cons hin, List.take_succ_cons, List.take_zero, List.map_cons, List.map_nil]

theorem storeTail {tail : UInt64} {out : Option α} (hold : Holds r c vals) (hinv : Inv r c h built)
    (hlen : vals.length = h + built.toNat) (hpc : c.pc = .destroyed tail out) :
    Holds { r with tail := r.tail.store (tail + 1) }
      { c with pc := .idle, returned := c.returned ++ [out] } vals := by
  obtain ⟨-, hlt⟩ : tail = UInt64.ofNat c.popped ∧ c.popped < c.headView := by
    simpa only [hpc, PopPc.At] using hinv.pc_at
  have hview := hinv.view_le
  have hpop : Consumer.popped { c with pc := .idle, returned := c.returned ++ [out] } = c.popped + 1 := by
    simp [Consumer.popped]
  have hin : c.popped < vals.length := by omega
  have hhand := hold.inHand
  simp only [hpc, PopPc.inHand, PopPc.taken, List.drop_eq_getElem_cons hin, List.take_succ_cons,
    List.take_zero, List.map_cons, List.map_nil] at hhand
  refine ⟨?_, rfl, ?_⟩
  · rw [hpop, List.take_succ_eq_append_getElem hin, List.map_append, ← hold.returned]
    rw [hhand]
    rfl
  · rw [hpop]
    intro i hi hi'
    exact hold.value i (by rw [hpc]; exact hi) hi'

theorem popStep (hold : Holds r c vals) (hinv : Inv r c h built) (hlen : vals.length = h + built.toNat)
    (a : PopStep α) (ha : ∀ residue, a ≠ .moveThrows residue) :
    Holds (Ring.popStep a r c).1 (Ring.popStep a r c).2 vals := by
  unfold Ring.popStep
  split
  case h_1 hpc => exact hold.local_step rfl (by rw [hpc]; rfl) (by rw [hpc]; rfl)
  case h_2 tail k hpc =>
    split
    · exact hold
    · split_ifs
      · exact hold.local_step rfl (by rw [hpc]; rfl) (by rw [hpc]; rfl)
      · exact hold.local_step rfl (by rw [hpc]; rfl) (by rw [hpc]; rfl)
  case h_3 tail hpc => exact hold.moveOut hinv hlen hpc
  case h_4 tail residue hpc => exact absurd rfl (ha residue)
  case h_5 tail out hpc =>
    obtain ⟨rfl, hlt⟩ : tail = UInt64.ofNat c.popped ∧ c.popped < c.headView := by
      simpa only [hpc, PopPc.At] using hinv.pc_at
    have hview := hinv.view_le
    have hroom := hinv.room
    refine hold.slot_step hinv hlen .raw rfl le_rfl (by omega) rfl (by rw [hpc]; rfl)
      (Nat.lt_succ_self _) ?_
    simpa only [hpc, PopPc.inHand, PopPc.taken] using hold.inHand
  case h_6 tail out hpc => exact hold.storeTail hinv hlen hpc
  case h_7 => exact hold

theorem construct (hold : Holds r c vals) (hinv : Inv r c h false) (hlen : vals.length = h)
    (hroom : h < c.popped + cap.toNat) (v : α) :
    Holds { r with buffer := r.buffer.constructAt (cap.slotPtr (UInt64.ofNat h)) v } c (vals ++ [v]) := by
  have hle := hinv.popped_le_head
  have hpc := hinv.popped_add_taken_le
  refine ⟨?_, ?_, ?_⟩
  · rw [List.take_append_of_le_length (by omega)]
    exact hold.returned
  · rw [List.drop_append_of_le_length (by omega), List.take_append_of_le_length (by simp; omega)]
    exact hold.inHand
  · intro i hi hi'
    rw [List.length_append, List.length_singleton] at hi'
    rw [slotAt_update _ rfl (by omega : c.popped ≤ i) (by omega) hle hroom]
    split_ifs with heq
    · subst heq
      simp [Slot.value, hlen]
    · rw [List.getElem?_append_left (by omega)]
      exact hold.value i hi (by omega)

theorem withdraw (hold : Holds r c vals) (hinv : Inv r c h true) (hlen : vals.length = h + 1) :
    Holds { r with buffer := r.buffer.destroyAt (cap.slotPtr (UInt64.ofNat h)) } c (vals.take h) := by
  have hle := hinv.popped_le_head
  have hroom : h + 1 ≤ c.popped + cap.toNat := hinv.room
  have hpc := hinv.popped_add_taken_le
  refine ⟨?_, ?_, ?_⟩
  · rw [List.take_take, Nat.min_eq_left hle]
    exact hold.returned
  · rw [List.drop_take, List.take_take, Nat.min_eq_left (by omega)]
    exact hold.inHand
  · intro i hi hi'
    rw [List.length_take] at hi'
    rw [slotAt_update _ rfl (by omega : c.popped ≤ i) (by omega) hle hroom, if_neg (by omega),
      List.getElem?_take_of_lt (by omega)]
    exact hold.value i hi (by omega)

theorem taken_eq (hold : Holds r c vals) :
    c.returned ++ c.pc.inHand = (vals.take (c.popped + c.pc.taken)).map some := by
  rw [hold.returned, hold.inHand, ← List.map_append, ← List.take_add]

theorem taken_prefix_published (hold : Holds r c vals) (hinv : Inv r c h built) :
    c.returned ++ c.pc.inHand <+: (vals.take h).map some := by
  rw [hold.taken_eq]
  exact (List.take_prefix_take_left hinv.popped_add_taken_le).map some

theorem returned_prefix_published (hold : Holds r c vals) (hinv : Inv r c h built) :
    c.returned <+: (vals.take h).map some :=
  (List.prefix_append _ _).trans (hold.taken_prefix_published hinv)

theorem contents_eq (hold : Holds r c vals) (hinv : Inv r c h built) (hlen : vals.length = h + built.toNat) :
    r.contents.drop c.pc.taken = ((vals.take h).drop (c.popped + c.pc.taken)).map some := by
  have hle := hinv.popped_le_head
  have hroom := hinv.room
  have hlt := cap.toNat_lt
  have hsize : (r.head.current - r.tail.current).toNat = h - c.popped := by
    rw [hinv.head_counts.current_eq, hinv.tail_counts.current_eq]
    exact toNat_ofNat_sub hle (by omega)
  have hslot (k : Nat) : r.buffer.slots (cap.slotPtr (r.tail.current + UInt64.ofNat k)) = r.slotAt (c.popped + k) := by
    rw [hinv.tail_counts.current_eq, ofNat_add, slotAt_slotPtr]
  simp only [contents, hsize, hslot]
  apply List.ext_getElem?
  intro i
  simp only [List.getElem?_drop, List.getElem?_map, List.getElem?_take]
  by_cases hi : c.pc.taken + i < h - c.popped
  · have hval := hold.value (c.popped + (c.pc.taken + i)) (by omega) (by omega)
    rw [List.getElem?_range hi, if_pos (by omega), Option.map_some, hval, Nat.add_assoc,
      List.getElem?_eq_getElem (by omega), Option.map_some]
  · rw [List.getElem?_eq_none (by simpa using hi), if_neg (by omega)]
    rfl

theorem taken_append_contents (hold : Holds r c vals) (hinv : Inv r c h built)
    (hlen : vals.length = h + built.toNat) :
    c.returned ++ c.pc.inHand ++ r.contents.drop c.pc.taken = (vals.take h).map some := by
  have htake : vals.take (c.popped + c.pc.taken) = (vals.take h).take (c.popped + c.pc.taken) := by
    rw [List.take_take, Nat.min_eq_left hinv.popped_add_taken_le]
  rw [hold.taken_eq, hold.contents_eq hinv hlen, htake, ← List.map_append, List.take_append_drop]

end Holds

end Ring
end AetherStream
