import AetherStream.Basis.ModularCounter
import Mathlib.Logic.Relation

/-! The memory events of a run in the order in which they take place, and the order among them
that the language promises: that of the program within one thread, and from a release store to an
acquire load that reads it. Two threads that hand the cells of a ring back and forth with a counter
each never access a cell without that order. -/

namespace Basis
variable {τ ι κ : Type*}

/-- An acquire load says which store to the location it reads, counted in the order of the stores;
`0` is the initial value. -/
inductive MemAct (ι κ : Type*) where
  | release (l : ι)
  | acquire (l : ι) (k : Nat)
  | access (x : κ)
  deriving DecidableEq, Repr

structure MemEvent (τ ι κ : Type*) where
  thread : τ
  act : MemAct ι κ
  deriving DecidableEq, Repr

def MemAct.isRelease [DecidableEq ι] (l : ι) : MemAct ι κ → Bool
  | release l' => l' = l
  | _ => false

def MemAct.accessed : MemAct ι κ → Option κ
  | access x => some x
  | _ => none

def accessed (t : List (MemEvent τ ι κ)) : List κ := t.filterMap fun e => e.act.accessed

theorem getElem?_take_eq_some {α : Type*} {t : List α} {i j : Nat} {e : α} :
    (t.take j)[i]? = some e ↔ i < j ∧ t[i]? = some e := by
  rw [List.getElem?_take]
  split_ifs with h <;> simp [h]

section Order
variable [DecidableEq ι]

def storesTo (l : ι) (t : List (MemEvent τ ι κ)) : Nat := t.countP fun e => e.act.isRelease l

def Precedes (t : List (MemEvent τ ι κ)) (i j : Nat) : Prop :=
  i < j ∧ ∃ e f, t[i]? = some e ∧ t[j]? = some f ∧
    (e.thread = f.thread ∨
      ∃ l, e.act = .release l ∧ f.act = .acquire l (storesTo l (t.take i) + 1))

def HappensBefore (t : List (MemEvent τ ι κ)) : Nat → Nat → Prop := Relation.TransGen (Precedes t)

def RaceFree (t : List (MemEvent τ ι κ)) : Prop :=
  ∀ i j, i < j → ∀ a b x, t[i]? = some ⟨a, .access x⟩ → t[j]? = some ⟨b, .access x⟩ → HappensBefore t i j

variable {t : List (MemEvent τ ι κ)} {l : ι} {i j k : Nat}

theorem storesTo_append (t u : List (MemEvent τ ι κ)) : storesTo l (t ++ u) = storesTo l t + storesTo l u :=
  List.countP_append

theorem storesTo_take_le (h : i ≤ j) : storesTo l (t.take i) ≤ storesTo l (t.take j) :=
  (List.take_prefix_take_left h).sublist.countP_le

theorem storesTo_take_succ {a : τ} (h : t[i]? = some ⟨a, .release l⟩) :
    storesTo l (t.take (i + 1)) = storesTo l (t.take i) + 1 := by
  rw [List.take_add_one, h, storesTo_append]
  simp [storesTo, MemAct.isRelease]

theorem exists_store (hk : 1 ≤ k) (hle : k ≤ storesTo l t) :
    ∃ p e, t[p]? = some e ∧ e.act = .release l ∧ storesTo l (t.take p) + 1 = k := by
  induction t using List.reverseRecOn with
  | nil => exact absurd hle (by simp [storesTo]; omega)
  | append_singleton t e ih =>
    by_cases hlast : k ≤ storesTo l t
    · obtain ⟨p, f, hp, hf, hcount⟩ := ih hlast
      obtain ⟨hlt, -⟩ := List.getElem?_eq_some_iff.mp hp
      refine ⟨p, f, ?_, hf, ?_⟩
      · rwa [List.getElem?_append_left hlt]
      · rwa [List.take_append_of_le_length hlt.le]
    · -- the store that is still missing can only be the last event
      have hsingle : storesTo l [e] ≤ 1 := List.countP_le_length
      rw [storesTo_append] at hle
      have hpos : storesTo l [e] = 1 := by omega
      refine ⟨t.length, e, by simp, ?_, ?_⟩
      · cases hact : e.act with
        | release l' => simpa [storesTo, hact, MemAct.isRelease] using hpos
        | acquire l' k' => simp [storesTo, hact, MemAct.isRelease] at hpos
        | access x => simp [storesTo, hact, MemAct.isRelease] at hpos
      · rw [List.take_left]
        omega

end Order

inductive Side where
  | producer
  | consumer
  deriving DecidableEq, Repr

namespace Side

def other : Side → Side
  | producer => consumer
  | consumer => producer

theorem other_other (a : Side) : a.other.other = a := by cases a <;> rfl

theorem eq_other {a b : Side} (h : a ≠ b) : b = a.other := by
  cases a <;> cases b <;> simp_all [other]

/-- How far its own counter may be ahead of the other one when a side takes a cell, in a ring of
`n` cells. -/
def lead (n : Nat) : Side → Nat
  | producer => n
  | consumer => 0

theorem add_lead_le {n : Nat} [NeZero n] {a : Side} {h m : Nat} (hcell : Fin.ofNat n h = Fin.ofNat n m)
    (hlt : h < m + a.lead n) : h + a.other.lead n ≤ m := by
  cases a with
  | producer =>
    show h ≤ m
    by_contra hle
    have heq := (ModularCounter.wrap_inj (n := n) (t := m) (by omega) hlt le_rfl (by omega)).mp hcell
    omega
  | consumer =>
    show h + n ≤ m
    have hlt' : h < m := hlt
    by_contra hle
    have heq := (ModularCounter.wrap_inj (t := h) le_rfl (by omega) (by omega) (by omega)).mp hcell
    omega

def pair (p c : Nat) : Side → Nat
  | producer => p
  | consumer => c

theorem update_pair_producer (p c x : Nat) : Function.update (pair p c) producer x = pair x c := by
  funext side
  cases side <;> rfl

theorem update_pair_consumer (p c x : Nat) : Function.update (pair p c) consumer x = pair p x := by
  funext side
  cases side <;> rfl

end Side

abbrev RingEvent (n : Nat) := MemEvent Side Side (Fin n)

variable {n : Nat}

def Saw (side : Side) (k : Nat) (t : List (RingEvent n)) : Prop := k = 0 ∨ ⟨side, .acquire side.other k⟩ ∈ t

theorem Saw.mono {side : Side} {k : Nat} {t u : List (RingEvent n)} (h : Saw side k t) (hsub : t ⊆ u) : Saw side k u :=
  h.imp_right fun hmem => hsub hmem

theorem Saw.exists_load {side : Side} {j k : Nat} {t : List (RingEvent n)} (h : Saw side k (t.take j)) (hk : k ≠ 0) :
    ∃ q, q < j ∧ t[q]? = some ⟨side, .acquire side.other k⟩ := by
  obtain ⟨q, hq⟩ := List.mem_iff_getElem?.mp (h.resolve_left hk)
  exact ⟨q, getElem?_take_eq_some.mp hq⟩

variable [NeZero n]

/-- The next event is one of the protocol: a side stores to its own counter, it reads a store that
there is, and it takes the cell of its counter after it has seen the other one far enough. -/
def Permits (t : List (RingEvent n)) : RingEvent n → Prop
  | ⟨side, .release l⟩ => l = side
  | ⟨_, .acquire l k⟩ => k ≤ storesTo l t
  | ⟨side, .access x⟩ =>
    x = Fin.ofNat n (storesTo side t) ∧ ∃ k, Saw side k t ∧ storesTo side t < k + side.lead n

inductive Disciplined : List (RingEvent n) → Prop
  | nil : Disciplined []
  | snoc {t : List (RingEvent n)} {e : RingEvent n} (h : Disciplined t) (he : Permits t e) : Disciplined (t ++ [e])

namespace Disciplined
variable {t : List (RingEvent n)} {e : RingEvent n} {side : Side} {i j k : Nat}

theorem permits (h : Disciplined t) (he : t[i]? = some e) : Permits (t.take i) e := by
  induction h with
  | nil => simp at he
  | @snoc t f _ hf ih =>
    rcases Nat.lt_trichotomy i t.length with hlt | rfl | hgt
    · rw [List.getElem?_append_left hlt] at he
      rw [List.take_append_of_le_length hlt.le]
      exact ih he
    · rw [List.getElem?_concat_length] at he
      rw [List.take_left, ← Option.some.inj he]
      exact hf
    · rw [List.getElem?_eq_none (by rw [List.length_append]; exact hgt)] at he
      cases he

theorem saw_le (h : Disciplined t) (hsaw : Saw side k (t.take i)) : k ≤ storesTo side.other (t.take i) := by
  rcases hsaw with rfl | hmem
  · exact Nat.zero_le _
  · obtain ⟨q, hq⟩ := List.mem_iff_getElem?.mp hmem
    obtain ⟨hlt, hq⟩ := getElem?_take_eq_some.mp hq
    exact (h.permits hq).trans (storesTo_take_le hlt.le)

/-- What a side did before its store number `k` is ordered before all that the other side does once
it has seen that store. -/
theorem happensBefore_of_saw {x : Fin n} {act : MemAct Side (Fin n)} (h : Disciplined t)
    (hi : t[i]? = some ⟨side, .access x⟩) (hj : t[j]? = some ⟨side.other, act⟩)
    (hsaw : Saw side.other k (t.take j)) (hk : storesTo side (t.take i) < k) : HappensBefore t i j := by
  obtain ⟨q, hqj, hq⟩ := hsaw.exists_load (by omega)
  rw [side.other_other] at hq
  have hread : k ≤ storesTo side (t.take q) := h.permits hq
  obtain ⟨p, ⟨b, act'⟩, hp, hact, hcount⟩ := exists_store (by omega) hread
  obtain rfl : act' = .release side := hact
  obtain ⟨hpq, hp⟩ := getElem?_take_eq_some.mp hp
  rw [List.take_take, min_eq_left hpq.le] at hcount
  obtain rfl : side = b := h.permits hp
  have hip : i < p := by
    by_contra hle
    rcases Nat.lt_or_eq_of_le (Nat.le_of_not_lt hle) with hlt | rfl
    · have hmono : storesTo side (t.take (p + 1)) ≤ storesTo side (t.take i) := storesTo_take_le hlt
      rw [storesTo_take_succ hp] at hmono
      omega
    · rw [hi] at hp
      cases hp
  -- down to the store in its own thread, over to the load, and on in the other thread
  refine ((Relation.TransGen.single ⟨hip, _, _, hi, hp, Or.inl rfl⟩).tail
    ⟨hpq, _, _, hp, hq, Or.inr ⟨side, rfl, ?_⟩⟩).tail ⟨hqj, _, _, hq, hj, Or.inl rfl⟩
  rw [hcount]

theorem raceFree (h : Disciplined t) : RaceFree t := by
  intro i j hij a b x hi hj
  by_cases hab : a = b
  · exact .single ⟨hij, _, _, hi, hj, Or.inl hab⟩
  obtain rfl := Side.eq_other hab
  obtain ⟨hx, k, hsaw, hlt⟩ := h.permits hi
  obtain ⟨hx', k', hsaw', hlt'⟩ := h.permits hj
  -- the first side was not further ahead than its lead, so the index of the second is the later one
  have hk : k ≤ storesTo a.other (t.take j) := (h.saw_le hsaw).trans (storesTo_take_le hij.le)
  have hle := Side.add_lead_le (hx.symm.trans hx') (show _ < storesTo a.other (t.take j) + a.lead n by omega)
  exact h.happensBefore_of_saw hi hj hsaw' (by omega)

end Disciplined

structure Tracked (t : List (RingEvent n)) (count view : Side → Nat) : Prop where
  disciplined : Disciplined t
  storesTo_eq : ∀ side, storesTo side t = count side
  saw : ∀ side, Saw side (view side) t

namespace Tracked
variable {t : List (RingEvent n)} {count view : Side → Nat}

theorem nil : Tracked ([] : List (RingEvent n)) (Side.pair 0 0) (Side.pair 0 0) where
  disciplined := .nil
  storesTo_eq side := by cases side <;> rfl
  saw side := by cases side <;> exact Or.inl rfl

theorem acquire (h : Tracked t count view) (side : Side) {k : Nat} (hk : k ≤ count side.other) :
    Tracked (t ++ [⟨side, .acquire side.other k⟩]) count (Function.update view side k) where
  disciplined := h.disciplined.snoc (by rwa [Permits, h.storesTo_eq])
  storesTo_eq b := (storesTo_append _ _).trans (h.storesTo_eq b)
  saw b := by
    by_cases hb : b = side
    · subst hb
      rw [Function.update_self]
      exact Or.inr (by simp)
    · rw [Function.update_of_ne hb]
      exact (h.saw b).mono (List.subset_append_left t _)

theorem access (h : Tracked t count view) (side : Side) (hlt : count side < view side + side.lead n) :
    Tracked (t ++ [⟨side, .access (Fin.ofNat n (count side))⟩]) count view where
  disciplined := h.disciplined.snoc (by
    rw [← h.storesTo_eq side] at hlt ⊢
    exact ⟨rfl, view side, h.saw side, hlt⟩)
  storesTo_eq b := (storesTo_append _ _).trans (h.storesTo_eq b)
  saw b := (h.saw b).mono (List.subset_append_left t _)

theorem release (h : Tracked t count view) (side : Side) :
    Tracked (t ++ [⟨side, .release side⟩]) (Function.update count side (count side + 1)) view where
  disciplined := h.disciplined.snoc rfl
  storesTo_eq b := by
    rw [storesTo_append, h.storesTo_eq]
    by_cases hb : b = side
    · subst hb
      rw [Function.update_self]
      simp [storesTo, MemAct.isRelease]
    · rw [Function.update_of_ne hb]
      simp [storesTo, MemAct.isRelease, Ne.symm hb]
  saw b := (h.saw b).mono (List.subset_append_left t _)

end Tracked

-- a relaxed load in the place of the acquire load orders nothing
example : ¬ RaceFree ([⟨.producer, .access 0⟩, ⟨.producer, .release .producer⟩, ⟨.consumer, .access 0⟩] :
    List (RingEvent 2)) := by
  intro h
  have hordered := h 0 2 (by decide) .producer .consumer 0 rfl rfl
  obtain ⟨m, -, hlt, e, f, he, hf, horder⟩ := Relation.TransGen.tail'_iff.mp hordered
  obtain rfl : _ = f := Option.some.inj hf
  have hthread : e.thread = .producer := by
    rcases Nat.lt_succ_iff_lt_or_eq.mp hlt with h0 | rfl
    · obtain rfl : m = 0 := Nat.lt_one_iff.mp h0
      exact (congrArg MemEvent.thread (Option.some.inj he)).symm
    · exact (congrArg MemEvent.thread (Option.some.inj he)).symm
  rcases horder with hsame | ⟨l, -, hload⟩
  · cases hthread.symm.trans hsame
  · cases hload

end Basis
