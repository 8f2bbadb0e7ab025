import Mathlib.Data.Nat.Digits.Defs
import Mathlib.Tactic.Ring

/-! Copies into a fixed-length byte string, and little-endian numbers of a given width. -/

namespace Basis.Bytes

section Overwrite
variable {β : Type*}

/-- `src` copied over `bs` from position `off`; whatever falls past the end is lost. -/
def overwrite (bs : List β) (off : Nat) (src : List β) : List β :=
  (bs.take off ++ src ++ bs.drop (off + src.length)).take bs.length

@[simp] theorem length_overwrite (bs : List β) (off : Nat) (src : List β) :
    (overwrite bs off src).length = bs.length := by
  simp only [overwrite, List.length_take, List.length_append, List.length_drop]
  omega

theorem overwrite_eq {bs src : List β} {off : Nat} (h : off + src.length ≤ bs.length) :
    overwrite bs off src = bs.take off ++ src ++ bs.drop (off + src.length) := by
  refine List.take_of_length_le ?_
  simp only [List.length_append, List.length_take, List.length_drop]
  omega

theorem take_overwrite {bs src : List β} {off k : Nat} (h : off + src.length ≤ bs.length) (hk : k ≤ off) :
    (overwrite bs off src).take k = bs.take k := by
  rw [overwrite_eq h, List.append_assoc, List.take_append_of_le_length (by simp; omega), List.take_take,
    Nat.min_eq_left hk]

theorem drop_overwrite {bs src : List β} {off : Nat} (h : off + src.length ≤ bs.length) :
    (overwrite bs off src).drop off = src ++ bs.drop (off + src.length) := by
  rw [overwrite_eq h, List.append_assoc]
  exact List.drop_left' (by simp; omega)

theorem getElem?_overwrite {bs src : List β} {off : Nat} (h : off + src.length ≤ bs.length) (i : Nat) :
    (overwrite bs off src)[i]? = if off ≤ i ∧ i < off + src.length then src[i - off]? else bs[i]? := by
  have hoff : (bs.take off).length = off := by simp; omega
  rw [overwrite_eq h, List.append_assoc, List.getElem?_append, List.getElem?_append, hoff]
  split_ifs
  · omega
  · exact List.getElem?_take_of_lt ‹_›
  · rfl
  · omega
  · omega
  · rw [List.getElem?_drop]
    congr 1
    omega

theorem overwrite_append_left {bs src : List β} {off : Nat} (h : off + src.length ≤ bs.length) (rest : List β) :
    overwrite (bs ++ rest) off src = overwrite bs off src ++ rest := by
  rw [overwrite_eq (by simp; omega), overwrite_eq h, List.take_append_of_le_length (by omega),
    List.drop_append_of_le_length h]
  simp only [List.append_assoc]

theorem overwrite_eq_self_iff {bs src : List β} {off : Nat} (h : off + src.length ≤ bs.length) :
    overwrite bs off src = bs ↔ (bs.drop off).take src.length = src := by
  rw [overwrite_eq h]
  constructor
  · intro heq
    have hlen : (bs.take off).length = off := by simp; omega
    rw [← heq, List.append_assoc, List.drop_left' hlen, List.take_left]
  · intro heq
    rw [← heq, List.length_take, List.length_drop, Nat.min_eq_left (by omega), List.append_assoc, ← List.drop_drop,
      List.take_append_drop, List.take_append_drop]

theorem slice_eq_replicate_iff {bs : List β} {off n : Nat} (b : β) :
    (bs.drop off).take n = List.replicate n b ↔ ∀ k, off ≤ k → k < off + n → bs[k]? = some b := by
  constructor
  · intro heq k hle hlt
    have hget := congrArg (·[k - off]?) heq
    simpa [List.getElem?_take, List.getElem?_replicate, List.getElem?_drop, show k - off < n by omega,
      Nat.add_sub_of_le hle] using hget
  · intro h
    apply List.ext_getElem?
    intro i
    rw [List.getElem?_take, List.getElem?_replicate, List.getElem?_drop]
    split_ifs
    · exact h _ (by omega) (by omega)
    · rfl

theorem overwrite_singleton {bs : List β} {i : Nat} (h : i < bs.length) (b : β) : overwrite bs i [b] = bs.set i b := by
  apply List.ext_getElem?
  intro k
  rw [getElem?_overwrite (show i + 1 ≤ bs.length from h), List.getElem?_set]
  by_cases hk : i = k
  · subst hk
    simp [h]
  · rw [if_neg (by simp; omega), if_neg hk]

theorem slice_set {bs : List β} {off n i : Nat} (hi : ¬ (off ≤ i ∧ i < off + n)) (b : β) :
    ((bs.set i b).drop off).take n = (bs.drop off).take n := by
  apply List.ext_getElem?
  intro k
  rw [List.getElem?_take, List.getElem?_take, List.getElem?_drop, List.getElem?_drop]
  split_ifs
  · exact List.getElem?_set_ne (by omega)
  · rfl

theorem overwrite_set {bs src : List β} {off i : Nat} (h : off + src.length ≤ bs.length)
    (hi : ¬ (off ≤ i ∧ i < off + src.length)) (b : β) :
    overwrite (bs.set i b) off src = (overwrite bs off src).set i b := by
  apply List.ext_getElem?
  intro k
  rw [getElem?_overwrite (by simpa using h), List.getElem?_set, List.getElem?_set, getElem?_overwrite h,
    length_overwrite]
  by_cases hk : i = k
  · subst hk
    rw [if_neg hi, if_pos rfl, if_pos rfl]
  · rw [if_neg hk, if_neg hk]

theorem overwrite_set_self {bs src : List β} {off i : Nat} (h : off + src.length ≤ bs.length)
    (hi : off ≤ i ∧ i < off + src.length) (b : β) : overwrite (bs.set i b) off src = overwrite bs off src := by
  apply List.ext_getElem?
  intro k
  rw [getElem?_overwrite (by simpa using h), getElem?_overwrite h, List.getElem?_set]
  split_ifs with hk hik
  · rfl
  · subst hik
    exact absurd hi hk
  · subst hik
    exact absurd hi hk
  · rfl

theorem overwrite_append {bs src src' : List β} {off : Nat}
    (h : off + src.length + src'.length ≤ bs.length) :
    overwrite (overwrite bs off src) (off + src.length) src' = overwrite bs off (src ++ src') := by
  rw [overwrite_eq (by simpa using h), overwrite_eq (show off + src.length ≤ bs.length by omega),
    overwrite_eq (by simpa [Nat.add_assoc] using h)]
  have hlen : (bs.take off ++ src).length = off + src.length := by simp; omega
  rw [List.take_append_of_le_length (by omega), List.take_of_length_le hlen.le, ← List.drop_drop,
    List.drop_left' hlen, List.drop_drop, List.length_append]
  simp only [List.append_assoc, Nat.add_assoc]

theorem foldl_set_range (f : Nat → β) {bs : List β} {off n : Nat} (h : off + n ≤ bs.length) :
    (List.range n).foldl (fun bs i => bs.set (off + i) (f i)) bs =
      overwrite bs off ((List.range n).map f) := by
  induction n with
  | zero => simp [overwrite]
  | succ n ih =>
    have hlen : ((List.range n).map f).length = n := by simp
    have hstep : off + ((List.range n).map f).length + [f n].length ≤ bs.length := by simp; omega
    rw [List.range_succ, List.foldl_append, ih (by omega), List.map_append, List.map_singleton,
      ← overwrite_append hstep, hlen, List.foldl_cons, List.foldl_nil,
      overwrite_eq (by simpa [hlen] using hstep : (off + n) + [f n].length ≤ (overwrite bs off _).length),
      List.set_eq_take_append_cons_drop, if_pos (by simp; omega)]
    simp

end Overwrite

section Blend
variable {β : Type*}

/-- Each position of `after` is as in one of `versions`, each in its own. -/
def Blend (versions : List (List β)) (after : List β) : Prop := ∀ i : Nat, ∃ bs ∈ versions, after[i]? = bs[i]?

theorem Blend.of_mem {versions : List (List β)} {bs : List β} (h : bs ∈ versions) : Blend versions bs :=
  fun _ => ⟨bs, h, rfl⟩

theorem Blend.isPrefix {versions : List (List β)} {start after : List β} (h : Blend versions after)
    (hstart : ∀ bs ∈ versions, start <+: bs) : start <+: after := by
  refine List.prefix_iff_getElem?.mpr fun i hi => ?_
  obtain ⟨bs, hbs, heq⟩ := h i
  rw [heq]
  exact List.prefix_iff_getElem?.mp (hstart bs hbs) i hi

end Blend

def toLe (n v : Nat) : List UInt8 := (List.range n).map fun i => UInt8.ofNat (v >>> (8 * i))

def ofLe (bs : List UInt8) : Nat := Nat.ofDigits 256 (bs.map UInt8.toNat)

@[simp] theorem length_toLe (n v : Nat) : (toLe n v).length = n := by
  simp [toLe]

theorem toLe_succ (n v : Nat) : toLe (n + 1) v = UInt8.ofNat v :: toLe n (v >>> 8) := by
  simp only [toLe, List.range_succ_eq_map, List.map_cons, List.map_map, Nat.mul_zero, Nat.shiftRight_zero]
  congr 1
  apply List.map_congr_left
  intro i _
  simp only [Function.comp_apply, Nat.succ_eq_add_one, ← Nat.shiftRight_add, Nat.mul_add, Nat.mul_one,
    Nat.add_comm 8]

@[simp] theorem ofLe_nil : ofLe [] = 0 := rfl

theorem ofLe_cons (b : UInt8) (bs : List UInt8) : ofLe (b :: bs) = b.toNat + 256 * ofLe bs := by
  simp [ofLe, Nat.ofDigits_cons]

theorem ofLe_lt (bs : List UInt8) : ofLe bs < 256 ^ bs.length := by
  have h := Nat.ofDigits_lt_base_pow_length (b := 256) (l := bs.map UInt8.toNat) (by decide)
    (by simp only [List.mem_map, forall_exists_index, and_imp, forall_apply_eq_imp_iff₂]
        exact fun b _ => b.toNat_lt)
  simpa [ofLe] using h

theorem ofLe_toLe (n v : Nat) : ofLe (toLe n v) = v % 256 ^ n := by
  induction n generalizing v with
  | zero => simp [toLe, Nat.mod_one]
  | succ n ih =>
    have hpow : (256 : Nat) ^ (n + 1) = 256 * 256 ^ n := by rw [Nat.pow_succ, Nat.mul_comm]
    rw [toLe_succ, ofLe_cons, ih, UInt8.toNat_ofNat', Nat.shiftRight_eq_div_pow, hpow, Nat.mod_mul]

theorem toLe_ofLe (bs : List UInt8) : toLe bs.length (ofLe bs) = bs := by
  induction bs with
  | nil => rfl
  | cons b bs ih =>
    have hb := b.toNat_lt
    have hshift : (b.toNat + 256 * ofLe bs) >>> 8 = ofLe bs := by
      rw [Nat.shiftRight_eq_div_pow]
      omega
    have hbyte : UInt8.ofNat (b.toNat + 256 * ofLe bs) = b := by
      apply UInt8.toNat_inj.mp
      rw [UInt8.toNat_ofNat']
      omega
    rw [List.length_cons, toLe_succ, ofLe_cons, hshift, ih, hbyte]

theorem ofLe_map_le {ι : Type*} {f g : ι → UInt8} {l : List ι} (h : ∀ i ∈ l, (f i).toNat ≤ (g i).toNat) :
    ofLe (l.map f) ≤ ofLe (l.map g) := by
  induction l with
  | nil => rfl
  | cons i l ih =>
    simp only [List.mem_cons, forall_eq_or_imp] at h
    have hrest := ih h.2
    rw [List.map_cons, List.map_cons, ofLe_cons, ofLe_cons]
    omega

theorem foldl_or_shift (n : Nat) (g : Nat → UInt8) :
    (List.range n).foldl (fun acc i => acc ||| (g i).toNat <<< (8 * i)) 0 = ofLe ((List.range n).map g) := by
  induction n with
  | zero => rfl
  | succ n ih =>
    have hlt : ofLe ((List.range n).map g) < 2 ^ (8 * n) := by
      simpa [Nat.pow_mul] using ofLe_lt ((List.range n).map g)
    rw [List.range_succ, List.foldl_append, ih, List.map_append, List.foldl_cons, List.foldl_nil,
      Nat.or_comm, ← Nat.shiftLeft_add_eq_or_of_lt hlt]
    simp only [ofLe, List.map_append, Nat.ofDigits_append, List.map_cons, List.map_nil,
      Nat.ofDigits_singleton, List.length_map, List.length_range, Nat.shiftLeft_eq, Nat.pow_mul]
    ring

def encodeFields (fields : List (Nat × Nat)) : List UInt8 := fields.flatMap fun f => toLe f.1 f.2

def fieldsWidth (fields : List (Nat × Nat)) : Nat := (fields.map Prod.fst).sum

@[simp] theorem length_encodeFields (fields : List (Nat × Nat)) :
    (encodeFields fields).length = fieldsWidth fields := by
  simp [encodeFields, fieldsWidth, List.length_flatMap]

theorem encodeFields_append (fs gs : List (Nat × Nat)) :
    encodeFields (fs ++ gs) = encodeFields fs ++ encodeFields gs := List.flatMap_append

theorem slice_encodeFields (fs : List (Nat × Nat)) (w v : Nat) (gs : List (Nat × Nat)) (rest : List UInt8) :
    ((encodeFields (fs ++ (w, v) :: gs) ++ rest).drop (fieldsWidth fs)).take w = toLe w v := by
  rw [encodeFields_append, List.append_assoc, List.drop_left' (length_encodeFields fs)]
  simp only [encodeFields, List.flatMap_cons, List.append_assoc]
  exact List.take_left' (length_toLe w v)

theorem overwrite_replicate {pre src : List UInt8} {off m k : Nat} (hpre : pre.length = off)
    (hk : src.length + m = k) (b : UInt8) :
    overwrite (pre ++ List.replicate k b) off src = pre ++ src ++ List.replicate m b := by
  rw [overwrite_eq (by simp; omega), List.take_left' hpre, ← List.drop_drop, List.drop_left' hpre,
    List.drop_replicate, show k - src.length = m by omega]

end Basis.Bytes
