import AetherStream.Io.Lifecycle

/-! What a `resize` that fails leaves of the object and of the file. The fields are cleared
before the old mapping is given up, so an object is as it was up to the flush and has nothing
mapped from then on. -/

namespace AetherStream.MmapFile
open Basis Posix

structure AsBefore (f file : MmapFile) : Prop where
  valid : file.valid = true
  size : file.size = f.size
  bytes : file.bytes = f.bytes

structure Unmapped (f file : MmapFile) : Prop where
  fd : file.fd = f.fd
  data : file.data = none
  size : file.size = 0
  valid : file.valid = false
  bytes : file.bytes = []

theorem Unmapped.of_cleared {f file : MmapFile} (hfd : file.fd = f.fd) (hdata : file.data = none)
    (hsize : file.size = 0) :
    Unmapped f file := by
  have hinvalid : file.valid = false := by simp [MmapFile.valid, hsize]
  refine ⟨hfd, hdata, hsize, hinvalid, ?_⟩
  rw [MmapFile.bytes, if_neg (by simp [hinvalid])]

section Resize
variable {f : MmapFile} (newSize : UInt64) (calls : ResizeCalls)

/-- `resize` gives the old mapping up once the size is acceptable and the pages are flushed. -/
def GivesUp : Prop := newSize ≠ 0 ∧ calls.msyncOk = true

def Truncates : Prop := calls.munmapOk = true ∧ calls.ftruncateOk = true ∧ newSize.toNat < 2 ^ 63

instance : Decidable (GivesUp newSize calls) := inferInstanceAs (Decidable (_ ∧ _))

instance : Decidable (Truncates newSize calls) := inferInstanceAs (Decidable (_ ∧ _ ∧ _))

theorem remap_failed (fd : Nat) (m : Mapping) (hfail : (f.remap fd m newSize calls).1.isOk = false)
    (old : List UInt8) :
    Unmapped f (f.remap fd m newSize calls).2.1 ∧
      contentAfter old (f.remap fd m newSize calls).2.2 =
        if Truncates newSize calls then (old ++ List.replicate newSize.toNat 0).take newSize.toNat else old := by
  obtain ⟨msyncOk, munmapOk, ftruncateOk, mmapAddr⟩ := calls
  unfold remap at hfail ⊢
  dsimp only at hfail ⊢
  cases munmapOk with
  | false => exact ⟨.of_cleared rfl rfl rfl, (if_neg fun h => Bool.false_ne_true h.1).symm⟩
  | true =>
    rw [Bool.not_true, if_neg Bool.false_ne_true] at hfail ⊢
    by_cases htrunc : ftruncateOk = true ∧ newSize.toNat < 2 ^ 63
    · rw [dif_pos htrunc] at hfail ⊢
      cases mmapAddr with
      | some addr => cases hfail
      | none => exact ⟨.of_cleared rfl rfl rfl, (if_pos ⟨rfl, htrunc⟩).symm⟩
    · rw [dif_neg htrunc] at hfail ⊢
      exact ⟨.of_cleared rfl rfl rfl, (if_neg fun h => htrunc h.2).symm⟩

theorem isOk_flush (hf : f.valid = true) (msyncOk : Bool) : (f.flush msyncOk).isOk = msyncOk := by
  rw [flush, hf]
  cases msyncOk <;> rfl

theorem contentAfter_flushTrace (msyncOk : Bool) (old : List UInt8) :
    contentAfter old (f.flushTrace msyncOk) = old := by
  unfold flushTrace
  split_ifs
  · rfl
  · cases f.data <;> rfl

variable {newSize calls}

theorem resize_of_not_givesUp (hf : f.valid = true) (hkeep : ¬ GivesUp newSize calls) (old : List UInt8) :
    (f.resize newSize calls).2.1 = f ∧ contentAfter old (f.resize newSize calls).2.2 = old := by
  unfold resize
  dsimp only
  by_cases hsize : newSize = 0
  · rw [if_pos hsize]
    exact ⟨rfl, rfl⟩
  · have hmsync : calls.msyncOk = false := by
      by_contra h
      exact hkeep ⟨hsize, (Bool.not_eq_false _).mp h⟩
    rw [if_neg hsize, isOk_flush hf, hf, hmsync, Bool.not_true, if_neg Bool.false_ne_true, Bool.not_false, if_pos rfl]
    exact ⟨rfl, contentAfter_flushTrace false old⟩

theorem resize_of_givesUp (hf : f.valid = true) (hgive : GivesUp newSize calls) :
    ∃ fd m, f.resize newSize calls = ((f.remap fd m newSize calls).1, (f.remap fd m newSize calls).2.1,
      f.flushTrace calls.msyncOk ++ (f.remap fd m newSize calls).2.2) := by
  obtain ⟨hsize, hmsync⟩ := hgive
  have hparts : f.fd.isSome = true ∧ f.data.isSome = true := by
    simp only [valid, Bool.and_eq_true] at hf
    exact hf.1
  obtain ⟨fd, hfd⟩ := Option.isSome_iff_exists.mp hparts.1
  obtain ⟨m, hm⟩ := Option.isSome_iff_exists.mp hparts.2
  refine ⟨fd, m, ?_⟩
  unfold resize
  dsimp only
  rw [if_neg hsize, isOk_flush hf, hf, hmsync, Bool.not_true, if_neg Bool.false_ne_true, if_neg Bool.false_ne_true,
    hfd, hm]

/-- A `resize` of a valid file that fails leaves the object as it was exactly when it fails
before the old mapping is given up; after that the object has a descriptor and no mapping, and
the file has its new length if `ftruncate` had succeeded. -/
theorem failed_resize_asBefore_iff (hf : f.valid = true) (hfail : (f.resize newSize calls).1.isOk = false) :
    (AsBefore f (f.resize newSize calls).2.1 ↔ ¬ GivesUp newSize calls) ∧
      (GivesUp newSize calls → Unmapped f (f.resize newSize calls).2.1) ∧
      contentAfter f.bytes (f.resize newSize calls).2.2 =
        if GivesUp newSize calls ∧ Truncates newSize calls then
          (f.bytes ++ List.replicate newSize.toNat 0).take newSize.toNat
        else f.bytes := by
  by_cases hgive : GivesUp newSize calls
  · obtain ⟨fd, m, hresize⟩ := resize_of_givesUp hf hgive
    rw [hresize] at hfail ⊢
    have hafter := remap_failed newSize calls fd m hfail f.bytes
    refine ⟨iff_of_false (fun hsame => ?_) (not_not_intro hgive), fun _ => hafter.1, ?_⟩
    · exact Bool.false_ne_true (hafter.1.valid.symm.trans hsame.valid)
    · rw [contentAfter_append, contentAfter_flushTrace, hafter.2]
      simp only [hgive, true_and]
  · have hkept := resize_of_not_givesUp hf hgive f.bytes
    rw [hkept.1, hkept.2, if_neg fun h => hgive h.1]
    exact ⟨iff_of_true ⟨hf, rfl, rfl⟩ hgive, fun h => absurd h hgive, rfl⟩

end Resize

def oneByte : MmapFile where
  fd := some 3
  data := some ⟨4096, [7], by decide⟩
  size := 1
  path := "data.bin"
  size_eq := by
    rintro _ ⟨⟩
    rfl

theorem failed_resize_oneByte :
    oneByte.valid = true ∧ (oneByte.resize 2 ⟨true, true, true, none⟩).1.isOk = false ∧
      Unmapped oneByte (oneByte.resize 2 ⟨true, true, true, none⟩).2.1 ∧
      contentAfter oneByte.bytes (oneByte.resize 2 ⟨true, true, true, none⟩).2.2 = [7, 0] :=
  have hfailed := failed_resize_asBefore_iff (show oneByte.valid = true from rfl)
    (show (oneByte.resize 2 ⟨true, true, true, none⟩).1.isOk = false from rfl)
  ⟨rfl, rfl, hfailed.2.1 (by decide), hfailed.2.2⟩

/-- When `ftruncate` fails the file is as it was, and the object is not. -/
theorem resize_ftruncate_failed_invalid :
    oneByte.valid = true ∧ (oneByte.resize 2 ⟨true, true, false, none⟩).1.isOk = false ∧
      ¬ AsBefore oneByte (oneByte.resize 2 ⟨true, true, false, none⟩).2.1 :=
  ⟨rfl, rfl, fun hsame => Bool.false_ne_true hsame.valid⟩

end AetherStream.MmapFile
