import AetherStream.Basis.Posix
import AetherStream.Io.MmapFile

/-! The operations of `MmapFile` that take up and give back descriptors and mappings, each
with the system calls it makes, in order. -/

namespace AetherStream
open Basis Posix

structure ResizeCalls where
  msyncOk : Bool
  munmapOk : Bool
  ftruncateOk : Bool
  mmapAddr : Option Nat

structure CloseCalls where
  msyncOk : Bool
  munmapOk : Bool
  closeOk : Bool

def FileContent.resized (content : FileContent) (size : UInt64) (h : size.toNat < 2 ^ 63) : FileContent where
  bytes := (content.bytes ++ List.replicate size.toNat 0).take size.toNat
  length_lt := (List.length_take_le ..).trans_lt h

theorem FileContent.length_resized (content : FileContent) (size : UInt64) (h : size.toNat < 2 ^ 63) :
    (content.resized size h).bytes.length = size.toNat := by
  simp [resized]

namespace MmapFile

def holding (f : MmapFile) : Holding := ⟨f.fd, f.data.map Mapping.addr⟩

def createTrace (path : String) (size : UInt64) (calls : CreateCalls) (closeOk : Bool) : List Call :=
  if path.isEmpty then []
  else if size = 0 then []
  else match calls.openFd with
    | none => [.openFile true none]
    | some fd =>
      if calls.ftruncateOk = true ∧ size.toNat < 2 ^ 63 then
        match calls.mmapAddr with
        | none => [.openFile true (some fd), .ftruncate fd size.toNat true, .mmap fd none, .close fd closeOk]
        | some addr => [.openFile true (some fd), .ftruncate fd size.toNat true, .mmap fd (some addr)]
      else [.openFile true (some fd), .ftruncate fd size.toNat false, .close fd closeOk]

def openExistingTrace (path : String) (content : FileContent) (calls : OpenCalls) (closeOk : Bool) : List Call :=
  if path.isEmpty then []
  else match calls.openFd with
    | none => [.openFile false none]
    | some fd =>
      if !calls.fstatOk then [.openFile false (some fd), .fstat fd false, .close fd closeOk]
      else if content.bytes.length = 0 then [.openFile false (some fd), .fstat fd true, .close fd closeOk]
      else match calls.mmapAddr with
        | none => [.openFile false (some fd), .fstat fd true, .mmap fd none, .close fd closeOk]
        | some addr => [.openFile false (some fd), .fstat fd true, .mmap fd (some addr)]

def flushTrace (f : MmapFile) (msyncOk : Bool) : List Call :=
  if !f.valid then [] else f.data.elim [] fun m => [.msync m.addr msyncOk]

/-- `resize` behind its flush. From the unmapping on, a failure leaves an object that has a
descriptor and no mapping. -/
def remap (f : MmapFile) (fd : Nat) (m : Mapping) (newSize : UInt64) (calls : ResizeCalls) :
    Status × MmapFile × List Call :=
  let unmapped : MmapFile := { f with data := none, size := 0, size_eq := by simp }
  if !calls.munmapOk then (⟨.ioError, "failed to unmap mmap file"⟩, unmapped, [.munmap m.addr false])
  else if h : calls.ftruncateOk = true ∧ newSize.toNat < 2 ^ 63 then
    match calls.mmapAddr with
    | none => (⟨.ioError, "failed to map mmap file"⟩, unmapped,
        [.munmap m.addr true, .ftruncate fd newSize.toNat true, .mmap fd none])
    | some addr =>
      (.ok, { unmapped with
          data := some ⟨addr, m.content.resized newSize h.2⟩, size := newSize
          size_eq := by
            rintro _ ⟨⟩
            exact m.content.length_resized newSize h.2 },
        [.munmap m.addr true, .ftruncate fd newSize.toNat true, .mmap fd (some addr)])
  else (⟨.ioError, "failed to resize mmap file"⟩, unmapped,
    [.munmap m.addr true, .ftruncate fd newSize.toNat false])

def resize (f : MmapFile) (newSize : UInt64) (calls : ResizeCalls) : Status × MmapFile × List Call :=
  let flushStatus := f.flush calls.msyncOk
  if newSize = 0 then (invalidSizeStatus, f, [])
  else if !f.valid then (⟨.invalidArgument, "mmap file is not open"⟩, f, [])
  else if !flushStatus.isOk then (flushStatus, f, f.flushTrace calls.msyncOk)
  else match f.fd, f.data with
    | some fd, some m =>
      let (status, file, remapCalls) := f.remap fd m newSize calls
      (status, file, f.flushTrace calls.msyncOk ++ remapCalls)
    -- a valid object has both
    | _, _ => (⟨.invalidArgument, "mmap file is not open"⟩, f, [])

/-- Every step of `close` is tried, and the first error reported. `reset` leaves a
default-constructed object. -/
def close (f : MmapFile) (calls : CloseCalls) : Status × MmapFile × List Call :=
  let flushes := f.valid && f.options.flushOnDestroy
  let unmaps := f.data.isSome && f.size != 0
  let firstError := if flushes then f.flush calls.msyncOk else .ok
  let firstError :=
    if unmaps && !calls.munmapOk && firstError.isOk then ⟨.ioError, "failed to unmap mmap file"⟩ else firstError
  let firstError :=
    if f.fd.isSome && !calls.closeOk && firstError.isOk then ⟨.ioError, "failed to close mmap file"⟩ else firstError
  (firstError, {},
    (if flushes then f.flushTrace calls.msyncOk else []) ++
      ((if unmaps then f.data.elim [] fun m => [.munmap m.addr calls.munmapOk] else []) ++
        f.fd.elim [] fun fd => [.close fd calls.closeOk]))

def movedFrom (f : MmapFile) : MmapFile := { options := f.options }

def Proper (f : MmapFile) : Prop := f.data.isSome = true → f.size ≠ 0

def holdingOf (o : Option MmapFile) : Holding := o.elim {} holding

section Open
variable {k : Kernel}

theorem exchanges_open_close {truncate : Bool} {fd : Nat} (calls : List Call) (closeOk : Bool)
    (hpos : k.Possible (.openFile truncate (some fd)))
    (huse : ∀ k', Holding.In ⟨some fd, none⟩ k' → Exchanges k' (k'.run calls) ⟨some fd, none⟩ ⟨some fd, none⟩) :
    Exchanges k (k.run (.openFile truncate (some fd) :: (calls ++ [.close fd closeOk]))) {} {} := by
  have hopen := Exchanges.openFile truncate fd (Holding.in_empty k) rfl hpos
  have hused := huse _ hopen.holds
  exact hopen.cons (hused.append (Exchanges.close closeOk hused.holds rfl))

theorem exchanges_create (path : String) (size : UInt64) (options : MmapFileOptions) (calls : CreateCalls)
    (closeOk : Bool) (hadm : k.Admits (createTrace path size calls closeOk)) :
    Exchanges k (k.run (createTrace path size calls closeOk)) {}
      (holdingOf (create path size options calls).toOption) := by
  -- a `create` that fails has closed what it opened
  have hnone := Exchanges.refl (Holding.in_empty k)
  obtain ⟨openFd, ftruncateOk, mmapAddr⟩ := calls
  unfold create
  unfold createTrace at hadm ⊢
  by_cases hpath : path.isEmpty
  · rw [if_pos hpath, if_pos hpath]
    exact hnone
  by_cases hsize : size = 0
  · rw [if_neg hpath, if_neg hpath, if_pos hsize, if_pos hsize]
    exact hnone
  rw [if_neg hpath, if_neg hsize] at hadm ⊢
  rw [if_neg hpath, if_neg hsize]
  cases openFd with
  | none => exact hnone
  | some fd =>
    dsimp only at hadm ⊢
    split_ifs at hadm ⊢ with h
    · cases mmapAddr with
      | none =>
        refine exchanges_open_close [.ftruncate fd size.toNat true, .mmap fd none] closeOk hadm.1 fun k' hin => ?_
        have htrunc := Exchanges.ftruncate size.toNat true hin rfl
        exact htrunc.cons (Exchanges.mmap_none htrunc.holds rfl)
      | some addr =>
        have hopen := Exchanges.openFile true fd (Holding.in_empty k) rfl hadm.1
        have htrunc := Exchanges.ftruncate size.toNat true hopen.holds rfl
        exact hopen.cons (htrunc.cons (Exchanges.mmap htrunc.holds rfl rfl hadm.2.2.1))
    · exact exchanges_open_close [.ftruncate fd size.toNat false] closeOk hadm.1 fun k' hin =>
        Exchanges.ftruncate size.toNat false hin rfl

theorem exchanges_openExisting (path : String) (options : MmapFileOptions) (content : FileContent) (calls : OpenCalls)
    (closeOk : Bool) (hadm : k.Admits (openExistingTrace path content calls closeOk)) :
    Exchanges k (k.run (openExistingTrace path content calls closeOk)) {}
      (holdingOf (openExisting path options content calls).toOption) := by
  have hnone := Exchanges.refl (Holding.in_empty k)
  obtain ⟨openFd, fstatOk, mmapAddr⟩ := calls
  unfold openExisting
  unfold openExistingTrace at hadm ⊢
  by_cases hpath : path.isEmpty
  · rw [if_pos hpath, if_pos hpath]
    exact hnone
  rw [if_neg hpath] at hadm ⊢
  rw [if_neg hpath]
  cases openFd with
  | none => exact hnone
  | some fd =>
    dsimp only at hadm ⊢
    split_ifs at hadm ⊢
    · exact exchanges_open_close [.fstat fd false] closeOk hadm.1 fun k' hin => Exchanges.fstat false hin rfl
    · exact exchanges_open_close [.fstat fd true] closeOk hadm.1 fun k' hin => Exchanges.fstat true hin rfl
    · cases mmapAddr with
      | none =>
        refine exchanges_open_close [.fstat fd true, .mmap fd none] closeOk hadm.1 fun k' hin => ?_
        have hstat := Exchanges.fstat true hin rfl
        exact hstat.cons (Exchanges.mmap_none hstat.holds rfl)
      | some addr =>
        have hopen := Exchanges.openFile false fd (Holding.in_empty k) rfl hadm.1
        have hstat := Exchanges.fstat true hopen.holds rfl
        exact hopen.cons (hstat.cons (Exchanges.mmap hstat.holds rfl rfl hadm.2.2.1))

end Open

section Object
variable {f : MmapFile} {k : Kernel} (hin : f.holding.In k)
include hin

theorem exchanges_flush (msyncOk : Bool) : Exchanges k (k.run (f.flushTrace msyncOk)) f.holding f.holding := by
  unfold flushTrace
  split_ifs
  · exact .refl hin
  · cases hdata : f.data with
    | none => exact .refl hin
    | some m => exact Exchanges.msync msyncOk hin (by rw [holding, hdata]; rfl)

theorem exchanges_close (hf : f.Proper) (calls : CloseCalls) :
    Exchanges k (k.run (f.close calls).2.2) f.holding (f.close calls).2.1.holding := by
  have hflush : Exchanges k (k.run (if f.valid && f.options.flushOnDestroy then f.flushTrace calls.msyncOk else []))
      f.holding f.holding := by
    split_ifs
    · exact exchanges_flush hin calls.msyncOk
    · exact .refl hin
  have hunmap {k' : Kernel} (hin' : f.holding.In k') :
      Exchanges k' (k'.run
        (if f.data.isSome && f.size != 0 then f.data.elim [] fun m => [.munmap m.addr calls.munmapOk]
        else [])) f.holding ⟨f.fd, none⟩ := by
    cases hdata : f.data with
    | none =>
      have hnone : f.holding = ⟨f.fd, none⟩ := by rw [holding, hdata]; rfl
      exact hnone ▸ .refl hin'
    | some m =>
      have hsize := hf (by rw [hdata]; rfl)
      rw [if_pos (by simpa using hsize)]
      exact Exchanges.munmap calls.munmapOk hin' (by rw [holding, hdata]; rfl)
  have hclose {k' : Kernel} (hin' : Holding.In ⟨f.fd, none⟩ k') :
      Exchanges k' (k'.run (f.fd.elim [] fun fd => [.close fd calls.closeOk])) ⟨f.fd, none⟩ {} := by
    cases hfd : f.fd with
    | none => exact .refl (Holding.in_empty k')
    | some fd =>
      rw [hfd] at hin'
      exact Exchanges.close calls.closeOk hin' rfl
  have hmiddle := hunmap hflush.holds
  exact hflush.append (hmiddle.append (hclose hmiddle.holds))

theorem exchanges_remap {fd : Nat} {m : Mapping} (hfd : f.fd = some fd) (hdata : f.data = some m) (newSize : UInt64)
    (calls : ResizeCalls) (hadm : k.Admits (f.remap fd m newSize calls).2.2) :
    Exchanges k (k.run (f.remap fd m newSize calls).2.2) f.holding (f.remap fd m newSize calls).2.1.holding := by
  have hhold : f.holding = ⟨some fd, some m.addr⟩ := by rw [holding, hfd, hdata]; rfl
  have hunmap (ok : Bool) : Exchanges k (k.exec (.munmap m.addr ok)) f.holding ⟨f.fd, none⟩ :=
    Exchanges.munmap ok hin (by rw [hhold])
  have htrunc (ok : Bool) := Exchanges.ftruncate newSize.toNat ok (hunmap true).holds hfd
  obtain ⟨msyncOk, munmapOk, ftruncateOk, mmapAddr⟩ := calls
  unfold remap at hadm ⊢
  dsimp only at hadm ⊢
  split_ifs at hadm ⊢
  · exact hunmap false
  · cases mmapAddr with
    | none => exact (hunmap true).cons ((htrunc true).cons (Exchanges.mmap_none (htrunc true).holds hfd))
    | some addr =>
      exact (hunmap true).cons ((htrunc true).cons (Exchanges.mmap (htrunc true).holds hfd rfl hadm.2.2.1))
  · exact (hunmap true).cons (htrunc false)

theorem exchanges_resize (newSize : UInt64) (calls : ResizeCalls) (hadm : k.Admits (f.resize newSize calls).2.2) :
    Exchanges k (k.run (f.resize newSize calls).2.2) f.holding (f.resize newSize calls).2.1.holding := by
  have hflush := exchanges_flush hin calls.msyncOk
  unfold resize at hadm ⊢
  dsimp only at hadm ⊢
  split_ifs at hadm ⊢
  · exact .refl hin
  · exact .refl hin
  · exact hflush
  split at hadm
  · rename_i fd m hfd hdata
    exact hflush.append (exchanges_remap hflush.holds hfd hdata newSize calls (Kernel.admits_append.mp hadm).2)
  · exact .refl hin

end Object

theorem proper_of_unmapped {f : MmapFile} (h : f.data = none) : f.Proper := fun hdata => absurd hdata (by simp [h])

theorem proper_of_valid {f : MmapFile} (h : f.valid = true) : f.Proper := by
  simp only [valid, Bool.and_eq_true, bne_iff_ne] at h
  exact fun _ => h.2

theorem Proper.resize {f : MmapFile} (hf : f.Proper) (newSize : UInt64) (calls : ResizeCalls) :
    (f.resize newSize calls).2.1.Proper := by
  unfold MmapFile.resize
  dsimp only
  split_ifs with hsize
  · exact hf
  · exact hf
  · exact hf
  split
  · unfold remap
    dsimp only
    split_ifs
    · exact proper_of_unmapped rfl
    · split
      · exact proper_of_unmapped rfl
      · exact fun _ => hsize
    · exact proper_of_unmapped rfl
  · exact hf

end MmapFile
end AetherStream
