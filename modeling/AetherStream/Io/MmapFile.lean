import AetherStream.Basis.Bytes
import AetherStream.Core.Status

/-! `MmapFile`: opening, reading, copying into and flushing a mapped file. The outcomes of
the system calls are arguments. A mapping is `MAP_SHARED`, so its bytes are the file's, and
they are carried with the address that `mmap` returned. -/

namespace AetherStream
open Basis

structure MmapFileOptions where
  flushOnDestroy : Bool := true

/-- The contents of a file: `off_t` is signed, so a file has fewer than `2 ^ 63` bytes. -/
structure FileContent where
  bytes : List UInt8
  length_lt : bytes.length < 2 ^ 63

def FileContent.overwrite (content : FileContent) (off : Nat) (src : List UInt8) : FileContent :=
  ⟨Bytes.overwrite content.bytes off src, by simpa using content.length_lt⟩

structure Mapping where
  addr : Nat
  content : FileContent

theorem Mapping.length_eq_of_none :
    ∀ m : Mapping, none = some m → m.content.bytes.length = UInt64.toNat 0 := by simp

/-- `fd_` is absent for `-1` and `data_` for `nullptr`; a mapping is as long as `size_` says. -/
structure MmapFile where
  fd : Option Nat := none
  data : Option Mapping := none
  size : UInt64 := 0
  path : String := ""
  options : MmapFileOptions := {}
  size_eq : ∀ m, data = some m → m.content.bytes.length = size.toNat := by exact Mapping.length_eq_of_none

structure CreateCalls where
  openFd : Option Nat
  ftruncateOk : Bool
  mmapAddr : Option Nat

structure OpenCalls where
  openFd : Option Nat
  fstatOk : Bool
  mmapAddr : Option Nat

namespace MmapFile

def invalidPathStatus : Status := ⟨.invalidArgument, "mmap file path must not be empty"⟩

def invalidSizeStatus : Status := ⟨.invalidArgument, "mmap file size must be greater than zero"⟩

def zeroContent (size : UInt64) (h : size.toNat < 2 ^ 63) : FileContent :=
  ⟨List.replicate size.toNat 0, by simpa using h⟩

/-- `ftruncate` rejects a size that is negative as an `off_t` and otherwise extends the
freshly truncated file by zeros. -/
def create (path : String) (size : UInt64) (options : MmapFileOptions) (calls : CreateCalls) :
    Expected MmapFile :=
  if path.isEmpty then .ofStatus invalidPathStatus
  else if size = 0 then .ofStatus invalidSizeStatus
  else match calls.openFd with
    | none => .ofStatus ⟨.ioError, "failed to open mmap file"⟩
    | some fd =>
      if h : calls.ftruncateOk = true ∧ size.toNat < 2 ^ 63 then
        match calls.mmapAddr with
        | none => .ofStatus ⟨.ioError, "failed to map mmap file"⟩
        | some addr => .ok
          { fd := some fd, data := some ⟨addr, zeroContent size h.2⟩, size := size, path := path
            options := options, size_eq := by simp [zeroContent] }
      else .ofStatus ⟨.ioError, "failed to resize mmap file"⟩

def openExisting (path : String) (options : MmapFileOptions) (content : FileContent) (calls : OpenCalls) :
    Expected MmapFile :=
  if path.isEmpty then .ofStatus invalidPathStatus
  else match calls.openFd with
    | none => .ofStatus ⟨.ioError, "failed to open mmap file"⟩
    | some fd =>
      if !calls.fstatOk then .ofStatus ⟨.ioError, "failed to stat mmap file"⟩
      else if content.bytes.length = 0 then .ofStatus invalidSizeStatus
      else match calls.mmapAddr with
        | none => .ofStatus ⟨.ioError, "failed to map mmap file"⟩
        | some addr => .ok
          { fd := some fd, data := some ⟨addr, content⟩, size := UInt64.ofNat content.bytes.length
            path := path, options := options
            size_eq := by
              have := content.length_lt
              simp only [Option.some.injEq, UInt64.toNat_ofNat', forall_eq']
              omega }

def valid (f : MmapFile) : Bool := f.fd.isSome && f.data.isSome && f.size != 0

def bytes (f : MmapFile) : List UInt8 :=
  if f.valid then f.data.elim [] (·.content.bytes) else []

def flush (f : MmapFile) (msyncOk : Bool) : Status :=
  if !f.valid then ⟨.invalidArgument, "mmap file is not open"⟩
  else if !msyncOk then ⟨.ioError, "failed to flush mmap file"⟩
  else .ok

def copyIn (f : MmapFile) (off : Nat) (src : List UInt8) : MmapFile :=
  { f with
    data := f.data.map fun m => { m with content := m.content.overwrite off src }
    size_eq := by
      intro m hm
      obtain ⟨m', hm', rfl⟩ := Option.map_eq_some_iff.mp hm
      simpa [FileContent.overwrite] using f.size_eq m' hm' }

@[simp] theorem valid_copyIn (f : MmapFile) (off : Nat) (src : List UInt8) :
    (f.copyIn off src).valid = f.valid := by
  simp [valid, copyIn]

theorem bytes_copyIn (f : MmapFile) (off : Nat) (src : List UInt8) :
    (f.copyIn off src).bytes = Bytes.overwrite f.bytes off src := by
  unfold bytes
  rw [valid_copyIn]
  split_ifs
  · cases h : f.data <;> simp [copyIn, h, FileContent.overwrite, Bytes.overwrite]
  · simp [Bytes.overwrite]

theorem length_bytes {f : MmapFile} (h : f.valid = true) : f.bytes.length = f.size.toNat := by
  unfold bytes
  rw [if_pos h]
  cases hd : f.data with
  | none => simp [valid, hd] at h
  | some m => exact f.size_eq m hd

theorem length_bytes_lt (f : MmapFile) : f.bytes.length < 2 ^ 63 := by
  unfold bytes
  split_ifs
  · cases f.data with
    | none => simp
    | some m => exact m.content.length_lt
  · simp

def content (f : MmapFile) : FileContent := ⟨f.bytes, f.length_bytes_lt⟩

theorem create_eq_ok {path : String} {size : UInt64} {options : MmapFileOptions} {calls : CreateCalls}
    {f : MmapFile} (h : create path size options calls = .ok f) :
    f.valid = true ∧ f.size = size ∧ f.bytes = List.replicate size.toNat 0 := by
  unfold create at h
  split at h; · contradiction
  split at h; · contradiction
  rename_i hsize
  split at h; · contradiction
  split at h; swap; · contradiction
  split at h; · contradiction
  cases h
  simp [valid, bytes, zeroContent, hsize]

theorem openExisting_eq_ok {path : String} {options : MmapFileOptions} {content : FileContent}
    {calls : OpenCalls} {f : MmapFile} (h : openExisting path options content calls = .ok f) :
    f.valid = true ∧ f.bytes = content.bytes ∧ f.size.toNat = content.bytes.length := by
  unfold openExisting at h
  split at h; · contradiction
  split at h; · contradiction
  split at h; · contradiction
  split at h; · contradiction
  rename_i hlen
  split at h; · contradiction
  cases h
  have hlt := content.length_lt
  have hsize : (UInt64.ofNat content.bytes.length).toNat = content.bytes.length :=
    UInt64.toNat_ofNat_of_lt' (hlt.trans (by decide))
  have hne : UInt64.ofNat content.bytes.length ≠ 0 := by
    intro hz
    rw [hz] at hsize
    exact hlen hsize.symm
  simp [valid, bytes, hne, hsize]

end MmapFile
end AetherStream
