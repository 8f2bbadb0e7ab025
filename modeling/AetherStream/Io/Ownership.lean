import AetherStream.Io.Lifecycle

/-! Any number of `MmapFile` objects that are made, moved, resized, closed and destroyed in any
order, and who is left with which descriptor and mapping. -/

namespace AetherStream
open Basis Posix

namespace MmapFile

structure World where
  objects : Nat → Option MmapFile := fun _ => none
  trace : List Call := []

inductive Op where
  | construct (i : Nat)
  | create (i : Nat) (path : String) (size : UInt64) (options : MmapFileOptions) (calls : CreateCalls) (closeOk : Bool)
  | openExisting (i : Nat) (path : String) (options : MmapFileOptions) (content : FileContent) (calls : OpenCalls)
      (closeOk : Bool)
  | moveConstruct (i j : Nat)
  | moveAssign (i j : Nat) (calls : CloseCalls)
  | resize (i : Nat) (newSize : UInt64) (calls : ResizeCalls)
  | flush (i : Nat) (msyncOk : Bool)
  | close (i : Nat) (calls : CloseCalls)
  | destroy (i : Nat) (calls : CloseCalls)

open Function (update)

/-- The objects after an operation and the calls it makes, unless an object it needs is
missing or the one it makes is there already. -/
def perform (objects : Nat → Option MmapFile) : Op → Option ((Nat → Option MmapFile) × List Call)
  | .construct i =>
    match objects i with
    | some _ => none
    | none => some (update objects i (some {}), [])
  | .create i path size options calls closeOk =>
    match objects i with
    | some _ => none
    | none => some (update objects i (create path size options calls).toOption, createTrace path size calls closeOk)
  | .openExisting i path options content calls closeOk =>
    match objects i with
    | some _ => none
    | none => some (update objects i (MmapFile.openExisting path options content calls).toOption,
        openExistingTrace path content calls closeOk)
  | .moveConstruct i j =>
    match objects i, objects j with
    | none, some f => some (update (update objects i (some f)) j (some f.movedFrom), [])
    | _, _ => none
  | .moveAssign i j calls =>
    match objects i, objects j with
    | some target, some f =>
      if i = j then some (objects, [])
      else some (update (update objects i (some f)) j (some f.movedFrom), (target.close calls).2.2)
    | _, _ => none
  | .resize i newSize calls => (objects i).map fun f =>
    (update objects i (some (f.resize newSize calls).2.1), (f.resize newSize calls).2.2)
  | .flush i msyncOk => (objects i).map fun f => (objects, f.flushTrace msyncOk)
  | .close i calls => (objects i).map fun f => (update objects i (some (f.close calls).2.1), (f.close calls).2.2)
  | .destroy i calls => (objects i).map fun f => (update objects i none, (f.close calls).2.2)

namespace World

def kernel (s : World) : Kernel := ({} : Kernel).run s.trace

def step (s : World) (op : Op) : World :=
  match perform s.objects op with
  | none => s
  | some (objects, calls) => if s.kernel.Admits calls then ⟨objects, s.trace ++ calls⟩ else s

def run (s : World) (ops : List Op) : World := ops.foldl step s

def fdOf (o : Option MmapFile) : Option Nat := (holdingOf o).fd

def addrOf (o : Option MmapFile) : Option Nat := (holdingOf o).addr

structure Inv (s : World) : Prop where
  fds : Owns (fdOf ∘ s.objects) (s.kernel.fds : Set Nat)
  maps : Owns (addrOf ∘ s.objects) (s.kernel.owned : Set Nat)
  proper : ∀ i f, s.objects i = some f → f.Proper
  clean : s.kernel.misused = false

theorem inv_start : Inv {} where
  fds := ⟨fun r => by simp [kernel, fdOf, holdingOf], fun h => absurd h (by simp [fdOf, holdingOf])⟩
  maps := ⟨fun r => by simp [kernel, addrOf, holdingOf, Kernel.owned], fun h => absurd h (by simp [addrOf, holdingOf])⟩
  proper _ _ h := absurd h (by simp)
  clean := rfl

theorem kernel_append (s : World) (objects : Nat → Option MmapFile) (calls : List Call) :
    kernel ⟨objects, s.trace ++ calls⟩ = s.kernel.run calls := Kernel.run_append _ _ _

theorem proper_update {objects : Nat → Option MmapFile} (h : ∀ j f, objects j = some f → f.Proper) {i : Nat}
    {o : Option MmapFile} (ho : ∀ f, o = some f → f.Proper) : ∀ j f, update objects i o j = some f → f.Proper := by
  intro j f hj
  by_cases hji : j = i
  · subst hji
    rw [Function.update_self] at hj
    exact ho f hj
  · rw [Function.update_of_ne hji] at hj
    exact h j f hj

namespace Inv
variable {s : World} {i j : Nat} {f : MmapFile}

theorem holds (h : Inv s) (i : Nat) : (holdingOf (s.objects i)).In s.kernel :=
  ⟨fun _ hx => h.fds.mem (i := i) hx, fun _ hx => h.maps.mem (i := i) hx⟩

theorem holds_of (h : Inv s) (hi : s.objects i = some f) : f.holding.In s.kernel := by
  have hin := h.holds i
  rwa [hi] at hin

theorem exchange (h : Inv s) {o : Option MmapFile} {calls : List Call}
    (hx : Exchanges s.kernel (s.kernel.run calls) (holdingOf (s.objects i)) (holdingOf o))
    (ho : ∀ f, o = some f → f.Proper) : Inv ⟨update s.objects i o, s.trace ++ calls⟩ := by
  refine ⟨?_, ?_, proper_update h.proper ho, ?_⟩
  · rw [kernel_append, Function.comp_update]
    exact h.fds.replace hx.fds
  · rw [kernel_append, Function.comp_update]
    exact h.maps.replace hx.owned
  · rw [kernel_append, hx.misused, h.clean]

theorem make (h : Inv s) (hi : s.objects i = none) {o : Option MmapFile} {calls : List Call}
    (hx : Exchanges s.kernel (s.kernel.run calls) {} (holdingOf o)) (ho : ∀ f, o = some f → f.Proper) :
    Inv ⟨update s.objects i o, s.trace ++ calls⟩ := by
  refine h.exchange ?_ ho
  rw [hi]
  exact hx

theorem change (h : Inv s) (hi : s.objects i = some f) {o : Option MmapFile} {calls : List Call}
    (hx : Exchanges s.kernel (s.kernel.run calls) f.holding (holdingOf o)) (ho : ∀ f, o = some f → f.Proper) :
    Inv ⟨update s.objects i o, s.trace ++ calls⟩ := by
  refine h.exchange ?_ ho
  rw [hi]
  exact hx

theorem move (h : Inv s) (hne : i ≠ j) (hi : holdingOf (s.objects i) = {}) (hj : s.objects j = some f) :
    Inv ⟨update (update s.objects i (some f)) j (some f.movedFrom), s.trace⟩ := by
  refine ⟨?_, ?_, ?_, h.clean⟩
  · rw [Function.comp_update, Function.comp_update, ← hj]
    exact h.fds.transfer hne (congrArg Holding.fd hi)
  · rw [Function.comp_update, Function.comp_update, ← hj]
    exact h.maps.transfer hne (congrArg Holding.addr hi)
  · refine proper_update (proper_update h.proper ?_) ?_
    · rintro _ ⟨⟩
      exact h.proper j f hj
    · rintro _ ⟨⟩
      exact proper_of_unmapped rfl

theorem moveAssign (h : Inv s) {target : MmapFile} (hne : i ≠ j) (hi : s.objects i = some target)
    (hj : s.objects j = some f) (calls : CloseCalls) :
    Inv ⟨update (update s.objects i (some f)) j (some f.movedFrom), s.trace ++ (target.close calls).2.2⟩ := by
  -- the target is closed first, and then takes what the source has
  have hclosed : Inv ⟨update s.objects i (some (target.close calls).2.1), s.trace ++ (target.close calls).2.2⟩ := by
    refine h.change hi (exchanges_close (h.holds_of hi) (h.proper i target hi) calls) ?_
    rintro _ ⟨⟩
    exact proper_of_unmapped rfl
  have hempty : update s.objects i (some (target.close calls).2.1) i = some (target.close calls).2.1 :=
    Function.update_self ..
  have hmoved := hclosed.move hne (congrArg holdingOf hempty) ((Function.update_of_ne hne.symm ..).trans hj)
  rwa [Function.update_idem] at hmoved

theorem proper_toOption {e : Expected MmapFile} (h : ∀ f, e = .ok f → f.Proper) :
    ∀ f, e.toOption = some f → f.Proper := by
  intro f hf
  cases e with
  | error => cases hf
  | ok => exact h f (congrArg Except.ok (Option.some.inj hf))

theorem step (h : Inv s) (op : Op) : Inv (s.step op) := by
  unfold World.step
  split
  · exact h
  rename_i objects calls hperform
  split_ifs with hadm
  swap
  · exact h
  cases op with
  | construct i =>
    dsimp only [perform] at hperform
    split at hperform <;> cases hperform
    refine h.make ‹_› (Exchanges.refl (Holding.in_empty _)) ?_
    rintro _ ⟨⟩
    exact proper_of_unmapped rfl
  | create i path size options createCalls closeOk =>
    dsimp only [perform] at hperform
    split at hperform <;> cases hperform
    refine h.make ‹_› (exchanges_create path size options createCalls closeOk hadm) (proper_toOption fun f hf => ?_)
    exact proper_of_valid (create_eq_ok hf).1
  | openExisting i path options content openCalls closeOk =>
    dsimp only [perform] at hperform
    split at hperform <;> cases hperform
    refine h.make ‹_› (exchanges_openExisting path options content openCalls closeOk hadm)
      (proper_toOption fun f hf => ?_)
    exact proper_of_valid (openExisting_eq_ok hf).1
  | moveConstruct i j =>
    dsimp only [perform] at hperform
    split at hperform <;> cases hperform
    rename_i hi hj
    have hne : i ≠ j := by
      rintro rfl
      rw [hi] at hj
      contradiction
    rw [List.append_nil]
    exact h.move hne (by rw [hi]; rfl) hj
  | moveAssign i j closeCalls =>
    dsimp only [perform] at hperform
    split at hperform
    · rename_i hi hj
      split_ifs at hperform with heq
      · cases hperform
        rwa [List.append_nil]
      · cases hperform
        exact h.moveAssign heq hi hj closeCalls
    · contradiction
  | resize i newSize resizeCalls =>
    obtain ⟨f, hi, hf⟩ := Option.map_eq_some_iff.mp hperform
    cases hf
    refine h.change hi (exchanges_resize (h.holds_of hi) newSize resizeCalls hadm) ?_
    rintro _ ⟨⟩
    exact (h.proper i f hi).resize newSize resizeCalls
  | flush i msyncOk =>
    obtain ⟨f, hi, hf⟩ := Option.map_eq_some_iff.mp hperform
    cases hf
    have hflush := h.change hi (o := some f) (exchanges_flush (h.holds_of hi) msyncOk) ?_
    · rwa [← hi, Function.update_eq_self] at hflush
    · rintro _ ⟨⟩
      exact h.proper i f hi
  | close i closeCalls =>
    obtain ⟨f, hi, hf⟩ := Option.map_eq_some_iff.mp hperform
    cases hf
    refine h.change hi (exchanges_close (h.holds_of hi) (h.proper i f hi) closeCalls) ?_
    rintro _ ⟨⟩
    exact proper_of_unmapped rfl
  | destroy i closeCalls =>
    obtain ⟨f, hi, hf⟩ := Option.map_eq_some_iff.mp hperform
    cases hf
    refine h.change hi (exchanges_close (h.holds_of hi) (h.proper i f hi) closeCalls) ?_
    rintro _ ⟨⟩

theorem run (h : Inv s) (ops : List Op) : Inv (s.run ops) :=
  List.foldlRecOn (motive := fun s : World => Inv s) ops World.step h fun _ hs op _ => hs.step op

end Inv

theorem fds_step_of_exchanges {s : World} {op : Op}
    (h : ∀ objects calls, perform s.objects op = some (objects, calls) →
    s.kernel.Admits calls → Exchanges s.kernel (s.kernel.run calls) {} {}) :
    (s.step op).kernel.fds = s.kernel.fds := by
  unfold step
  split
  · rfl
  · split_ifs with hadm
    · rw [kernel_append]
      exact (h _ _ ‹_› hadm).fds_eq
    · rfl

/-- Over any number of objects and any operations on them, whichever calls fail: every open
descriptor has one owner, nothing is closed or unmapped twice, a failed `create` or
`open_existing` leaves nothing open, and in the end nothing is left but what could not be
unmapped. -/
theorem resource_ownership (ops : List Op) :
    let s := World.run {} ops
    (∀ fd ∈ s.kernel.fds, ∃! i, ∃ f, s.objects i = some f ∧ f.fd = some fd) ∧
    s.kernel.misused = false ∧
    (∀ cs mid ds fd ok ok', s.trace = cs ++ .close fd ok :: (mid ++ .close fd ok' :: ds) →
      ∃ truncate, .openFile truncate (some fd) ∈ mid) ∧
    (∀ cs mid ds addr ok, s.trace = cs ++ .munmap addr true :: (mid ++ .munmap addr ok :: ds) →
      ∃ fd, .mmap fd (some addr) ∈ mid) ∧
    (∀ i path size options calls closeOk status, create path size options calls = .error status →
      (s.step (.create i path size options calls closeOk)).kernel.fds = s.kernel.fds) ∧
    (∀ i path options content calls closeOk status, openExisting path options content calls = .error status →
      (s.step (.openExisting i path options content calls closeOk)).kernel.fds = s.kernel.fds) ∧
    ((∀ i, s.objects i = none) → s.kernel.fds = ∅ ∧ s.kernel.maps ⊆ s.kernel.stuck) := by
  intro s
  have h : Inv s := inv_start.run ops
  refine ⟨fun fd hfd => ?_, h.clean, ?_, ?_, ?_, ?_, fun hnone => ?_⟩
  · have hown (i : Nat) : (∃ f, s.objects i = some f ∧ f.fd = some fd) ↔ (fdOf ∘ s.objects) i = some fd := by
      cases hi : s.objects i with
      | none => simp [fdOf, holdingOf, hi]
      | some f => simp [fdOf, holdingOf, holding, hi]
    simp only [hown]
    exact h.fds.existsUnique hfd
  · intro cs mid ds fd ok ok' htrace
    have hclean := h.clean
    rw [kernel, htrace] at hclean
    exact Kernel.openFile_mem_of_close hclean
  · intro cs mid ds addr ok htrace
    have hclean := h.clean
    rw [kernel, htrace] at hclean
    exact Kernel.mmap_mem_of_munmap hclean
  · intro i path size options calls closeOk status herror
    refine fds_step_of_exchanges fun objects made hperform hadm => ?_
    dsimp only [perform] at hperform
    split at hperform <;> cases hperform
    have hx := exchanges_create path size options calls closeOk hadm
    rwa [herror] at hx
  · intro i path options content calls closeOk status herror
    refine fds_step_of_exchanges fun objects made hperform hadm => ?_
    dsimp only [perform] at hperform
    split at hperform <;> cases hperform
    have hx := exchanges_openExisting path options content calls closeOk hadm
    rwa [herror] at hx
  · have hfds := h.fds.eq_empty fun i => congrArg fdOf (hnone i)
    have hmaps := h.maps.eq_empty fun i => congrArg addrOf (hnone i)
    exact ⟨Finset.coe_eq_empty.mp hfds, Finset.sdiff_eq_empty_iff_subset.mp (Finset.coe_eq_empty.mp hmaps)⟩

/-- A resize that fails to map leaves a descriptor, which a move passes on and the destructor
closes. -/
example : (World.run {} [.create 0 "a" 8 {} ⟨some 3, true, some 64⟩ true, .resize 0 16 ⟨true, true, true, none⟩,
      .moveConstruct 1 0, .destroy 0 ⟨true, true, true⟩, .destroy 1 ⟨true, true, true⟩]).trace =
    [.openFile true (some 3), .ftruncate 3 8 true, .mmap 3 (some 64), .msync 64 true, .munmap 64 true,
      .ftruncate 3 16 true, .mmap 3 none, .close 3 true] := by
  decide +kernel

end World
end MmapFile
end AetherStream
