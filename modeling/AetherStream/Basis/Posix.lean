import Mathlib.Data.Finset.Basic
import AetherStream.Basis.Ownership

/-! The system calls on files and mappings, what they do to the descriptors and mappings of a
process and to a file, and rules for one party that gets and returns them. -/

namespace Basis.Posix

inductive Call where
  | openFile (truncate : Bool) (fd : Option Nat)
  | fstat (fd : Nat) (ok : Bool)
  | ftruncate (fd size : Nat) (ok : Bool)
  | mmap (fd : Nat) (addr : Option Nat)
  | msync (addr : Nat) (ok : Bool)
  | munmap (addr : Nat) (ok : Bool)
  | close (fd : Nat) (ok : Bool)
  deriving DecidableEq, Repr

def Call.effect (bytes : List UInt8) : Call → List UInt8
  | .openFile true (some _) => []
  | .ftruncate _ size true => (bytes ++ List.replicate size 0).take size
  | _ => bytes

def contentAfter (bytes : List UInt8) (calls : List Call) : List UInt8 := calls.foldl Call.effect bytes

theorem contentAfter_append (bytes : List UInt8) (cs ds : List Call) :
    contentAfter bytes (cs ++ ds) = contentAfter (contentAfter bytes cs) ds := List.foldl_append

/-- The open descriptors and live mappings of a process, those mappings among them that it
failed to unmap, and whether it ever named a descriptor or mapping that it did not have. -/
structure Kernel where
  fds : Finset Nat := ∅
  maps : Finset Nat := ∅
  stuck : Finset Nat := ∅
  misused : Bool := false
  stuck_subset : stuck ⊆ maps := by simp

namespace Kernel

def needs (k : Kernel) (p : Prop) [Decidable p] : Kernel := { k with misused := k.misused || !decide p }

/-- A close releases the descriptor whatever it returns. -/
def exec (k : Kernel) : Call → Kernel
  | .openFile _ none => k
  | .openFile _ (some fd) => { k with fds := insert fd k.fds }
  | .fstat fd _ => k.needs (fd ∈ k.fds)
  | .ftruncate fd _ _ => k.needs (fd ∈ k.fds)
  | .mmap fd none => k.needs (fd ∈ k.fds)
  | .mmap fd (some addr) =>
    { k.needs (fd ∈ k.fds) with
      maps := insert addr k.maps, stuck_subset := k.stuck_subset.trans (Finset.subset_insert ..) }
  | .msync addr _ => k.needs (addr ∈ k.maps)
  | .munmap addr true =>
    { k.needs (addr ∈ k.maps) with
      maps := k.maps.erase addr, stuck := k.stuck.erase addr
      stuck_subset := Finset.erase_subset_erase _ k.stuck_subset }
  | .munmap addr false =>
    { k.needs (addr ∈ k.maps) with
      stuck := insert addr k.stuck ∩ k.maps, stuck_subset := Finset.inter_subset_right }
  | .close fd _ => { k.needs (fd ∈ k.fds) with fds := k.fds.erase fd }

def run (k : Kernel) (calls : List Call) : Kernel := calls.foldl exec k

def Possible (k : Kernel) : Call → Prop
  | .openFile _ (some fd) => fd ∉ k.fds
  | .mmap _ (some addr) => addr ∉ k.maps
  | _ => True

instance (k : Kernel) : DecidablePred k.Possible
  | .openFile _ none => .isTrue trivial
  | .openFile _ (some fd) => inferInstanceAs (Decidable (fd ∉ k.fds))
  | .mmap _ none => .isTrue trivial
  | .mmap _ (some addr) => inferInstanceAs (Decidable (addr ∉ k.maps))
  | .fstat .. | .ftruncate .. | .msync .. | .munmap .. | .close .. => .isTrue trivial

def Admits (k : Kernel) : List Call → Prop
  | [] => True
  | c :: cs => k.Possible c ∧ (k.exec c).Admits cs

def decidableAdmits (k : Kernel) : (calls : List Call) → Decidable (k.Admits calls)
  | [] => .isTrue trivial
  | c :: cs =>
    have := (k.exec c).decidableAdmits cs
    inferInstanceAs (Decidable (k.Possible c ∧ (k.exec c).Admits cs))

instance (k : Kernel) (calls : List Call) : Decidable (k.Admits calls) := k.decidableAdmits calls

@[simp] theorem run_nil (k : Kernel) : k.run [] = k := rfl

@[simp] theorem run_cons (k : Kernel) (c : Call) (cs : List Call) : k.run (c :: cs) = (k.exec c).run cs := rfl

theorem run_append (k : Kernel) (cs ds : List Call) : k.run (cs ++ ds) = (k.run cs).run ds := List.foldl_append

theorem admits_append {k : Kernel} {cs ds : List Call} :
    k.Admits (cs ++ ds) ↔ k.Admits cs ∧ (k.run cs).Admits ds := by
  induction cs generalizing k with
  | nil => simp [Admits]
  | cons c cs ih => simp only [List.cons_append, Admits, ih, run_cons, and_assoc]

theorem misused_exec {k : Kernel} (h : k.misused = true) (c : Call) : (k.exec c).misused = true := by
  unfold exec
  split <;> simp [needs, h]

theorem misused_run {k : Kernel} (h : k.misused = true) (calls : List Call) : (k.run calls).misused = true :=
  List.foldlRecOn (motive := fun k : Kernel => k.misused = true) calls exec h fun _ hk c _ => misused_exec hk c

theorem misused_close {k : Kernel} {fd : Nat} (h : fd ∉ k.fds) (ok : Bool) :
    (k.exec (.close fd ok)).misused = true := by
  simp [exec, needs, h]

theorem misused_munmap {k : Kernel} {addr : Nat} (h : addr ∉ k.maps) (ok : Bool) :
    (k.exec (.munmap addr ok)).misused = true := by
  cases ok <;> simp [exec, needs, h]

theorem mem_fds_exec {k : Kernel} {c : Call} {fd : Nat} (h : fd ∈ (k.exec c).fds) :
    fd ∈ k.fds ∨ ∃ truncate, c = .openFile truncate (some fd) := by
  cases c with
  | openFile truncate fd' =>
    cases fd' with
    | none => exact Or.inl h
    | some fd' =>
      rcases Finset.mem_insert.mp h with rfl | h
      · exact Or.inr ⟨truncate, rfl⟩
      · exact Or.inl h
  | mmap _ addr => cases addr <;> exact Or.inl h
  | munmap _ ok => cases ok <;> exact Or.inl h
  | close => exact Or.inl (Finset.mem_of_mem_erase h)
  | _ => exact Or.inl h

theorem mem_maps_exec {k : Kernel} {c : Call} {addr : Nat} (h : addr ∈ (k.exec c).maps) :
    addr ∈ k.maps ∨ ∃ fd, c = .mmap fd (some addr) := by
  cases c with
  | openFile _ fd => cases fd <;> exact Or.inl h
  | mmap fd addr' =>
    cases addr' with
    | none => exact Or.inl h
    | some addr' =>
      rcases Finset.mem_insert.mp h with rfl | h
      · exact Or.inr ⟨fd, rfl⟩
      · exact Or.inl h
  | munmap _ ok =>
    cases ok with
    | true => exact Or.inl (Finset.mem_of_mem_erase h)
    | false => exact Or.inl h
  | _ => exact Or.inl h

theorem notMem_fds_run {k : Kernel} {fd : Nat} (hfd : fd ∉ k.fds) {calls : List Call}
    (hnone : ∀ truncate, Call.openFile truncate (some fd) ∉ calls) : fd ∉ (k.run calls).fds := by
  refine List.foldlRecOn (motive := fun k : Kernel => fd ∉ k.fds) calls exec hfd fun k hk c hc hmem => ?_
  rcases mem_fds_exec hmem with hmem | ⟨truncate, rfl⟩
  · exact hk hmem
  · exact hnone truncate hc

theorem notMem_maps_run {k : Kernel} {addr : Nat} (haddr : addr ∉ k.maps) {calls : List Call}
    (hnone : ∀ fd, Call.mmap fd (some addr) ∉ calls) : addr ∉ (k.run calls).maps := by
  refine List.foldlRecOn (motive := fun k : Kernel => addr ∉ k.maps) calls exec haddr fun k hk c hc hmem => ?_
  rcases mem_maps_exec hmem with hmem | ⟨fd, rfl⟩
  · exact hk hmem
  · exact hnone fd hc

theorem openFile_mem_of_close {k : Kernel} {cs mid ds : List Call} {fd : Nat} {ok ok' : Bool}
    (h : (k.run (cs ++ .close fd ok :: (mid ++ .close fd ok' :: ds))).misused = false) :
    ∃ truncate, Call.openFile truncate (some fd) ∈ mid := by
  by_contra hnone
  have hclosed : fd ∉ ((k.run cs).exec (.close fd ok)).fds := Finset.notMem_erase fd _
  have hmisused := misused_close (notMem_fds_run hclosed (not_exists.mp hnone)) ok'
  rw [run_append, run_cons, run_append, run_cons, misused_run hmisused] at h
  contradiction

theorem mmap_mem_of_munmap {k : Kernel} {cs mid ds : List Call} {addr : Nat} {ok : Bool}
    (h : (k.run (cs ++ .munmap addr true :: (mid ++ .munmap addr ok :: ds))).misused = false) :
    ∃ fd, Call.mmap fd (some addr) ∈ mid := by
  by_contra hnone
  have hgone : addr ∉ ((k.run cs).exec (.munmap addr true)).maps := Finset.notMem_erase addr _
  have hmisused := misused_munmap (notMem_maps_run hgone (not_exists.mp hnone)) ok
  rw [run_append, run_cons, run_append, run_cons, misused_run hmisused] at h
  contradiction

def owned (k : Kernel) : Finset Nat := k.maps \ k.stuck

end Kernel

structure Holding where
  fd : Option Nat := none
  addr : Option Nat := none

structure Holding.In (h : Holding) (k : Kernel) : Prop where
  fd : ∀ x, h.fd = some x → x ∈ k.fds
  addr : ∀ x, h.addr = some x → x ∈ k.owned

theorem Holding.in_empty (k : Kernel) : ({} : Holding).In k :=
  ⟨fun _ h => absurd h (by simp), fun _ h => absurd h (by simp)⟩

/-- Between two states, a party that had `h` came to have `h'`, properly, and nothing else
changed hands. -/
structure Exchanges (k k' : Kernel) (h h' : Holding) : Prop where
  fds : Swaps (k.fds : Set Nat) k'.fds h.fd h'.fd
  owned : Swaps (k.owned : Set Nat) k'.owned h.addr h'.addr
  misused : k'.misused = k.misused

namespace Exchanges
variable {k k' k'' : Kernel} {h h' h'' : Holding}

theorem holds (hx : Exchanges k k' h h') : h'.In k' := ⟨fun _ hfd => hx.fds.mem hfd, fun _ haddr => hx.owned.mem haddr⟩

theorem fds_eq (hx : Exchanges k k' {} {}) : k'.fds = k.fds := by
  ext x
  simpa using hx.fds.mem_iff x

theorem refl (hin : h.In k) : Exchanges k k h h := ⟨.keep hin.fd, .keep hin.addr, rfl⟩

theorem trans (hx : Exchanges k k' h h') (hy : Exchanges k' k'' h' h'') : Exchanges k k'' h h'' :=
  ⟨hx.fds.trans hy.fds, hx.owned.trans hy.owned, hy.misused.trans hx.misused⟩

theorem cons {c : Call} {cs : List Call} (hx : Exchanges k (k.exec c) h h')
    (hy : Exchanges (k.exec c) ((k.exec c).run cs) h' h'') : Exchanges k (k.run (c :: cs)) h h'' := hx.trans hy

theorem append {cs ds : List Call} (hx : Exchanges k (k.run cs) h h')
    (hy : Exchanges (k.run cs) ((k.run cs).run ds) h' h'') : Exchanges k (k.run (cs ++ ds)) h h'' := by
  rw [Kernel.run_append]
  exact hx.trans hy

variable {fd addr : Nat}

theorem needs {p : Prop} [Decidable p] (hin : h.In k) (hp : p) : Exchanges k (k.needs p) h h :=
  ⟨.keep hin.fd, .keep hin.addr, by simp [Kernel.needs, hp]⟩

theorem fstat (ok : Bool) (hin : h.In k) (hfd : h.fd = some fd) : Exchanges k (k.exec (.fstat fd ok)) h h :=
  needs hin (hin.fd fd hfd)

theorem ftruncate (size : Nat) (ok : Bool) (hin : h.In k) (hfd : h.fd = some fd) :
    Exchanges k (k.exec (.ftruncate fd size ok)) h h := needs hin (hin.fd fd hfd)

theorem mmap_none (hin : h.In k) (hfd : h.fd = some fd) : Exchanges k (k.exec (.mmap fd none)) h h :=
  needs hin (hin.fd fd hfd)

theorem msync (ok : Bool) (hin : h.In k) (haddr : h.addr = some addr) : Exchanges k (k.exec (.msync addr ok)) h h :=
  needs hin (Finset.mem_sdiff.mp (hin.addr addr haddr)).1

theorem openFile (truncate : Bool) (fd : Nat) (hin : h.In k) (hfd : h.fd = none)
    (hpos : k.Possible (.openFile truncate (some fd))) :
    Exchanges k (k.exec (.openFile truncate (some fd))) h { h with fd := some fd } := by
  refine ⟨?_, .keep hin.addr, rfl⟩
  show Swaps (k.fds : Set Nat) (insert fd k.fds : Finset Nat) h.fd (some fd)
  rw [hfd, Finset.coe_insert]
  exact .acquire hpos

theorem close (ok : Bool) (hin : h.In k) (hfd : h.fd = some fd) :
    Exchanges k (k.exec (.close fd ok)) h { h with fd := none } := by
  have hopen := hin.fd fd hfd
  refine ⟨?_, .keep hin.addr, by simp [Kernel.exec, Kernel.needs, hopen]⟩
  show Swaps (k.fds : Set Nat) (k.fds.erase fd : Finset Nat) h.fd none
  rw [hfd, Finset.coe_erase]
  exact .release fd

theorem mmap (hin : h.In k) (hfd : h.fd = some fd) (haddr : h.addr = none)
    (hpos : k.Possible (.mmap fd (some addr))) :
    Exchanges k (k.exec (.mmap fd (some addr))) h { h with addr := some addr } := by
  have hopen := hin.fd fd hfd
  refine ⟨.keep hin.fd, ?_, by simp [Kernel.exec, Kernel.needs, hopen]⟩
  have hnew : addr ∉ k.maps := hpos
  have howned : (k.exec (.mmap fd (some addr))).owned = insert addr k.owned :=
    Finset.insert_sdiff_of_notMem _ fun hstuck => hnew (k.stuck_subset hstuck)
  show Swaps (k.owned : Set Nat) _ h.addr (some addr)
  rw [haddr, howned, Finset.coe_insert]
  exact .acquire fun hmem => hnew (Finset.mem_sdiff.mp hmem).1

theorem munmap (ok : Bool) (hin : h.In k) (haddr : h.addr = some addr) :
    Exchanges k (k.exec (.munmap addr ok)) h { h with addr := none } := by
  -- a mapping that could not be removed is given up too, and counts as stuck
  have hmem := Finset.mem_sdiff.mp (hin.addr addr haddr)
  have howned : (k.exec (.munmap addr ok)).owned = k.owned.erase addr := by
    ext x
    cases ok with
    | false =>
      show x ∈ k.maps \ (insert addr k.stuck ∩ k.maps) ↔ x ∈ (k.maps \ k.stuck).erase addr
      simp only [Finset.mem_sdiff, Finset.mem_inter, Finset.mem_insert, Finset.mem_erase]
      tauto
    | true =>
      show x ∈ k.maps.erase addr \ k.stuck.erase addr ↔ x ∈ (k.maps \ k.stuck).erase addr
      simp only [Finset.mem_sdiff, Finset.mem_erase]
      tauto
  refine ⟨?_, ?_, ?_⟩
  · cases ok <;> exact .keep hin.fd
  · show Swaps (k.owned : Set Nat) _ h.addr none
    rw [haddr, howned, Finset.coe_erase]
    exact .release addr
  · cases ok <;> simp [Kernel.exec, Kernel.needs, hmem.1]

end Exchanges
end Basis.Posix
