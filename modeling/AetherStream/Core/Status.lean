import Mathlib.Init

/-! `Status` and `Expected`. The texts of the details are the source's, since two statuses
with the same code differ only by them. -/

namespace AetherStream

inductive StatusCode where
  | ok
  | unknown
  | full
  | empty
  | invalidArgument
  | ioError
  | corruptedRecord
  | outOfSpace
  deriving DecidableEq, Repr

def statusCodeMessage : StatusCode → String
  | .ok => "operation completed successfully"
  | .unknown => "unknown error"
  | .full => "resource is full"
  | .empty => "resource is empty"
  | .invalidArgument => "invalid argument"
  | .ioError => "I/O error"
  | .corruptedRecord => "corrupted record"
  | .outOfSpace => "not enough space"

structure Status where
  code : StatusCode
  detail : String := ""
  deriving DecidableEq, Repr

namespace Status

def ok : Status := ⟨.ok, ""⟩

def isOk (s : Status) : Bool := s.code == .ok

def message (s : Status) : String := if !s.detail.isEmpty then s.detail else statusCodeMessage s.code

@[simp] theorem isOk_ok : ok.isOk = true := rfl

end Status

abbrev Expected (α : Type*) := Except Status α

namespace Expected
variable {α : Type*}

def normalizeExpectedError (status : Status) : Status :=
  if status.isOk then ⟨.invalidArgument, "Expected error status must not be ok"⟩ else status

def ofStatus (status : Status) : Expected α := .error (normalizeExpectedError status)

def status : Expected α → Status
  | .ok _ => .ok
  | .error s => s

theorem ofStatus_of_not_isOk {s : Status} (h : s.isOk = false) : (ofStatus s : Expected α) = .error s := by
  simp [ofStatus, normalizeExpectedError, h]

theorem isOk_of_ofStatus {s e : Status} (h : (ofStatus s : Expected α) = .error e) : e.isOk = false := by
  rw [ofStatus, Except.error.injEq] at h
  rw [← h, normalizeExpectedError]
  split
  · rfl
  · rename_i hok
    simpa using hok

end Expected
end AetherStream
