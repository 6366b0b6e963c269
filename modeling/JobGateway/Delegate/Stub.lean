import JobGateway.Delegate.Basic

/-! Delegates with fixed answers, for trying out what is built on delegates. -/
namespace JobGateway

/-- A delegate whose operations succeed, apart from those told to fail or to panic. -/
structure Stub where
  /-- The answer of a list. -/
  jobs : List String
  /-- Whether a delete finds no job. -/
  nothingToDelete : Bool
  failures : List (Operation × CommandError)
  /-- The operations that panic, even if they are also told to fail. -/
  panics : List Operation
  capabilities : Capabilities

namespace Stub

def answer {α : Type} (stub : Stub) (op : Operation) (value : α) :
    StateM Unit (Outcome α) := pure <|
  if stub.panics.contains op then .panicked (.text s!"stub delegate told to panic on {op.name}")
  else match stub.failures.lookup op with
    | some e => .failed e
    | none => .returned value

def delegate (stub : Stub) : Delegate Unit where
  capabilities := stub.capabilities
  listJobs _ _ := stub.answer .listJobs stub.jobs
  createJob _ _ := stub.answer .createJob ()
  updateJob _ _ _ := stub.answer .updateJob ()
  cancelUpdate _ _ := stub.answer .cancelUpdate ()
  restartJob _ _ _ := stub.answer .restartJob ()
  deleteJob key _ _ := stub.answer .deleteJob (if stub.nothingToDelete then [] else [key.text])

end Stub

def Delegate.panicking {σ : Type} (payload : PanicPayload) : Delegate σ where
  capabilities := .all
  listJobs _ _ := pure (.panicked payload)
  createJob _ _ := pure (.panicked payload)
  updateJob _ _ _ := pure (.panicked payload)
  cancelUpdate _ _ := pure (.panicked payload)
  restartJob _ _ _ := pure (.panicked payload)
  deleteJob _ _ _ := pure (.panicked payload)

end JobGateway
