/-!
# Statuses

`util/status.h`: the result of a fallible call, with the message it carries.
-/

namespace Lpad

inductive Status where
  | ok
  | notFound (msg : String)
  | corruption (msg : String)
  | notSupported (msg : String)
  | invalidArgument (msg : String)
  | ioError (msg : String)
deriving DecidableEq, Repr

/-- `Status::ok()` -/
def Status.isOk : Status → Bool
  | .ok => true
  | _ => false

theorem Status.isOk_iff {s : Status} : s.isOk = true ↔ s = .ok := by
  cases s with
  | ok => simp [Status.isOk]
  | _ => simp [Status.isOk]

end Lpad
