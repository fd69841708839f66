/-! What can be tuned, and the machine. All of it is fixed while a store is open. -/
namespace HeapStore

structure Settings where
  /-- Bytes per page. -/
  pageSize : Nat := 4096
  /-- Pages that the pool can hold. -/
  poolPages : Nat := 50
  /-- How often a denied lock request is tried again. -/
  lockRetries : Nat := 25
  /-- Milliseconds between two tries. -/
  lockWait : Nat := 100
  /-- Number of granted locks after which younger transactions stop waiting for older ones. -/
  starvationThreshold : Nat := 100
  /-- Seconds since the machine was started, when locks are asked for. A day, if nobody says. -/
  uptime : Nat := 86400
  deriving DecidableEq

namespace Settings

/-- Milliseconds that a request waits for its lock before it gives up. -/
def patience (s : Settings) : Nat := s.lockRetries * s.lockWait

/-- Whether there is a moment at which a request gives up. It is fixed when the request is made, as
a number of seconds of at most 63 bits since the machine was started. -/
def hasDeadline (s : Settings) : Bool := s.uptime + s.patience / 1000 < UInt64.size / 2

end Settings
end HeapStore
