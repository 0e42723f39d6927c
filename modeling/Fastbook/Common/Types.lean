import Mathlib.Data.Nat.Notation

/-!
# Shared types of the pipeline

The identifiers and the market-by-order event of `common/types.hpp`, and the
ways in which a modelled call can fail to return to its caller.
-/

namespace Fastbook

abbrev Instrument := UInt32

abbrev Timestamp := UInt64

abbrev Oid := UInt64

inductive Side where
  | bid
  | ask
  deriving DecidableEq, Repr, Inhabited

inductive EventType where
  | added
  | executed
  | replaced
  | cancelled
  | deleted
  deriving DecidableEq, Repr, Inhabited

/-- A market-by-order event.  The defaults are those of the C++ struct, where
every field is value-initialised. -/
structure MboEvent where
  etype : EventType := .added
  side : Side := .bid
  printable : Bool := false
  instrument : Instrument := 0
  timestamp : Timestamp := 0
  oid : Oid := 0
  origOid : Oid := 0
  price : UInt32 := 0
  qty : UInt32 := 0
  rxTsc : UInt64 := 0
  deriving DecidableEq, Repr, Inhabited

/-- Why a modelled call does not return: the process is terminated, a null
pointer is dereferenced, or a loop of the source runs past every bound given to
it. -/
inductive Fault where
  | terminate
  | nullDeref
  | diverge
  deriving DecidableEq, Repr

end Fastbook
