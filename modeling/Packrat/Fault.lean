/-! # Faults and halts

    Some operations have a rule of use: a window is rewound only inside what it
    holds, a recorded span is reused only from the token it was recorded at, and no
    more memory is asked for than there can be.  A caller that breaks such a rule
    gets a `Fault`.  A fault is no verdict on the input: nothing catches it, and the
    value it was asked of is not to be used again.

    `Halt ε` joins the three ways in which a computation ends without a value.  Only
    `failed` is an answer about the input; `outOfFuel` says that the caller's bound
    on the number of steps was too small to find one. -/

namespace Packrat

/-- One more than the largest 64-bit number.  Every counter of the library stays below it. -/
def wordLimit : Nat := 0x10000000000000000

/-- One more than the number of bytes that can be asked for at once. -/
def blockLimit : Nat := 0x8000000000000000

/-- A broken rule of use. -/
inductive Fault where
  /-- A window was to be made with room for more tokens than can be asked for at once. -/
  | capacityOverflow
  /-- A window was asked for a token whose index leaves the 64-bit range. -/
  | lookaheadOverflow
  /-- A window was moved past the last token it holds. -/
  | seekPastEnd
  /-- A rule ended before the token where it started, so that there is no span to record. -/
  | reversedSpan
  /-- A recorded span was found that does not start at the current token. -/
  | staleSpan
deriving DecidableEq, Repr

/-- Why a computation ended without a value. -/
inductive Halt (ε : Type) where
  /-- The input was judged, and this is the complaint. -/
  | failed (error : ε)
  /-- A rule of use was broken. -/
  | fault (cause : Fault)
  /-- The bound on the number of steps was reached first. -/
  | outOfFuel
deriving DecidableEq, Repr

/-- Restates the complaint and keeps the other two causes. -/
def Halt.map {ε ε' : Type} (f : ε → ε') : Halt ε → Halt ε'
  | failed e => failed (f e)
  | fault c => fault c
  | outOfFuel => outOfFuel

end Packrat
