import YulBackend.Declaration

namespace YulBackend

/-- Rules that callers can break. -/
inductive Violation
  | noSuchPart (type : SourceType) (suffix : String)
  | definedWithoutReservation (name : String)
  | takenWhileReserved
  | seedNotClean
  | alreadyReferenced (expression : NodeId)
  | nothingToForget (expression : NodeId)
  | membersAndCandidates (arity : Arity)
  | dispatchedAndCandidate (arity : Arity)
  | keyOfBothMaps (arity : Arity)
  | referencesPending
  | notAtFixedPoint
  | functionsQueued
  | queueEmpty
  | noContract
  | localBoundTwice (name : String)
  | unknownLocal (name : String)
  | notImmutable (name : String)
  | notOneWord (name : String)
  | reservationClosed
  | reservationClosedTwice
  | unknownImmutable (name : String)
  | unknownStateVariable (name : String)
  | notTry (expression : NodeId)
  | dispatchedUnderOtherArity (function : String) (actual expected : Arity)
  | dispatchedConstructor (name : String)
  | dispatchedWithoutId
  | shiftExceedsWord (bits : Nat)

namespace Violation

def message : Violation → String
  | noSuchPart type suffix => "Type " ++ type.name ++ " has no stack component '" ++ suffix ++ "'."
  | definedWithoutReservation name => "Function " ++ name ++ " defined without a reservation."
  | takenWhileReserved => "Requested functions taken while a function was still being created."
  | seedNotClean => "Dispatch candidates can only be seeded into a clean dispatch state."
  | alreadyReferenced expression =>
    "Expression " ++ toString expression ++ " already holds a dispatchable reference."
  | nothingToForget expression =>
    "Expression " ++ toString expression ++ " has no dispatchable reference to forget."
  | membersAndCandidates arity =>
    "Arity " ++ arity.text ++ " has both dispatch members and candidates before promotion."
  | dispatchedAndCandidate arity => "Arity " ++ arity.text ++ " is both dispatched and a candidate."
  | keyOfBothMaps arity =>
    "Arity " ++ arity.text ++ " is a key of both the dispatch and the candidate map."
  | referencesPending => "References must be promoted before the internal dispatch map is consumed."
  | notAtFixedPoint => "Internal dispatch map consumed before promotion reached a fixed point."
  | functionsQueued => "Internal dispatch map consumed while functions are still queued."
  | queueEmpty => "Function generation queue is empty."
  | noContract => "Most derived contract requested but not set."
  | localBoundTwice name => "Local variable " ++ name ++ " added twice."
  | unknownLocal name => "Unknown variable: " ++ name
  | notImmutable name =>
    "Attempted to register a non-immutable variable " ++ name ++ " as immutable."
  | notOneWord name => "Immutable " ++ name ++ " does not occupy exactly one word."
  | reservationClosed => "Reserved memory has already been finalized."
  | reservationClosedTwice => "Reserved memory was already finalized."
  | unknownImmutable name => "Unknown immutable variable: " ++ name
  | unknownStateVariable name => "Unknown state variable: " ++ name
  | notTry expression => "Expression " ++ toString expression ++ " is not part of a try statement."
  | dispatchedUnderOtherArity function actual expected =>
    "A single dispatch function can only handle functions of one arity: " ++ function ++ " has " ++
      actual.text ++ ", expected " ++ expected.text ++ "."
  | dispatchedConstructor name => "Constructor " ++ name ++ " cannot be called internally."
  | dispatchedWithoutId => "Unexpected function ID: 0"
  | shiftExceedsWord bits => "Shift by " ++ toString bits ++ " bits exceeds a word."

end Violation

inductive Unsupported
  | immutableType (type : SourceType)
  | multiSlotCleanup (type : SourceType)
  | nonValueCleanup (type : SourceType)
  | abiCoding (type : SourceType)
  /-- A feature that lowering does not handle. -/
  | feature (description : String)

namespace Unsupported

def message : Unsupported → String
  | immutableType type => "Immutable variables of type " ++ type.name ++ " are not supported."
  | multiSlotCleanup type => "Cleanup of multi-slot type " ++ type.name ++ "."
  | nonValueCleanup type => "Cleanup of non-value type " ++ type.name ++ "."
  | abiCoding type => "ABI coding of type " ++ type.name ++ "."
  | feature description => description

end Unsupported

/-- Why code is not generated: a caller broke a rule of the interface, or asked for something that is not supported. -/
inductive Fault
  | violation (cause : Violation)
  | unsupported (cause : Unsupported)

def Fault.message : Fault → String
  | violation cause => "Precondition violated: " ++ cause.message
  | unsupported cause => "Unimplemented feature: " ++ cause.message

end YulBackend
