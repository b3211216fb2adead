import Montygo.Lib.WireSchema

/-!
# The messages of the protocol

The field numbers of every message, as the codec's field table lists them, and the fields that
hold messages, as the protocol definition has them.
-/

namespace Montygo.Wire

open WireFormat

/-- The messages of `monty.proto`. -/
inductive MessageType where
  | unit | montyObject | objectList | pair | dict | bigInt | namedTuple | date | dateTime | time
  | timeDelta | timeZone | exception | fileHandle | uuid | type | classInstance | function | cycle
  | raisedException | excData | unicodeErrorData | jsonErrorData | codeLoc | stackFrame
  | resourceLimits | extFunctionResult | futureResult | namedValue
  | parentRequest | configure | feed | abortFeed | resumeCall | resumeNameLookup | resumeFutures
  | dump | load | reset | shutdown | installDependencies
  | childEvent | printSegment | print | functionCall | osCall | osCallTextWrite
  | osCallBytesWrite | osCallOpen | osCallMkdir | osCallRename | osCallGetenv | osCallDateTimeNow
  | nameLookup | resolveFutures | complete | error | typingError | dumpResult | ok | fatalError
  | shutdownDump
  deriving DecidableEq

def fieldTable : MessageType → List ℕ
  | .unit | .dump | .reset | .shutdown | .ok => []
  | .montyObject =>
    [1, 2, 3, 4, 5, 6, 7, 8, 9, 10, 11, 12, 13, 14, 15, 16, 17, 18, 19, 20, 21, 22, 23, 24, 25,
      26, 27, 28, 29, 30]
  | .objectList | .dict | .uuid | .abortFeed | .resumeFutures | .load | .installDependencies
  | .osCallDateTimeNow | .resolveFutures | .complete | .error | .typingError | .dumpResult
  | .fatalError | .shutdownDump => [1]
  | .pair | .bigInt | .timeZone | .exception | .function | .cycle | .excData | .codeLoc
  | .futureResult | .namedValue | .resumeCall | .printSegment | .osCallTextWrite
  | .osCallBytesWrite | .osCallOpen | .osCallRename | .osCallGetenv | .nameLookup => [1, 2]
  | .namedTuple | .date | .timeDelta | .fileHandle | .classInstance | .resumeNameLookup
  | .osCallMkdir => [1, 2, 3]
  | .raisedException | .feed => [1, 2, 3, 4]
  | .type | .jsonErrorData | .resourceLimits | .extFunctionResult => [1, 2, 3, 4, 5]
  | .unicodeErrorData | .functionCall => [1, 2, 3, 4, 5, 6]
  | .time | .stackFrame => [1, 2, 3, 4, 5, 6, 7]
  | .dateTime => [1, 2, 3, 4, 5, 6, 7, 8, 9]
  | .configure => [1, 2, 3, 4, 5, 6, 7, 8, 9, 10]
  | .parentRequest => [1, 2, 3, 4, 5, 6, 7, 8, 9, 10, 11, 20]
  | .childEvent => [1, 2, 3, 4, 5, 6, 7, 8, 9, 10, 11, 12, 20, 21, 22, 23]
  | .print => [3]
  | .osCall =>
    [1, 2, 3, 4, 5, 6, 7, 8, 9, 10, 11, 12, 13, 14, 15, 16, 17, 18, 19, 20, 21, 22, 23, 24]

/-- The fields that hold messages, with the messages they hold. -/
def messageTable : MessageType → List (ℕ × MessageType)
  | .montyObject =>
    [(1, .unit), (2, .unit), (3, .unit), (6, .bigInt), (10, .uuid), (11, .objectList),
      (12, .objectList), (13, .namedTuple), (14, .dict), (15, .objectList), (16, .objectList),
      (17, .date), (18, .time), (19, .dateTime), (20, .timeDelta), (21, .timeZone),
      (22, .exception), (23, .type), (24, .classInstance), (25, .function), (28, .fileHandle),
      (30, .cycle)]
  | .objectList => [(1, .montyObject)]
  | .pair => [(1, .montyObject), (2, .montyObject)]
  | .dict => [(1, .pair)]
  | .namedTuple => [(3, .montyObject)]
  | .type => [(2, .uuid), (5, .dict)]
  | .classInstance => [(1, .type), (2, .uuid), (3, .dict)]
  | .raisedException => [(3, .stackFrame), (4, .excData)]
  | .excData => [(1, .unicodeErrorData), (2, .jsonErrorData)]
  | .stackFrame => [(2, .codeLoc), (3, .codeLoc)]
  | .extFunctionResult => [(1, .montyObject), (2, .raisedException), (5, .unit)]
  | .futureResult => [(2, .extFunctionResult)]
  | .namedValue => [(2, .montyObject)]
  | .parentRequest =>
    [(1, .configure), (2, .installDependencies), (3, .feed), (4, .resumeCall),
      (5, .resumeNameLookup), (6, .resumeFutures), (7, .dump), (8, .load), (9, .reset),
      (10, .shutdown), (11, .abortFeed)]
  | .configure => [(2, .resourceLimits)]
  | .feed => [(2, .namedValue)]
  | .abortFeed => [(1, .raisedException)]
  | .resumeCall => [(2, .extFunctionResult)]
  | .resumeNameLookup => [(1, .montyObject), (2, .unit), (3, .raisedException)]
  | .resumeFutures => [(1, .futureResult)]
  | .childEvent =>
    [(1, .print), (2, .functionCall), (3, .osCall), (4, .nameLookup), (5, .resolveFutures),
      (6, .complete), (7, .error), (8, .typingError), (9, .dumpResult), (10, .ok),
      (11, .fatalError), (12, .shutdownDump)]
  | .print => [(3, .printSegment)]
  | .functionCall => [(2, .montyObject), (3, .pair), (5, .uuid)]
  | .osCall =>
    [(14, .osCallTextWrite), (15, .osCallTextWrite), (16, .osCallBytesWrite),
      (17, .osCallBytesWrite), (18, .osCallOpen), (19, .osCallMkdir), (20, .osCallRename),
      (21, .osCallGetenv), (22, .unit), (23, .unit), (24, .osCallDateTimeNow)]
  | .osCallGetenv => [(2, .montyObject)]
  | .osCallDateTimeNow => [(1, .timeZone)]
  | .nameLookup => [(2, .uuid)]
  | .complete => [(1, .montyObject)]
  | .error => [(1, .raisedException)]
  | _ => []

/-- The message that a field holds, if it holds one. -/
def subMessage (t : MessageType) (num : ℕ) : Option MessageType := (messageTable t).lookup num

theorem mem_messageTable {t t' : MessageType} {num : ℕ} (h : subMessage t num = some t') :
    (num, t') ∈ messageTable t := by
  obtain ⟨before, after, htab, -⟩ := List.lookup_eq_some_iff.mp h
  rw [htab]
  simp

/-- The schema of the protocol. -/
def schema : Schema MessageType where
  fields := fieldTable
  message := subMessage

end Montygo.Wire
