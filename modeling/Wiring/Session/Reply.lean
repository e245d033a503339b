import Wiring.Fault

/-!
# Replies

What an operation answers with, an `Answer`, as a tree ready to be shown: a `Reply`.
-/

namespace Wiring.Session

/-- A reply, or a part of one. -/
inductive Reply where
  | nothing
  | flag (value : Bool)
  | number (value : Int)
  | text (text : String)
  | items (items : List Reply)
  | fields (fields : List (String × Reply))

namespace Reply

instance : Inhabited Reply := ⟨.nothing⟩

/-- A fault is shown by its category and its cause in words, `Fault.message`. -/
def ofFault (fault : Fault) : Reply :=
  .fields [("error", .text fault.kind.name), ("message", .text fault.message)]

def ofOption : Option String → Reply
  | none => .nothing
  | some content => .text content

def ofKeys (keys : List Key) : Reply :=
  .items (keys.map fun key => .text key.display)

end Reply

/-- The answer to an operation: what it shows, or the fault it came to. -/
abbrev Answer := Except Fault Reply

namespace Answer

/-- The fields of an answer. -/
def fields : Answer → List (String × Reply)
  | .ok reply => [("ok", reply)]
  | .error fault => [("error", .text fault.kind.name), ("message", .text fault.message)]

def reply (answer : Answer) : Reply :=
  .fields answer.fields

/-- The answer of an operation that either works or fails. -/
def ofUnit : Except Fault Unit → Answer
  | .ok _ => .ok .nothing
  | .error fault => .error fault

end Answer

end Wiring.Session
