import Wiring.Linearize
import Wiring.Session.Play

/-!
# Questions outside a session

How nodes are ordered by `linearize`, how keys compare and are shown, how a `Fault` is put into
words, and what a `Scope` is called.
-/

namespace Wiring.Session

/-- Numbers in a row. -/
def numbers (items : List Nat) : Reply :=
  .items (items.map fun (item : Nat) => .number item)

/-- The order of nodes by `linearize`, or a cycle among them. -/
def orderReply (count : Nat) (edges : List Linearize.Edge) : Reply :=
  match linearize count edges with
  | .ok order => .fields [("order", numbers order)]
  | .error cycle => .fields [("cycle", numbers cycle)]

/-- The sign of a comparison. -/
def sign : Ordering → String
  | .lt => "<"
  | .eq => "="
  | .gt => ">"

/-- What keys look like, how `Key.compare` compares them with each other, and which of them are the
same. -/
def keysReply (names : List Name) : Reply :=
  let keys := names.map (·.key)
  let texts := fun texts : List String => Reply.items (texts.map .text)
  let qualifier := fun key : Key => Reply.ofOption (key.qualifier.map (·.display))
  let distinct := Key.sortOn id keys.eraseDups
  let typed := keys.map fun key =>
    let plain : Key := ⟨key.type, none⟩
    Reply.items
      [.text key.display, .text key.describe, .text key.type.name, qualifier key,
        .flag (key = plain), .number [key, plain].eraseDups.length]
  .fields
    [("display", texts (keys.map (·.display))),
      ("debug", texts (keys.map (·.describe))),
      ("type_name", texts (keys.map (·.type.name))),
      ("qualifier", .items (keys.map qualifier)),
      ("cmp", texts (keys.map fun a => String.join (keys.map fun b => sign (compare a b)))),
      ("sorted", .items ((Key.sortOn (·.1) keys.zipIdx).map fun item => .number item.2)),
      ("set", texts (distinct.map (·.display))),
      ("distinct", .number distinct.length),
      ("typed", .items typed)]

/-- A fault by its category, its cause in words, and both, as `Fault.display` has them. -/
def faultReply (fault : Fault) : Reply :=
  .fields
    [("made", .fields
      [("error", .text fault.kind.name), ("message", .text fault.message),
        ("display", .text fault.display)])]

/-- What a scope is called, and whether it keeps values. -/
def scopeReply (scope : Scope) : Reply :=
  .fields
    [("display", .text scope.display), ("debug", .text scope.describe),
      ("singleton", .flag scope.isSingleton)]

end Wiring.Session
