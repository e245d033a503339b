import Wiring.Session.Memory

/-!
# Making and showing values

Values are made from literals (`build`), copied, wrapped, rendered as one text (`render`), and shown
with labels that tell which objects are the same (`display`). Each follows the `Kind` of the value,
which says how deep it goes.
-/

namespace Wiring.Session

namespace Script

/-- What an object holds, by `Action.read`. -/
def contentOf (object : Ref) : Script (Content Datum) := do
  let content ← Code.act (.read object)
  pure (content.getD (.plain default))

/-- A new object. -/
def allocate (content : Content Datum) : Script Ref :=
  Code.act (.allocate content)

/-- A new object that holds what another holds; the elements of a list or map are shared. -/
def copy (object : Ref) : Script Ref := do
  allocate (← contentOf object)

/-- A script for each item, in turn. -/
def forEach {α β : Type} (f : α → Script β) : List α → Script (List β)
  | [] => pure []
  | a :: rest => do
    let b ← f a
    let bs ← forEach f rest
    pure (b :: bs)

/-- A script for each item, in turn as in `forEach`, up to the first fault. -/
def forEachTry {α β : Type} (f : α → Script (Except Fault β)) :
    List α → Script (Except Fault (List β))
  | [] => pure (.ok [])
  | a :: rest => do
    match ← f a with
    | .error fault => pure (.error fault)
    | .ok b =>
      match ← forEachTry f rest with
      | .error fault => pure (.error fault)
      | .ok bs => pure (.ok (b :: bs))

/-- The object that a literal of a kind stands for: the one in a slot, else a new one. -/
def build : Kind → Literal → Script Ref
  | _, .stored slot => do
    let memory ← memory
    pure ((memory.values.get? slot).getD default)
  | .text, .text text => allocate (.plain (.text text))
  | .integer, .integer value => allocate (.plain (.integer value))
  | .service, .text name => allocate (.plain (.service { name }))
  | .plugin, .text name => allocate (.plain (.service { name }))
  | .list element, .items items => do
    let objects ← forEach (build element) items
    allocate (.list objects)
  | .map element, .fields fields => do
    let rows ← forEach (fun (name, item) => do pure (name, ← build element item)) fields
    allocate (.map (.ofList rows))
  | _, _ => allocate (.plain default)

/-- What a new copy of the object of a literal is to hold. -/
def buildContent (kind : Kind) (literal : Literal) : Script (Content Datum) := do
  contentOf (← build kind literal)

/-- A value as one text, the elements of a list or map by `render` too. -/
def render : Kind → Ref → Script String
  | kind, object => do
    match kind, ← contentOf object with
    | _, .plain (.text text) => pure text
    | _, .plain (.integer value) => pure (toString value.toInt)
    | _, .plain (.service service) => pure (service.name ++ "[" ++ service.slot.getD "?" ++ "]")
    | .list element, .list objects => do
      let parts ← forEach (render element) objects
      pure ("[" ++ String.intercalate "," parts ++ "]")
    | .map element, .map entries => do
      let parts ← forEach (fun (name, object) => do pure (name ++ "=" ++ (← render element object)))
        entries.rows
      pure ("\x7b" ++ String.intercalate "," parts ++ "\x7d")
    | _, _ => pure ""

/-- A new object with the value put between two texts, or moved on by their lengths. -/
def wrap (before after : String) : Kind → Ref → Script Ref
  | kind, object => do
    match kind, ← contentOf object with
    | _, .plain (.text text) => allocate (.plain (.text (before ++ text ++ after)))
    | _, .plain (.integer value) =>
      -- the sum wraps round at 64 bits
      allocate (.plain (.integer
        (value + Int64.ofNat before.length + Int64.ofNat after.length)))
    | _, .plain (.service service) =>
      allocate (.plain (.service { service with name := before ++ service.name ++ after }))
    | .list element, .list objects => do
      let wrapped ← forEach (wrap before after element) objects
      allocate (.list wrapped)
    | .map element, .map entries => do
      let wrapped ← forEach
        (fun (name, object) => do pure (name, ← wrap before after element object)) entries.rows
      allocate (.map (.ofList wrapped))
    | _, content => allocate content

/-- The label of an object: its place among the objects shown so far, in `Memory.shown`. -/
def label (object : Ref) : Script Nat := do
  let memory ← memory
  match memory.shown.idxOf? object with
  | some index => pure index
  | none =>
    Code.act (.remember { memory with shown := memory.shown.push object })
    pure memory.shown.size

/-- A value with its `label`; the value is labelled before its elements. -/
def display : Kind → Ref → Script Reply
  | kind, object => do
    -- the label comes first, so a list or map is numbered before what it holds
    let id ← label object
    let value : Reply ← match kind, ← contentOf object with
      | _, .plain (.text text) => pure (.text text)
      | _, .plain (.integer value) => pure (.number value.toInt)
      | _, .plain (.service service) =>
        pure (.fields
          [("name", .text service.name), ("slot", Reply.ofOption service.slot),
            ("notes", .items (service.notes.map .text))])
      | .list element, .list objects => do
        let parts ← forEach (display element) objects
        pure (.items parts)
      | .map element, .map entries => do
        let parts ← forEach
          (fun (name, object) => do pure (.items [.text name, ← display element object]))
          entries.rows
        pure (.items parts)
      | _, _ => pure .nothing
    pure (.fields [("id", .number id), ("v", value)])

/-- Shows a value that a provider gave by `display`, and stores it if there is a slot for it. -/
def present (kind : Kind) (slot : Option String) (object : Ref) : Script Answer := do
  storeValue slot object
  pure (.ok (← display kind object))

end Script

end Wiring.Session
