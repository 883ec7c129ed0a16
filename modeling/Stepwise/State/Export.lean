import Stepwise.State
/-!
States as JSON documents. Values that JSON does not have are tagged objects; nan and the infinities
are strings.
-/

namespace Stepwise

namespace Value

def toExport : Value → Json
  | undefined => .record [("__undefined__", .boolean true)]
  | null => .null
  | boolean b => .boolean b
  | number n =>
    match n with
    | .int i => .number (.int i)
    | .float x => if x.isFinite then .number (.float x) else .string x.toText
  | string t => .string t
  | function f =>
    .record [("__function__", .ofString f.name), ("params", .array (f.params.map Json.ofString)),
      ("line", .ofInt f.line)]
  | object address => .record [("__ref__", .string address.toText)]
  | promise address => .record [("__promise__", .string address.toText)]

end Value

namespace Json

def values (vs : List Value) : Json := array (vs.map Value.toExport)

def bindings (d : Dict String Value) : Json :=
  object (d.entries.map fun e => (Text.ofString e.1, e.2.toExport))

def optionalNat : Option Nat → Json
  | some n => ofInt n
  | none => null

end Json

namespace Frame

def toJson (f : Frame) : Json :=
  .record [("id", .ofInt f.id), ("function_name", .ofString f.name), ("line", .ofInt f.line),
    ("arguments", .values f.arguments), ("local_variables", .bindings f.locals),
    ("scope_id", .optionalNat f.scope)]

end Frame

namespace Scope

def toJson (s : Scope) : Json :=
  .record [("id", .ofInt s.id), ("type", .ofString s.kind.name), ("name", .ofString s.name),
    ("variables", .bindings s.bindings), ("parent_id", .optionalNat s.parent)]

end Scope

namespace Cell

/-- An array shows its elements, an object its fields. -/
def toJson (address : Address) (c : Cell) : Json :=
  .record [("id", .string address.toText), ("type", .ofString (if c.isArray then "Array" else "Object")),
    ("references", .ofInt c.references),
    ("value", if c.isArray then .values c.elements
      else .object (c.fields.entries.map fun e => (e.1, e.2.toExport)))]

end Cell

namespace Promise

def toJson (address : Address) (p : Promise) : Json :=
  .record [("id", .string address.toText),
    ("state", .ofString (if p.value?.isSome then "fulfilled" else "pending")),
    ("value", (p.value?.getD .undefined).toExport), ("reactions", .ofInt p.reactions.length)]

end Promise

namespace Task

def toJson (t : Task) : Json :=
  .record [("id", .ofInt t.id), ("type", .ofString t.kind.name), ("description", .string t.description),
    ("created_at", .ofInt t.order), ("line", .ofInt t.line)]

end Task

namespace EventLoop

def toJson (l : EventLoop) : Json :=
  .record [("microtask_queue", .array (l.microtasks.map Task.toJson)),
    ("callback_queue", .array (l.macrotasks.map Task.toJson)),
    ("currently_executing", (l.current.map Task.toJson).getD .null)]

end EventLoop

namespace VariableRecord

def toJson (v : VariableRecord) : Json :=
  .record [("name", .ofString v.name), ("value", v.value.toExport),
    ("type", .ofString v.value.typeOf.toString), ("scope_id", .ofInt v.scope),
    ("is_const", .boolean v.isConstant), ("is_let", .boolean v.isBlockScoped)]

end VariableRecord

namespace Message

/-- The members of a message; there is no clock, and the time of each is zero. -/
def toJson (m : Message) : Json :=
  .record [("id", .ofInt m.id), ("type", .ofString m.level.name), ("content", .values m.content),
    ("timestamp", .number (.float (.zero false)))]

end Message

namespace State

/-- The parts of a state, in the order in which they are written. -/
def members (s : State) : List (String × Json) :=
  [("execution_step", .ofInt s.step),
   ("call_stack", .array (s.frames.reverse.map Frame.toJson)),
   ("scope_chain", .array (s.openScopes.map Scope.toJson)),
   ("memory_heap", .array (s.heap.entries.map fun e => e.2.toJson e.1)),
   ("promises", .array (s.promises.entries.map fun e => e.2.toJson e.1)),
   ("closures", .object (s.capturedScopes.map fun scope => (Text.ofNat scope.id, scope.toJson))),
   ("variables", .array (s.declared.map VariableRecord.toJson)),
   ("event_loop", s.loop.toJson),
   ("console_output", .array (s.console.map Message.toJson))]

def toJson (s : State) : Json := .record s.members

end State

end Stepwise
