import CdcConnector.Event
import CdcConnector.Fallible

/-!
# Sinks

The consumer is generic in its sink. A handler gives the new sink and ends
with success, with a returned error or with a panic.
-/

set_option autoImplicit false

namespace CDC.SinkModel
open CDC.Fallible CDC.Event

inductive SinkError where
  | unknownRelation (oid : Oid)
  | platform (text : String)
  | toastedInKeyOnly
  deriving DecidableEq, Repr

abbrev Answer := Outcome SinkError Unit

class KafkaSink (S : Type) where
  onEvent : ChangeEvent → S → S × Answer
  onRelation : Relation → S → S × Answer

end CDC.SinkModel
